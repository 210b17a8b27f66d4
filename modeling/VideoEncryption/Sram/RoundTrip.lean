import VideoEncryption.Sram.Mask
import VideoEncryption.Sram.Quadrants

/-!
# Encryption and decryption of the frame in the SRAM

The phases put together. `encryption_leadsTo` and `decryption_leadsTo` say that a chain of phases,
once requested in `DISPLAY`, ends in `HIATUS` and refines the cipher on frames; between two chains,
in `HIATUS` and `DISPLAY`, the frame stays as it is (`Resting.tick`). Together they give
`decryption_undoes_encryption`.
-/

namespace VideoEncryption
namespace Sram

open Clocked

variable {key : BitVec 80} {s : System} {i : Inputs} {F : Frame}

/-! ### The shifting phases fit the frame -/

theorem encryptHor_fits : encryptHor.Fits 60 rowLayout where
  lines := rfl
  line_lt := by decide
  eight_lt := by decide
  pos_lt := by decide
  blocks := rfl
  last := rfl
  tail := rfl
  -- the address of the source at line `l` and position `q`
  address := by
    intro l q
    rw [pixelAddr, BitVec.ofNat_add, BitVec.ofNat_mul]
    rfl
  -- and the one eight positions further on
  ahead := by
    intro l q q' h
    rw [pixelAddr]
    show _ = BitVec.ofNat 20 (640 * (l : ℕ) + (q' : ℕ))
    rw [h, ← Nat.add_assoc, BitVec.ofNat_add, BitVec.ofNat_add, BitVec.ofNat_mul]
    rfl

theorem encryptVer_fits : encryptVer.Fits 80 columnLayout where
  lines := rfl
  line_lt := by decide
  eight_lt := by decide
  pos_lt := by decide
  blocks := rfl
  last := rfl
  tail := rfl
  address := by
    intro l q
    rw [pixelAddr, BitVec.ofNat_add, BitVec.ofNat_mul]
    rfl
  ahead := by
    intro l q q' h
    show (640 * BitVec.ofNat 20 q + BitVec.ofNat 20 l + 8 * 640 : BitVec 20)
      = BitVec.ofNat 20 (640 * (q' : ℕ) + (l : ℕ))
    apply BitVec.eq_of_toNat_eq
    simp only [BitVec.toNat_add, BitVec.toNat_mul, BitVec.toNat_ofNat, BitVec.ofNat_eq_ofNat, h]
    omega

theorem decryptVer_fits : decryptVer.Fits 80 columnLayout.reversed where
  lines := rfl
  line_lt := by decide
  eight_lt := by decide
  pos_lt := by decide
  blocks := rfl
  last := rfl
  tail := rfl
  -- the source goes up the column, from row 479
  address := by
    intro l q
    have hval : pixelAddr (columnLayout.reversed (l, q))
        = BitVec.ofNat 20 (640 * (480 - (q + 1)) + l) := rfl
    rw [hval]
    show (640 * (479 - BitVec.ofNat 20 q) + BitVec.ofNat 20 l : BitVec 20) = _
    apply BitVec.eq_of_toNat_eq
    simp only [BitVec.toNat_add, BitVec.toNat_sub, BitVec.toNat_mul, BitVec.toNat_ofNat,
      BitVec.ofNat_eq_ofNat]
    omega
  ahead := by
    intro l q q' h
    have hval : pixelAddr (columnLayout.reversed (l, q'))
        = BitVec.ofNat 20 (640 * (480 - (q' + 1)) + l) := rfl
    rw [hval]
    show (640 * (479 - BitVec.ofNat 20 q - 8) + BitVec.ofNat 20 l : BitVec 20) = _
    apply BitVec.eq_of_toNat_eq
    simp only [BitVec.toNat_add, BitVec.toNat_sub, BitVec.toNat_mul, BitVec.toNat_ofNat,
      BitVec.ofNat_eq_ofNat, h]
    omega

theorem decryptHor_fits : decryptHor.Fits 60 rowLayout.reversed where
  lines := rfl
  line_lt := by decide
  eight_lt := by decide
  pos_lt := by decide
  blocks := rfl
  last := rfl
  tail := rfl
  -- the source goes from the end of the row to its start
  address := by
    intro l q
    have hval : pixelAddr (rowLayout.reversed (l, q))
        = BitVec.ofNat 20 (640 * l + (640 - (q + 1))) := rfl
    rw [hval]
    show (640 * (BitVec.ofNat 20 l + 1) - 1 - BitVec.ofNat 20 q : BitVec 20) = _
    apply BitVec.eq_of_toNat_eq
    simp only [BitVec.toNat_add, BitVec.toNat_sub, BitVec.toNat_mul, BitVec.toNat_ofNat,
      BitVec.ofNat_eq_ofNat]
    omega
  ahead := by
    intro l q q' h
    have hval : pixelAddr (rowLayout.reversed (l, q'))
        = BitVec.ofNat 20 (640 * l + (640 - (q' + 1))) := rfl
    rw [hval]
    show (640 * (BitVec.ofNat 20 l + 1) - 1 - BitVec.ofNat 20 q - 8 : BitVec 20) = _
    apply BitVec.eq_of_toNat_eq
    simp only [BitVec.toNat_add, BitVec.toNat_sub, BitVec.toNat_mul, BitVec.toNat_ofNat,
      BitVec.ofNat_eq_ofNat, h]
    omega

/-! ### What the states drive -/

section Drives

variable (key)

theorem Drives.of_state {st : Fsm} {f : BitVec 80 → BitVec 16 → Regs → Regs} {exit : Regs → Fsm}
    (hregs : ∀ (s : System) i, s.state = st → s.dataPath i = f (s.key i) (s.dq i) s.regs)
    (hstate : ∀ (s : System) i, s.state = st → s.nextState i = exit s.regs) :
    Drives key st (f key) exit where
  regs := by
    rintro s i hs ⟨-, rfl⟩
    exact hregs s i hs
  state := by
    rintro s i hs ⟨hreset, -⟩
    rw [System.tick, hreset, ← hstate s i hs]
    rfl

theorem encryptHor_drives : encryptHor.Drives key .encryptHor .encryptInterval :=
  .of_state (f := fun key dq r => r.shiftTick encryptHor key dq) key
    (fun s i hs => by rw [System.dataPath, hs]) fun s i hs => by rw [System.nextState, hs]; rfl

theorem encryptVer_drives : encryptVer.Drives key .encryptVer .encryptVerInterval :=
  .of_state (f := fun key dq r => r.shiftTick encryptVer key dq) key
    (fun s i hs => by rw [System.dataPath, hs]) fun s i hs => by rw [System.nextState, hs]; rfl

theorem decryptVer_drives : decryptVer.Drives key .decryptVer .decryptInterval :=
  .of_state (f := fun key dq r => r.shiftTick decryptVer key dq) key
    (fun s i hs => by rw [System.dataPath, hs]) fun s i hs => by rw [System.nextState, hs]; rfl

theorem decryptHor_drives : decryptHor.Drives key .decryptHor .hiatus :=
  .of_state (f := fun key dq r => r.shiftTick decryptHor key dq) key
    (fun s i hs => by rw [System.dataPath, hs]) fun s i hs => by rw [System.nextState, hs]; rfl

theorem encryptMix_drives : DrivesMix key .encryptMix .encryptMixInterval :=
  .of_state (f := fun key dq r => r.mixTick key dq) key
    (fun s i hs => by rw [System.dataPath, hs]) fun s i hs => by rw [System.nextState, hs]

theorem decryptMix_drives : DrivesMix key .decryptMix .decryptVerInterval :=
  .of_state (f := fun key dq r => r.mixTick key dq) key
    (fun s i hs => by rw [System.dataPath, hs]) fun s i hs => by rw [System.nextState, hs]

theorem encryptXor_drives : DrivesXor key .encryptXor .hiatus :=
  .of_state (f := fun key dq r => r.xorTick key dq) key
    (fun s i hs => by rw [System.dataPath, hs]) fun s i hs => by rw [System.nextState, hs]

theorem decryptXor_drives : DrivesXor key .decryptXor .decryptHorInterval :=
  .of_state (f := fun key dq r => r.xorTick key dq) key
    (fun s i hs => by rw [System.dataPath, hs]) fun s i hs => by rw [System.nextState, hs]

/-- The intervals, and the phase that each of them clears the counters for. -/
def afterInterval : Fsm → Option Fsm
  | .encryptInterval => some .encryptVer
  | .encryptVerInterval => some .encryptMix
  | .encryptMixInterval => some .encryptXor
  | .decryptHorInterval => some .decryptMix
  | .decryptVerInterval => some .decryptVer
  | .decryptInterval => some .decryptHor
  | _ => none

theorem interval_drives {st nxt : Fsm} (h : afterInterval st = some nxt) :
    Drives key st (fun _ r => r.interval) fun _ => nxt := by
  cases st <;> cases h <;>
    exact .of_state (f := fun _ _ r => r.interval) key
      (fun s i hs => by rw [System.dataPath, hs]) fun s i hs => by rw [System.nextState, hs]

end Drives

/-! ### The two chains -/

/-- The states of the encryption chain. -/
def encryptChain : List Fsm :=
  [.encryptHor, .encryptInterval, .encryptVer, .encryptVerInterval, .encryptMix,
    .encryptMixInterval, .encryptXor]

/-- The states of the decryption chain. -/
def decryptChain : List Fsm :=
  [.decryptXor, .decryptHorInterval, .decryptMix, .decryptVerInterval, .decryptVer,
    .decryptInterval, .decryptHor]

/-- The switches and the button that start the encryption. -/
def EncryptRequest (i : Inputs) : Prop := i.run = true ∧ i.sw1 = true ∧ i.sw2 = false

/-- The switches and the button that start the decryption. -/
def DecryptRequest (i : Inputs) : Prop := i.run = true ∧ i.sw1 = false ∧ i.sw2 = true

theorem EncryptRequest.nextState {s : System} {i : Inputs} (hi : EncryptRequest i)
    (hs : s.state = .display) : s.nextState i = .encryptHor := by
  obtain ⟨hrun, h1, h2⟩ := hi
  simp [System.nextState, hs, hrun, h1, h2]

theorem DecryptRequest.nextState {s : System} {i : Inputs} (hi : DecryptRequest i)
    (hs : s.state = .display) : s.nextState i = .decryptXor := by
  obtain ⟨hrun, h1, h2⟩ := hi
  simp [System.nextState, hs, hrun, h1, h2]

/-- The machine is in a state of the chain. -/
def InChain (chain : List Fsm) (s : System) : Prop := s.state ∈ chain

theorem inChain_of_mem {chain : List Fsm} {st : Fsm} (h : st ∈ chain) (s : System)
    (hs : s.state = st) : InChain chain s := by
  rw [InChain, hs]
  exact h

/-- **The encryption chain** refines the cipher. -/
theorem encryption_leadsTo (key : BitVec 80) (F : Frame) :
    LeadsTo System.tick (Held key) (InChain encryptChain) (Entered .encryptHor F)
      (Left .hiatus (encrypt key F)) := by
  have hW : ∀ st ∈ encryptChain, ∀ s : System, s.state = st → InChain encryptChain s :=
    fun st h => inChain_of_mem h
  -- the cipher is the four phases in their order
  have hcipher : mask key (((F ∘ shiftPerm key 60 rowLayout) ∘ shiftPerm key 80 columnLayout)
      ∘ mixPerm key) = encrypt key F := by
    rw [encrypt]
  -- each phase with the interval after it; the last one leads to `HIATUS` by itself
  have hhor := (shift_leadsTo encryptHor_fits (encryptHor_drives key) (hW _ (by decide)) F).trans
    (interval_leadsTo (interval_drives key rfl) (hW _ (by decide)) _)
  have hver := hhor.trans ((shift_leadsTo encryptVer_fits (encryptVer_drives key)
    (hW _ (by decide)) _).trans
    (interval_leadsTo (interval_drives key rfl) (hW _ (by decide)) _))
  have hmix := hver.trans ((mix_leadsTo (encryptMix_drives key) (hW _ (by decide)) _).trans
    (interval_leadsTo (interval_drives key rfl) (hW _ (by decide)) _))
  rw [← hcipher]
  exact hmix.trans (xor_leadsTo (encryptXor_drives key) (hW _ (by decide)) _)

/-- **The decryption chain** refines the inverse of the cipher. -/
theorem decryption_leadsTo (key : BitVec 80) (F : Frame) :
    LeadsTo System.tick (Held key) (InChain decryptChain) (Entered .decryptXor F)
      (Left .hiatus (decrypt key F)) := by
  have hW : ∀ st ∈ decryptChain, ∀ s : System, s.state = st → InChain decryptChain s :=
    fun st h => inChain_of_mem h
  have hcipher : ((mask key F ∘ mixPerm key) ∘ shiftPerm key 80 columnLayout.reversed)
      ∘ shiftPerm key 60 rowLayout.reversed = decrypt key F := by
    rw [decrypt]
  -- the same phases in the reverse order
  have hxor := (xor_leadsTo (decryptXor_drives key) (hW _ (by decide)) F).trans
    (interval_leadsTo (interval_drives key rfl) (hW _ (by decide)) _)
  have hmix := hxor.trans ((mix_leadsTo (decryptMix_drives key) (hW _ (by decide)) _).trans
    (interval_leadsTo (interval_drives key rfl) (hW _ (by decide)) _))
  have hver := hmix.trans ((shift_leadsTo decryptVer_fits (decryptVer_drives key)
    (hW _ (by decide)) _).trans
    (interval_leadsTo (interval_drives key rfl) (hW _ (by decide)) _))
  rw [← hcipher]
  exact hver.trans (shift_leadsTo decryptHor_fits (decryptHor_drives key) (hW _ (by decide)) _)

/-! ### Between the chains -/

/-- In `HIATUS` or `DISPLAY` between two chains. -/
def Resting (F : Frame) (s : System) : Prop := Left .hiatus F s ∨ Entered .display F s

/-- A tick in `DISPLAY` keeps the frame and the cleared counters. -/
theorem Entered.display_tick {st : Fsm} (hs : Entered .display F s)
    (hst : (s.tick i).state = st) : Entered st F (s.tick i) := by
  have hdp : s.dataPath i = s.regs.display s.raster (s.dq i) := by
    rw [System.dataPath, hs.state]
  have hframe : (s.tick i).frame = s.frame := view_tick_of_weN (by rw [hdp]; rfl)
  refine ⟨hst, ?_, ?_, ?_, ?_, hframe.trans hs.frame⟩ <;> rw [tick_regs, hdp]
  · exact hs.rev
  · exact hs.block
  · exact hs.row
  · exact hs.column

/-- A tick in `HIATUS` keeps the frame and clears the counters. -/
theorem Left.hiatus_tick {st : Fsm} (hs : Left .hiatus F s) (hst : (s.tick i).state = st) :
    Entered st F (s.tick i) := by
  have hdp : s.dataPath i = s.regs.hiatus := by
    rw [System.dataPath, hs.state]
  have hframe : (s.tick i).frame = s.frame := by
    -- the pins are off, and what was still pending has been stored at the end of the tick before
    funext px
    show (s.dataPath i).pins.store s.stored _ = _
    rw [hdp]
    rfl
  refine ⟨hst, ?_, ?_, ?_, ?_, hframe.trans hs.frame⟩ <;> rw [tick_regs, hdp] <;> rfl

/-- A tick between the chains keeps the frame. -/
theorem Resting.tick (hs : Resting F s)
    (hst : (s.tick i).state = .hiatus ∨ (s.tick i).state = .display) : Resting F (s.tick i) := by
  rcases hst with hst | hst <;> rcases hs with hs | hs
  · exact .inl ⟨hst, (hs.hiatus_tick hst).frame⟩
  · exact .inl ⟨hst, (hs.display_tick hst).frame⟩
  · exact .inr (hs.hiatus_tick hst)
  · exact .inr (hs.display_tick hst)

/-- No subkey has changed since `s`, and none is being generated. -/
structure SameSubkeys (s s' : System) : Prop where
  state : s'.state ≠ .keyGen
  subkey : s'.regs.subkey = s.regs.subkey

theorem SameSubkeys.tick {s' : System} (hs : SameSubkeys s s')
    (hi : i.reset = false ∧ ¬ (i.sw1 = false ∧ i.sw2 = false)) : SameSubkeys s (s'.tick i) := by
  refine ⟨?_, (dataPath_subkey hs.state).trans hs.subkey⟩
  rw [System.tick, hi.1]
  exact nextState_ne_keyGen hs.state hi.2

/-- `KEY` stays while its switches stay and no subkeys are generated. -/
theorem held_stateAt {inp : ℕ → Inputs} (hs : s.state ≠ .keyGen)
    (hi : ∀ n, (inp n).reset = false ∧ ¬ ((inp n).sw1 = false ∧ (inp n).sw2 = false))
    (hsw : ∀ n, (inp n).sw14 = (inp 0).sw14 ∧ (inp n).sw15 = (inp 0).sw15 ∧
      (inp n).sw16 = (inp 0).sw16 ∧ (inp n).sw17 = (inp 0).sw17) (n : ℕ) :
    Held (s.key (inp 0)) (stateAt System.tick s inp n) (inp n) := by
  have hsame : SameSubkeys s (stateAt System.tick s inp n) :=
    stateAt_invariant (fun _ _ h hi => h.tick hi) ⟨hs, rfl⟩ hi n
  obtain ⟨h14, h15, h16, h17⟩ := hsw n
  refine ⟨(hi n).1, ?_⟩
  simp only [System.key, Regs.key, hsame.subkey, h14, h15, h16, h17]

/-- A chain that is requested in `DISPLAY` runs to `HIATUS`. -/
theorem run_from_display {st : Fsm} {W : System → Prop} {F F' : Frame} {inp : ℕ → Inputs}
    (hchain : LeadsTo System.tick (Held key) W (Entered st F) (Left .hiatus F'))
    (hs : Entered .display F s) (hheld : ∀ n, Held key (stateAt System.tick s inp n) (inp n))
    (hst : s.nextState (inp 0) = st) :
    ∃ n, 0 < n ∧ Left .hiatus F' (stateAt System.tick s inp n) ∧
      ∀ m, 0 < m → m < n → W (stateAt System.tick s inp m) := by
  have hreset : (inp 0).reset = false := (hheld 0).1
  -- the tick in `DISPLAY` that sees the request, and then the chain
  have hfirst : (s.tick (inp 0)).state = st := by
    rw [System.tick, hreset, ← hst]
    rfl
  obtain ⟨n, hleft, hbefore⟩ := hchain _ (hs.display_tick hfirst) (fun k => inp (k + 1)) (by
    intro k
    rw [← stateAt_succ']
    exact hheld (k + 1))
  refine ⟨n + 1, Nat.succ_pos n, ?_, fun m hm hmn => ?_⟩
  · rw [stateAt_succ']
    exact hleft
  · obtain ⟨k, rfl⟩ := Nat.exists_eq_add_of_lt hm
    rw [Nat.zero_add, stateAt_succ']
    exact hbefore k (by omega)

/-- The frame stays as it is from the end of one chain to the start of the next. -/
theorem resting_stateAt {inp : ℕ → Inputs} {n₁ n₂ : ℕ} (h₁ : n₁ ≤ n₂)
    (hs : Resting F (stateAt System.tick s inp n₁))
    (hrest : ∀ m, n₁ ≤ m → m ≤ n₂ → (stateAt System.tick s inp m).state = .hiatus ∨
      (stateAt System.tick s inp m).state = .display) :
    Resting F (stateAt System.tick s inp n₂) := by
  induction n₂, h₁ using Nat.le_induction with
  | base => exact hs
  | succ n hn ih =>
    exact (ih fun m hm hmn => hrest m hm (by omega)).tick (hrest (n + 1) (by omega) le_rfl)

/-- **Decryption undoes encryption.** From `DISPLAY` with cleared counters the encryption chain runs
to `HIATUS`; from there, after any stay in `HIATUS` and `DISPLAY`, the decryption chain runs to
`HIATUS` and leaves the frame that was there at first. -/
theorem decryption_undoes_encryption (key : BitVec 80) (s : System) (inp : ℕ → Inputs)
    (hheld : ∀ n, Held key (stateAt System.tick s inp n) (inp n))
    (hstart : Entered .display s.frame s) (hrequest : EncryptRequest (inp 0)) :
    ∃ n₁, (stateAt System.tick s inp n₁).state = .hiatus ∧
      (∀ m, 0 < m → m < n₁ → InChain encryptChain (stateAt System.tick s inp m)) ∧
      ∀ n₂, n₁ < n₂ →
        (∀ m, n₁ ≤ m → m ≤ n₂ → (stateAt System.tick s inp m).state = .hiatus ∨
          (stateAt System.tick s inp m).state = .display) →
        (stateAt System.tick s inp n₂).state = .display → DecryptRequest (inp n₂) →
        ∃ n₃, n₂ < n₃ ∧ (stateAt System.tick s inp n₃).state = .hiatus ∧
          (∀ m, n₂ < m → m < n₃ → InChain decryptChain (stateAt System.tick s inp m)) ∧
          (stateAt System.tick s inp n₃).frame = s.frame := by
  -- the first chain starts at edge 0, the second one at edge `n₂`
  have hencrypt : s.nextState (inp 0) = .encryptHor := hrequest.nextState hstart.state
  obtain ⟨n₁, -, hleft, hchain⟩ :=
    run_from_display (encryption_leadsTo key s.frame) hstart hheld hencrypt
  refine ⟨n₁, hleft.state, hchain, fun n₂ hn hrest hdisplay hrequest₂ => ?_⟩
  -- the encrypted frame is still there when the decryption is requested
  have hready : Entered .display (encrypt key s.frame) (stateAt System.tick s inp n₂) := by
    rcases resting_stateAt hn.le (.inl hleft) hrest with h | h
    · rw [h.state] at hdisplay
      cases hdisplay
    · exact h
  have hdecrypt : (stateAt System.tick s inp n₂).nextState (inp (n₂ + 0)) = .decryptXor :=
    hrequest₂.nextState hdisplay
  obtain ⟨n, hpos, hleft₂, hchain₂⟩ := run_from_display
    (decryption_leadsTo key _) hready (fun k => by
      rw [← stateAt_add]
      exact hheld (n₂ + k)) hdecrypt
  rw [← stateAt_add] at hleft₂
  -- an edge of the second run is an edge of the whole one
  refine ⟨n₂ + n, by omega, hleft₂.state, fun m hm hmn => ?_, ?_⟩
  · obtain ⟨k, rfl⟩ := Nat.exists_eq_add_of_le hm.le
    rw [stateAt_add]
    exact hchain₂ k (by omega) (by omega)
  · calc (stateAt System.tick s inp (n₂ + n)).frame
        = decrypt key (encrypt key s.frame) := hleft₂.frame
      _ = s.frame := decrypt_encrypt key s.frame

/-- A machine in `DISPLAY` with cleared counters, its own addresses in the SRAM. -/
def displaying : System where
  state := .display
  regs :=
    { rev := 0
      keyCounter := 7
      blockCounter := 0
      rowCounter := 0
      columnCounter := 0
      rowCounter2 := 0
      columnCounter2 := 0
      tempStorage := Vector.replicate 8 0
      tempStorage2 := 0
      tempStorage3 := 0
      subkey := Vector.replicate 8 0x1234_5678_9abc_def0_4321
      subkeyRun := false
      subkeyReset := false
      subkeyInput := 0
      pins := .off
      red := 0
      green := 0
      blue := 0 }
  camera := ⟨0, false, 0, .off⟩
  raster := ⟨0, 0⟩
  mem := fun a => a.setWidth 16

/-- `Run` held, `SW14` on; `SW1` and `SW2` ask for the encryption first and then, in turn, for
`DISPLAY` and for the decryption. -/
def inTurn (n : ℕ) : Inputs where
  reset := false
  run := true
  camVsync := false
  camHref := false
  camData := 0
  keyInput := 0
  sw1 := n == 0 || n % 2 == 1
  sw2 := n != 0
  sw14 := true
  sw15 := false
  sw16 := false
  sw17 := false
  subkeyDone := false
  subkeyOutput := 0
  floating := 0

/-- A state of `HIATUS` is left for `DISPLAY` at the next odd edge. -/
theorem hiatus_inTurn {n : ℕ} (h : (stateAt System.tick displaying inTurn n).state = .hiatus) :
    (stateAt System.tick displaying inTurn (n + 1)).state
      = if n % 2 = 1 then .display else .hiatus := by
  have hne : n % 2 = 1 → n ≠ 0 := by omega
  have hstep : (stateAt System.tick displaying inTurn (n + 1)).state
      = (stateAt System.tick displaying inTurn n).nextState (inTurn n) := rfl
  rw [hstep, System.nextState, h]
  by_cases hodd : n % 2 = 1
  · simp [inTurn, hodd, hne hodd]
  · simp [inTurn, hodd]

/-- `KEY` is the same at every edge. -/
theorem held_inTurn (n : ℕ) :
    Held (displaying.key (inTurn 0)) (stateAt System.tick displaying inTurn n) (inTurn n) := by
  refine held_stateAt (by decide) (fun n => ⟨rfl, fun h => ?_⟩) (fun _ => ⟨rfl, rfl, rfl, rfl⟩) n
  obtain ⟨h1, h2⟩ := h
  simp [inTurn] at h1 h2
  omega

/-- The first chain, one or two edges in `HIATUS`, one in `DISPLAY`, and the second chain. -/
theorem decryption_undoes_encryption_inTurn : ∃ n₁ n₂ n₃, n₁ < n₂ ∧ n₂ < n₃ ∧
    (stateAt System.tick displaying inTurn n₁).state = .hiatus ∧
    (stateAt System.tick displaying inTurn n₂).state = .display ∧
    (stateAt System.tick displaying inTurn n₃).state = .hiatus ∧
    (stateAt System.tick displaying inTurn n₃).frame = displaying.frame := by
  obtain ⟨n₁, h₁, -, hdecrypt⟩ :=
    decryption_undoes_encryption (displaying.key (inTurn 0)) displaying inTurn held_inTurn
      ⟨rfl, rfl, rfl, rfl, rfl, rfl⟩ ⟨rfl, rfl, rfl⟩
  have hpos : n₁ ≠ 0 := by
    rintro rfl
    cases h₁
  have hrequest : ∀ n, n ≠ 0 → n % 2 = 0 → DecryptRequest (inTurn n) := by
    intro n hn heven
    simp [DecryptRequest, inTurn, hn, heven]
  -- `HIATUS` is left at an odd edge, and a request needs an even one
  rcases Nat.mod_two_eq_zero_or_one n₁ with hpar | hpar
  · -- one more edge in `HIATUS`
    have hstay := hiatus_inTurn h₁
    rw [if_neg (by omega)] at hstay
    have hdisplay := hiatus_inTurn hstay
    rw [if_pos (by omega)] at hdisplay
    obtain ⟨n₃, hlt, h₃, -, hframe⟩ := hdecrypt (n₁ + 2) (by omega) (fun m hm hmn => by
      obtain rfl | rfl | rfl : m = n₁ ∨ m = n₁ + 1 ∨ m = n₁ + 2 := by omega
      · exact .inl h₁
      · exact .inl hstay
      · exact .inr hdisplay) hdisplay (hrequest _ (by omega) (by omega))
    exact ⟨n₁, n₁ + 2, n₃, by omega, hlt, h₁, hdisplay, h₃, hframe⟩
  · have hdisplay := hiatus_inTurn h₁
    rw [if_pos hpar] at hdisplay
    obtain ⟨n₃, hlt, h₃, -, hframe⟩ := hdecrypt (n₁ + 1) (by omega) (fun m hm hmn => by
      obtain rfl | rfl : m = n₁ ∨ m = n₁ + 1 := by omega
      · exact .inl h₁
      · exact .inr hdisplay) hdisplay (hrequest _ (by omega) (by omega))
    exact ⟨n₁, n₁ + 1, n₃, by omega, hlt, h₁, hdisplay, h₃, hframe⟩

end Sram
end VideoEncryption
