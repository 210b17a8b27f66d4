import VideoEncryption.Clocked.Word
import VideoEncryption.Key.Delivery

/-!
# The diagonal key

The receiver advances the slot counter by eight after a byte of the diagonal key, and the `case` of
its store code has the labels 0, 1 and 2: the second and the third byte are acknowledged and stored
nowhere.

* `storing_diagonal` — where the counter points when a byte of the diagonal key is stored;
* `Sending` — the invariant of the diagonal loop: the first byte is in its slot from its
  acknowledgement on, and the other two slots are as the loop found them;
* `diagonal_delivered_iff` — **when the key arrives all the same**.
-/

namespace VideoEncryption
namespace Key

open Clocked

variable {rounds : ℕ → Round} {k : Round} {d : Fin 3 → BitVec 8} {s : System}

/-- The code on the wire before a byte is sent stores nothing. -/
theorem quiet_codeBefore (p : Phase) (i : ℕ) : Quiet (p.codeBefore i) := by
  unfold Phase.codeBefore
  split
  · intro q
    cases p <;> cases q <;> decide
  · exact quiet_nextCode p

/-- With the store code of the diagonal key on the wire, byte `i` is on the port and the counter
points to slot `8 * i`. -/
theorem storing_diagonal (hs : Inv k s) (hsig : s.toHwSig = 8) :
    ∃ i < 3, (s.pc = .check .diagonal i ∨ s.pc = .putNext .diagonal i) ∧
      s.receiver.counter = BitVec.ofNat 5 (8 * i) ∧ s.toHwPort = k.diagonalKey i := by
  unfold Inv at hs
  cases hpc : s.pc <;> rw [hpc] at hs
  case check p i =>
    obtain ⟨hpt, hport, hcode, -⟩ := hs
    obtain rfl : p = .diagonal := Phase.storeCode_inj.mp (hcode.symm.trans hsig)
    exact ⟨i, hpt.lt_length, Or.inl rfl, hpt.counter, hport⟩
  case putNext p i =>
    obtain ⟨hpt, hport, ⟨hcode, -⟩, -⟩ := hs
    obtain rfl : p = .diagonal := Phase.storeCode_inj.mp (hcode.symm.trans hsig)
    exact ⟨i, hpt.lt_length, Or.inr rfl, hpt.counter, hport⟩
  -- at every other access another code is on the wire
  case initSig | initPort | topSig | topPort => simp [hs.1] at hsig
  case awaitSync c | writeSync c =>
    rcases hs.2 with ⟨hcode, -⟩ | ⟨hcode, -⟩
    · exact absurd (hcode.symm.trans hsig) (quiet_entry c .diagonal)
    · exact absurd (hcode.symm.trans hsig) (quiet_code c .diagonal)
  case putPort p i =>
    exact absurd (hs.2.1.symm.trans hsig) (quiet_codeBefore p i .diagonal)
  case putSig p i =>
    exact absurd (hs.2.1.1.symm.trans hsig) (quiet_codeBefore p i .diagonal)
  case poll p i =>
    obtain ⟨-, -, -, hcode, -⟩ := hs
    exact absurd (hcode.symm.trans hsig) (quiet_nextCode p .diagonal)
  case putCommand => exact absurd (hs.2.1.symm.trans hsig) (by decide)
  case putTen => exact absurd (hs.2.1.1.symm.trans hsig) (by decide)
  case pollTen => exact absurd (hs.2.1.symm.trans hsig) (by decide)
  case putZero => exact absurd (hs.2.2.1.1.symm.trans hsig) (by decide)

/-! ### The invariant of the loop -/

/-- The first byte of the diagonal key is in its slot. -/
def FirstStored (k : Round) (s : System) : Prop :=
  ∀ j : Fin 3, (j : ℕ) = 0 → s.receiver.diagonalShift j = k.diagonalKey j

/-- From the first byte's acknowledgement to the end of the loop it is in its slot. -/
def FirstStoredAt (k : Round) (s : System) : Pc → Prop
  | .putPort .diagonal i | .putSig .diagonal i => 0 < i → FirstStored k s
  | .check .diagonal i => 0 < i ∨ s.ticked = true → FirstStored k s
  | .putNext .diagonal _ | .poll .diagonal _ | .putCommand => FirstStored k s
  | _ => True

/-- In a spaced run past the program's first two accesses, with the second and the third slot as in
`d`. -/
structure Sending (k : Round) (d : Fin 3 → BitVec 8) (s : System) : Prop where
  started : Started k s
  initSig : s.pc ≠ .initSig
  initPort : s.pc ≠ .initPort
  kept : ∀ j ≠ 0, s.receiver.diagonalShift j = d j
  first : FirstStoredAt k s s.pc

theorem Sending.inv (hs : Sending k d s) : Inv k s :=
  (hs.started.inv.resolve_left hs.initSig).resolve_left hs.initPort

/-- A clock edge that does not store a byte of the diagonal key leaves its slots alone. -/
theorem diagonalShift_tick_of_ne (hsig : s.toHwSig ≠ 8) :
    s.tick.receiver.diagonalShift = s.receiver.diagonalShift := by
  rw [System.tick, Receiver.tick_diagonalShift, if_neg hsig]

/-- A clock edge that does stores it in the first slot or nowhere. -/
theorem diagonalShift_tick {i : ℕ} (hi : i < 3) (hsig : s.toHwSig = 8)
    (hc : s.receiver.counter = BitVec.ofNat 5 (8 * i)) (j : Fin 3) :
    s.tick.receiver.diagonalShift j
      = if i = 0 ∧ j = 0 then s.toHwPort else s.receiver.diagonalShift j := by
  have hcount : s.receiver.counter.toNat = 8 * i := by
    rw [hc, toNat_ofNat_of_lt (by omega)]
  rw [System.tick, Receiver.tick_diagonalShift, if_pos hsig, storeByte, hcount]
  -- of the slots 0, 8 and 16 only the first one exists
  have hslot : 8 * i = (j : ℕ) ↔ i = 0 ∧ j = 0 := by
    rw [Fin.ext_iff]
    have hj : (j : ℕ) < 3 := j.isLt
    simp only [Fin.val_zero]
    omega
  simp only [hslot]

theorem Sending.tick (hs : Sending k d s) : Sending k d s.tick := by
  refine ⟨hs.started.tick, hs.initSig, hs.initPort, fun j hj => ?_, ?_⟩
  -- the second and the third slot are never written
  · by_cases hsig : s.toHwSig = 8
    · obtain ⟨i, hi, -, hc, -⟩ := storing_diagonal hs.inv hsig
      rw [diagonalShift_tick hi hsig hc, if_neg fun h => hj h.2, hs.kept j hj]
    · rw [diagonalShift_tick_of_ne hsig, hs.kept j hj]
  · rw [show s.tick.pc = s.pc from rfl]
    by_cases hsig : s.toHwSig = 8
    · -- the first byte is stored now, or has been
      obtain ⟨i, hi, hpc, hc, hport⟩ := storing_diagonal hs.inv hsig
      have hfirst : FirstStored k s.tick := by
        intro j hj
        rw [diagonalShift_tick hi hsig hc]
        by_cases h0 : i = 0
        · rw [if_pos ⟨h0, Fin.ext hj⟩, hport, h0, ← hj]
        -- the second and the third byte go nowhere, and the first is there by then
        · rw [if_neg fun h => h0 h.1]
          have hf := hs.first
          rcases hpc with hpc | hpc <;> rw [hpc] at hf
          · exact hf (Or.inl (by omega)) j hj
          · exact hf j hj
      rcases hpc with hpc | hpc <;> rw [hpc]
      · exact fun _ => hfirst
      · exact hfirst
    · -- the slots stay, and a tick with another code on the wire is not one of the store code
      have hf := hs.first
      have hkeep : FirstStored k s → FirstStored k s.tick := by
        intro h
        unfold FirstStored
        rwa [diagonalShift_tick_of_ne hsig]
      cases hpc : s.pc <;> rw [hpc] at hf
      case putPort p i | putSig p i =>
        cases p
        case diagonal => exact fun hi => hkeep (hf hi)
        all_goals trivial
      case check p i =>
        cases p
        case diagonal =>
          have hinv := hs.inv
          rw [Inv, hpc] at hinv
          exact absurd hinv.2.2.1 hsig
        all_goals trivial
      case putNext p i | poll p i =>
        cases p
        case diagonal => exact hkeep hf
        all_goals trivial
      case putCommand => exact hkeep hf
      all_goals trivial

/-- An access does not touch the slots, and goes on in the loop with the first byte stored. -/
theorem FirstStoredAt.access (hf : FirstStoredAt (rounds s.round) s s.pc)
    (hsp : Spaced s .access) (hsig : s.pc ≠ .initSig) :
    FirstStoredAt (rounds (step rounds s .access).round) (step rounds s .access)
      (step rounds s .access).pc := by
  obtain ⟨pc, round, sig, port, h, ticked, stored⟩ := s
  cases pc
  case initSig | initPort | topSig | putZero | writeSync | putCommand | putTen => trivial
  case topPort =>
    by_cases hcmd : (rounds round).command = 'E' ∨ (rounds round).command = 'D'
    · rw [step_topPort_of_command hcmd]
      trivial
    · rw [step_topPort_of_not hcmd]
      trivial
  case awaitSync c =>
    change FirstStoredAt _ _ (if h.toSwSig ≠ c.code then .writeSync c else .putPort c.phase 0)
    split
    · trivial
    -- the diagonal loop starts with no byte stored
    · cases c
      case afterColumn => exact fun h0 => absurd h0 (Nat.lt_irrefl 0)
      all_goals trivial
  case putPort p i =>
    cases p
    case diagonal => exact hf
    all_goals trivial
  case putSig p i =>
    cases p
    -- the access itself is no clock edge
    case diagonal => exact fun hi => hf (hi.resolve_right Bool.false_ne_true)
    all_goals trivial
  case check p i =>
    change FirstStoredAt _ _ (if h.toSwSig = p.storeCode then .putNext p i else .poll p i)
    cases p
    case diagonal =>
      -- a clock edge has fallen since the store code was written
      have hfirst := hf (Or.inr ((hsp rfl).resolve_left (by simp)))
      split <;> exact hfirst
    all_goals split <;> trivial
  case putNext p i =>
    cases p
    case diagonal => exact hf
    all_goals trivial
  case poll p i =>
    change FirstStoredAt _ _ (if h.toSwSig ≠ p.nextCode then .poll p i
      else if i + 1 < p.length then .putPort p (i + 1) else p.after)
    cases p
    case diagonal =>
      -- the next byte, if there is one, finds the first one stored
      split_ifs
      · exact hf
      · exact fun _ => hf
      · exact hf
    all_goals split_ifs <;> trivial
  case pollTen =>
    change FirstStoredAt _ _ (if h.toSwSig ≠ 10 then .pollTen else .putZero)
    split <;> trivial

theorem receiver_access (rounds : ℕ → Round) (s : System) :
    (step rounds s .access).receiver = s.receiver := by
  obtain ⟨pc, round, sig, port, h, ticked, stored⟩ := s
  cases pc
  case topPort =>
    by_cases hcmd : (rounds round).command = 'E' ∨ (rounds round).command = 'D'
    · rw [step_topPort_of_command hcmd]
    · rw [step_topPort_of_not hcmd]
  all_goals rfl

/-- **Spaced steps** keep the invariant of the loop. -/
theorem Sending.step (a : Action) (hs : Sending (rounds s.round) d s) (hsp : Spaced s a) :
    Sending (rounds (step rounds s a).round) d (step rounds s a) := by
  cases a
  case tick => exact hs.tick
  case access =>
    obtain ⟨hsig, hport, -⟩ := access_round rounds hs.initSig hs.initPort
    refine ⟨hs.started.access hsp, hsig, hport, ?_, hs.first.access hsp hs.initSig⟩
    rw [receiver_access]
    exact hs.kept

/-! ### When the key arrives -/

/-- **When the diagonal key arrives.** In every spaced run, from the entry of the diagonal loop on:
when the program leaves the loop, the three slots hold the key exactly when the second and the third
one held its bytes already. -/
theorem diagonal_delivered_iff (rounds : ℕ → Round) (sig port : BitVec 8) (h : Receiver)
    (as bs : List Action) (hsp : Along (step rounds) Spaced (start sig port h) (as ++ bs))
    (hentry : (run (step rounds) (start sig port h) as).pc = .putPort .diagonal 0)
    (hround : (run (step rounds) (start sig port h) (as ++ bs)).round
      = (run (step rounds) (start sig port h) as).round)
    (hexit : (run (step rounds) (start sig port h) (as ++ bs)).pc = .putCommand) :
    (∀ i, (run (step rounds) (start sig port h) (as ++ bs)).receiver.diagonalShift i
        = (rounds (run (step rounds) (start sig port h) as).round).diagonalKey i) ↔
      ∀ i ≠ 0, (run (step rounds) (start sig port h) as).receiver.diagonalShift i
        = (rounds (run (step rounds) (start sig port h) as).round).diagonalKey i := by
  -- the run up to the entry of the loop, and the run from there
  obtain ⟨has, hbs⟩ := along_append.mp hsp
  rw [run_append] at hround hexit ⊢
  generalize hs : run (step rounds) (start sig port h) as = s at *
  have hentered : Sending (rounds s.round) s.receiver.diagonalShift s := by
    refine ⟨hs ▸ started_run has, by simp [hentry], by simp [hentry], fun _ _ => rfl, ?_⟩
    rw [hentry]
    exact fun h0 => absurd h0 (Nat.lt_irrefl 0)
  -- the invariant holds at the exit, which is in the same round
  have hleft := run_invariant
    (I := fun t => Sending (rounds t.round) s.receiver.diagonalShift t)
    (fun t a ht hc => ht.step a hc) hentered hbs
  rw [hround] at hleft
  have hfirst := hleft.first
  rw [hexit] at hfirst
  constructor
  -- the slots that the loop does not write are those of the entry
  · intro hall i hi
    rw [← hleft.kept i hi]
    exact hall i
  · intro hrest i
    rcases eq_or_ne i 0 with rfl | hi
    · exact hfirst 0 rfl
    · rw [hleft.kept i hi]
      exact hrest i hi

/-- Rounds whose diagonal key is the digit 7 and two zero bytes. -/
def shortRounds (r : ℕ) : Round :=
  { exampleRounds r with diagonalKey := fun i => if i = 0 then 0x37 else 0 }

/-- From power-up, where the slots hold zero, a key that ends in two zero bytes arrives. -/
theorem diagonal_delivered_short :
    (run (step shortRounds) (start 0 0 powerUp)
        (spacedActions 103 ++ spacedActions 15)).receiver.diagonalShift 0 = 0x37 ∧
      (run (step shortRounds) (start 0 0 powerUp)
        (spacedActions 103 ++ spacedActions 15)).receiver.diagonalShift 2 = 0 := by
  have harrives := (diagonal_delivered_iff shortRounds 0 0 powerUp (spacedActions 103)
    (spacedActions 15) (along_append.mpr ⟨along_spacedActions _ _, along_spacedActions _ _⟩)
    (by decide +kernel) (by decide +kernel) (by decide +kernel)).mpr (by decide +kernel)
  exact ⟨harrives 0, harrives 2⟩

/-- A key of three digits does not: its second byte is acknowledged and lost. -/
theorem diagonal_byte_lost :
    Along (step exampleRounds) Spaced (start 0 0 powerUp) (spacedActions 103 ++ spacedActions 15) ∧
      (run (step exampleRounds) (start 0 0 powerUp)
        (spacedActions 103 ++ spacedActions 15)).pc = .putCommand ∧
      ¬ ∀ i : Fin 3, (run (step exampleRounds) (start 0 0 powerUp)
        (spacedActions 103 ++ spacedActions 15)).receiver.diagonalShift i
          = (exampleRounds 0).diagonalKey i :=
  ⟨along_append.mpr ⟨along_spacedActions _ _, along_spacedActions _ _⟩, by decide +kernel,
    fun h => absurd (h 1) (by decide +kernel)⟩

end Key
end VideoEncryption
