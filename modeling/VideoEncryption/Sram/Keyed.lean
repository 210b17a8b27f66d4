import VideoEncryption.Sram.Session

/-!
# Subkeys in use

`KEY_GEN` on the board and what it is for: the subkey that the sliding switches select afterwards is
the key of the chains.

* `keyGen_reaches` — a request in `DISPLAY` ends in `HIATUS` with the chain of subkeys and the
  picture that was there;
* `selectedKey` — what the switches select of the chain (`key_eq_selectedKey`).
-/

namespace VideoEncryption
namespace Sram

open Clocked
open Subkey (subkeyOf)

variable {F : Subkey.Map → Subkey.Key → Subkey.Key} {seed : BitVec 12} {G : BitVec 80 → BitVec 80}
  {key keyInput : BitVec 80} {b : Board} {e : ClockEdge} {inp : ℕ → ClockEdge} {i : Inputs}
  {A : Frame}

/-! ### The chain of subkeys -/

/-- Subkey `k` is the key input after `k` runs of `G`. -/
def SubkeyChain (G : BitVec 80 → BitVec 80) (keyInput : BitVec 80) (r : Regs) : Prop :=
  ∀ k, 1 ≤ k → k ≤ 7 → r.subkey[k]? = some (G^[k] keyInput)

/-- The edge with the key input `keyInput` and no reset. -/
def ClockEdge.withKey (keyInput : BitVec 80) : ClockEdge → ClockEdge
  | .clk l => .clk l
  | .vgaClk i => .vgaClk { i with reset := false, keyInput := keyInput }
  | .camPclk i => .camPclk { i with reset := false, keyInput := keyInput }

theorem clock_withKey (keyInput : BitVec 80) (e : ClockEdge) :
    (e.withKey keyInput).clock = e.clock := by
  cases e <;> rfl

theorem admitted_withKey (keyInput : BitVec 80) (e : ClockEdge) :
    Admitted keyInput (e.withKey keyInput) := by
  cases e
  exacts [trivial, ⟨rfl, rfl⟩, ⟨rfl, rfl⟩]

theorem withKey_of_admitted (h : Admitted keyInput e) : e.withKey keyInput = e := by
  cases e with
  | clk l => rfl
  | vgaClk i | camPclk i =>
    obtain ⟨hreset, rfl⟩ := h
    cases i
    cases hreset
    rfl

theorem unreset_of_admitted (h : Admitted keyInput e) : Unreset e := by
  cases e
  exacts [trivial, h.1, h.1]

/-- At the end `KEY_GEN` waits for `Cam_pclk`. -/
theorem leaves_keyGen (F : Subkey.Map → Subkey.Key → Subkey.Key) (seed : BitVec 12)
    (h : InKeyGen (Stored G keyInput 5 7 7) b) (he : Unreset e) :
    if e.clock = .camPclk then
      (b.edge F seed e).chip.state = .hiatus ∧ SubkeyChain G keyInput (b.edge F seed e).chip.regs
    else InKeyGen (Stored G keyInput 5 7 7) (b.edge F seed e) := by
  -- only `Cam_pclk` takes the finished chain away
  cases e with
  | clk l => exact h
  | vgaClk i =>
    refine ⟨h.1, ?_⟩
    rw [edge_vgaClk_regs h.1, keyGenTick_five h.2.rev]
    exact h.2
  | camPclk i =>
    refine ⟨?_, h.2.subkey⟩
    rw [edge_camPclk_state h.1 he]
    exact if_pos h.2.rev

/-- A visit to `KEY_GEN` comes to its end with all subkeys in place, whatever the order of the
clocks. -/
theorem keyGen_leadsTo (F : Subkey.Map → Subkey.Key → Subkey.Key) (seed : BitVec 12)
    (keyInput : BitVec 80) :
    FairlyLeadsTo (Board.edge · F seed) ClockEdge.clock (Admitted keyInput)
      (fun b => b.chip.state = .keyGen) (InKeyGen fun r => r.rev = 0)
      fun b => b.chip.state = .hiatus ∧ SubkeyChain (subkeyOf F seed) keyInput b.chip.regs := by
  have hclear : FairlyLeadsTo (Board.edge · F seed) ClockEdge.clock (Admitted keyInput)
      (fun b => b.chip.state = .keyGen) (InKeyGen fun r => r.rev = 0)
      (Chained (subkeyOf F seed) keyInput 0) :=
    leadsTo_of_tick (fun r hr => by simp [hr]) fun r j hr _ => stored_zero hr
  -- the subkeys one by one, and then the wait for `Cam_pclk`
  refine hclear.trans ((FairlyLeadsTo.loop (L := Chained (subkeyOf F seed) keyInput)
    fun n hn => Chained.leadsTo hn).trans (.of_kind .camPclk (fun b hb => hb.1)
      (fun b e hb he hclock => ?_) fun b e hb he hclock => ?_))
  · have h := leaves_keyGen F seed hb (unreset_of_admitted he)
    rwa [if_neg hclock] at h
  · have h := leaves_keyGen F seed hb (unreset_of_admitted he)
    rwa [if_pos hclock] at h

/-- The picture during a visit. -/
theorem left_keyGen_stateAt (hb : Left .keyGen A b.chip) (inp : ℕ → ClockEdge) {n : ℕ}
    (hinp : ∀ m < n, Unreset (inp m))
    (hin : ∀ m ≤ n, (stateAt (Board.edge · F seed) b inp m).chip.state = .keyGen) :
    Left .keyGen A (stateAt (Board.edge · F seed) b inp n).chip := by
  induction n with
  | zero => exact hb
  | succ n ih =>
    have hn := ih (fun m hm => hinp m (by omega)) fun m hm => hin m (by omega)
    have hlast := hin (n + 1) le_rfl
    rw [stateAt_succ] at hlast ⊢
    refine (hn.keyGen_edge (hinp n n.lt_succ_self)).resolve_right fun hnext => ?_
    exact absurd (hlast.symm.trans hnext.2.state) (by decide)

/-- **A request for subkeys** ends in `HIATUS`, which an edge of `Cam_pclk` enters, with the subkeys
of the key input that was there during the visit and with the picture from before. -/
theorem keyGen_reaches (inp : ℕ → ClockEdge) (hb : Entered .display A b.chip)
    (hfirst : inp 0 = .camPclk i) (hreset : i.reset = false) (hrequest : KeyRequest i)
    (hoften : ∀ a n, ∃ k, (inp (n + k)).clock = a)
    (hinp : ∀ n, 0 < n →
      (∀ m, 0 < m → m ≤ n → (stateAt (Board.edge · F seed) b inp m).chip.state = .keyGen) →
      Admitted keyInput (inp n)) :
    ∃ n, Left .hiatus A (stateAt (Board.edge · F seed) b inp (n + 1)).chip ∧
      (inp n).clock = .camPclk ∧
      SubkeyChain (subkeyOf F seed) keyInput
        (stateAt (Board.edge · F seed) b inp (n + 1)).chip.regs ∧
      ∀ m, 0 < m → m ≤ n → (stateAt (Board.edge · F seed) b inp m).chip.state = .keyGen := by
  have hentered : Entered .keyGen A (b.edge F seed (inp 0)).chip := by
    rw [hfirst]
    refine entered_of_request hb hreset ?_
    obtain ⟨hrun, h1, h2⟩ := hrequest
    simp [System.nextState, hb.state, hrun, h1, h2]
  -- the visit, from its first state on
  have hvisit : ∀ n,
      stateAt (Board.edge · F seed) (b.edge F seed (inp 0)) (fun n => inp (n + 1)) n
        = stateAt (Board.edge · F seed) b inp (n + 1) := fun n => (stateAt_succ' b inp n).symm
  have hadmitted : ∀ n,
      (∀ m ≤ n, (stateAt (Board.edge · F seed) b inp (m + 1)).chip.state = .keyGen) →
      Admitted keyInput (inp (n + 1)) := by
    refine fun n hin => hinp (n + 1) n.succ_pos fun m hm hmn => ?_
    obtain ⟨k, rfl⟩ := Nat.exists_eq_add_of_lt hm
    rw [Nat.zero_add]
    exact hin k (by omega)
  -- with every clock coming again and again the visit ends
  obtain ⟨n, hn, hbefore⟩ :=
    (keyGen_leadsTo F seed keyInput).on_the_way (clock_withKey keyInput) (admitted_withKey keyInput)
      (fun _ => withKey_of_admitted) (s := b.edge F seed (inp 0)) ⟨hentered.state, hentered.rev⟩
      (fun n => inp (n + 1)) (fun a n => by simpa only [Nat.add_right_comm] using hoften a (n + 1))
      fun n hW => hadmitted n fun m hm => by rw [← hvisit]; exact hW m hm
  rw [hvisit] at hn
  simp only [hvisit] at hbefore
  obtain ⟨hhiatus, hsubkey⟩ := hn
  -- the edge that leaves `KEY_GEN`
  cases n with
  | zero =>
    rw [stateAt_succ, stateAt_zero] at hhiatus
    exact absurd (hentered.state.symm.trans hhiatus) (by decide)
  | succ l =>
    have hunreset : ∀ m ≤ l, Unreset (inp (m + 1)) := fun m hm =>
      unreset_of_admitted (hadmitted m fun k hk => hbefore k (by omega))
    have hlast : Left .keyGen A (stateAt (Board.edge · F seed) b inp (l + 1)).chip := by
      rw [← hvisit]
      exact left_keyGen_stateAt ⟨hentered.state, hentered.frame⟩ (fun n => inp (n + 1))
        (fun m hm => hunreset m (by omega)) fun m hm => by rw [hvisit]; exact hbefore m (by omega)
    have hedge : Left .keyGen A (stateAt (Board.edge · F seed) b inp (l + 2)).chip ∨
        (inp (l + 1)).clock = .camPclk ∧
          Left .hiatus A (stateAt (Board.edge · F seed) b inp (l + 2)).chip :=
      hlast.keyGen_edge (hunreset l le_rfl)
    rcases hedge with hstill | ⟨hcam, hleft⟩
    · exact absurd (hstill.state.symm.trans hhiatus) (by decide)
    · refine ⟨l + 1, hleft, hcam, hsubkey, fun m hm hml => ?_⟩
      obtain ⟨k, rfl⟩ := Nat.exists_eq_add_of_lt hm
      rw [Nat.zero_add]
      exact hbefore k (by omega)

/-! ### The subkey that the switches select -/

/-- What the switches select of the chain of subkeys. -/
def selectedKey (G : BitVec 80 → BitVec 80) (keyInput : BitVec 80) (i : Inputs) : BitVec 80 :=
  if i.sw14 && !i.sw15 && !i.sw16 && !i.sw17 then G keyInput
  else if !i.sw14 && i.sw15 && !i.sw16 && !i.sw17 then G^[2] keyInput
  else if !i.sw14 && !i.sw15 && i.sw16 && !i.sw17 then G^[3] keyInput
  else if !i.sw14 && !i.sw15 && !i.sw16 && i.sw17 then G^[4] keyInput
  else 0

theorem key_eq_selectedKey {r : Regs} (h : SubkeyChain G keyInput r) (i : Inputs) :
    r.key i = selectedKey G keyInput i := by
  have hget : ∀ k (hk : k < 8), 1 ≤ k → r.subkey[k] = G^[k] keyInput := by
    intro k hk h1
    have hsome := h k h1 (by omega)
    rwa [Vector.getElem?_eq_getElem hk, Option.some.injEq] at hsome
  rw [Regs.key, hget 1 (by decide) le_rfl, hget 2 (by decide) (by decide),
    hget 3 (by decide) (by decide), hget 4 (by decide) (by decide)]
  rfl

/-- The subkeys change in `KEY_GEN` only. -/
theorem subkey_edge (h : b.chip.state ≠ .keyGen) :
    (b.edge F seed e).chip.regs.subkey = b.chip.regs.subkey := by
  cases e with
  | vgaClk i => exact dataPath_subkey h
  | clk l | camPclk i => rfl

theorem subkey_of_rest {n₁ n₂ : ℕ} (hn : n₁ + 1 ≤ n₂)
    (hrest : ∀ m, n₁ < m → m ≤ n₂ →
      (stateAt (Board.edge · F seed) b inp m).chip.state = .hiatus ∨
        (stateAt (Board.edge · F seed) b inp m).chip.state = .display) :
    (stateAt (Board.edge · F seed) b inp n₂).chip.regs.subkey
      = (stateAt (Board.edge · F seed) b inp (n₁ + 1)).chip.regs.subkey := by
  -- neither state writes a subkey
  induction n₂, hn using Nat.le_induction with
  | base => rfl
  | succ n hn ih =>
    have hne : (stateAt (Board.edge · F seed) b inp n).chip.state ≠ .keyGen := by
      intro hkeyGen
      rcases hrest n (by omega) (by omega) with hst | hst <;>
        exact absurd (hkeyGen.symm.trans hst) (by decide)
    rw [stateAt_succ, subkey_edge hne]
    exact ih fun m hm hmn => hrest m hm (by omega)

/-- Edges with the switches of `j` hold the key that `j` selects. -/
theorem heldEdge_selectedKey (inp : ℕ → ClockEdge) {j : Inputs}
    (hchain : SubkeyChain G keyInput b.chip.regs) (hs : b.chip.state ≠ .keyGen)
    (hinp : ∀ n, SameSwitches j (inp n)) (n : ℕ) :
    HeldEdge (selectedKey G keyInput j) (stateAt (Board.edge · F seed) b inp n) (inp n) := by
  rw [← key_eq_selectedKey hchain j]
  exact heldEdge_stateAt hs hinp n

/-! ### From the key input to the picture -/

/-- Up to `n₂` the board is at rest from `n₁` on. -/
def BoardRests (F : Subkey.Map → Subkey.Key → Subkey.Key) (seed : BitVec 12) (b : Board)
    (inp : ℕ → ClockEdge) (n₁ n₂ : ℕ) : Prop :=
  ∀ m, n₁ ≤ m → m ≤ n₂ →
    (stateAt (Board.edge · F seed) b inp m).chip.state = .hiatus ∨
      (stateAt (Board.edge · F seed) b inp m).chip.state = .display

/-- **The key input encrypts.** A request for subkeys ends in `HIATUS`; an encryption asked for
after that is one with the key that the switches select of the chain of subkeys, and a decryption
after that, with the switches unmoved, gives the picture again. -/
theorem keyed_round_trip (keyInput : BitVec 80) (n₀ : ℕ)
    (hb : Entered .display A (stateAt (Board.edge · F seed) b inp n₀).chip)
    (hn₀ : inp n₀ = .camPclk i) (hreset : i.reset = false) (hrequest : KeyRequest i)
    (hclocks : Interleaves ClockEdge.clock .camPclk .vgaClk inp)
    (hclk : ∀ n, ∃ k, (inp (n + k)).clock = .clk)
    (hinp : ∀ n, n₀ < n →
      (∀ m, n₀ < m → m ≤ n → (stateAt (Board.edge · F seed) b inp m).chip.state = .keyGen) →
      Admitted keyInput (inp n)) :
    ∃ n₁, n₀ < n₁ ∧ (stateAt (Board.edge · F seed) b inp n₁).chip.state = .hiatus ∧
      (∀ m, n₀ < m → m < n₁ → (stateAt (Board.edge · F seed) b inp m).chip.state = .keyGen) ∧
      ∀ n₂ j, n₁ < n₂ → BoardRests F seed b inp n₁ n₂ →
        (stateAt (Board.edge · F seed) b inp n₂).chip.state = .display →
        inp n₂ = .camPclk j → EncryptRequest j → (∀ n, n₂ ≤ n → SameSwitches j (inp n)) →
        ∃ n₃, n₂ < n₃ ∧ (stateAt (Board.edge · F seed) b inp n₃).chip.state = .hiatus ∧
          (stateAt (Board.edge · F seed) b inp n₃).chip.frame
            = encrypt (selectedKey (subkeyOf F seed) keyInput j) A ∧
          ∀ n₄ l, n₃ < n₄ → BoardRests F seed b inp n₃ n₄ →
            (stateAt (Board.edge · F seed) b inp n₄).chip.state = .display →
            inp n₄ = .camPclk l → DecryptRequest l →
            ∃ n₅, n₄ < n₅ ∧ (stateAt (Board.edge · F seed) b inp n₅).chip.state = .hiatus ∧
              (stateAt (Board.edge · F seed) b inp n₅).chip.frame = A := by
  have hoften : ∀ a n, ∃ k, (inp (n + k)).clock = a := by
    intro a
    cases a
    exacts [hclk, hclocks.data, hclocks.control]
  -- the visit to `KEY_GEN`
  obtain ⟨k, hleft₁, harrival₁, hchain, hin⟩ := keyGen_reaches (fun n => inp (n₀ + n)) hb
    hn₀ hreset hrequest (fun a n => by simpa only [Nat.add_assoc] using hoften a (n₀ + n))
    fun n hn hm => hinp (n₀ + n) (by omega) fun m hmn hmle => by
      obtain ⟨l, rfl⟩ := Nat.exists_eq_add_of_le hmn.le
      rw [stateAt_add]
      exact hm l (by omega) (by omega)
  simp only [← stateAt_add] at hleft₁ hchain hin
  -- the edge that ends it, under a name
  obtain ⟨n₁, hn₁⟩ : ∃ n₁, n₁ = n₀ + k := ⟨_, rfl⟩
  rw [← Nat.add_assoc, ← hn₁] at hleft₁ hchain
  rw [← hn₁] at harrival₁
  refine ⟨n₁ + 1, by omega, hleft₁.state, fun m hm hmn => ?_,
    fun n₂ j hn₂ hrest₂ hdisplay₂ hj hencrypt hsame => ?_⟩
  · obtain ⟨l, rfl⟩ := Nat.exists_eq_add_of_le hm.le
    exact hin l (by omega) (by omega)
  -- the subkeys are still there when the encryption is asked for
  have hchain₂ : SubkeyChain (subkeyOf F seed) keyInput
      (stateAt (Board.edge · F seed) b inp n₂).chip.regs := by
    rw [SubkeyChain, subkey_of_rest hn₂.le fun m hm hmn => hrest₂ m hm hmn]
    exact hchain
  -- the key from the request of the encryption on
  have hheld : ∀ k, n₂ ≤ k → HeldEdge (selectedKey (subkeyOf F seed) keyInput j)
      (stateAt (Board.edge · F seed) b inp k) (inp k) := by
    intro k hk
    obtain ⟨m, rfl⟩ := Nat.exists_eq_add_of_le hk
    rw [stateAt_add]
    exact heldEdge_selectedKey (fun m => inp (n₂ + m)) hchain₂
      (fun h => absurd (h.symm.trans hdisplay₂) (by decide)) (fun m => hsame _ (by omega)) m
  -- the encryption of the picture
  obtain ⟨n₃, hn₃, hleft₃, harrival₃, -⟩ := op_after_rest (by omega) hleft₁ harrival₁ hclocks
    (fun m hm hmn => hrest₂ m hm hmn) hdisplay₂ hj
    (nextState_of_encryptRequest hdisplay₂ hencrypt) fun k => hheld _ (by omega)
  refine ⟨n₃ + 1, by omega, hleft₃.state, hleft₃.frame,
    fun n₄ l hn₄ hrest₄ hdisplay₄ hl hdecrypt => ?_⟩
  -- and the decryption of the result
  obtain ⟨n₅, hn₅, hleft₅, -⟩ := op_after_rest (by omega) hleft₃ harrival₃ hclocks
    (fun m hm hmn => hrest₄ m hm hmn) hdisplay₄ hl
    (nextState_of_decryptRequest hdisplay₄ hdecrypt) fun k => hheld _ (by omega)
  exact ⟨n₅ + 1, by omega, hleft₅.state, hleft₅.frame.trans (decrypt_encrypt _ A)⟩

end Sram
end VideoEncryption
