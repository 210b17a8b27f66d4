import VideoEncryption.Sram.Clocks

/-!
# What the encrypted picture gives away

The chain of phases on the board, seen from outside: it moves the pixels and masks them, and neither
depends on the picture.

* `masks_tile` — **the mask is a tile of four by four words** that three words determine, and it
  leaves a quarter of the pixels alone. So two pictures under one key differ, after encryption, by
  their own difference with its pixels moved;
* `unkeyed_encryption` — without exactly one of the switches `SW14` to `SW17` there is no key, and
  the chain exchanges the upper quadrants, and that is all.
-/

namespace VideoEncryption
namespace Sram

open Clocked

variable {key : BitVec 80} {A : Frame}

/-! ### Places and masks -/

/-- The words of the tile: the key words, less the first one. -/
def tile (key : BitVec 80) (k : Fin 4) : BitVec 16 :=
  keyWord key (BitVec.ofNat 2 k) ^^^ keyWord key 0

theorem tile_zero (key : BitVec 80) : tile key 0 = 0 := BitVec.xor_self

/-- The key words come around every four positions. -/
theorem keyWord_eq (key : BitVec 80) (n : ℕ) :
    keyWord key (BitVec.ofNat 2 n) = tile key (Fin.ofNat 4 n) ^^^ keyWord key 0 := by
  have hmod : BitVec.ofNat 2 n = BitVec.ofNat 2 (Fin.ofNat 4 n) := by
    apply BitVec.eq_of_toNat_eq
    simp
  rw [tile, ← hmod, BitVec.xor_assoc, BitVec.xor_self, BitVec.xor_zero]

theorem encrypt_apply (key : BitVec 80) (A : Frame) (y : Fin 480) (x : Fin 640) :
    encrypt key A (y, x)
      = A (place key (y, x)) ^^^ (tile key (Fin.ofNat 4 x) ^^^ tile key (Fin.ofNat 4 y)) := by
  have hwords : ∀ a b c : BitVec 16, a ^^^ c ^^^ (b ^^^ c) = a ^^^ b := by
    intro a b c
    rw [BitVec.xor_comm b c, ← BitVec.xor_assoc, BitVec.xor_assoc a, BitVec.xor_self,
      BitVec.xor_zero]
  rw [encrypt, mask_apply, keyWord_eq, keyWord_eq, hwords]
  simp only [Function.comp_apply, place, Equiv.Perm.mul_apply]

/-- **The mask is a tile.** For every key there are a permutation of the pixels and four words, the
first of them zero, such that any picture whatever is encrypted, on any board and in any order of
its clocks, by moving its pixels and masking pixel `(y, x)` with words `x` and `y` modulo 4. -/
theorem masks_tile (F : Subkey.Map → Subkey.Key → Subkey.Key) (seed : BitVec 12)
    (key : BitVec 80) :
    ∃ (π : Equiv.Perm Pixel) (t : Fin 4 → BitVec 16), t 0 = 0 ∧
      ∀ (b : Board) (inp : ℕ → ClockEdge) (i : Inputs),
        (∀ n, HeldEdge key (stateAt (Board.edge · F seed) b inp n) (inp n)) →
        Interleaves ClockEdge.clock .camPclk .vgaClk inp →
        Entered .display b.chip.frame b.chip → inp 0 = .camPclk i → EncryptRequest i →
        ∃ n, (stateAt (Board.edge · F seed) b inp n).chip.state = .hiatus ∧
          ∀ (y : Fin 480) (x : Fin 640),
            (stateAt (Board.edge · F seed) b inp n).chip.frame (y, x)
              = b.chip.frame (π (y, x)) ^^^ (t (Fin.ofNat 4 x) ^^^ t (Fin.ofNat 4 y)) := by
  -- the places and the words of the key, which the picture does not enter
  refine ⟨place key, tile key, tile_zero key, fun b inp i hheld hclocks hb hfirst hrequest => ?_⟩
  obtain ⟨n, hleft, -, -⟩ := op_reaches inp hb (nextState_of_encryptRequest hb.state hrequest)
    hheld hclocks hfirst
  refine ⟨n + 1, hleft.state, fun y x => ?_⟩
  rw [hleft.frame]
  exact encrypt_apply key b.chip.frame y x

/-- On `displayingBoard`. -/
theorem masks_tile_in_turn : ∃ (π : Equiv.Perm Pixel) (t : Fin 4 → BitVec 16), t 0 = 0 ∧
    ∃ n, ∀ (y : Fin 480) (x : Fin 640),
      (stateAt (Board.edge · (fun _ k => k) 0) displayingBoard threeInTurn n).chip.frame (y, x)
        = displaying.frame (π (y, x)) ^^^ (t (Fin.ofNat 4 x) ^^^ t (Fin.ofNat 4 y)) := by
  obtain ⟨π, t, ht, h⟩ := masks_tile (fun _ k => k) 0 (displaying.key (inTurn 0))
  obtain ⟨n, -, hframe⟩ := h displayingBoard threeInTurn (inTurn 0)
    (heldEdge_stateAt (fun h => Fsm.noConfusion h) sameSwitches_threeInTurn)
    interleaves_threeInTurn ⟨rfl, rfl, rfl, rfl, rfl, rfl⟩ rfl ⟨rfl, rfl, rfl⟩
  exact ⟨π, t, ht, n, hframe⟩

/-! ### Without a key -/

/-- How many of the switches that select a subkey are on. -/
def Inputs.selected (i : Inputs) : ℕ :=
  i.sw14.toNat + i.sw15.toNat + i.sw16.toNat + i.sw17.toNat

theorem key_eq_zero {r : Regs} {i : Inputs} (h : i.selected ≠ 1) : r.key i = 0 := by
  rw [Inputs.selected] at h
  rw [Regs.key]
  cases h14 : i.sw14 <;> cases h15 : i.sw15 <;> cases h16 : i.sw16 <;> cases h17 : i.sw17 <;>
    simp_all

theorem shiftPerm_zero {L N : ℕ} [NeZero N] (B : ℕ) (e : Layout L N) : shiftPerm 0 B e = 1 := by
  have hnone : ∀ l, ¬ Shifted 0 B l := by
    rintro l ⟨b, -, hbit, -⟩
    simp at hbit
  ext1 px
  obtain ⟨⟨l, q⟩, rfl⟩ := e.surjective px
  rw [shiftPerm, Equiv.permCongr_apply, Equiv.symm_apply_apply, linePerm_apply_of_neg q (hnone l),
    Equiv.Perm.one_apply]

theorem tile_zero_key (k : Fin 4) : tile 0 k = 0 := by
  have hword : ∀ sel, keyWord 0 sel = 0 := by decide
  rw [tile, hword, hword]
  rfl

theorem mixPerm_zero (y : Fin 480) (x : Fin 640) :
    mixPerm 0 (y, x) = if (y : ℕ) < 240 then (y, x + 320) else (y, x) := by
  -- the pixel in quadrant `(a, c)` at place `(i, j)`
  obtain ⟨⟨⟨a, c⟩, ⟨i, j⟩⟩, hpx⟩ := quadrants.surjective (y, x)
  have hy : (y : ℕ) = i + 240 * a := congrArg (fun px : Pixel => (px.1 : ℕ)) hpx.symm
  have hx : (x : ℕ) = j + 320 * c := congrArg (fun px : Pixel => (px.2 : ℕ)) hpx.symm
  have hswap : mixPerm 0 (y, x)
      = quadrants (Equiv.swap ((0, 0) : Fin 2 × Fin 2) (0, 1) (a, c), (i, j)) := by
    rw [mixPerm, Equiv.permCongr_apply, ← hpx, Equiv.symm_apply_apply]
    rfl
  -- key 0 exchanges the two upper quadrants
  have hexchange : ∀ a c : Fin 2, Equiv.swap ((0, 0) : Fin 2 × Fin 2) (0, 1) (a, c)
      = (a, if a = 0 then 1 - c else c) := by decide
  have hval : ∀ a c : Fin 2, quadrants ((a, c), (i, j))
      = (finProdFinEquiv (a, i), finProdFinEquiv (c, j)) := fun _ _ => rfl
  have hy' : finProdFinEquiv (a, i) = y := Fin.ext hy.symm
  rw [hswap, hexchange, hval, hy']
  by_cases ha : a = 0
  · -- the other half of the row
    have hother : ∀ c : Fin 2, ((1 - c : Fin 2) : ℕ) = 1 - c := by decide
    have hx320 : ((x + 320 : Fin 640) : ℕ) = (x + 320) % 640 := rfl
    have hx' : ((finProdFinEquiv (1 - c, j) : Fin (2 * 320)) : ℕ) = j + 320 * (1 - c : Fin 2) := rfl
    rw [if_pos ha, if_pos (by rw [hy, ha]; exact i.isLt)]
    refine Prod.ext rfl (Fin.ext ?_)
    rw [hx', hother, hx320, hx]
    omega
  · have hx' : finProdFinEquiv (c, j) = x := Fin.ext hx.symm
    rw [if_neg ha, hx', if_neg (by omega)]

theorem encrypt_zero (A : Frame) (y : Fin 480) (x : Fin 640) :
    encrypt 0 A (y, x) = if (y : ℕ) < 240 then A (y, x + 320) else A (y, x) := by
  have hplace : place 0 = mixPerm 0 := by
    rw [place, shiftPerm_zero, shiftPerm_zero, one_mul, one_mul]
  rw [encrypt_apply, tile_zero_key, tile_zero_key, hplace, mixPerm_zero, BitVec.ofNat_eq_ofNat,
    BitVec.xor_zero, BitVec.xor_zero]
  split <;> rfl

/-- No reset, and not exactly one of the switches is on. -/
def Unselected : ClockEdge → Prop
  | .clk _ => True
  | .vgaClk i | .camPclk i => i.reset = false ∧ i.selected ≠ 1

/-- **Without a key** the encryption exchanges the two upper quadrants of the picture and leaves the
lower half as it is, whatever the subkeys are. -/
theorem unkeyed_encryption (F : Subkey.Map → Subkey.Key → Subkey.Key) (seed : BitVec 12)
    {b : Board} {inp : ℕ → ClockEdge} {i : Inputs} (hinp : ∀ n, Unselected (inp n))
    (hclocks : Interleaves ClockEdge.clock .camPclk .vgaClk inp)
    (hb : Entered .display b.chip.frame b.chip) (hfirst : inp 0 = .camPclk i)
    (hrequest : EncryptRequest i) :
    ∃ n, (stateAt (Board.edge · F seed) b inp n).chip.state = .hiatus ∧
      ∀ (y : Fin 480) (x : Fin 640), (stateAt (Board.edge · F seed) b inp n).chip.frame (y, x)
        = if (y : ℕ) < 240 then b.chip.frame (y, x + 320) else b.chip.frame (y, x) := by
  -- with no subkey selected the key is zero at every edge
  have hheld : ∀ n, HeldEdge 0 (stateAt (Board.edge · F seed) b inp n) (inp n) := by
    intro n
    have hedge := hinp n
    generalize inp n = e at hedge
    cases e with
    | clk l => trivial
    | vgaClk i | camPclk i => exact ⟨hedge.1, key_eq_zero hedge.2⟩
  obtain ⟨n, hleft, -, -⟩ := op_reaches inp hb (nextState_of_encryptRequest hb.state hrequest)
    hheld hclocks hfirst
  refine ⟨n + 1, hleft.state, fun y x => ?_⟩
  rw [hleft.frame]
  exact encrypt_zero b.chip.frame y x

/-- The clocks in turn, with `SW14` and `SW15` on. -/
def twoSelected (n : ℕ) : ClockEdge :=
  if n % 3 = 0 then .camPclk { inTurn 0 with sw15 := true }
  else if n % 3 = 1 then .vgaClk { inTurn 0 with sw15 := true }
  else .clk fun _ => 0

/-- The whole picture, with its upper quadrants exchanged. -/
theorem unkeyed_encryption_two :
    ∃ n, (stateAt (Board.edge · (fun _ k => k) 0) displayingBoard twoSelected n).chip.state
        = .hiatus ∧
      ∀ (y : Fin 480) (x : Fin 640),
        (stateAt (Board.edge · (fun _ k => k) 0) displayingBoard twoSelected n).chip.frame (y, x)
          = if (y : ℕ) < 240 then displaying.frame (y, x + 320) else displaying.frame (y, x) := by
  -- the three clocks in turn, `KEY` switches down
  have hclocks : Interleaves ClockEdge.clock .camPclk .vgaClk twoSelected := by
    refine interleaves_of_mod (fun n => ?_) fun n h => by simp [twoSelected, h, ClockEdge.clock]
    unfold twoSelected
    split_ifs with h0 h1 <;> simp [ClockEdge.clock, h0]
  have hinp : ∀ n, Unselected (twoSelected n) := by
    intro n
    unfold twoSelected
    split_ifs
    exacts [⟨rfl, by decide⟩, ⟨rfl, by decide⟩, trivial]
  exact unkeyed_encryption (fun _ k => k) 0 (b := displayingBoard) hinp hclocks
    ⟨rfl, rfl, rfl, rfl, rfl, rfl⟩ rfl ⟨rfl, rfl, rfl⟩

end Sram
end VideoEncryption
