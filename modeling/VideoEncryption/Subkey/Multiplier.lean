import VideoEncryption.Clocked.Word
import VideoEncryption.Fixed.Product
import VideoEncryption.Subkey.Maps

/-!
# The serial multiplier

`multiplier80` takes the bits of `num1` from the top down and adds up `num2`, shifted right by one
more place at every step. `Underway` is the invariant of its loop: what it has added up after `k`
steps is a `partialProduct`, modulo `2 ^ 80`.

`done` is high in the tick of the last step, and the register `out` has the last summand one edge
later. `readyAtDone_iff` says for which operands that makes a difference.
-/

namespace VideoEncryption
namespace Subkey

open Clocked Fixed

/-- The inputs of the multiplier at a clock edge. -/
structure Factors where
  run : Bool
  num1 : Key
  num2 : Key

/-- One clock edge with these inputs. -/
def Multiplier.edge (m : Multiplier) (p : Factors) : Multiplier := m.tick p.run p.num1 p.num2

/-! ### The loop -/

/-- After `k` steps of the multiplication of `a` by `b`. -/
structure Underway (a b : Key) (k : ℕ) (m : Multiplier) : Prop where
  state : m.state = .multiply
  counter : m.counter = BitVec.ofNat 10 k
  shifter : m.shifter = b >>> k
  checker : m.checker = a <<< k
  out : m.out = BitVec.ofNat 80 (partialProduct 79 a.toNat b.toNat k)

variable {a b : Key} {k : ℕ} {m : Multiplier} {run : Bool} {num1 num2 : Key}

/-- The edge at which `done` is high ends the multiplication. -/
theorem tick_of_done (hdone : m.done = true) : (m.tick run num1 num2).state = .wait := by
  rw [Multiplier.done, Bool.and_eq_true, decide_eq_true_eq, decide_eq_true_eq] at hdone
  obtain ⟨hstate, hcounter⟩ := hdone
  rw [Multiplier.tick, hstate]
  exact if_pos hcounter

/-- A multiplier that is not asked keeps waiting, with its result. -/
theorem tick_of_idle (hm : m.state = .wait) (num1 num2 : Key) :
    (m.tick false num1 num2).state = .wait ∧ (m.tick false num1 num2).out = m.out := by
  rw [Multiplier.tick, hm]
  exact ⟨rfl, rfl⟩

/-- The start of a multiplication. -/
theorem underway_zero (hm : m.state = .wait) : Underway a b 0 (m.tick true a b) := by
  refine ⟨?_, ?_, ?_, ?_, ?_⟩ <;> rw [Multiplier.tick, hm] <;> simp [partialProduct]

namespace Underway

/-- The bit on the top of `checker`. -/
theorem scanned (hm : Underway a b k m) (hk : k ≤ 79) :
    m.checker.getLsbD 79 = a.toNat.testBit (79 - k) := by
  rw [hm.checker, BitVec.getLsbD_shiftLeft, BitVec.getLsbD]
  simp
  omega

theorem done_eq (hm : Underway a b k m) (hk : k ≤ 79) : m.done = decide (k = 79) := by
  have hcounter : m.counter = 79 ↔ k = 79 := by
    rw [hm.counter]
    exact ofNat_inj (b := 79) (by omega) (by decide)
  rw [Multiplier.done, decide_eq_true hm.state, Bool.true_and, decide_eq_decide]
  exact hcounter

/-- What `out` holds after the tick. -/
theorem tick_out (hm : Underway a b k m) (hk : k ≤ 79) :
    (m.tick run num1 num2).out
      = BitVec.ofNat 80 (partialProduct 79 a.toNat b.toNat (k + 1)) := by
  have hshifter : m.shifter = BitVec.ofNat 80 (b.toNat / 2 ^ k) := by
    apply BitVec.eq_of_toNat_eq
    rw [hm.shifter, BitVec.toNat_ushiftRight, Nat.shiftRight_eq_div_pow,
      toNat_ofNat_of_lt (lt_of_le_of_lt (Nat.div_le_self _ _) b.isLt)]
  rw [Multiplier.tick, hm.state]
  dsimp only
  rw [hm.scanned hk, hm.out, hshifter, partialProduct]
  split_ifs
  · exact (BitVec.ofNat_add _ _).symm
  · rfl

/-- **One step** of the loop. -/
theorem tick (hm : Underway a b k m) (hk : k < 79) :
    Underway a b (k + 1) (m.tick run num1 num2) := by
  have hcounter : m.counter ≠ 79 := by
    -- the loop has a step to go
    rw [hm.counter]
    exact mt (ofNat_inj (b := 79) (by omega) (by decide)).mp (by omega)
  refine ⟨?_, ?_, ?_, ?_, hm.tick_out hk.le⟩ <;> rw [Multiplier.tick, hm.state] <;> dsimp only
  · rw [if_neg hcounter]
  · rw [hm.counter, ofNat_succ]
  · rw [hm.shifter, BitVec.shiftRight_add]
  · rw [hm.checker, BitVec.shiftLeft_add]

end Underway

/-! ### When the product is ready -/

/-- The complete product: `num2`, shifted right by `i`, for every set bit `79 - i` of `num1`. -/
def shiftAddProduct (num1 num2 : Key) : Key :=
  BitVec.ofNat 80 (∑ i ∈ Finset.range 80, if num1.getLsbD (79 - i) then num2.toNat / 2 ^ i else 0)

theorem shiftAddProduct_eq (a b : Key) :
    shiftAddProduct a b = BitVec.ofNat 80 (partialProduct 79 a.toNat b.toNat 80) := by
  rw [shiftAddProduct, partialProduct_eq_sum]
  rfl

/-- `done` rises, and when it does `out` holds the product of the operands of the first edge. -/
def ReadyAtDone (m : Multiplier) (inp : ℕ → Factors) : Prop :=
  ∃ n, (∀ j < n, (stateAt Multiplier.edge m inp j).done = false) ∧
    (stateAt Multiplier.edge m inp n).done = true ∧
    (stateAt Multiplier.edge m inp n).out = shiftAddProduct (inp 0).num1 (inp 0).num2

variable {inp : ℕ → Factors}

/-- **The run of the loop**: `k` steps after the edge that takes the operands. -/
theorem underway_stateAt (hm : m.state = .wait) (hrun : (inp 0).run = true) (hk : k ≤ 79) :
    Underway (inp 0).num1 (inp 0).num2 k (stateAt Multiplier.edge m inp (k + 1)) := by
  induction k with
  | zero =>
    rw [stateAt_succ, stateAt_zero, Multiplier.edge, hrun]
    exact underway_zero hm
  | succ k ih =>
    rw [stateAt_succ]
    exact (ih (by omega)).tick (by omega)

/-- `done` rises at tick 80. -/
theorem done_stateAt (hm : m.state = .wait) (hrun : (inp 0).run = true) {n : ℕ} (hn : n ≤ 80) :
    (stateAt Multiplier.edge m inp n).done = decide (n = 80) := by
  rcases n with _ | k
  · rw [stateAt_zero, Multiplier.done, hm]
    rfl
  · rw [(underway_stateAt hm hrun (by omega)).done_eq (by omega), decide_eq_decide]
    omega

theorem readyAtDone_iff_out (hm : m.state = .wait) (hrun : (inp 0).run = true) :
    ReadyAtDone m inp ↔ BitVec.ofNat 80
        (partialProduct 79 (inp 0).num1.toNat (inp 0).num2.toNat 79)
      = shiftAddProduct (inp 0).num1 (inp 0).num2 := by
  -- the output at the end of the bits is the partial product
  rw [← (underway_stateAt (k := 79) hm hrun le_rfl).out]
  constructor
  · rintro ⟨n, hearlier, hdone, hready⟩
    -- `done` rises at tick 80: earlier it is low, and later it has been high before
    rcases Nat.lt_trichotomy n 80 with h | rfl | h
    · rw [done_stateAt hm hrun h.le, decide_eq_true_eq] at hdone
      exact absurd hdone h.ne
    · exact hready
    · have hlow := hearlier 80 h
      rw [done_stateAt hm hrun le_rfl] at hlow
      exact absurd hlow (by decide)
  · intro hready
    refine ⟨80, fun j hj => ?_, ?_, hready⟩
    · rw [done_stateAt hm hrun hj.le]
      exact decide_eq_false hj.ne
    · rw [done_stateAt hm hrun le_rfl]
      rfl

/-- The summand that `out` lacks when `done` is high. -/
theorem shiftAddProduct_eq_add (a b : Key) : shiftAddProduct a b
    = BitVec.ofNat 80 (partialProduct 79 a.toNat b.toNat 79)
      + if a.getLsbD 0 = true ∧ b.getLsbD 79 = true then 1 else 0 := by
  have htop : b.toNat / 2 ^ 79 = if b.getLsbD 79 = true then 1 else 0 := by
    have hlt := b.isLt
    rw [BitVec.getLsbD, Nat.testBit_eq_decide_div_mod_eq]
    split_ifs with h <;> simp only [decide_eq_true_eq] at h <;> omega
  rw [shiftAddProduct_eq, partialProduct, Nat.sub_self, BitVec.ofNat_add, htop]
  congr 1
  -- the summand is 1 if both bits are set
  change BitVec.ofNat 80 (if a.getLsbD 0 = true then _ else 0) = _
  rcases a.getLsbD 0 <;> rcases b.getLsbD 79 <;> rfl

/-- **When the product is ready with `done`**: unless the lowest bit of the one operand and the
highest bit of the other one are both set. -/
theorem readyAtDone_iff (m : Multiplier) (hm : m.state = .wait) (inp : ℕ → Factors)
    (hrun : (inp 0).run = true) :
    ReadyAtDone m inp ↔
      ¬ ((inp 0).num1.getLsbD 0 = true ∧ (inp 0).num2.getLsbD 79 = true) := by
  rw [readyAtDone_iff_out hm hrun, shiftAddProduct_eq_add]
  constructor
  · intro hready hbits
    rw [if_pos hbits, BitVec.self_eq_add_right] at hready
    exact absurd hready (by decide)
  · intro hbits
    rw [if_neg hbits]
    exact (BitVec.add_zero _).symm

/-- A half by three quarters is ready with `done`. -/
theorem readyAtDone_half :
    ReadyAtDone ⟨.wait, 0, 0, 0, 0⟩
        (fun _ => ⟨true, 0x40000000000000000000, 0x60000000000000000000⟩) ∧
      shiftAddProduct 0x40000000000000000000 0x60000000000000000000 = 0x30000000000000000000 :=
  ⟨(readyAtDone_iff ⟨.wait, 0, 0, 0, 0⟩ rfl
    (fun _ => ⟨true, 0x40000000000000000000, 0x60000000000000000000⟩) rfl).mpr (by decide),
    by decide +kernel⟩

/-- A product that is not: the smallest number by 1. -/
theorem not_readyAtDone_least_one : ¬ ReadyAtDone ⟨.wait, 0, 0, 0, 0⟩
    (fun _ => ⟨true, 1, 0x80000000000000000000⟩) := by
  rw [readyAtDone_iff_out rfl rfl]
  decide +kernel

end Subkey
end VideoEncryption
