import VideoEncryption.Subkey.Multiplier

/-!
# The tent map

`tentMap` folds its operand at a half (`ADJUST`) and multiplies it by one and a half (`COMPUTE`).
The factor has two set bits, so nothing is truncated but the last place, and nothing is added in
the last step of the multiplier: the result that `tentMap` takes with `done` is complete.

* `toNat_adjusted` — what `ADJUST` computes;
* `oneAndHalf_product` — what the multiplier has added up when it raises `done`;
* `tentMap_computes` — the timing and the result of every run.
-/

namespace VideoEncryption
namespace Subkey

open Clocked Fixed

/-- The inputs of a map module at a clock edge. -/
structure MapPort where
  run : Bool
  input : Key

namespace TentMap

/-- One clock edge with these inputs. -/
def edge (t : TentMap) (p : MapPort) : TentMap := t.tick p.run p.input

/-- Both machines are idle, whatever the other registers hold. -/
structure Idle (t : TentMap) : Prop where
  state : t.state = .load
  mult : t.mult.state = .wait

/-- What `ADJUST` makes of the operand. -/
def adjusted (x : Key) : Key :=
  if x ≥ 0x40000000000000000000 then 0x80000000000000000000 - x else x

/-- Outside of `COMPUTE` the multiplier waits. -/
def AtRest (t : TentMap) : Prop := t.state ≠ .compute → t.mult.state = .wait

/-- In `COMPUTE`, with the operand `y`, after `k` steps of the multiplier. -/
structure Scaling (y : Key) (k : ℕ) (t : TentMap) : Prop where
  state : t.state = .compute
  out : t.out = y
  mult : Underway op1 y k t.mult

/-- In `HOLD`, with the result `z`. -/
structure Holding (z : ℕ) (t : TentMap) : Prop where
  state : t.state = .hold
  out : t.out.toNat = z
  mult : t.mult.state = .wait

end TentMap

/-! ### The arithmetic -/

/-- **What `ADJUST` computes** for a number up to 1. -/
theorem toNat_adjusted {x : Key} (hx : x.toNat ≤ 2 ^ 79) :
    (TentMap.adjusted x).toNat = min x.toNat (2 ^ 79 - x.toNat) := by
  have hhalf : x ≥ 0x40000000000000000000 ↔ 2 ^ 78 ≤ x.toNat := by
    rw [ge_iff_le, BitVec.le_def]
    rfl
  rw [TentMap.adjusted]
  split_ifs with h <;> rw [hhalf] at h
  · rw [BitVec.toNat_sub_of_le (BitVec.le_def.mpr hx)]
    change 2 ^ 79 - x.toNat = _
    omega
  · omega

/-- **The product with one and a half** is complete one step before the end. -/
theorem oneAndHalf_product (y : ℕ) : partialProduct 79 TentMap.op1.toNat y 79 = 3 * y / 2 := by
  have hop1 : TentMap.op1.toNat = 3 * 2 ^ 78 := rfl
  have hclear : ∀ i, 2 ≤ i → i < 79 → TentMap.op1.toNat.testBit (79 - i) = false := by
    intro i hi _
    rw [hop1, Nat.testBit_mul_two_pow, decide_eq_false (by omega), Bool.false_and]
  have hbits : TentMap.op1.toNat.testBit 79 = true ∧ TentMap.op1.toNat.testBit 78 = true := by
    decide
  -- what is left are the operand and its half, rounded down
  rw [partialProduct_of_clear (by decide) hclear]
  simp only [partialProduct, Nat.sub_zero, hbits.1, hbits.2, if_true]
  omega

/-! ### One tick -/

namespace TentMap

variable {t : TentMap} {p : MapPort} {y : Key} {k z : ℕ}

theorem Idle.atRest (ht : t.Idle) : t.AtRest := fun _ => ht.mult

/-- **One tick keeps the multiplier at rest** outside of `COMPUTE`. -/
theorem AtRest.edge (ht : t.AtRest) : (t.edge p).AtRest := by
  rw [TentMap.edge]
  -- by the state: only `COMPUTE` runs the multiplier
  cases hs : t.state with
  | load =>
    rw [tick_load hs]
    exact fun _ => (tick_of_idle (ht (by simp [hs])) op1 t.out).1
  | adjust =>
    rw [tick_adjust hs]
    exact fun hne => absurd rfl hne
  | compute =>
    rw [tick_compute hs]
    intro hne
    cases hdone : t.mult.done with
    | false =>
      rw [hdone] at hne
      exact absurd rfl hne
    | true =>
      exact tick_of_done hdone
  | hold =>
    rw [tick_hold hs]
    exact fun _ => (tick_of_idle (ht (by simp [hs])) op1 t.out).1

theorem Scaling.edge (ht : t.Scaling y k) (hk : k < 79) : (t.edge p).Scaling y (k + 1) := by
  have hdone : t.mult.done = false := by
    rw [ht.mult.done_eq hk.le]
    exact decide_eq_false hk.ne
  rw [TentMap.edge, tick_compute ht.state, hdone]
  exact ⟨rfl, ht.out, ht.mult.tick hk⟩

/-- The edge at which `tentMap` takes the product. -/
theorem Scaling.edge_last (ht : t.Scaling y 79) (hy : y.toNat ≤ 2 ^ 78) :
    (t.edge p).Holding (3 * y.toNat / 2) := by
  have hdone : t.mult.done = true := ht.mult.done_eq le_rfl
  rw [TentMap.edge, tick_compute ht.state, hdone]
  refine ⟨rfl, ?_, tick_of_done hdone⟩
  change t.mult.out.toNat = _
  rw [ht.mult.out, oneAndHalf_product]
  exact toNat_ofNat_of_lt (by omega)

theorem Holding.edge (ht : t.Holding z) (hrun : p.run = true) : (t.edge p).Holding z := by
  rw [TentMap.edge, tick_hold ht.state, hrun]
  exact ⟨rfl, ht.out, (tick_of_idle ht.mult op1 t.out).1⟩

theorem Holding.release (ht : t.Holding z) (hrun : p.run = false) : (t.edge p).Idle := by
  rw [TentMap.edge, tick_hold ht.state, hrun]
  exact ⟨rfl, (tick_of_idle ht.mult op1 t.out).1⟩

/-! ### The run -/

variable {inp : ℕ → MapPort} {n : ℕ}

theorem Idle.stateAt_one (ht : t.Idle) (hrun : (inp 0).run = true) :
    stateAt edge t inp 1 = ⟨.adjust, (inp 0).input, t.mult.tick false op1 t.out⟩ := by
  rw [stateAt_succ, stateAt_zero, TentMap.edge, tick_load ht.state, hrun]
  rfl

theorem Idle.stateAt_two (ht : t.Idle) (hrun : (inp 0).run = true) :
    stateAt edge t inp 2 = ⟨.compute, adjusted (inp 0).input,
      (t.mult.tick false op1 t.out).tick false op1 (inp 0).input⟩ := by
  rw [stateAt_succ, ht.stateAt_one hrun, TentMap.edge, tick_adjust rfl]
  rfl

/-- The multiplier starts at the third edge. -/
theorem Idle.scaling (ht : t.Idle) (hrun : (inp 0).run = true) :
    (stateAt edge t inp 3).Scaling (adjusted (inp 0).input) 0 := by
  have hwait := (tick_of_idle (tick_of_idle ht.mult op1 t.out).1 op1 (inp 0).input).1
  have hdone : ((t.mult.tick false op1 t.out).tick false op1 (inp 0).input).done = false := by
    rw [Multiplier.done, hwait]
    rfl
  rw [stateAt_succ, ht.stateAt_two hrun, TentMap.edge, tick_compute rfl]
  simp only [hdone]
  exact ⟨rfl, rfl, underway_zero hwait⟩

/-- **The multiplication**, step by step. -/
theorem Idle.scaling_stateAt (ht : t.Idle) (hrun : (inp 0).run = true) (hk : k ≤ 79) :
    (stateAt edge t inp (3 + k)).Scaling (adjusted (inp 0).input) k := by
  induction k with
  | zero => exact ht.scaling hrun
  | succ k ih =>
    rw [← Nat.add_assoc, stateAt_succ]
    exact (ih (by omega)).edge (by omega)

/-- No `done` in the ticks before the result. -/
theorem Idle.busy (ht : t.Idle) (hrun : (inp 0).run = true) (hn : n < 83) :
    (stateAt edge t inp n).done = false := by
  -- in `LOAD`, in `ADJUST`, and while the multiplier goes through the bits
  match n, hn with
  | 0, _ =>
    rw [stateAt_zero, TentMap.done, ht.state]
    rfl
  | 1, _ =>
    rw [ht.stateAt_one hrun]
    rfl
  | 2, _ =>
    rw [ht.stateAt_two hrun]
    rfl
  | k + 3, hn =>
    -- the ticks of the multiplication
    rw [Nat.add_comm, TentMap.done, (ht.scaling_stateAt hrun (by omega)).state]
    rfl

/-- **The result** is there at tick 83 and stays while `Run` is high. -/
theorem Idle.holding (ht : t.Idle) (hrun : (inp 0).run = true)
    (hx : (inp 0).input.toNat ≤ 2 ^ 79) (hheld : ∀ i < n, (inp (83 + i)).run = true) :
    (stateAt edge t inp (83 + n)).Holding
      (3 * min (inp 0).input.toNat (2 ^ 79 - (inp 0).input.toNat) / 2) := by
  induction n with
  -- the last bit gives the result
  | zero =>
    have hlast := ht.scaling_stateAt hrun (le_refl 79)
    rw [← toNat_adjusted hx]
    refine hlast.edge_last ?_
    rw [toNat_adjusted hx]
    omega
  | succ n ih =>
    rw [← Nat.add_assoc, stateAt_succ]
    exact (ih fun i hi => hheld i (by omega)).edge (hheld n (by omega))

end TentMap

/-- **The runs of `tentMap`.** Whenever it takes an operand up to 1, in whatever run from idle
machines, it answers 83 ticks later with the value of the tent map, keeps it while `Run` is high
and is idle again one edge after `Run` drops. -/
theorem tentMap_computes (t : TentMap) (ht : t.Idle) (inp : ℕ → MapPort) (j : ℕ)
    (hload : (stateAt TentMap.edge t inp j).state = .load) (hrun : (inp j).run = true)
    (hx : (inp j).input.toNat ≤ 2 ^ 79) :
    (∀ n < 83, (stateAt TentMap.edge t inp (j + n)).done = false) ∧
      ∀ n, (∀ i < n, (inp (j + 83 + i)).run = true) →
        (stateAt TentMap.edge t inp (j + 83 + n)).done = true ∧
        (stateAt TentMap.edge t inp (j + 83 + n)).out.toNat
          = 3 * min (inp j).input.toNat (2 ^ 79 - (inp j).input.toNat) / 2 ∧
        ((inp (j + 83 + n)).run = false →
          (stateAt TentMap.edge t inp (j + 83 + n + 1)).Idle) := by
  -- in `LOAD` both machines are idle, whatever the run has been so far
  have hrest : (stateAt TentMap.edge t inp j).AtRest :=
    stateAt_invariant (c := fun _ _ => True) (fun _ _ h _ => h.edge) ht.atRest
      (fun _ => trivial) j
  have hidle : (stateAt TentMap.edge t inp j).Idle := ⟨hload, hrest (by simp [hload])⟩
  -- `done` is low until then
  refine ⟨fun n hn => ?_, fun n hheld => ?_⟩
  · rw [stateAt_add]
    exact hidle.busy hrun hn
  · -- the run from tick `j` on is a run from idle machines
    have hhold : (stateAt TentMap.edge t inp (j + 83 + n)).Holding
        (3 * min (inp j).input.toNat (2 ^ 79 - (inp j).input.toNat) / 2) := by
      rw [Nat.add_assoc, stateAt_add]
      refine @TentMap.Idle.holding _ (fun k => inp (j + k)) n hidle hrun hx fun i hi => ?_
      rw [← Nat.add_assoc]
      exact hheld i hi
    refine ⟨decide_eq_true hhold.state, hhold.out, fun hlow => ?_⟩
    rw [stateAt_succ]
    exact hhold.release hlow

/-- The tent map takes three quarters to three eighths, and is idle one edge after `Run` drops. -/
theorem tentMap_computes_three_quarters :
    (stateAt TentMap.edge ⟨.load, 0, ⟨.wait, 0, 0, 0, 0⟩⟩
        (fun n => ⟨decide (n < 83), 0x60000000000000000000⟩) 83).out = 0x30000000000000000000 ∧
      (stateAt TentMap.edge ⟨.load, 0, ⟨.wait, 0, 0, 0, 0⟩⟩
        (fun n => ⟨decide (n < 83), 0x60000000000000000000⟩) 84).Idle := by
  have hrun := (tentMap_computes ⟨.load, 0, ⟨.wait, 0, 0, 0, 0⟩⟩ ⟨rfl, rfl⟩
    (fun n => ⟨decide (n < 83), 0x60000000000000000000⟩) 0 rfl rfl (by decide)).2 0
      (fun _ hi => absurd hi (Nat.not_lt_zero _))
  exact ⟨BitVec.eq_of_toNat_eq (hrun.2.1.trans (by decide)), hrun.2.2 rfl⟩

end Subkey
end VideoEncryption
