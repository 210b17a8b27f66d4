import Mathlib.Tactic

/-!
# Rewriting a store in place

A sweep visits the cells of a store one after another and replaces each by its new value. `rank`
says when a cell is visited, and `swept rank old new k` is the store when the visits of rank below
`k` are done: the visited cells hold their new value, the others still their old one.

`swept_write` is one visit, `swept_of_le` a look at a cell not yet visited, and `swept_skip` passes
over cells that keep their value.
-/

namespace Clocked

variable {ι V : Type*} {rank : ι → ℕ} {old new : ι → V} {k : ℕ}

/-- The store when the visits of rank below `k` are done. -/
def swept (rank : ι → ℕ) (old new : ι → V) (k : ℕ) : ι → V :=
  fun i => if rank i < k then new i else old i

theorem swept_zero : swept rank old new 0 = old := by
  funext i
  exact if_neg (Nat.not_lt_zero _)

theorem swept_of_le {i : ι} (h : k ≤ rank i) : swept rank old new k i = old i :=
  if_neg (by omega)

/-- Cells that keep their value need no visit. -/
theorem swept_skip {k' : ℕ} (hk : k ≤ k') (h : ∀ i, k ≤ rank i → rank i < k' → new i = old i) :
    swept rank old new k' = swept rank old new k := by
  funext i
  simp only [swept]
  by_cases hlow : rank i < k
  · rw [if_pos hlow, if_pos (by omega)]
  · rw [if_neg hlow]
    by_cases hhigh : rank i < k'
    · rw [if_pos hhigh, h i (by omega) hhigh]
    · rw [if_neg hhigh]

/-- The sweep is over when the cells not yet visited keep their value. -/
theorem swept_eq_new (h : ∀ i, k ≤ rank i → new i = old i) : swept rank old new k = new := by
  funext i
  simp only [swept]
  by_cases hi : rank i < k
  · rw [if_pos hi]
  · rw [if_neg hi, h i (by omega)]

/-- **One visit**: the cell is the only one of its rank that changes. -/
theorem swept_write [DecidableEq ι] {i : ι} (hi : rank i = k)
    (hsole : ∀ j, j ≠ i → rank j = k → new j = old j) :
    Function.update (swept rank old new k) i (new i) = swept rank old new (k + 1) := by
  funext j
  -- the cell of this visit, and then the others
  by_cases hj : j = i
  · subst hj
    rw [Function.update_self, swept, if_pos (by omega)]
  · rw [Function.update_of_ne hj, swept, swept]
    -- cells of lower rank are done, and of the others at rank `k` none changes
    by_cases hlow : rank j < k
    · rw [if_pos hlow, if_pos (by omega)]
    · rw [if_neg hlow]
      by_cases hnow : rank j = k
      · rw [if_pos (by omega), hsole j hj hnow]
      · rw [if_neg (by omega)]

/-- A sweep in which no two cells have the same rank. -/
theorem swept_write_of_injective [DecidableEq ι] {i : ι} (hrank : Function.Injective rank)
    (hi : rank i = k) :
    Function.update (swept rank old new k) i (new i) = swept rank old new (k + 1) :=
  swept_write hi fun _ hj hjk => absurd (hrank (hjk.trans hi.symm)) hj

end Clocked
