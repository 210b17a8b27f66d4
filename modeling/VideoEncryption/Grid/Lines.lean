import Mathlib.Tactic
import Mathlib.Logic.Equiv.Fin.Rotate

/-!
# Lines of a grid

Cells arranged in lines, each cell at one place of one line, and the rotation that moves the content
of every cell one place on along its line and that of the last place to the first.

* `Lines.next` — the place after a place, as a permutation of the cells;
* `rotates_iff` — what is rotated is moved by that permutation;
* `falling`, `rising` — the diagonals and the antidiagonals of a square, and the place after a cell
  by its row and column (`falling_next`, `rising_next`).
-/

namespace Grid

/-- Cells in lines: line `k` has its cells in order, and every cell is at one place of one line. -/
structure Lines (κ α : Type*) where
  length : κ → ℕ
  place : (Σ k, Fin (length k)) ≃ α

namespace Lines

variable {κ α β : Type*} (T : Lines κ α)

/-- The cell one place on, and from the last cell of a line its first one. -/
def next : Equiv.Perm α :=
  T.place.permCongr (Equiv.sigmaCongrRight fun k => finRotate (T.length k))

/-- The contents `b'` are the contents `b`, moved one place on along every line, and from the last
place of a line to its first one. -/
structure Rotates (b b' : α → β) : Prop where
  moves : ∀ k i (h : i + 1 < T.length k),
    b' (T.place ⟨k, ⟨i + 1, h⟩⟩) = b (T.place ⟨k, ⟨i, Nat.lt_of_succ_lt h⟩⟩)
  returns : ∀ k (h : 0 < T.length k),
    b' (T.place ⟨k, ⟨0, h⟩⟩) = b (T.place ⟨k, ⟨T.length k - 1, Nat.sub_one_lt_of_lt h⟩⟩)

variable {T}

theorem next_place (k : κ) (i : Fin (T.length k)) :
    T.next (T.place ⟨k, i⟩) = T.place ⟨k, finRotate _ i⟩ := by
  rw [next, Equiv.permCongr_apply, Equiv.symm_apply_apply]
  rfl

theorem next_place_of_lt {k : κ} {i : ℕ} (h : i + 1 < T.length k) :
    T.next (T.place ⟨k, ⟨i, Nat.lt_of_succ_lt h⟩⟩) = T.place ⟨k, ⟨i + 1, h⟩⟩ := by
  rw [next_place]
  congr 2
  generalize T.length k = m at *
  obtain ⟨n, rfl⟩ : ∃ n, m = n + 1 := ⟨m - 1, by omega⟩
  exact finRotate_of_lt (by omega)

theorem next_place_last {k : κ} (h : 0 < T.length k) :
    T.next (T.place ⟨k, ⟨T.length k - 1, Nat.sub_one_lt_of_lt h⟩⟩) = T.place ⟨k, ⟨0, h⟩⟩ := by
  rw [next_place]
  congr 2
  generalize T.length k = m at *
  obtain ⟨n, rfl⟩ : ∃ n, m = n + 1 := ⟨m - 1, by omega⟩
  exact finRotate_last'

/-- **A rotation moves every content to the next place.** -/
theorem rotates_iff {b b' : α → β} : T.Rotates b b' ↔ ∀ a, b' (T.next a) = b a := by
  constructor
  -- every cell is a place on one of the lines
  · intro h a
    obtain ⟨⟨k, i, hi⟩, rfl⟩ := T.place.surjective a
    by_cases hlast : i + 1 < T.length k
    · rw [next_place_of_lt hlast]
      exact h.moves k i hlast
    -- the last place of a line is followed by its first one
    · obtain rfl : i = T.length k - 1 := by omega
      rw [next_place_last (by omega)]
      exact h.returns k (by omega)
  · intro h
    refine ⟨fun k i hi => ?_, fun k hk => ?_⟩
    · rw [← next_place_of_lt hi]
      exact h _
    · rw [← next_place_last hk]
      exact h _

/-- The same lines through renamed cells. -/
def map {γ : Type*} (T : Lines κ α) (e : α ≃ γ) : Lines κ γ where
  length := T.length
  place := T.place.trans e

theorem next_map {γ : Type*} (e : α ≃ γ) (c : γ) : (T.map e).next c = e (T.next (e.symm c)) := rfl

end Lines

/-! ### The diagonals of a square -/

variable {n : ℕ}

/-- The diagonals of the square of side `n`, from the lower left corner to the upper right one, each
from its upper left end down to the right. -/
def falling (n : ℕ) : Lines (Fin (2 * n - 1)) (Fin n × Fin n) where
  length k := min (k + 1) (2 * n - 1 - k)
  place :=
    { toFun := fun z => (⟨n - 1 - z.1 + z.2, by omega⟩, ⟨z.1 - (n - 1) + z.2, by omega⟩)
      invFun := fun c => ⟨⟨c.2 + (n - 1) - c.1, by omega⟩, ⟨min c.1 c.2, by simp only; omega⟩⟩
      left_inv := fun z => by
        obtain ⟨⟨k, hk⟩, i, hi⟩ := z
        simp only at hi ⊢
        refine Sigma.ext (Fin.ext ?_) ((Fin.heq_ext_iff ?_).mpr ?_) <;> simp only <;> omega
      right_inv := fun c => by
        obtain ⟨⟨y, hy⟩, x, hx⟩ := c
        refine Prod.ext (Fin.ext ?_) (Fin.ext ?_) <;> simp only <;> omega }

/-- The antidiagonals: the mirror images of the diagonals, each from its upper right end down to the
left. -/
def rising (n : ℕ) : Lines (Fin (2 * n - 1)) (Fin n × Fin n) :=
  (falling n).map (Equiv.prodCongr (Equiv.refl _) Fin.revPerm)

/-- Row and column of a place. -/
theorem falling_place (k : Fin (2 * n - 1)) (i : Fin ((falling n).length k)) :
    (((falling n).place ⟨k, i⟩).1 : ℕ) = n - 1 - k + i ∧
      (((falling n).place ⟨k, i⟩).2 : ℕ) = k - (n - 1) + i :=
  ⟨rfl, rfl⟩

/-- The place after a cell on its diagonal: one step down and to the right, or back along the
diagonal to the first row or column. -/
theorem falling_next (c : Fin n × Fin n) :
    (((falling n).next c).1 : ℕ)
        = (if (c.1 : ℕ) + 1 < n ∧ (c.2 : ℕ) + 1 < n then (c.1 : ℕ) + 1
          else c.1 - min (c.1 : ℕ) c.2) ∧
      (((falling n).next c).2 : ℕ)
        = if (c.1 : ℕ) + 1 < n ∧ (c.2 : ℕ) + 1 < n then (c.2 : ℕ) + 1
          else c.2 - min (c.1 : ℕ) c.2 := by
  obtain ⟨⟨k, i, hi⟩, rfl⟩ := (falling n).place.surjective c
  have hk := k.isLt
  have hlength : (falling n).length k = min ((k : ℕ) + 1) (2 * n - 1 - k) := rfl
  obtain ⟨hrow, hcolumn⟩ := falling_place k ⟨i, hi⟩
  rw [hrow, hcolumn]
  -- inside the square both coordinates go up
  by_cases hlast : i + 1 < (falling n).length k
  · obtain ⟨hrow', hcolumn'⟩ := falling_place k ⟨i + 1, hlast⟩
    have hinside : n - 1 - (k : ℕ) + i + 1 < n ∧ (k : ℕ) - (n - 1) + i + 1 < n := by omega
    rw [Lines.next_place_of_lt hlast, hrow', hcolumn', if_pos hinside, if_pos hinside]
    exact ⟨rfl, rfl⟩
  · -- the last place of the diagonal
    have hend : i = (falling n).length k - 1 := by omega
    have houtside : ¬ (n - 1 - (k : ℕ) + i + 1 < n ∧ (k : ℕ) - (n - 1) + i + 1 < n) := by omega
    have hback : min (n - 1 - (k : ℕ) + i) ((k : ℕ) - (n - 1) + i) = i := by omega
    rw [if_neg houtside, if_neg houtside, hback, Nat.add_sub_cancel, Nat.add_sub_cancel]
    subst hend
    rw [Lines.next_place_last (by omega)]
    exact falling_place k ⟨0, by omega⟩

/-- The place after a cell on its antidiagonal. -/
theorem rising_next (c : Fin n × Fin n) :
    (((rising n).next c).1 : ℕ)
        = (if (c.1 : ℕ) + 1 < n ∧ 0 < (c.2 : ℕ) then (c.1 : ℕ) + 1
          else c.1 - min (c.1 : ℕ) (n - 1 - c.2)) ∧
      (((rising n).next c).2 : ℕ)
        = if (c.1 : ℕ) + 1 < n ∧ 0 < (c.2 : ℕ) then (c.2 : ℕ) - 1
          else c.2 + min (c.1 : ℕ) (n - 1 - c.2) := by
  obtain ⟨y, x⟩ := c
  have hy := y.isLt
  have hx := x.isLt
  -- an antidiagonal is a diagonal of the mirrored square
  obtain ⟨hrow, hcolumn⟩ := falling_next (y, x.rev)
  rw [Fin.val_rev] at hrow hcolumn
  have hmirror : (rising n).next (y, x)
      = (((falling n).next (y, x.rev)).1, ((falling n).next (y, x.rev)).2.rev) := by
    rw [rising, Lines.next_map]
    rfl
  rw [hmirror, Fin.val_rev, hrow, hcolumn]
  simp only
  split_ifs <;> omega

end Grid
