import VideoEncryption.Diag.Blocks
import VideoEncryption.Grid.Lines

/-!
# The diagonals under `SHIFT`

`SHIFT` is written as one loop for the first row and the border column and a second one for the
interior, with a corner that neither of them assigns. Together they rotate the diagonals of the
block, or its antidiagonals, by one place: `target up` leads from a cell to the next one of its line
(`target_falling`, `target_rising`).
-/

namespace VideoEncryption
namespace Diag

open Grid

/-- Row and column of a cell, as the loops count them. -/
def address (c : Fin 32 × Fin 32) : BitVec 5 × BitVec 5 := (BitVec.ofNat 5 c.1, BitVec.ofNat 5 c.2)

/-- The words of a block, cell by cell. -/
def cells (b : Block) (c : Fin 32 × Fin 32) : BitVec 16 := b (address c).1 (address c).2

/-- With the key bit 0 a cell is followed by the next one on its diagonal. -/
theorem target_falling (c : Fin 32 × Fin 32) :
    target false (address c) = address ((falling 32).next c) := by
  -- the cases of the source, on all 1024 cells
  have hcells : ∀ y x : Fin 32, target false (address (y, x))
      = if (y : ℕ) + 1 < 32 ∧ (x : ℕ) + 1 < 32 then
          (BitVec.ofNat 5 (y + 1), BitVec.ofNat 5 (x + 1))
        else (BitVec.ofNat 5 (y - min (y : ℕ) x), BitVec.ofNat 5 (x - min (y : ℕ) x)) := by
    decide +kernel
  obtain ⟨hrow, hcolumn⟩ := falling_next c
  calc target false (address c) = _ := hcells c.1 c.2
    _ = (BitVec.ofNat 5 ((falling 32).next c).1, BitVec.ofNat 5 ((falling 32).next c).2) := by
      rw [hrow, hcolumn]
      split_ifs <;> rfl

/-- With the key bit 1 a cell is followed by the next one on its antidiagonal. -/
theorem target_rising (c : Fin 32 × Fin 32) :
    target true (address c) = address ((rising 32).next c) := by
  have hcells : ∀ y x : Fin 32, target true (address (y, x))
      = if (y : ℕ) + 1 < 32 ∧ 0 < (x : ℕ) then
          (BitVec.ofNat 5 (y + 1), BitVec.ofNat 5 (x - 1))
        else (BitVec.ofNat 5 (y - min (y : ℕ) (32 - 1 - x)),
          BitVec.ofNat 5 (x + min (y : ℕ) (32 - 1 - x))) := by
    decide +kernel
  -- the next cell of the library has the same coordinates
  obtain ⟨hrow, hcolumn⟩ := rising_next c
  calc target true (address c) = _ := hcells c.1 c.2
    _ = (BitVec.ofNat 5 ((rising 32).next c).1, BitVec.ofNat 5 ((rising 32).next c).2) := by
      rw [hrow, hcolumn]
      split_ifs <;> rfl

variable {up : Bool} {b : Block}

/-- The word of a cell goes to the cell's target. -/
theorem shiftBlock_target (z : BitVec 5 × BitVec 5) :
    shiftBlock up b (target up z).1 (target up z).2 = b z.1 z.2 := by
  have hback : shiftPerm up (target up z) = z := source_target up z.1 z.2
  rw [shiftBlock_eq_shiftPerm, hback]

/-- A rotation of lines, if `target` leads along them. -/
theorem rotates_of_target {κ : Type*} {T : Lines κ (Fin 32 × Fin 32)}
    (h : ∀ c, target up (address c) = address (T.next c)) :
    T.Rotates (cells b) (cells (shiftBlock up b)) := by
  rw [Lines.rotates_iff]
  intro c
  rw [cells, ← h, shiftBlock_target]
  rfl

/-- Every block is the transformation of exactly one block. -/
theorem shiftBlock_bijective (up : Bool) : Function.Bijective (shiftBlock up) := by
  constructor
  -- a block is read back from its transformation
  · intro b b' heq
    funext y x
    calc b y x = shiftBlock up b (target up (y, x)).1 (target up (y, x)).2 :=
          (shiftBlock_target (y, x)).symm
      _ = shiftBlock up b' (target up (y, x)).1 (target up (y, x)).2 := by rw [heq]
      _ = b' y x := shiftBlock_target (y, x)
  -- and every block is one: what is read at a target came from there
  · intro b
    refine ⟨fun y x => b (target up (y, x)).1 (target up (y, x)).2, ?_⟩
    funext y x
    have hback : target up (shiftPerm up (y, x)) = (y, x) := target_source up y x
    rw [shiftBlock_eq_shiftPerm, hback]

/-- **`SHIFT` rotates diagonals.** With the key bit 0 the tick in `SHIFT` moves every word one place
down along its diagonal, the last word of each of the 63 diagonals to the first place; with the key
bit 1 it does so on the antidiagonals. Both are bijections on blocks. -/
theorem shift_rotates (s : Chip) (hs : s.state = .shift) (p : Port) (hp : p.reset = false)
    (dqIn : BitVec 16) :
    (s.currSubkey.getLsbD 79 = false →
        (falling 32).Rotates (cells s.subblock) (cells (s.tick p dqIn).subblock)) ∧
      (s.currSubkey.getLsbD 79 = true →
        (rising 32).Rotates (cells s.subblock) (cells (s.tick p dqIn).subblock)) ∧
      ∀ up, Function.Bijective (shiftBlock up) := by
  -- the tick in `SHIFT` is the transformation under the top key bit
  have hblock : (s.tick p dqIn).subblock = shiftBlock (s.currSubkey.getLsbD 79) s.subblock := by
    rw [Chip.tick, hp, Chip.routine, hs]
    rfl
  refine ⟨fun hbit => ?_, fun hbit => ?_, shiftBlock_bijective⟩
  · rw [hblock, hbit]
    exact rotates_of_target target_falling
  · rw [hblock, hbit]
    exact rotates_of_target target_rising

/-- The chip in `SHIFT`, every word of its block a word of its own. -/
def shifting : Chip :=
  { Chip.reset with
    state := .shift
    subblock := fun y x => 32 * y.setWidth 16 + x.setWidth 16 }

/-- Its diagonals are rotated. -/
theorem shift_rotates_shifting :
    (falling 32).Rotates (cells shifting.subblock)
      (cells (shifting.tick ⟨false, false, 0⟩ 0).subblock) :=
  (shift_rotates shifting rfl ⟨false, false, 0⟩ rfl 0).1 (by decide)

end Diag
end VideoEncryption
