import VideoEncryption.Diag.Blocks

/-!
# How a run of the rotation ends

After the fifteenth row of blocks `LOAD_KEY` asserts `done` and chooses `WAIT`, and then chooses
`LOAD_BLOCK` all the same: the machine goes on with a sixteenth row of blocks below the frame and
never comes back to `WAIT`.

* `within_frame` — up to then `done` is low and every access is inside the frame;
* `overruns` — the tick after `done` reads below the frame; `never_waits` — `WAIT` is not entered
  again;
* `never_finishes_inside` — **no run ends in `WAIT`, and every run leaves the frame**.
-/

namespace VideoEncryption
namespace Diag

open Clocked

/-- An SRAM word is read or written in this tick. -/
def Chip.accesses (s : Chip) : Bool := !s.sramOeN || !s.sramWeN

/-- The word accessed in this tick, if there is one, belongs to the frame. -/
def Chip.InsideFrame (s : Chip) : Prop := s.accesses = true → s.sramAddr.toNat < 640 * 480

/-- The run returns to `WAIT` right after the first tick with `done`, at which all fifteen rows of
blocks have been written, and every access up to then is inside the frame. -/
structure FinishesInside (s : System) (inp : ℕ → Port) (T : ℕ) : Prop where
  done : (stateAt tick s inp T).chip.done = true
  written : (stateAt tick s inp T).chip.blockY = 15
  first : ∀ n < T, (stateAt tick s inp n).chip.done = false
  waits : (stateAt tick s inp (T + 1)).chip.state = .wait
  inside : ∀ n ≤ T, (stateAt tick s inp n).chip.InsideFrame

variable {s : System} {inp : ℕ → Port} {p : Port} {row n : ℕ}

/-! ### Up to the fifteenth row -/

/-- Counters inside the frame point into it. -/
theorem insideFrame_of_counters {c : Chip} {bx : ℕ} (hbx : bx < 20) (hrow : row < 15)
    (hX : c.blockX = BitVec.ofNat 5 bx) (hY : c.blockY = BitVec.ofNat 4 row)
    (hx : c.x = BitVec.ofNat 5 n) (hy : c.y = BitVec.ofNat 5 (n / 32)) : c.InsideFrame := by
  have hpixel : c.pixelAddr.toNat < 640 * 480 := by
    rw [pixelAddr_eq hbx (by omega) hX hY hx hy,
      toNat_ofNat_of_lt
        (addr_lt hbx (by omega) (Nat.mod_lt _ (by omega)) (Nat.mod_lt _ (by omega)))]
    unfold addr
    omega
  -- the states that drive no pixel address drive 0
  intro _
  unfold Chip.sramAddr
  split
  · exact hpixel
  · exact hpixel
  · decide

/-- A tick that accesses no word stays inside the frame. -/
theorem insideFrame_of_state {c : Chip} (h : c.state ≠ .loadBlock) (h' : c.state ≠ .writeBlock) :
    c.InsideFrame := by
  intro hacc
  simp [Chip.accesses, Chip.sramOeN, Chip.sramWeN, h, h'] at hacc

theorem done_of_state {c : Chip} (h : c.state ≠ .loadKey) : c.done = false := by
  simp [Chip.done, h]

/-- **Before the tick with `done`** no word outside the frame is accessed. -/
theorem within_frame (hs : s.chip.state = .wait) (hrun : (inp 0).run = true)
    (hp : ∀ n, (inp n).reset = false) (hn : n < rowEnd 14) :
    (stateAt tick s inp n).chip.done = false ∧ (stateAt tick s inp n).chip.InsideFrame := by
  rcases n with _ | n
  · rw [stateAt_zero]
    exact ⟨done_of_state (by simp [hs]), insideFrame_of_state (by simp [hs]) (by simp [hs])⟩
  -- tick `m` of row `row`
  obtain ⟨row, m, hrow, hm, rfl⟩ : ∃ row m, row < 15 ∧ m < 21506 ∧ n = 21506 * row + m := by
    unfold rowEnd at hn
    exact ⟨n / 21506, n % 21506, by omega, Nat.mod_lt _ (by omega), (Nat.div_add_mod _ _).symm⟩
  have hstart := rowStart hs hrun hp (show row ≤ 15 by omega)
  have hp' : ∀ n, (inp (1 + 21506 * row + n)).reset = false := fun n => hp _
  rw [show 21506 * row + m + 1 = 1 + 21506 * row + m by omega, stateAt_add]
  rcases m with _ | m
  · -- `LOAD_KEY` of a row inside the frame
    rw [stateAt_zero]
    have hY : (stateAt tick s inp (1 + 21506 * row)).chip.blockY ≠ 15 := by
      rw [hstart.blockY]
      have h15 : BitVec.ofNat 4 row = BitVec.ofNat 4 15 ↔ row = 15 :=
        ofNat_inj (by omega) (by omega)
      exact fun h => absurd (h15.mp h) (by omega)
    refine ⟨?_, insideFrame_of_state (by simp [hstart.state]) (by simp [hstart.state])⟩
    exact decide_eq_false fun h => hY h.2
  · rcases Nat.lt_or_ge m 1025 with hload | hwrite
    · -- the load, and the tick in `SHIFT` at its end
      have hl := hstart.loading _ hrow (subkey_keyTick inp) hp' (show m ≤ 1024 by omega)
      rw [Nat.add_comm m 1]
      refine ⟨done_of_state ?_, insideFrame_of_counters (by omega : 0 < 20) hrow hl.blockX
        hl.blockY hl.x hl.y⟩
      rw [hl.state]
      split <;> decide
    · -- the write
      obtain ⟨j, rfl⟩ : ∃ j, m = 1025 + j := ⟨m - 1025, by omega⟩
      have hw := hstart.writing _ hrow (subkey_keyTick inp) hp' (show j ≤ 20480 by omega)
      have hj : j < 20480 := by omega
      have hstate := hw.state
      have hX := hw.blockX
      have hY := hw.blockY
      rw [if_pos hj] at hstate hX hY
      rw [show 1025 + j + 1 = 1026 + j by omega]
      exact ⟨done_of_state (by rw [hstate]; decide),
        insideFrame_of_counters (by omega) hrow hX hY hw.x hw.y⟩

/-! ### After the fifteenth row -/

/-- **The overrun.** `done` is high after the fifteenth row, and the tick after it reads the first
word below the frame. -/
theorem overruns (hs : s.chip.state = .wait) (hrun : (inp 0).run = true)
    (hp : ∀ n, (inp n).reset = false) :
    (stateAt tick s inp (rowEnd 14)).chip.done = true ∧
      (stateAt tick s inp (rowEnd 14 + 1)).chip.sramOeN = false ∧
      (stateAt tick s inp (rowEnd 14 + 1)).chip.sramAddr = 640 * 480 := by
  have hstart := rowStart hs hrun hp (le_refl 15)
  rw [show 1 + 21506 * 15 = rowEnd 14 from rfl] at hstart
  have hchip : (stateAt tick s inp (rowEnd 14 + 1)).chip
      = { (stateAt tick s inp (rowEnd 14)).chip.loadKeyRoutine (inp (rowEnd 14)) with
          -- in `LOAD_KEY` with all counters past the fifteenth row
          state := .loadBlock } := by
    rw [stateAt_succ, tick_chip (hp _), Chip.routine, Chip.nextState, hstart.state]
  refine ⟨?_, ?_, ?_⟩
  · simp [Chip.done, hstart.state, hstart.blockY]
  · rw [hchip]
    rfl
  -- the pixel under these counters is the first one below the frame
  · rw [hchip]
    change (stateAt tick s inp (rowEnd 14)).chip.pixelAddr = _
    simp only [Chip.pixelAddr, hstart.blockX, hstart.blockY, hstart.x, hstart.y]
    rfl

/-- **`WAIT` is not entered again** without a reset. -/
theorem never_waits (hs : s.chip.state = .wait) (hrun : (inp 0).run = true)
    (hp : ∀ n, (inp n).reset = false) (n : ℕ) :
    (stateAt tick s inp (n + 1)).chip.state ≠ .wait := by
  induction n with
  | zero =>
    rw [stateAt_succ, stateAt_zero, tick_chip (hp 0)]
    simp [Chip.nextState, hs, hrun]
  | succ n ih =>
    -- each state by itself: none but `WAIT` stays in or goes to `WAIT`
    rw [stateAt_succ, tick_chip (hp _)]
    change Chip.nextState _ _ ≠ _
    generalize (stateAt tick s inp (n + 1)).chip = c at ih ⊢
    unfold Chip.nextState
    cases hc : c.state
    case wait => exact absurd hc ih
    case loadKey | shift => exact Fsm.noConfusion
    case loadBlock | writeBlock =>
      dsimp only
      split_ifs <;> decide

/-- **No run ends in `WAIT`, and every run leaves the frame**, whatever the frame and the subkeys
are: `done` comes with a transition to `LOAD_BLOCK`. -/
theorem never_finishes_inside (s : System) (hs : s.chip.state = .wait) (inp : ℕ → Port)
    (hrun : (inp 0).run = true) (hp : ∀ n, (inp n).reset = false) :
    (∀ T, ¬ FinishesInside s inp T) ∧ ¬ ∀ n, (stateAt tick s inp n).chip.InsideFrame := by
  refine ⟨fun T h => never_waits hs hrun hp T h.waits, fun hinside => ?_⟩
  obtain ⟨-, hoe, haddr⟩ := overruns hs hrun hp
  have hlt := hinside (rowEnd 14 + 1) (by simp [Chip.accesses, hoe])
  rw [haddr] at hlt
  exact absurd hlt (by decide)

/-- A frame of zeros, with the key 0. -/
theorem never_finishes_inside_black :
    (∀ T, ¬ FinishesInside ⟨.reset, fun _ => 0⟩ heldRun T) ∧
      ¬ ∀ n, (stateAt tick ⟨.reset, fun _ => 0⟩ heldRun n).chip.InsideFrame :=
  never_finishes_inside ⟨.reset, fun _ => 0⟩ rfl heldRun rfl fun _ => rfl

/-- The frame with one pixel. -/
theorem onePixel_never_finishes : ¬ ∃ T, FinishesInside onePixelStart heldRun T := by
  rintro ⟨T, h⟩
  exact never_waits rfl rfl (fun _ => rfl) T h.waits

end Diag
end VideoEncryption
