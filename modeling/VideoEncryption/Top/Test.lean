import VideoEncryption.Clocked.Stutter
import VideoEncryption.Key.Delivery
import VideoEncryption.Sram.Keyed
import VideoEncryption.Subkey.Servers

/-!
# The design

`test2.sv.bak`, the top module `test`, with the modules that a key goes through: `main.c` on the
Nios and `Key_Receiver`, whose `column_shift` is the `KEY_INPUT` of `Image_Input`, and the
`subkeyGenerator` in there, with its four map modules and their multipliers.

`Key_Receiver` and the generator are on `Clk`. `VGA_Clk` is `Clk` halved and `Cam_pclk` comes from
the camera; here the edges of the three come in any order, so that those of the device are among
them, and so do the accesses of the program.

* `stutters` — the design does what the board of `Sram/Subkeys.lean` does, whose generator has four
  servers for maps; the program's accesses are pauses there;
* `io_stateAt` — and the program and the receiver do what they do alone.
-/

namespace VideoEncryption
namespace Top

open Clocked
open Sram (Board ClockEdge Clock Inputs)

/-! ### The modules and their wires -/

/-- The ten bytes of a shift register as one word, the first byte lowest. -/
def keyWord (bytes : Fin 10 → BitVec 8) : BitVec 80 :=
  bytes 9 ++ bytes 8 ++ bytes 7 ++ bytes 6 ++ bytes 5 ++ bytes 4 ++ bytes 3 ++ bytes 2 ++ bytes 1
    ++ bytes 0

/-- `Inoutmodule` with `module1` in it, and `IOmodule` with the program that drives it. -/
structure Test where
  image : Sram.System
  module1 : Subkey.Chip
  io : Key.System

/-- An access of the program, or an edge of one of the clocks with the inputs sampled there. -/
inductive Event
  | access
  | clk
  | vgaClk (i : Inputs)
  | camPclk (i : Inputs)

/-- The clock of an edge. -/
def Event.clock : Event → Option Clock
  | .access => none
  | .clk => some .clk
  | .vgaClk _ => some .vgaClk
  | .camPclk _ => some .camPclk

/-- What an event is for the program and the receiver. -/
def Event.action : Event → Option Key.Action
  | .access => some .access
  | .clk => some .tick
  | .vgaClk _ | .camPclk _ => none

namespace Test

variable (t : Test)

/-- `KEY_INPUT`. -/
def columnShift : BitVec 80 := keyWord t.io.receiver.columnShift

/-- The inputs of `module1`. -/
def port (seed : BitVec 12) : Subkey.Port where
  reset := t.image.regs.subkeyReset
  run := t.image.regs.subkeyRun
  seed := seed
  initialSubkey := t.image.regs.subkeyInput
  latency := Subkey.mapLatency

/-- The inputs of `Inoutmodule`, with `column_shift` and the outputs of `module1` among them. -/
def inputs (i : Inputs) : Inputs :=
  { i with
    keyInput := t.columnShift
    subkeyDone := t.module1.gen.done
    subkeyOutput := t.module1.gen.subkey }

/-- `Inoutmodule` takes a new state; its `Subkey_Reset` resets `module1` at once. -/
def wire (image : Sram.System) (module1 : Subkey.Chip) (seed : BitVec 12) : Test :=
  let next : Test := { t with image := image, module1 := module1 }
  { next with
    module1 := if image.regs.subkeyReset then module1.tick (next.port seed) else module1 }

/-- One event; `rounds` holds what is typed in every round of the program. -/
def event (rounds : ℕ → Key.Round) (seed : BitVec 12) : Event → Test
  | .access => { t with io := Key.step rounds t.io .access }
  | .clk =>
    { t.wire t.image (t.module1.tick (t.port seed)) seed with io := Key.step rounds t.io .tick }
  | .vgaClk i =>
    t.wire { t.image with
      regs := t.image.dataPath (t.inputs i)
      raster := t.image.scan (t.inputs i)
      mem := t.image.stored } t.module1 seed
  | .camPclk i =>
    t.wire { t.image with
      state := if i.reset then .sleep else t.image.nextState (t.inputs i)
      camera := t.image.capture (t.inputs i) } t.module1 seed

end Test

variable {rounds : ℕ → Key.Round} {seed : BitVec 12} {t : Test} {b : Board} {e : Event}
  {i : Inputs}

/-! ### The board in the design -/

/-- The edge of the board that an event is, with `column_shift` on its `KEY_INPUT`. -/
def Test.edge (t : Test) : Event → Option ClockEdge
  | .access => none
  | .clk => some (.clk Subkey.mapLatency)
  | .vgaClk i => some (.vgaClk { i with keyInput := t.columnShift })
  | .camPclk i => some (.camPclk { i with keyInput := t.columnShift })

theorem clock_edge (t : Test) (e : Event) : (t.edge e).map ClockEdge.clock = e.clock := by
  cases e <;> rfl

/-- The design with a board that is in the same state, its generator behind four servers. -/
structure OnBoard (t : Test) (b : Board) : Prop where
  chip : b.chip = t.image
  module1 : t.module1.Serving b.module1

/-- The generator behind `Subkey_Reset`, on both sides. -/
theorem onBoard_wire (image : Sram.System) (seed : BitVec 12) {module1 : Subkey.Chip}
    {g : Subkey.System} (h : module1.Serving g) :
    OnBoard (t.wire image module1 seed) (Board.wire image g) where
  chip := rfl
  module1 := by
    simp only [Test.wire, Board.wire]
    by_cases hreset : image.regs.subkeyReset = true
    · rw [if_pos hreset, if_pos hreset]
      exact Subkey.Chip.serving_reset module1 hreset
    · rw [if_neg hreset, if_neg hreset]
      exact h

/-- **One event** is one edge of the board, or nothing for it. -/
theorem stutters (rounds : ℕ → Key.Round) (seed : BitVec 12) :
    Stutters (Test.event · rounds seed) (Board.edge · Subkey.mapKey seed) Test.edge OnBoard where
  pause t b e h hnone := by
    cases e with
    -- an access is no edge of the board
    | access => exact ⟨h.chip, h.module1⟩
    | clk | vgaClk i | camPclk i => cases hnone
  edge t b e j h hsome := by
    obtain ⟨chip, g, held⟩ := b
    obtain ⟨rfl, hmodule1⟩ := h
    -- the inputs of the board are what the design connects it to
    have hinputs : ∀ i, Board.inputs ⟨t.image, g, held⟩ { i with keyInput := t.columnShift }
        = t.inputs i := by
      intro i
      have hgen : g.gen = t.module1.gen := hmodule1.gen
      simp only [Board.inputs, Test.inputs, hgen]
    cases e with
    | access => cases hsome
    -- `clk` runs the generator, through its servers
    | clk =>
      cases hsome
      have hserving := Subkey.chip_simulates.edge _ _ (t.port seed) hmodule1
      have hwire := onBoard_wire (t := t) t.image seed hserving
      exact ⟨hwire.chip, hwire.module1⟩
    | vgaClk i =>
      cases hsome
      rw [Board.edge, hinputs]
      exact onBoard_wire _ _ hmodule1
    | camPclk i =>
      cases hsome
      exact onBoard_wire _ _ hmodule1

/-! ### The program and the receiver in the design -/

/-- The accesses and the edges of `Clk` among the first `n` events. -/
def actions (inp : ℕ → Event) (n : ℕ) : List Key.Action :=
  (List.range n).filterMap fun k => (inp k).action

theorem actions_succ (inp : ℕ → Event) (n : ℕ) :
    actions inp (n + 1) = actions inp n ++ (inp n).action.toList := by
  rw [actions, List.range_succ, List.filterMap_append, actions]
  cases h : (inp n).action <;> simp [h]

/-- An event is one action of the two, or nothing for them. -/
theorem io_event (t : Test) (e : Event) :
    (t.event rounds seed e).io = run (Key.step rounds) t.io e.action.toList := by
  cases e <;> rfl

theorem io_stateAt (rounds : ℕ → Key.Round) (seed : BitVec 12) (t : Test) (inp : ℕ → Event)
    (n : ℕ) : (stateAt (Test.event · rounds seed) t inp n).io
      = run (Key.step rounds) t.io (actions inp n) := by
  induction n with
  | zero => rfl
  | succ n ih => rw [stateAt_succ, io_event, ih, actions_succ, run_append]

/-- A run of the design in which every access is spaced is a spaced run of the program. -/
theorem along_actions (t : Test) {inp : ℕ → Event}
    (hspaced : ∀ n, ∀ a ∈ (inp n).action,
      Key.Spaced (stateAt (Test.event · rounds seed) t inp n).io a) (n : ℕ) :
    Along (Key.step rounds) Key.Spaced t.io (actions inp n) := by
  -- access by access, and the other events are none
  induction n with
  | zero => exact along_nil _ _
  | succ n ih =>
    rw [actions_succ, along_append]
    refine ⟨ih, ?_⟩
    have h := hspaced n
    rw [io_stateAt] at h
    cases hact : (inp n).action with
    | none => exact along_nil _ _
    | some a => exact along_cons.mpr ⟨h a (by simp [hact]), along_nil _ _⟩

end Top
end VideoEncryption
