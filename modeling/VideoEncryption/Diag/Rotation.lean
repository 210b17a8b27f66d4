import VideoEncryption.Clocked.Machine
import VideoEncryption.Clocked.Word

/-!
# The diagonal rotation

`diagRotation.sv`: loads a 32 by 32 block of the frame from the SRAM, shifts it along one of the two
diagonals, chosen by the top bit of the key register, and writes it back. The key register shifts by
one bit with every block and is loaded every fourth row of blocks.

The SRAM returns the word at `SRAM_ADDR` in the same tick and stores `SRAM_DQ_out` there at a clock
edge with `SRAM_WE_N` low.
-/

namespace VideoEncryption
namespace Diag

open Clocked

/-- The states of `diagRotation`. -/
inductive Fsm
  | wait
  | loadKey
  | loadBlock
  | shift
  | writeBlock
deriving DecidableEq, Repr

/-- A block of pixels, by row and column. -/
abbrev Block := BitVec 5 → BitVec 5 → BitVec 16

/-- The registers of `diagRotation`. -/
structure Chip where
  state : Fsm
  subblock : Block
  blockX : BitVec 5
  blockY : BitVec 4
  x : BitVec 5
  y : BitVec 5
  currSubkey : BitVec 80

/-- The inputs sampled at a clock edge, the SRAM's apart. -/
structure Port where
  reset : Bool
  run : Bool
  subkey : BitVec 80

/-- The contents of the SRAM. -/
abbrev Memory := BitVec 20 → BitVec 16

/-- The chip and its SRAM. -/
structure System where
  chip : Chip
  mem : Memory

/-- `SHIFT` on the block: along the falling diagonal for the key bit 0, along the rising one for 1.
What leaves the block at the bottom row or the last column comes in at the other end of its
diagonal pair, and the corner that the loops leave out keeps its pixel. -/
def shiftBlock (up : Bool) (b : Block) : Block := fun y x =>
  if up = false then
    if y = 0 then if x = 31 then b 0 31 else b (31 - x) 31
    else if x = 0 then b 31 (31 - y)
    else b (y - 1) (x - 1)
  else
    if y = 0 then if x = 0 then b 0 0 else b x 0
    else if x = 31 then b 31 y
    else b (y - 1) (x + 1)

namespace Chip

variable (s : Chip)

/-! ### The memory interface -/

/-- The pixel the counters point to. -/
def pixelAddr : BitVec 20 :=
  640 * (32 * s.blockY.setWidth 20 + s.y.setWidth 20) + 32 * s.blockX.setWidth 20
    + s.x.setWidth 20

def sramAddr : BitVec 20 :=
  match s.state with
  | .loadBlock | .writeBlock => s.pixelAddr
  | _ => 0

def sramDqOut : BitVec 16 :=
  match s.state with
  | .writeBlock => s.subblock s.y s.x
  | _ => 0

def sramDqImp : Bool := decide (s.state ≠ .writeBlock)

def sramOeN : Bool := decide (s.state ≠ .loadBlock)

def sramWeN : Bool := decide (s.state ≠ .writeBlock)

/-! ### The outputs to the rest of the chip -/

def done : Bool := decide (s.state = .loadKey ∧ s.blockY = 15)

def keyAck : Bool :=
  decide (s.state = .loadKey ∧ s.blockY ≠ 15 ∧ s.blockY.extractLsb' 0 2 = 0)

/-! ### The state routine -/

def waitRoutine : Chip :=
  { s with blockX := 0, blockY := 0, x := 0, y := 0, currSubkey := 0 }

def loadKeyRoutine (p : Port) : Chip :=
  { s with
    currSubkey := if s.blockY.extractLsb' 0 2 = 0 then p.subkey else s.currSubkey }

def loadBlockRoutine (dqIn : BitVec 16) : Chip :=
  { s with
    x := s.x + 1
    y := if s.x = 31 then s.y + 1 else s.y
    subblock := fun j i => if j = s.y ∧ i = s.x then dqIn else s.subblock j i }

def shiftRoutine : Chip :=
  { s with
    x := 0
    y := 0
    currSubkey := s.currSubkey <<< 1
    subblock := shiftBlock (s.currSubkey.getLsbD 79) s.subblock }

def writeBlockRoutine : Chip :=
  { s with
    x := s.x + 1
    y := if s.x = 31 then s.y + 1 else s.y
    blockX :=
      if s.x = 31 ∧ s.y = 31 then if s.blockX = 19 then 0 else s.blockX + 1 else s.blockX
    blockY := if s.x = 31 ∧ s.y = 31 ∧ s.blockX = 19 then s.blockY + 1 else s.blockY }

def routine (p : Port) (dqIn : BitVec 16) : Chip :=
  match s.state with
  | .wait => s.waitRoutine
  | .loadKey => s.loadKeyRoutine p
  | .loadBlock => s.loadBlockRoutine dqIn
  | .shift => s.shiftRoutine
  | .writeBlock => s.writeBlockRoutine

/-! ### The state transition -/

/-- The transition decision. `LOAD_KEY` assigns `WAIT` after the last row of blocks and then
`LOAD_BLOCK` in any case; the last assignment counts. -/
def nextState (p : Port) : Fsm :=
  match s.state with
  | .wait => if p.run then .loadKey else .wait
  | .loadKey => .loadBlock
  | .loadBlock => if s.x = 31 ∧ s.y = 31 then .shift else .loadBlock
  | .shift => .writeBlock
  | .writeBlock =>
    if s.x = 31 ∧ s.y = 31 ∧ s.blockX = 19 then .loadKey else .writeBlock

/-- The registers after `Reset`. -/
def reset : Chip where
  state := .wait
  subblock := fun _ _ => 0
  blockX := 0
  blockY := 0
  x := 0
  y := 0
  currSubkey := 0

/-- One clock edge of the chip. -/
def tick (p : Port) (dqIn : BitVec 16) : Chip :=
  if p.reset then reset else { s.routine p dqIn with state := s.nextState p }

end Chip

/-- One clock edge of the chip and the SRAM. -/
def tick (s : System) (p : Port) : System where
  chip := s.chip.tick p (s.mem s.chip.sramAddr)
  mem :=
    if s.chip.sramWeN then s.mem
    else Function.update s.mem s.chip.sramAddr s.chip.sramDqOut

end Diag
end VideoEncryption
