import VideoEncryption.Clocked.Machine
import VideoEncryption.Clocked.Tristate
import VideoEncryption.Clocked.Word

/-!
# `Image_Input` with the frame in SRAM

`Image_mod.sv.bak`: the revision that keeps the frame in the SRAM and encrypts it there in place, in
four phases, each a micro-sequence counted by `rev`. State register, capture, data path and raster
step on one clock.

The SRAM is asynchronous: it drives the bus with the word at `SRAM_ADDR` while `SRAM_OE_N` is low
and `SRAM_WE_N` high, and holds `SRAM_DQ` at `SRAM_ADDR` from the next edge on while `SRAM_WE_N` is
low. Its pins are registers, so a word is read in the tick after its address was set.

The chip releases the bus with `16'bZ` wherever it reads but in `DISPLAY`, which assigns `15'bZ`:
there it keeps the top wire low against the SRAM.

The two horizontal and the two vertical shifting phases are one definition, `shiftTick`, and so are
the two passes of the XOR phase, `maskTick`; what tells them apart is in `ShiftPhase` and
`MaskPass`.
-/

namespace VideoEncryption
namespace Sram

open Clocked (Driver)

/-! ### States, inputs and registers -/

/-- The states of `Image_Input`. -/
inductive Fsm
  | sleep
  | prep
  | prep2
  | run
  | display
  | encryptInterval
  | encryptHor
  | encryptVer
  | hiatus
  | encryptVerInterval
  | encryptMixInterval
  | encryptMix
  | encryptXor
  | decryptVerInterval
  | decryptHor
  | decryptVer
  | decryptInterval
  | decryptHorInterval
  | decryptMix
  | decryptXor
  | keyGen
  | keyInterval
deriving DecidableEq, Repr

/-- The inputs sampled at an edge. `floating` is what the wires of the data bus happen to read that
nobody drives, or that the chip and the SRAM drive against each other. -/
structure Inputs where
  reset : Bool
  run : Bool
  camVsync : Bool
  camHref : Bool
  camData : BitVec 8
  keyInput : BitVec 80
  sw1 : Bool
  sw2 : Bool
  sw14 : Bool
  sw15 : Bool
  sw16 : Bool
  sw17 : Bool
  subkeyDone : Bool
  subkeyOutput : BitVec 80
  floating : BitVec 16

/-- The SRAM pins; `dq` is what the chip puts on the data bus. -/
structure Pins where
  addr : BitVec 20
  dq : Driver 16
  oeN : Bool
  lbN : Bool
  ubN : Bool
  ceN : Bool
  weN : Bool
deriving DecidableEq, Repr

namespace Pins

/-- The pins of a read of `a`. -/
def read (a : BitVec 20) : Pins where
  addr := a
  dq := .highZ
  oeN := false
  lbN := false
  ubN := false
  ceN := false
  weN := true

/-- The pins of a read of `a` in `DISPLAY`, with the bus assigned `15'bZ`. -/
def display (a : BitVec 20) : Pins where
  addr := a
  dq := .shortZ 15
  oeN := false
  lbN := false
  ubN := false
  ceN := false
  weN := true

/-- The pins of a write of `w` at `a`. -/
def write (a : BitVec 20) (w : BitVec 16) : Pins where
  addr := a
  dq := .word w
  oeN := true
  lbN := false
  ubN := false
  ceN := false
  weN := false

/-- The pins of an SRAM that is left alone. -/
def off : Pins where
  addr := 0
  dq := .highZ
  oeN := true
  lbN := true
  ubN := true
  ceN := false
  weN := true

end Pins

/-- The registers of the capture block; `pins` are the `LOCAL_SRAM` ones. -/
structure Camera where
  counter : BitVec 21
  byteNum : Bool
  temp : BitVec 8
  pins : Pins

/-- The raster position. -/
structure Raster where
  hc : BitVec 10
  vc : BitVec 10

/-- The registers of the block that drives the SRAM. -/
structure Regs where
  rev : BitVec 6
  keyCounter : BitVec 6
  blockCounter : BitVec 20
  rowCounter : BitVec 20
  columnCounter : BitVec 20
  rowCounter2 : BitVec 20
  columnCounter2 : BitVec 20
  tempStorage : Vector (BitVec 16) 8
  tempStorage2 : BitVec 16
  tempStorage3 : BitVec 16
  subkey : Vector (BitVec 80) 8
  subkeyRun : Bool
  subkeyReset : Bool
  subkeyInput : BitVec 80
  pins : Pins
  red : BitVec 8
  green : BitVec 8
  blue : BitVec 8

/-- `KEY`: the subkey that one of the sliding switches selects; `Subkey` has no place 0. -/
def Regs.key (r : Regs) (i : Inputs) : BitVec 80 :=
  if i.sw14 && !i.sw15 && !i.sw16 && !i.sw17 then r.subkey[1]
  else if !i.sw14 && i.sw15 && !i.sw16 && !i.sw17 then r.subkey[2]
  else if !i.sw14 && !i.sw15 && i.sw16 && !i.sw17 then r.subkey[3]
  else if !i.sw14 && !i.sw15 && !i.sw16 && i.sw17 then r.subkey[4]
  else 0

/-! ### The shifting phases -/

/-- What a shifting phase or a pass of the XOR phase scans: a line and a position in it. -/
inductive Axis
  | hor
  | ver
deriving DecidableEq, Repr

/-- The counter of the lines: `hor` scans rows, which `column_counter` counts. -/
def Regs.line (r : Regs) : Axis → BitVec 20
  | .hor => r.columnCounter
  | .ver => r.rowCounter

/-- The counter of the positions in a line. -/
def Regs.pos (r : Regs) : Axis → BitVec 20
  | .hor => r.rowCounter
  | .ver => r.columnCounter

/-- Set both counters. -/
def Regs.goTo (r : Regs) (a : Axis) (line pos : BitVec 20) : Regs :=
  { r with
    rowCounter := match a with | .hor => pos | .ver => line
    columnCounter := match a with | .hor => line | .ver => pos }

/-- What tells the four shifting phases apart: the axis, the number of blocks of lines, the last
position of a line, the position from which on the side buffer is written back, the addresses of the
word at a position and of the word eight places ahead, and what happens to `rev` at a skipped
block. -/
structure ShiftPhase where
  axis : Axis
  blocks : BitVec 20
  last : BitVec 20
  tail : BitVec 20
  address : BitVec 20 → BitVec 20 → BitVec 20
  ahead : BitVec 20 → BitVec 20 → BitVec 20
  skipClearsRev : Bool

namespace Regs

variable (p : ShiftPhase) (r : Regs)

/-- `rev` 1: take the word into the side buffer. -/
def shiftFill (dq : BitVec 16) : Regs :=
  { r with
    pins := .read (p.address (r.line p.axis) (r.pos p.axis))
    tempStorage := r.tempStorage.setIfInBounds (r.pos p.axis).toNat dq
    rev := if r.pos p.axis = 7 then 2 else 0 }.goTo p.axis (r.line p.axis)
      (if r.pos p.axis = 7 then 0 else r.pos p.axis + 1)

/-- `rev` 2 and 3: fetch the word eight places ahead. -/
def shiftFetch (dq : BitVec 16) : Regs :=
  { r with
    pins := .read (p.ahead (r.line p.axis) (r.pos p.axis))
    tempStorage2 := dq
    rev := r.rev + 1 }

/-- `rev` 4: write it back, or the word of the side buffer at the end of the line. -/
def shiftStore : Regs :=
  { r with
    pins := .write (p.address (r.line p.axis) (r.pos p.axis))
      (if r.pos p.axis < p.tail then r.tempStorage2
       else r.tempStorage[(r.pos p.axis - p.tail).toNat]?.getD 0)
    rev := 5 }

/-- `rev` 5: the next position, or the next line. The line counter is compared after its
increment, in 32-bit arithmetic. -/
def shiftAdvance : Regs :=
  if r.pos p.axis = p.last then
    { r with
      rev := 0
      blockCounter :=
        if (r.line p.axis + 1).toNat = 8 * r.blockCounter.toNat + 7 then r.blockCounter + 1
        else r.blockCounter }.goTo p.axis (r.line p.axis + 1) 0
  else { r with rev := 2 }.goTo p.axis (r.line p.axis) (r.pos p.axis + 1)

/-- A block with key bit 0 is skipped. -/
def shiftSkip : Regs :=
  { r with
    blockCounter := r.blockCounter + 1
    rev := if p.skipClearsRev then 0 else r.rev }.goTo p.axis (r.line p.axis + 8) (r.pos p.axis)

/-- One tick of a shifting phase. -/
def shiftTick (key : BitVec 80) (dq : BitVec 16) : Regs :=
  if r.blockCounter < p.blocks then
    if key.getLsbD r.blockCounter.toNat then
      if r.rev = 0 then
        { r with pins := .read (p.address (r.line p.axis) (r.pos p.axis)), rev := 1 }
      else if r.rev = 1 then r.shiftFill p dq
      else if r.rev = 2 ∨ r.rev = 3 then r.shiftFetch p dq
      else if r.rev = 4 then r.shiftStore p
      else if r.rev = 5 then r.shiftAdvance p
      else r
    else r.shiftSkip p
  else r

end Regs

def encryptHor : ShiftPhase where
  axis := .hor
  blocks := 60
  last := 639
  tail := 632
  address := fun line pos => 640 * line + pos
  ahead := fun line pos => 640 * line + pos + 8
  skipClearsRev := true

def encryptVer : ShiftPhase where
  axis := .ver
  blocks := 80
  last := 479
  tail := 472
  address := fun line pos => 640 * pos + line
  ahead := fun line pos => 640 * pos + line + 8 * 640
  skipClearsRev := false

def decryptVer : ShiftPhase where
  axis := .ver
  blocks := 80
  last := 479
  tail := 472
  address := fun line pos => 640 * (479 - pos) + line
  ahead := fun line pos => 640 * (479 - pos - 8) + line
  skipClearsRev := false

def decryptHor : ShiftPhase where
  axis := .hor
  blocks := 60
  last := 639
  tail := 632
  address := fun line pos => 640 * (line + 1) - 1 - pos
  ahead := fun line pos => 640 * (line + 1) - 1 - pos - 8
  skipClearsRev := true

/-! ### The XOR phase -/

/-- The 16-bit word of the key that the low two bits of a counter select. -/
def keyWord (key : BitVec 80) (sel : BitVec 2) : BitVec 16 :=
  if sel = 0 then key.extractLsb' 0 16
  else if sel = 1 then key.extractLsb' 16 16
  else if sel = 2 then key.extractLsb' 32 16
  else key.extractLsb' 48 16

/-- What tells the two passes of the XOR phase apart: the axis, the first of their five values of
`rev`, the last position of a line, the number of lines and what happens after the last line. -/
structure MaskPass where
  axis : Axis
  base : BitVec 6
  last : BitVec 20
  lines : BitVec 20
  finish : Regs → Regs

def rowPass : MaskPass where
  axis := .hor
  base := 1
  last := 639
  lines := 480
  finish := fun r => { r with rev := 6 }

def columnPass : MaskPass where
  axis := .ver
  base := 7
  last := 479
  lines := 640
  finish := fun r => { r with blockCounter := 100 }

namespace Regs

variable (p : MaskPass) (r : Regs)

/-- The address of the word at the counters. -/
def wordAddr : BitVec 20 := 640 * r.columnCounter + r.rowCounter

/-- The next position, or the next line. -/
def maskAdvance : Regs :=
  if r.pos p.axis = p.last then { r with rev := r.rev + 1 }.goTo p.axis (r.line p.axis + 1) 0
  else { r with rev := r.rev + 1 }.goTo p.axis (r.line p.axis) (r.pos p.axis + 1)

/-- One tick of a pass of the XOR phase. -/
def maskTick (key : BitVec 80) (dq : BitVec 16) : Regs :=
  if r.rev = p.base ∨ r.rev = p.base + 1 then
    { r with pins := .read r.wordAddr, tempStorage2 := dq, rev := r.rev + 1 }
  else if r.rev = p.base + 2 then
    { r with
      pins := .write r.wordAddr
        (r.tempStorage2 ^^^ keyWord key ((r.pos p.axis).extractLsb' 0 2))
      rev := r.rev + 1 }
  else if r.rev = p.base + 3 then r.maskAdvance p
  else if r.line p.axis = p.lines then p.finish r
  else { r with rev := p.base }

/-- One tick of `ENCRYPT_XOR` or `DECRYPT_XOR`. -/
def xorTick (key : BitVec 80) (dq : BitVec 16) : Regs :=
  if r.rev = 0 then { r with blockCounter := 0, rev := 1 }
  else if r.rev ≤ 5 then r.maskTick rowPass key dq
  else if r.rev = 6 then { r with columnCounter := 0, rowCounter := 0, rev := r.rev + 1 }
  else if r.rev ≤ 11 then r.maskTick columnPass key dq
  else r

end Regs

/-! ### The quadrant shift phase -/

/-- `mix_sequence`, high bit first. -/
def mixSequence (key : BitVec 80) : Bool × Bool :=
  (key.getLsbD 24, key.getLsbD 48)

namespace Regs

variable (r : Regs)

/-- `rev` 0: the corners of the two quadrants to exchange. -/
def mixCorners (key : BitVec 80) : Regs :=
  match mixSequence key with
  | (false, false) =>
    { r with columnCounter := 0, rowCounter := 0, columnCounter2 := 0, rowCounter2 := 320 }
  | (false, true) =>
    { r with columnCounter := 0, rowCounter := 0, columnCounter2 := 240, rowCounter2 := 0 }
  | (true, false) =>
    { r with columnCounter := 240, rowCounter := 0, columnCounter2 := 240, rowCounter2 := 320 }
  | (true, true) =>
    { r with columnCounter := 0, rowCounter := 320, columnCounter2 := 240, rowCounter2 := 320 }

/-- The address of the word at the second pair of counters. -/
def wordAddr2 : BitVec 20 := 640 * r.columnCounter2 + r.rowCounter2

/-- The byte enables and the chip enable, low through the whole phase. -/
def mixEnable : Regs :=
  { r with pins := { r.pins with lbN := false, ubN := false, ceN := false } }

/-- `rev` 7: the next position of the quadrants, or their next row. -/
def mixAdvance : Regs :=
  if r.rowCounter = 319 ∨ r.rowCounter = 639 then
    { r.mixEnable with
      rowCounter := r.rowCounter - 319
      rowCounter2 := r.rowCounter2 - 319
      columnCounter := r.columnCounter + 1
      columnCounter2 := r.columnCounter2 + 1
      rev := 8 }
  else
    { r.mixEnable with
      rowCounter := r.rowCounter + 1
      rowCounter2 := r.rowCounter2 + 1
      rev := 1 }

/-- One tick of `ENCRYPT_MIX` or `DECRYPT_MIX`. -/
def mixTick (key : BitVec 80) (dq : BitVec 16) : Regs :=
  if r.rev = 0 then { (r.mixEnable.mixCorners key) with blockCounter := 0, rev := 1 }
  else if r.rev = 1 then { r with pins := .read r.wordAddr, tempStorage2 := dq, rev := 2 }
  else if r.rev = 2 then { r with pins := .read r.wordAddr, tempStorage2 := dq, rev := 10 }
  else if r.rev = 10 then { r.mixEnable with rev := 3 }
  else if r.rev = 3 then { r with pins := .read r.wordAddr2, tempStorage3 := dq, rev := 4 }
  else if r.rev = 4 then { r with pins := .read r.wordAddr2, tempStorage3 := dq, rev := 5 }
  else if r.rev = 5 then { r with pins := .write r.wordAddr r.tempStorage3, rev := 6 }
  else if r.rev = 6 then { r with pins := .write r.wordAddr2 r.tempStorage2, rev := 7 }
  else if r.rev = 7 then r.mixAdvance
  else if r.rev = 8 then
    if r.columnCounter = 240 ∨ r.columnCounter = 480 then { r.mixEnable with blockCounter := 100 }
    else { r.mixEnable with rev := 1 }
  else r.mixEnable

/-! ### Subkey generation, intervals and display -/

/-- One tick of `KEY_GEN`. -/
def keyGenTick (i : Inputs) : Regs :=
  if r.rev = 0 then
    { r with subkeyRun := false, subkeyReset := true, keyCounter := 0, rev := r.rev + 1 }
  else if r.rev = 1 then
    { r with
      subkeyInput :=
        if r.keyCounter = 0 then i.keyInput else r.subkey[r.keyCounter.toNat]?.getD 0
      subkeyRun := false
      subkeyReset := true
      rev := r.rev + 1 }
  else if r.rev = 2 then
    { r with
      keyCounter := r.keyCounter + 1
      subkeyRun := true
      subkeyReset := false
      rev := r.rev + 1 }
  else if r.rev = 3 ∧ i.subkeyDone then
    { r with
      subkey := r.subkey.setIfInBounds r.keyCounter.toNat i.subkeyOutput
      rev := r.rev + 1 }
  else if r.rev = 4 then { r with rev := if r.keyCounter = 7 then 5 else 1 }
  else r

/-- One tick of an interval: the counters are cleared for the next phase. -/
def interval : Regs :=
  { r with blockCounter := 0, rowCounter := 0, columnCounter := 0, rev := 0 }

/-- One tick of `HIATUS`. -/
def hiatus : Regs :=
  { r.interval with pins := .off, keyCounter := 0 }

/-- One tick of `DISPLAY`: the word of the raster position is fetched, the word fetched before is
shown. -/
def display (v : Raster) (dq : BitVec 16) : Regs :=
  { r with
    pins := .display (640 * v.vc.setWidth 20 + v.hc.setWidth 20)
    red := dq.extractLsb' 11 5 ++ dq.extractLsb' 13 3
    green := dq.extractLsb' 8 3 ++ dq.extractLsb' 5 3 ++ dq.extractLsb' 9 2
    blue := dq.extractLsb' 0 5 ++ dq.extractLsb' 2 3 }

end Regs

/-! ### The chip and its SRAM -/

/-- The contents of the SRAM. -/
abbrev Memory := BitVec 20 → BitVec 16

/-- What the SRAM holds after a tick with these pins. A wire without a driver stores nothing. -/
def Pins.store (p : Pins) (m : Memory) : Memory :=
  if p.weN then m else Function.update m p.addr (p.dq.resolve .highZ (m p.addr))

/-- What the SRAM puts on the data bus. -/
def Pins.sram (p : Pins) (m : Memory) : Driver 16 :=
  if p.oeN || !p.weN then .highZ else .word (m p.addr)

/-- What the data bus reads. -/
def Pins.bus (p : Pins) (m : Memory) (floating : BitVec 16) : BitVec 16 :=
  p.dq.resolve (p.sram m) floating

/-- The chip and its SRAM. -/
structure System where
  state : Fsm
  regs : Regs
  camera : Camera
  raster : Raster
  mem : Memory

namespace System

variable (s : System) (i : Inputs)

/-- `SRAM_DQ`. -/
def dq : BitVec 16 := s.regs.pins.bus s.mem i.floating

/-- What the SRAM holds at the end of the tick. -/
def stored : Memory := s.regs.pins.store s.mem

/-- `KEY`. -/
def key : BitVec 80 := s.regs.key i

/-- The state transition decision module. -/
def nextState : Fsm :=
  match s.state with
  | .sleep => if i.run then .prep else .sleep
  | .prep => if i.camVsync then .prep2 else .prep
  | .prep2 => if i.camVsync then .prep2 else .run
  | .run => if i.camVsync then .display else .run
  | .display =>
    if i.run && i.sw1 && !i.sw2 then .encryptHor
    else if i.run && !i.sw1 && i.sw2 then .decryptXor
    else if i.run && !i.sw1 && !i.sw2 then .keyGen
    else .display
  | .encryptHor => if s.regs.blockCounter = 60 then .encryptInterval else .encryptHor
  | .encryptInterval => .encryptVer
  | .encryptVer => if s.regs.blockCounter = 80 then .encryptVerInterval else .encryptVer
  | .encryptVerInterval => .encryptMix
  | .encryptMix => if s.regs.blockCounter = 100 then .encryptMixInterval else .encryptMix
  | .encryptMixInterval => .encryptXor
  | .encryptXor => if s.regs.blockCounter = 100 then .hiatus else .encryptXor
  | .hiatus => if i.run && i.sw2 && i.sw1 then .display else .hiatus
  | .decryptHor => if s.regs.blockCounter = 60 then .hiatus else .decryptHor
  | .decryptInterval => .decryptHor
  | .decryptVer => if s.regs.blockCounter = 80 then .decryptInterval else .decryptVer
  | .decryptMix => if s.regs.blockCounter = 100 then .decryptVerInterval else .decryptMix
  | .decryptVerInterval => .decryptVer
  | .decryptHorInterval => .decryptMix
  | .decryptXor => if s.regs.blockCounter = 100 then .decryptHorInterval else .decryptXor
  | .keyGen => if s.regs.rev = 5 then .hiatus else .keyGen
  | .keyInterval => .display

/-- The block that drives the SRAM. -/
def dataPath : Regs :=
  match s.state with
  | .run => { s.regs with pins := s.camera.pins }
  | .encryptXor | .decryptXor => s.regs.xorTick (s.key i) (s.dq i)
  | .encryptMix | .decryptMix => s.regs.mixTick (s.key i) (s.dq i)
  | .keyGen => s.regs.keyGenTick i
  | .encryptHor => s.regs.shiftTick Sram.encryptHor (s.key i) (s.dq i)
  | .encryptVer => s.regs.shiftTick Sram.encryptVer (s.key i) (s.dq i)
  | .decryptVer => s.regs.shiftTick Sram.decryptVer (s.key i) (s.dq i)
  | .decryptHor => s.regs.shiftTick Sram.decryptHor (s.key i) (s.dq i)
  | .encryptInterval | .decryptInterval | .encryptVerInterval | .decryptVerInterval
  | .encryptMixInterval | .decryptHorInterval => s.regs.interval
  | .hiatus => s.regs.hiatus
  | .display => s.regs.display s.raster (s.dq i)
  | .sleep | .prep | .prep2 | .keyInterval => s.regs

/-- The capture block: two bytes make a pixel, written from the last address of the frame down. -/
def capture : Camera :=
  match s.state with
  | .prep => { s.camera with counter := 0, byteNum := false, temp := 0 }
  | .run =>
    if i.camHref then
      if s.camera.byteNum then
        { s.camera with
          pins := .write (307199 - s.camera.counter.setWidth 20) (s.camera.temp ++ i.camData)
          counter := s.camera.counter + 1
          byteNum := false }
      else { s.camera with pins := .off, temp := i.camData, byteNum := true }
    else { s.camera with pins := .off }
  | _ => s.camera

/-- The raster, which moves in `DISPLAY` alone. -/
def scan : Raster :=
  if i.reset then ⟨0, 0⟩
  else if s.state = .display then
    if s.raster.hc = 799 then ⟨0, if s.raster.vc = 524 then 0 else s.raster.vc + 1⟩
    else { s.raster with hc := s.raster.hc + 1 }
  else s.raster

/-- One clock edge. -/
def tick : System where
  state := if i.reset then .sleep else s.nextState i
  regs := s.dataPath i
  camera := s.capture i
  raster := s.scan i
  mem := s.stored

end System

end Sram
end VideoEncryption
