import VideoEncryption.Clocked.Machine

/-!
# The camera's programming master

`SCCB_master.sv`: a ten-state machine that writes a table of register values to the camera over the
two-wire SCCB bus. A transaction runs from `STOP` through `FIN`: it sends the write address `0x42`,
the register address and the value, breaks the bus, sends the read address `0x43` and clocks in the
register's contents. `FIN` looks up the next pair and waits out a delay before the next `STOP`.

Every register is updated synchronously: the state routine and the next-state logic both read the
values from before the clock edge. The wire `sdiod` is `none` where the module drives `1'bz`.
-/

namespace VideoEncryption
namespace Sccb

/-- The states of `SCCB_master`. -/
inductive Fsm
  | halt
  | stop
  | prep
  | phase1
  | phase2
  | input
  | break
  | phase3
  | phase4
  | fin
deriving DecidableEq, Repr

/-- The inputs sampled at a clock edge; `sdiodIn` is the camera's level on the data wire. -/
structure Port where
  reset : Bool
  sccbRun : Bool
  sdiodIn : Bool
deriving DecidableEq, Repr

/-- The registers of `SCCB_master`. -/
structure Master where
  state : Fsm
  sccbCounter : BitVec 8
  stateCounter : BitVec 5
  sdioc : Bool
  sdiod : Option Bool
  prepComplete : Bool
  camClk : Bool
  prepSig1 : Bool
  prepSig2 : Bool
  currData : Bool
  garbage : BitVec 16
  garbage2 : BitVec 8
  ipAddressWrite : BitVec 8
  ipAddressRead : BitVec 8
  subAddress : BitVec 8
  writeData : BitVec 8
  readData : BitVec 8
deriving DecidableEq, Repr

/-- The registers as the device configures them: all zero, the data wire released. -/
def powerUp : Master where
  state := .halt
  sccbCounter := 0
  stateCounter := 0
  sdioc := false
  sdiod := none
  prepComplete := false
  camClk := false
  prepSig1 := false
  prepSig2 := false
  currData := false
  garbage := 0
  garbage2 := 0
  ipAddressWrite := 0
  ipAddressRead := 0
  subAddress := 0
  writeData := 0
  readData := 0

/-! ### The register table -/

/-- The table of `FIN`: the pair loaded for each value of `SCCB_COUNTER`. -/
def table : BitVec 8 → Option (BitVec 8 × BitVec 8)
  | 0x00#8 => some (0x12, 0x80)
  | 0x01#8 => some (0x12, 0x80)
  | 0x02#8 => some (0x12, 0x04)
  | 0x03#8 => some (0x11, 0x00)
  | 0x04#8 => some (0x0c, 0x00)
  | 0x05#8 => some (0x3e, 0x00)
  | 0x06#8 => some (0x8c, 0x00)
  | 0x07#8 => some (0x04, 0x00)
  | 0x08#8 => some (0x40, 0x10)
  | 0x09#8 => some (0x3a, 0x04)
  | 0x0a#8 => some (0x14, 0x38)
  | 0x0b#8 => some (0x4f, 0x40)
  | 0x0c#8 => some (0x50, 0x34)
  | 0x0d#8 => some (0x51, 0x0c)
  | 0x0e#8 => some (0x52, 0x17)
  | 0x0f#8 => some (0x53, 0x29)
  | 0x10#8 => some (0x54, 0x40)
  | 0x11#8 => some (0x58, 0x1e)
  | 0x12#8 => some (0x3d, 0xc0)
  | 0x13#8 => some (0x11, 0x00)
  | 0x14#8 => some (0x17, 0x11)
  | 0x15#8 => some (0x18, 0x61)
  | 0x16#8 => some (0x32, 0xa4)
  | 0x17#8 => some (0x19, 0x03)
  | 0x18#8 => some (0x1a, 0x7b)
  | 0x19#8 => some (0x03, 0x0a)
  | 0x1a#8 => some (0x0e, 0x61)
  | 0x1b#8 => some (0x0f, 0x4b)
  | 0x1c#8 => some (0x16, 0x02)
  | 0x1d#8 => some (0x1e, 0x37)
  | 0x1e#8 => some (0x21, 0x02)
  | 0x1f#8 => some (0x22, 0x91)
  | 0x20#8 => some (0x29, 0x07)
  | 0x21#8 => some (0x33, 0x0b)
  | 0x22#8 => some (0x35, 0x0b)
  | 0x23#8 => some (0x37, 0x1d)
  | 0x24#8 => some (0x38, 0x71)
  | 0x25#8 => some (0x39, 0x2a)
  | 0x26#8 => some (0x3c, 0x78)
  | 0x27#8 => some (0x4d, 0x40)
  | 0x28#8 => some (0x4e, 0x20)
  | 0x29#8 => some (0x69, 0x00)
  | 0x2a#8 => some (0x6b, 0x4a)
  | 0x2b#8 => some (0x74, 0x10)
  | 0x2c#8 => some (0x8d, 0x4f)
  | 0x2d#8 => some (0x8e, 0x00)
  | 0x2e#8 => some (0x8f, 0x00)
  | 0x2f#8 => some (0x90, 0x00)
  | 0x30#8 => some (0x91, 0x00)
  | 0x31#8 => some (0x96, 0x00)
  | 0x32#8 => some (0x9a, 0x00)
  | 0x33#8 => some (0xb0, 0x84)
  | 0x34#8 => some (0xb1, 0x0c)
  | 0x35#8 => some (0xb2, 0x0e)
  | 0x36#8 => some (0xb3, 0x82)
  | 0x37#8 => some (0xb8, 0x0a)
  | 0x38#8 => some (0x72, 0x11)
  | 0x39#8 => some (0x73, 0xf1)
  | 0x3a#8 => some (0x3e, 0x19)
  | 0x3b#8 => some (0x12, 0x14)
  | _ => none

namespace Master

variable (s : Master) (p : Port)

/-! ### The state routines -/

def haltRoutine : Master :=
  { s with
    subAddress := 0x12
    writeData := 0x80
    ipAddressWrite := 0x42
    ipAddressRead := 0x43
    sdioc := true
    sdiod := none
    sccbCounter := 0 }

def stopRoutine : Master :=
  { s with
    sccbCounter := s.sccbCounter + 1
    stateCounter := 0
    prepComplete := false
    sdioc := true
    sdiod := none
    camClk := false
    prepSig1 := false
    prepSig2 := false
    garbage := 0
    garbage2 := 0 }

def prepRoutine : Master :=
  if s.prepSig1 = false then
    { s with
      sdioc := true
      sdiod := some true
      prepSig1 := true }
  else
    { s with
      sdioc := true
      sdiod := some false
      prepSig2 := true }

/-- `Phase1`, `Phase2` and `Phase3` shift out one byte each, most significant bit first. The ninth
pulse leaves the data wire as it is. -/
def sendByte (byte : BitVec 8) : Master :=
  if s.camClk = false then
    { s with
      camClk := !s.camClk
      sdiod :=
        if s.stateCounter < 8 then some (byte.getLsbD (7 - s.stateCounter).toNat) else s.sdiod
      currData := if s.stateCounter < 8 then byte.getLsbD (7 - s.stateCounter).toNat else s.currData
      sdioc := false
      stateCounter := s.stateCounter + 1 }
  else
    { s with
      camClk := !s.camClk
      sdioc := true
      sdiod := if s.stateCounter ≠ 9 then some s.currData else s.sdiod
      stateCounter := if s.stateCounter = 9 then 0 else s.stateCounter }

def phase1Routine : Master := s.sendByte s.ipAddressWrite

def phase2Routine : Master := s.sendByte s.subAddress

def phase3Routine : Master := s.sendByte s.ipAddressRead

/-- `INPUT` sends the value and one more pulse with data 0. -/
def inputRoutine : Master :=
  if s.camClk = false then
    { s with
      camClk := !s.camClk
      sdioc := false
      sdiod :=
        if s.stateCounter < 8 then some (s.writeData.getLsbD (7 - s.stateCounter).toNat)
        else if s.stateCounter = 9 then some false
        else s.sdiod
      currData :=
        if s.stateCounter < 8 then s.writeData.getLsbD (7 - s.stateCounter).toNat
        else if s.stateCounter = 9 then false
        else s.currData
      stateCounter := s.stateCounter + 1 }
  else
    { s with
      camClk := !s.camClk
      sdioc := true
      sdiod := if s.stateCounter ≠ 9 then some s.currData else s.sdiod
      stateCounter := if s.stateCounter = 10 then 0 else s.stateCounter }

def breakRoutine : Master :=
  { s with
    sdioc := true
    sdiod := some (decide (6 < s.garbage2 ∧ s.garbage2 < 12))
    garbage2 := s.garbage2 + 1 }

/-- The level on the data wire: the module's where it drives the wire, the camera's otherwise. -/
def busLevel : Bool := s.sdiod.getD p.sdiodIn

/-- `Read_data[i] <= b`; an index outside the register changes nothing. -/
def setReadData (i : BitVec 5) (b : Bool) : BitVec 8 :=
  if i < 8 then
    (s.readData &&& ~~~ (1#8 <<< i.toNat)) ||| ((BitVec.ofBool b).setWidth 8 <<< i.toNat)
  else s.readData

/-- `Phase4` clocks in the eight bits of the register and adds two pulses with data 1 and 0. -/
def phase4Routine : Master :=
  if s.camClk = false then
    { s with
      camClk := !s.camClk
      sdiod :=
        if s.stateCounter < 8 then s.sdiod
        else if s.stateCounter = 8 then some true
        else if s.stateCounter = 9 then some false
        else s.sdiod
      currData :=
        if s.stateCounter < 8 then s.currData
        else if s.stateCounter = 8 then true
        else if s.stateCounter = 9 then false
        else s.currData
      sdioc := false
      stateCounter := s.stateCounter + 1 }
  else
    { s with
      camClk := !s.camClk
      sdioc := true
      readData := s.setReadData (7 - s.stateCounter + 1) (s.busLevel p)
      sdiod :=
        if s.stateCounter = 9 ∨ s.stateCounter = 10 then some s.currData else s.sdiod
      stateCounter := if s.stateCounter = 10 then 0 else s.stateCounter }

def finRoutine : Master :=
  { s with
    sdioc := true
    sdiod := some false
    subAddress := ((table s.sccbCounter).map Prod.fst).getD s.subAddress
    writeData := ((table s.sccbCounter).map Prod.snd).getD s.writeData
    garbage := if s.sccbCounter ≠ 0x3b then s.garbage + 1 else s.garbage }

/-- The state routine execution block. -/
def routine : Master :=
  match s.state with
  | .halt => s.haltRoutine
  | .stop => s.stopRoutine
  | .prep => s.prepRoutine
  | .phase1 => s.phase1Routine
  | .phase2 => s.phase2Routine
  | .input => s.inputRoutine
  | .break => s.breakRoutine
  | .phase3 => s.phase3Routine
  | .phase4 => s.phase4Routine p
  | .fin => s.finRoutine

/-- The state transition decision block. -/
def nextState : Fsm :=
  match s.state with
  | .halt => if p.sccbRun then .stop else .halt
  | .stop => .prep
  | .prep => if s.prepSig2 then .phase1 else .prep
  | .phase1 => if s.stateCounter = 9 then .phase2 else .phase1
  | .phase2 => if s.stateCounter = 9 then .input else .phase2
  | .input => if s.stateCounter = 10 then .break else .input
  | .break => if s.garbage2 = 20 then .phase3 else .break
  | .phase3 => if s.stateCounter = 9 then .phase4 else .phase3
  | .phase4 => if s.stateCounter = 10 then .fin else .phase4
  | .fin => if s.garbage = 20 then .stop else .fin

/-- One clock edge: `Reset` reaches the state register alone. -/
def tick : Master :=
  { s.routine p with state := if p.reset then .halt else s.nextState p }

end Master

/-! ### The bus as an observer sees it -/

/-- What an observer of the two wires recognises. -/
inductive BusEvent
  | start
  | stop
  | pulse (b : Bool)
deriving DecidableEq, Repr

/-- The observed level of the data wire: high impedance reads as 1. -/
def Master.level (s : Master) : Bool := s.sdiod.getD true

/-- The event between two consecutive ticks: the data wire sampled on a rise of `sdioc`, and its
fall or rise while `sdioc` stays high. -/
def busEvents (s s' : Master) : List BusEvent :=
  match s.sdioc, s'.sdioc with
  | false, true => [.pulse s'.level]
  | true, true =>
    if s.level && !s'.level then [.start] else if !s.level && s'.level then [.stop] else []
  | _, _ => []

/-- The events at a clock edge. -/
def observe (s : Master) (p : Port) : List BusEvent := busEvents s (s.tick p)

/-- The bits of a byte, most significant one first. -/
def byteBits (b : BitVec 8) : List Bool := (List.range 8).map fun k => b.getLsbD (7 - k)

/-- The events of a byte followed by the ninth bit `x`. -/
def bytePulses (b : BitVec 8) (x : Bool) : List BusEvent :=
  (byteBits b).map .pulse ++ [.pulse x]

end Sccb
end VideoEncryption
