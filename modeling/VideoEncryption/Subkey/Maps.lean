import VideoEncryption.Subkey.Generator

/-!
# The map modules

`tentMap.sv`, and the bodies of `logisticMap`, `quadMap`, `bernMap` and of the `multiplier80` they
share, which are kept in the `.sv.bak` files. A key is read as a number with 79 fraction bits:
`0x80000000000000000000` is 1.

A `Chip` is `subkeyGenerator` with these four modules. `Reset` clears neither `checker` nor
`shifter` of a multiplier.
-/

namespace VideoEncryption
namespace Subkey

open Clocked

/-! ### `multiplier80` -/

/-- The states of `multiplier80`. -/
inductive MultFsm
  | wait
  | multiply
deriving DecidableEq, Repr

/-- The registers of `multiplier80`. -/
structure Multiplier where
  state : MultFsm
  counter : BitVec 10
  shifter : Key
  checker : Key
  out : Key
deriving DecidableEq, Repr

namespace Multiplier

variable (m : Multiplier)

/-- The output `done`. The addition of the last tick is still to come when it is high. -/
def done : Bool := decide (m.state = .multiply) && decide (m.counter = 79)

/-- One clock edge. -/
def tick (run : Bool) (num1 num2 : Key) : Multiplier :=
  match m.state with
  | .wait =>
    { state := if run then .multiply else .wait
      counter := 0
      shifter := num2
      checker := num1
      out := if run then 0 else m.out }
  | .multiply =>
    { state := if m.counter = 79 then .wait else .multiply
      counter := m.counter + 1
      shifter := m.shifter >>> 1
      checker := m.checker <<< 1
      out := if m.checker.getLsbD 79 then m.out + m.shifter else m.out }

/-- The registers after `Reset`. -/
def clear : Multiplier := { m with state := .wait, counter := 0, out := 0 }

end Multiplier

/-! ### `tentMap` -/

/-- The states of `tentMap`. -/
inductive TentFsm
  | load
  | adjust
  | compute
  | hold
deriving DecidableEq, Repr

/-- The registers of `tentMap`. -/
structure TentMap where
  state : TentFsm
  out : Key
  mult : Multiplier
deriving DecidableEq, Repr

namespace TentMap

variable (t : TentMap)

def op1 : Key := 0xC0000000000000000000

def op2 : Key := t.out

def multiply : Bool := decide (t.state = .compute)

def done : Bool := decide (t.state = .hold)

def nextState (run : Bool) : TentFsm :=
  match t.state with
  | .load => if run then .adjust else .load
  | .adjust => .compute
  | .compute => if t.mult.done then .hold else .compute
  | .hold => if run then .hold else .load

def nextOut (run : Bool) (input : Key) : Key :=
  match t.state with
  | .load => if run then input else t.out
  | .adjust => if t.out ≥ 0x40000000000000000000 then 0x80000000000000000000 - t.out else t.out
  | .compute => if t.mult.done then t.mult.out else t.out
  | .hold => t.out

/-- One clock edge. -/
def tick (run : Bool) (input : Key) : TentMap where
  state := t.nextState run
  out := t.nextOut run input
  mult := t.mult.tick t.multiply op1 t.op2

def clear : TentMap := ⟨.load, 0, t.mult.clear⟩

/-! One tick, state by state. -/

variable {t} {run : Bool} {input : Key}

theorem tick_load (hs : t.state = .load) : t.tick run input =
    ⟨if run then .adjust else .load, if run then input else t.out,
      t.mult.tick false op1 t.out⟩ := by
  simp [tick, nextState, nextOut, multiply, op2, hs]

theorem tick_adjust (hs : t.state = .adjust) : t.tick run input =
    ⟨.compute, if t.out ≥ 0x40000000000000000000 then 0x80000000000000000000 - t.out else t.out,
      t.mult.tick false op1 t.out⟩ := by
  simp [tick, nextState, nextOut, multiply, op2, hs]

theorem tick_compute (hs : t.state = .compute) : t.tick run input =
    ⟨if t.mult.done then .hold else .compute, if t.mult.done then t.mult.out else t.out,
      t.mult.tick true op1 t.out⟩ := by
  simp [tick, nextState, nextOut, multiply, op2, hs]

theorem tick_hold (hs : t.state = .hold) : t.tick run input =
    ⟨if run then .hold else .load, t.out, t.mult.tick false op1 t.out⟩ := by
  simp [tick, nextState, nextOut, multiply, op2, hs]

end TentMap

/-! ### `quadMap` -/

/-- The states of `quadMap`. -/
inductive QuadFsm
  | load
  | compute
  | add
  | hold
deriving DecidableEq, Repr

/-- The registers of `quadMap`. -/
structure QuadMap where
  state : QuadFsm
  out : Key
  mult : Multiplier
deriving DecidableEq, Repr

namespace QuadMap

variable (q : QuadMap)

def multiply : Bool := decide (q.state = .compute)

def done : Bool := decide (q.state = .hold)

def nextState (run : Bool) : QuadFsm :=
  match q.state with
  | .load => if run then .compute else .load
  | .compute => if q.mult.done then .add else .compute
  | .add => .hold
  | .hold => if run then .hold else .load

def nextOut (run : Bool) (input : Key) : Key :=
  match q.state with
  | .load => if run then input else q.out
  | .compute => if q.mult.done then q.mult.out else q.out
  | .add => q.out + 0x30000000000000000000
  | .hold => q.out

/-- One clock edge: both factors are `out`. -/
def tick (run : Bool) (input : Key) : QuadMap where
  state := q.nextState run
  out := q.nextOut run input
  mult := q.mult.tick q.multiply q.out q.out

def clear : QuadMap := ⟨.load, 0, q.mult.clear⟩

/-! One tick, state by state. -/

variable {q} {run : Bool} {input : Key}

theorem tick_load (hs : q.state = .load) : q.tick run input =
    ⟨if run then .compute else .load, if run then input else q.out,
      q.mult.tick false q.out q.out⟩ := by
  simp [tick, nextState, nextOut, multiply, hs]

theorem tick_compute (hs : q.state = .compute) : q.tick run input =
    ⟨if q.mult.done then .add else .compute, if q.mult.done then q.mult.out else q.out,
      q.mult.tick true q.out q.out⟩ := by
  simp [tick, nextState, nextOut, multiply, hs]

theorem tick_add (hs : q.state = .add) : q.tick run input =
    ⟨.hold, q.out + 0x30000000000000000000, q.mult.tick false q.out q.out⟩ := by
  simp [tick, nextState, nextOut, multiply, hs]

theorem tick_hold (hs : q.state = .hold) : q.tick run input =
    ⟨if run then .hold else .load, q.out, q.mult.tick false q.out q.out⟩ := by
  simp [tick, nextState, nextOut, multiply, hs]

end QuadMap

/-! ### `logisticMap` -/

/-- The states of `logisticMap`. -/
inductive LogisticFsm
  | wait
  | compute1
  | pause
  | compute2
  | shift
  | hold
deriving DecidableEq, Repr

/-- The registers of `logisticMap`. -/
structure LogisticMap where
  state : LogisticFsm
  out : Key
  mult : Multiplier
deriving DecidableEq, Repr

namespace LogisticMap

variable (l : LogisticMap)

def op1 : Key :=
  match l.state with
  | .shift => 0
  | _ => l.out

def op2 : Key :=
  match l.state with
  | .wait | .compute1 => 0x80000000000000000000 - l.out
  | .pause | .compute2 => 0xF0000000000000000000
  | .shift | .hold => 0

def multiply : Bool := decide (l.state = .compute1) || decide (l.state = .compute2)

def done : Bool := decide (l.state = .hold)

def nextState (run : Bool) : LogisticFsm :=
  match l.state with
  | .wait => if run then .compute1 else .wait
  | .compute1 => if l.mult.done then .pause else .compute1
  | .pause => .compute2
  | .compute2 => if l.mult.done then .shift else .compute2
  | .shift => .hold
  | .hold => if run then .hold else .wait

def nextOut (run : Bool) (input : Key) : Key :=
  match l.state with
  | .wait => if run then input else l.out
  | .compute1 => l.out
  | .pause => l.mult.out
  | .compute2 => if l.mult.done then (l.mult.out.setWidth 79).setWidth 80 else l.out
  | .shift => l.out <<< 1
  | .hold => l.out

/-- One clock edge. -/
def tick (run : Bool) (input : Key) : LogisticMap where
  state := l.nextState run
  out := l.nextOut run input
  mult := l.mult.tick l.multiply l.op1 l.op2

def clear : LogisticMap := ⟨.wait, 0, l.mult.clear⟩

/-! One tick, state by state. -/

variable {l} {run : Bool} {input : Key}

theorem tick_wait (hs : l.state = .wait) : l.tick run input =
    ⟨if run then .compute1 else .wait, if run then input else l.out,
      l.mult.tick false l.op1 l.op2⟩ := by
  simp [tick, nextState, nextOut, multiply, hs]

theorem tick_compute1 (hs : l.state = .compute1) : l.tick run input =
    ⟨if l.mult.done then .pause else .compute1, l.out,
      l.mult.tick true l.out (0x80000000000000000000 - l.out)⟩ := by
  simp [tick, nextState, nextOut, multiply, op1, op2, hs]

theorem tick_pause (hs : l.state = .pause) : l.tick run input =
    ⟨.compute2, l.mult.out, l.mult.tick false l.op1 l.op2⟩ := by
  simp [tick, nextState, nextOut, multiply, hs]

theorem tick_compute2 (hs : l.state = .compute2) : l.tick run input =
    ⟨if l.mult.done then .shift else .compute2,
      if l.mult.done then (l.mult.out.setWidth 79).setWidth 80 else l.out,
      l.mult.tick true l.out 0xF0000000000000000000⟩ := by
  simp [tick, nextState, nextOut, multiply, op1, op2, hs]

theorem tick_shift (hs : l.state = .shift) : l.tick run input =
    ⟨.hold, l.out <<< 1, l.mult.tick false l.op1 l.op2⟩ := by
  simp [tick, nextState, nextOut, multiply, hs]

theorem tick_hold (hs : l.state = .hold) : l.tick run input =
    ⟨if run then .hold else .wait, l.out, l.mult.tick false l.op1 l.op2⟩ := by
  simp [tick, nextState, nextOut, multiply, hs]

end LogisticMap

/-! ### `bernMap` -/

/-- The states of `bernMap`. -/
inductive BernFsm
  | load
  | compute
  | hold
deriving DecidableEq, Repr

/-- The registers of `bernMap`. -/
structure BernMap where
  state : BernFsm
  out : Key
deriving DecidableEq, Repr

namespace BernMap

variable (b : BernMap)

def done : Bool := decide (b.state = .hold)

def nextState (run : Bool) : BernFsm :=
  match b.state with
  | .load => if run then .compute else .load
  | .compute => .hold
  | .hold => if run then .hold else .load

def nextOut (run : Bool) (input : Key) : Key :=
  match b.state with
  | .load => if run then input else b.out
  | .compute =>
    if b.out < 0x40000000000000000000 then b.out <<< 1
    else b.out <<< 1 + 0x80000000000000000000
  | .hold => b.out

/-- One clock edge. -/
def tick (run : Bool) (input : Key) : BernMap where
  state := b.nextState run
  out := b.nextOut run input

def clear : BernMap := ⟨.load, 0⟩

end BernMap

/-! ### The generator with its modules -/

/-- `subkeyGenerator` and its map modules. -/
structure Chip where
  gen : Generator
  log : LogisticMap
  tent : TentMap
  quad : QuadMap
  bern : BernMap
deriving DecidableEq, Repr

namespace Chip

variable (c : Chip)

/-- The outputs `done` of the map modules. -/
def mapDone : Map → Bool
  | .log => c.log.done
  | .tent => c.tent.done
  | .quad => c.quad.done
  | .bern => c.bern.done

/-- The outputs `out` of the map modules. -/
def mapOut : Map → Key
  | .log => c.log.out
  | .tent => c.tent.out
  | .quad => c.quad.out
  | .bern => c.bern.out

/-- What the generator sees of its map modules: `done`, and `out` with it. -/
def servers (m : Map) : Server Key := if c.mapDone m then .hold (c.mapOut m) else .idle

/-- `log_run`, `tent_run`, `quad_run` and `bern_run`. -/
def mapRun (m : Map) : Bool := c.gen.mapRun c.servers m

/-- One clock edge. -/
def tick (p : Port) : Chip :=
  if p.reset then
    { gen := .reset
      log := c.log.clear
      tent := c.tent.clear
      quad := c.quad.clear
      bern := .clear }
  else
    { gen := { c.gen.routine p c.servers with state := c.gen.nextState p c.servers }
      log := c.log.tick (c.mapRun .log) c.gen.currentKey
      tent := c.tent.tick (c.mapRun .tent) c.gen.currentKey
      quad := c.quad.tick (c.mapRun .quad) c.gen.currentKey
      bern := c.bern.tick (c.mapRun .bern) c.gen.currentKey }

end Chip

end Subkey
end VideoEncryption
