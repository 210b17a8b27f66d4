import VideoEncryption.Clocked.Handshake

/-!
# The subkey generator

`subkeyGenerator.sv`: a controller that passes an 80-bit key through four of the chaotic maps, each
several times in a row. The four map modules stand behind the handshake of `tentMap`; what they
compute and how long they take are parameters.

The states `LOGISTIC`, `TENT`, `QUADRATIC` and `BERNOULLI` do the same with the map module of their
own, so their routine and their transition are `mapRoutine` and `mapNext`.
-/

namespace VideoEncryption
namespace Subkey

open Clocked

/-- The keys. -/
abbrev Key := BitVec 80

/-- The map modules `logisticMap`, `tentMap`, `quadMap` and `bernMap`. -/
inductive Map
  | log
  | tent
  | quad
  | bern
deriving DecidableEq, Repr

/-- The states of `subkeyGenerator`. -/
inductive Fsm
  | wait
  | decideMap
  | logistic
  | tent
  | quadratic
  | bernoulli
  | hold
deriving DecidableEq, Repr

/-- The state that uses a map module. -/
def Map.state : Map → Fsm
  | log => .logistic
  | tent => .tent
  | quad => .quadratic
  | bern => .bernoulli

/-- The registers of `subkeyGenerator`. -/
structure Generator where
  state : Fsm
  currentKey : Key
  tempSeed : BitVec 12
  cycle : BitVec 3
  mapCounter : BitVec 4
deriving DecidableEq, Repr

/-- The inputs sampled at a clock edge. `latency` is the time that each map module would take for a
key captured at this edge. -/
structure Port where
  reset : Bool
  run : Bool
  seed : BitVec 12
  initialSubkey : Key
  latency : Map → ℕ

/-- The generator and its map modules. -/
structure System where
  gen : Generator
  maps : Map → Server Key

namespace Generator

/-! ### The state routine -/

def waitRoutine (s : Generator) (p : Port) : Generator :=
  { s with
    tempSeed := p.seed
    currentKey := if p.run then p.initialSubkey else s.currentKey
    cycle := 0
    mapCounter := 0 }

def decideMapRoutine (s : Generator) : Generator :=
  { s with
    cycle := s.cycle + 1
    mapCounter :=
      match s.cycle with
      | 0#3 => (s.tempSeed.extractLsb' 9 3).setWidth 4 + 4
      | 1#3 => (s.tempSeed.extractLsb' 6 3).setWidth 4 + 4
      | 2#3 => (s.tempSeed.extractLsb' 3 3).setWidth 4 + 4
      | 3#3 => (s.tempSeed.extractLsb' 0 3).setWidth 4 + 4
      | _ => 5 }

/-- A map state takes the answer of its module, if there is one. -/
def mapRoutine (s : Generator) (answer : Option Key) : Generator :=
  match answer with
  | some out => { s with currentKey := out, mapCounter := s.mapCounter - 1 }
  | none => s

def routine (s : Generator) (p : Port) (maps : Map → Server Key) : Generator :=
  match s.state with
  | .wait => s.waitRoutine p
  | .decideMap => s.decideMapRoutine
  | .logistic => s.mapRoutine (maps .log).answer
  | .tent => s.mapRoutine (maps .tent).answer
  | .quadratic => s.mapRoutine (maps .quad).answer
  | .bernoulli => s.mapRoutine (maps .bern).answer
  | .hold => s

/-! ### The state transition -/

/-- The transition out of `DECIDE_MAP`. -/
def decideMapNext (s : Generator) : Fsm :=
  if s.cycle = 4 then .hold
  else
    match s.cycle with
    | 0#3 =>
      if s.tempSeed.extractLsb' 9 3 < 3 then .logistic
      else if s.tempSeed.extractLsb' 9 3 > 4 then .quadratic
      else .tent
    | 1#3 =>
      if s.tempSeed.extractLsb' 6 3 < 3 then .quadratic
      else if s.tempSeed.extractLsb' 6 3 > 5 then .tent
      else .bernoulli
    | 2#3 =>
      if s.tempSeed.extractLsb' 3 2 = 0 then .tent
      else if s.tempSeed.extractLsb' 4 2 = 0 then .logistic
      else if s.tempSeed.extractLsb' 5 1 ++ s.tempSeed.extractLsb' 3 1 = 0#2 then .bernoulli
      else .quadratic
    | 3#3 =>
      if s.tempSeed.extractLsb' 3 2 = 0 then .logistic
      else if s.tempSeed.extractLsb' 4 2 = 0 then .bernoulli
      else if s.tempSeed.extractLsb' 5 1 ++ s.tempSeed.extractLsb' 3 1 = 0#2 then .tent
      else .quadratic
    | _ => .logistic

/-- A map state is left with the last answer. -/
def mapNext (s : Generator) (answer : Option Key) : Fsm :=
  if answer.isSome then
    if s.mapCounter = 1 then .decideMap else s.state
  else s.state

def nextState (s : Generator) (p : Port) (maps : Map → Server Key) : Fsm :=
  match s.state with
  | .wait => if p.run then .decideMap else .wait
  | .decideMap => s.decideMapNext
  | .logistic => s.mapNext (maps .log).answer
  | .tent => s.mapNext (maps .tent).answer
  | .quadratic => s.mapNext (maps .quad).answer
  | .bernoulli => s.mapNext (maps .bern).answer
  | .hold => .hold

/-- `log_run`, `tent_run`, `quad_run` and `bern_run`: a map module runs while its state waits for
its answer. -/
def mapRun (s : Generator) (maps : Map → Server Key) (m : Map) : Bool :=
  decide (s.state = m.state) && (maps m).answer.isNone

/-- The output `done`. -/
def done (s : Generator) : Bool := decide (s.state = .hold)

/-- The output `subkey`. -/
def subkey (s : Generator) : Key := s.currentKey

/-- The registers after `Reset`. -/
def reset : Generator where
  state := .wait
  currentKey := 0
  tempSeed := 0
  cycle := 0
  mapCounter := 0

end Generator

/-- One clock edge of the generator and its map modules, which compute `F`. -/
def tick (F : Map → Key → Key) (s : System) (p : Port) : System :=
  if p.reset then { gen := .reset, maps := fun _ => .idle }
  else
    { gen := { s.gen.routine p s.maps with state := s.gen.nextState p s.maps }
      maps := fun m =>
        (s.maps m).step (F m) (s.gen.mapRun s.maps m) s.gen.currentKey (p.latency m) }

end Subkey
end VideoEncryption
