import VideoEncryption.Clocked.Machine
import VideoEncryption.Key.Receiver

/-!
# The key transfer program

`main.c` and the receiver as one system. The program is cut at its accesses to the three PIO
registers: every read and every write of `to_hw_port`, `to_hw_sig` and `to_sw_sig` is one `access`,
and everything between two of them (the prompts, the loop counters) belongs to the access before. A
run interleaves accesses with clock edges of the receiver in any order.

The three key loops of the program are the same code with other codes, so their control points carry
the `Phase`; the three loops that write a code until it is acknowledged carry a `Sync`.
-/

namespace VideoEncryption
namespace Key

open Clocked

/-- What the prompts of one round of the program leave in its variables. -/
structure Round where
  rowKey : ℕ → BitVec 8
  columnKey : ℕ → BitVec 8
  diagonalKey : ℕ → BitVec 8
  command : Char

/-- The array that a key loop sends. -/
def Round.key (k : Round) : Phase → ℕ → BitVec 8
  | .row => k.rowKey
  | .column => k.columnKey
  | .diagonal => k.diagonalKey

/-- The number of bytes that a key loop sends. -/
def Phase.length : Phase → ℕ
  | row => 8
  | column => 10
  | diagonal => 3

/-- The loops `while (*to_sw_sig != code) *to_hw_sig = code`. -/
inductive Sync
  | start
  | afterRow
  | afterColumn
deriving DecidableEq, Repr

/-- The code such a loop waits for. -/
def Sync.code : Sync → BitVec 8
  | start => 1
  | afterRow => 4
  | afterColumn => 7

/-- The key loop after it. -/
def Sync.phase : Sync → Phase
  | start => .row
  | afterRow => .column
  | afterColumn => .diagonal

/-- The access the program performs next. -/
inductive Pc
  | initSig
  | initPort
  | topSig
  | topPort
  | awaitSync (c : Sync)
  | writeSync (c : Sync)
  | putPort (p : Phase) (i : ℕ)
  | putSig (p : Phase) (i : ℕ)
  | check (p : Phase) (i : ℕ)
  | putNext (p : Phase) (i : ℕ)
  | poll (p : Phase) (i : ℕ)
  | putCommand
  | putTen
  | pollTen
  | putZero
deriving DecidableEq, Repr

/-- Where the program goes after the last byte of a key. -/
def Phase.after : Phase → Pc
  | row => .awaitSync .afterRow
  | column => .awaitSync .afterColumn
  | diagonal => .putCommand

/-- The program, the two registers it writes and the receiver. `round` counts the rounds of the
program's loop. The last two fields are for the specification alone: whether a clock edge has fallen
since the last access, and the last store since the program last wrote a key byte to the port. -/
structure System where
  pc : Pc
  round : ℕ
  toHwSig : BitVec 8
  toHwPort : BitVec 8
  receiver : Receiver
  ticked : Bool
  stored : Option Store

namespace System

/-- The next access of the program; `k` holds the variables of the current round. -/
def access (k : Round) (s : System) : System :=
  match s.pc with
  | .initSig => { s with toHwSig := 0, pc := .initPort }
  | .initPort => { s with toHwPort := 0, pc := .topSig }
  | .topSig => { s with toHwSig := 0, pc := .topPort }
  | .topPort =>
    if k.command = 'E' ∨ k.command = 'D' then { s with toHwPort := 0, pc := .awaitSync .start }
    else { s with toHwPort := 0, pc := .topSig, round := s.round + 1 }
  | .awaitSync c =>
    { s with pc := if s.receiver.toSwSig ≠ c.code then .writeSync c else .putPort c.phase 0 }
  | .writeSync c => { s with toHwSig := c.code, pc := .awaitSync c }
  | .putPort p i => { s with toHwPort := k.key p i, pc := .putSig p i }
  | .putSig p i => { s with toHwSig := p.storeCode, pc := .check p i }
  | .check p i =>
    { s with pc := if s.receiver.toSwSig = p.storeCode then .putNext p i else .poll p i }
  | .putNext p i => { s with toHwSig := p.nextCode, pc := .poll p i }
  | .poll p i =>
    { s with
      pc :=
        if s.receiver.toSwSig ≠ p.nextCode then .poll p i
        else if i + 1 < p.length then .putPort p (i + 1) else p.after }
  | .putCommand =>
    { s with
      toHwPort := if k.command = 'E' then 1 else if k.command = 'D' then 0 else s.toHwPort
      pc := .putTen }
  | .putTen => { s with toHwSig := 10, pc := .pollTen }
  | .pollTen => { s with pc := if s.receiver.toSwSig ≠ 10 then .pollTen else .putZero }
  | .putZero => { s with toHwSig := 0, pc := .topSig, round := s.round + 1 }

/-- The program is about to write a key byte. -/
def writesByte (s : System) : Bool :=
  match s.pc with
  | .putPort _ _ => true
  | _ => false

/-- A clock edge of the receiver. -/
def tick (s : System) : System :=
  { s with
    receiver := s.receiver.tick s.toHwSig s.toHwPort
    ticked := true
    stored := (s.receiver.store s.toHwSig s.toHwPort).or s.stored }

end System

/-- A step of a run. -/
inductive Action
  | access
  | tick
deriving DecidableEq, Repr

/-- One step of the system; `rounds` holds the variables of every round. -/
def step (rounds : ℕ → Round) (s : System) : Action → System
  | .access =>
    { s.access (rounds s.round) with
      ticked := false
      stored := if s.writesByte then none else s.stored }
  | .tick => s.tick

/-- The program at its first access, with any receiver behind it. -/
def start (sig port : BitVec 8) (h : Receiver) : System where
  pc := .initSig
  round := 0
  toHwSig := sig
  toHwPort := port
  receiver := h
  ticked := false
  stored := none

/-- The system at power-up. -/
def boot : System := start 0 0 powerUp

end Key
end VideoEncryption
