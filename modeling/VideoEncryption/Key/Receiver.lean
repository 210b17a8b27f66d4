import Mathlib.Tactic

/-!
# The key receiver

`Key_Receiver.sv`: the hardware end of the key transfer. At every clock edge it acts on the code in
`to_hw_sig` and answers with the same code in `to_sw_sig`: 2, 5 and 8 store the byte of `to_hw_port`
in the slot that `counter` points to, 3, 6 and 9 advance the counter once, and 0, 4 and 7 clear it.

`slot_tick` says what an edge does to every slot at once, and `tick_storeCode_toSwSig`,
`tick_nextCode` and `store_storeCode` what the codes of a key phase do, for the three phases at
once.
-/

namespace VideoEncryption
namespace Key

/-- The registers of `Key_Receiver`. The shift registers are given byte by byte, lowest first. -/
structure Receiver where
  toSwSig : BitVec 8
  counter : BitVec 5
  rowShift : Fin 8 → BitVec 8
  columnShift : Fin 10 → BitVec 8
  diagonalShift : Fin 3 → BitVec 8
  command : Bool
deriving DecidableEq

/-- The registers as the device configures them. -/
def powerUp : Receiver where
  toSwSig := 0
  counter := 0
  rowShift := fun _ => 0
  columnShift := fun _ => 0
  diagonalShift := fun _ => 0
  command := false

/-- The `case (counter)` of a store code: a counter without a slot stores nothing. -/
def storeByte {n : ℕ} (counter : BitVec 5) (b : BitVec 8) (shift : Fin n → BitVec 8) :
    Fin n → BitVec 8 :=
  fun i => if counter.toNat = i then b else shift i

namespace Receiver

variable (h : Receiver) (sig port : BitVec 8)

/-- `3` and `6` add one to the counter, unless the code was acknowledged already. -/
def advance (code : BitVec 8) (n : BitVec 5) : Receiver :=
  { h with
    counter := if h.toSwSig ≠ code then h.counter + n else h.counter
    toSwSig := code }

/-- One clock edge, with the values of `to_hw_sig` and `to_hw_port`. -/
def tick : Receiver :=
  if sig = 0 then { h with toSwSig := 0, counter := 0 }
  else if sig = 1 then { h with toSwSig := 1 }
  else if sig = 2 then { h with rowShift := storeByte h.counter port h.rowShift, toSwSig := 2 }
  else if sig = 3 then h.advance 3 1
  else if sig = 4 then { h with counter := 0, toSwSig := 4 }
  else if sig = 5 then
    { h with columnShift := storeByte h.counter port h.columnShift, toSwSig := 5 }
  else if sig = 6 then h.advance 6 1
  else if sig = 7 then { h with counter := 0, toSwSig := 7 }
  else if sig = 8 then
    { h with diagonalShift := storeByte h.counter port h.diagonalShift, toSwSig := 8 }
  else if sig = 9 then h.advance 9 8
  else if sig = 10 then { h with command := port.getLsbD 0, toSwSig := 10 }
  else h

end Receiver

/-! ### The codes of a key phase -/

/-- The three keys that are transferred. -/
inductive Phase
  | row
  | column
  | diagonal
deriving DecidableEq, Repr

namespace Phase

/-- The code that stores a byte. -/
def storeCode : Phase → BitVec 8
  | row => 2
  | column => 5
  | diagonal => 8

/-- The code that advances to the next byte. -/
def nextCode : Phase → BitVec 8
  | row => 3
  | column => 6
  | diagonal => 9

/-- What the next-byte code adds to the counter. -/
def stride : Phase → ℕ
  | row => 1
  | column => 1
  | diagonal => 8

/-- The number of slots of the shift register. -/
def slots : Phase → ℕ
  | row => 8
  | column => 10
  | diagonal => 3

theorem storeCode_ne_nextCode (p q : Phase) : p.storeCode ≠ q.nextCode := by
  cases p <;> cases q <;> decide

theorem nextCode_ne_storeCode (p q : Phase) : p.nextCode ≠ q.storeCode :=
  (q.storeCode_ne_nextCode p).symm

theorem storeCode_inj {p q : Phase} : p.storeCode = q.storeCode ↔ p = q := by
  cases p <;> cases q <;> decide

end Phase

/-- A byte written into a slot. -/
structure Store where
  phase : Phase
  slot : ℕ
  byte : BitVec 8
deriving DecidableEq, Repr

namespace Receiver

/-- Slot `i` of the shift register of a phase. -/
def slot (h : Receiver) : Phase → ℕ → Option (BitVec 8)
  | .row, i => if hi : i < 8 then some (h.rowShift ⟨i, hi⟩) else none
  | .column, i => if hi : i < 10 then some (h.columnShift ⟨i, hi⟩) else none
  | .diagonal, i => if hi : i < 3 then some (h.diagonalShift ⟨i, hi⟩) else none

/-- The store that a clock edge performs. -/
def store (h : Receiver) (sig port : BitVec 8) : Option Store :=
  if sig = 2 ∧ h.counter.toNat < 8 then some ⟨.row, h.counter.toNat, port⟩
  else if sig = 5 ∧ h.counter.toNat < 10 then some ⟨.column, h.counter.toNat, port⟩
  else if sig = 8 ∧ h.counter.toNat < 3 then some ⟨.diagonal, h.counter.toNat, port⟩
  else none

variable (h : Receiver) (sig port : BitVec 8)

/-! ### What an edge does to each register -/

theorem tick_rowShift : (h.tick sig port).rowShift
    = if sig = 2 then storeByte h.counter port h.rowShift else h.rowShift := by
  by_cases hsig : sig = 2
  · subst hsig
    rfl
  · simp only [tick, advance, apply_ite rowShift, hsig, if_false, ite_self]

theorem tick_columnShift : (h.tick sig port).columnShift
    = if sig = 5 then storeByte h.counter port h.columnShift else h.columnShift := by
  by_cases hsig : sig = 5
  · subst hsig
    rfl
  · simp only [tick, advance, apply_ite columnShift, hsig, if_false, ite_self]

theorem tick_diagonalShift : (h.tick sig port).diagonalShift
    = if sig = 8 then storeByte h.counter port h.diagonalShift else h.diagonalShift := by
  by_cases hsig : sig = 8
  · subst hsig
    rfl
  · simp only [tick, advance, apply_ite diagonalShift, hsig, if_false, ite_self]

/-- An edge writes the byte of `to_hw_port` into the slot under the counter, for a store code, and
leaves every other slot alone. -/
theorem slot_tick (q : Phase) (i : ℕ) : (h.tick sig port).slot q i
    = if sig = q.storeCode ∧ h.counter.toNat = i ∧ i < q.slots then some port
      else h.slot q i := by
  -- each key has its own register and its own store code
  cases q
  case row =>
    by_cases hi : i < 8
    · by_cases hsig : sig = 2
      · simp only [slot, tick_rowShift, Phase.storeCode, Phase.slots, storeByte, hsig, hi, if_true,
          dite_true, true_and, and_true, apply_ite some]
      · simp only [slot, tick_rowShift, Phase.storeCode, hsig, if_false, false_and]
    · simp only [slot, Phase.slots, hi, dite_false, and_false, if_false]
  case column =>
    by_cases hi : i < 10
    · by_cases hsig : sig = 5
      · simp only [slot, tick_columnShift, Phase.storeCode, Phase.slots, storeByte, hsig, hi,
          if_true, dite_true, true_and, and_true, apply_ite some]
      · simp only [slot, tick_columnShift, Phase.storeCode, hsig, if_false, false_and]
    · simp only [slot, Phase.slots, hi, dite_false, and_false, if_false]
  case diagonal =>
    by_cases hi : i < 3
    · by_cases hsig : sig = 8
      · simp only [slot, tick_diagonalShift, Phase.storeCode, Phase.slots, storeByte, hsig, hi,
          if_true, dite_true, true_and, and_true, apply_ite some]
      · simp only [slot, tick_diagonalShift, Phase.storeCode, hsig, if_false, false_and]
    · simp only [slot, Phase.slots, hi, dite_false, and_false, if_false]

/-! ### The codes of a phase -/

variable (p : Phase)

theorem tick_storeCode_toSwSig : (h.tick p.storeCode port).toSwSig = p.storeCode := by
  cases p <;> rfl

theorem tick_storeCode_counter : (h.tick p.storeCode port).counter = h.counter := by
  cases p <;> rfl

/-- A next-byte code advances the counter and is acknowledged. -/
theorem tick_nextCode :
    h.tick p.nextCode port = h.advance p.nextCode (BitVec.ofNat 5 p.stride) := by
  cases p <;> rfl

theorem store_storeCode (hs : h.counter.toNat < p.slots) :
    h.store p.storeCode port = some ⟨p, h.counter.toNat, port⟩ := by
  cases p <;> simp_all [store, Phase.storeCode, Phase.slots]

theorem store_of_ne (hsig : ∀ p : Phase, sig ≠ p.storeCode) : h.store sig port = none := by
  have h2 : sig ≠ 2 := hsig .row
  have h5 : sig ≠ 5 := hsig .column
  have h8 : sig ≠ 8 := hsig .diagonal
  simp only [store, h2, h5, h8, false_and, if_false]

end Receiver

end Key
end VideoEncryption
