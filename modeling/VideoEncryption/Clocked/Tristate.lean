import Mathlib.Tactic

/-!
# Buses with two drivers

A driver puts levels on some wires of a bus and leaves the others in high impedance. Two drivers on
one bus resolve wire by wire: where one of them drives, or both alike, the bus has that level; where
none drives, or both against each other (`contention`), the level is not determined, and `resolve`
takes it from an argument.

* `resolve_highZ_word`, `resolve_word_highZ` — one driver alone is read as it is;
* `resolve_shortZ_word`, `contention_shortZ_word` — a `Z` literal that is too short for the bus
  drives the wires beyond its width low, and spoils the ones there that the other drives high.
-/

namespace Clocked

/-- What a driver puts on a bus of `n` wires: the wires it drives, and their levels. -/
structure Driver (n : ℕ) where
  enable : BitVec n
  value : BitVec n
deriving DecidableEq, Repr

namespace Driver

variable {n : ℕ}

/-- All wires in high impedance. -/
def highZ : Driver n := ⟨0, 0⟩

/-- All wires at the levels of `w`. -/
def word (w : BitVec n) : Driver n := ⟨BitVec.allOnes n, w⟩

/-- The literal `k'bZ` on a bus of `n` wires. It is extended by zeros, so it drives the wires from
`k` on low. -/
def shortZ (k : ℕ) : Driver n := ⟨BitVec.allOnes n <<< k, 0⟩

/-- The wires that the two drive against each other. -/
def contention (d e : Driver n) : BitVec n := d.enable &&& e.enable &&& (d.value ^^^ e.value)

/-- What is read on the bus, `other` where the drivers do not determine it. -/
def resolve (d e : Driver n) (other : BitVec n) : BitVec n :=
  ((d.enable &&& d.value ||| e.enable &&& e.value) &&& ~~~d.contention e)
    ||| (other &&& (~~~(d.enable ||| e.enable) ||| d.contention e))

variable (d e : Driver n) (w f : BitVec n) (k : ℕ)

/-! ### One driver -/

@[simp] theorem contention_highZ_left : (highZ : Driver n).contention e = 0 := by
  simp [contention, highZ]

@[simp] theorem contention_highZ_right : d.contention highZ = 0 := by
  simp [contention, highZ]

@[simp] theorem resolve_highZ_word : highZ.resolve (word w) f = w := by
  simp [resolve, highZ, word, contention]

@[simp] theorem resolve_word_highZ : (word w).resolve highZ f = w := by
  simp [resolve, highZ, word, contention]

/-- Against nobody, a second look through the same driver changes nothing. -/
theorem resolve_highZ_idem : d.resolve highZ (d.resolve highZ f) = d.resolve highZ f := by
  apply BitVec.eq_of_getLsbD_eq
  intro i hi
  simp only [resolve, contention, BitVec.getLsbD_or, BitVec.getLsbD_and, BitVec.getLsbD_not, hi,
    decide_true, Bool.true_and]
  -- a wire is driven or it is not
  cases d.enable.getLsbD i <;> simp [highZ]

/-! ### A literal that is too short -/

/-- The wires within the literal's width read as the other driver has them, the ones beyond it only
where they are low. -/
theorem resolve_shortZ_word :
    (shortZ k).resolve (word w) f = w &&& (f ||| ~~~(BitVec.allOnes n <<< k)) := by
  apply BitVec.eq_of_getLsbD_eq
  intro i hi
  by_cases hik : i < k
  · simp [resolve, shortZ, word, contention, hi, hik]
  · -- driven low: against a high level the bus reads what it happens to
    simp [resolve, shortZ, word, contention, hi, hik, Bool.and_comm]

theorem contention_shortZ_word :
    (shortZ k).contention (word w) = BitVec.allOnes n <<< k &&& w := by
  simp [contention, shortZ, word]

end Driver

end Clocked
