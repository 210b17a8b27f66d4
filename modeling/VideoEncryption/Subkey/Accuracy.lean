import VideoEncryption.Subkey.Servers

/-!
# The maps on numbers

What the four modules are meant to compute are maps of the unit interval. A key stands for the
number `value`; `realMap` are the maps on numbers.

The modules never give more than the map does, and less by a few of the last places only
(`map_accuracy`): 323 for `logisticMap`, with two products one after the other, 79 for `quadMap`,
one for `tentMap`, none for `bernMap`.
-/

namespace VideoEncryption
namespace Subkey

open Clocked Fixed

/-- The number a key stands for, with 79 fraction bits. -/
def value (k : Key) : ℚ := k.toNat / 2 ^ 79

/-- The maps on numbers. -/
def realMap (m : Map) (x : ℚ) : ℚ :=
  match m with
  | .log => 15 / 4 * (x * (1 - x))
  | .tent => 3 / 2 * min x (1 - x)
  | .quad => x * x + 3 / 8
  | .bern => Int.fract (2 * x)

/-- How many of the last places a module may give too little. -/
def mapError : Map → ℕ
  | .log => 323
  | .tent => 1
  | .quad => 79
  | .bern => 0

variable {x : Key}

/-! ### The keys as naturals -/

/-- Below 1 the last summand is always zero. -/
theorem partialProduct_last {a b : ℕ} (hb : b < 2 ^ 79) :
    partialProduct 79 a b 80 = partialProduct 79 a b 79 := by
  rw [partialProduct, Nat.div_eq_of_lt hb, ite_self, Nat.add_zero]

theorem toNat_complement (hx : x.toNat ≤ 2 ^ 79) :
    (0x80000000000000000000 - x).toNat = 2 ^ 79 - x.toNat :=
  BitVec.toNat_sub_of_le (BitVec.le_def.mpr hx)

/-- A product of numbers up to 1 is at most 1. -/
theorem partialProduct_le_one {a b k : ℕ} (hk : k ≤ 80) (ha : a ≤ 2 ^ 79) (hb : b ≤ 2 ^ 79) :
    partialProduct 79 a b k ≤ 2 ^ 79 := by
  have hab : a * b ≤ 2 ^ 79 * 2 ^ 79 := Nat.mul_le_mul ha hb
  have hle := (partialProduct_mul_le (f := 79) (a := a) (b := b) hk).trans hab
  exact Nat.le_of_mul_le_mul_right hle (by decide)

theorem toNat_tentKey (hx : x.toNat ≤ 2 ^ 79) :
    (tentKey x).toNat = 3 * min x.toNat (2 ^ 79 - x.toNat) / 2 := by
  rw [tentKey, oneAndHalf_product, toNat_adjusted hx, toNat_ofNat_of_lt (by omega)]

theorem toNat_quadKey (hx : x.toNat < 2 ^ 79) :
    (quadKey x).toNat = partialProduct 79 x.toNat x.toNat 79 + 3 * 2 ^ 76 := by
  have hle := partialProduct_le_one (show 79 ≤ 80 by decide) hx.le hx.le
  have hsquare : (quadSquare x).toNat = partialProduct 79 x.toNat x.toNat 79 :=
    toNat_ofNat_of_lt (by omega)
  have hthree : (0x30000000000000000000 : Key).toNat = 3 * 2 ^ 76 := rfl
  rw [quadKey, BitVec.toNat_add_of_lt (by omega), hsquare, hthree]

theorem toNat_bernKey (hx : x.toNat < 2 ^ 79) :
    (bernKey x).toNat = 2 * x.toNat % 2 ^ 79 := by
  have hhalf : x < 0x40000000000000000000 ↔ x.toNat < 2 ^ 78 := by
    rw [BitVec.lt_def]
    rfl
  have hone : (0x80000000000000000000 : Key).toNat = 2 ^ 79 := rfl
  have hdouble : (x <<< 1).toNat = 2 * x.toNat := by
    rw [BitVec.toNat_shiftLeft, Nat.shiftLeft_eq, Nat.mod_eq_of_lt (by omega), Nat.mul_comm]
  rw [bernKey]
  split_ifs with h <;> rw [hhalf] at h
  · rw [hdouble, Nat.mod_eq_of_lt (by omega)]
  · rw [BitVec.toNat_add, hdouble, hone]
    omega

/-- The first product is a quarter at most. -/
theorem toNat_logisticFirst (hx : x.toNat < 2 ^ 79) :
    (logisticFirst x).toNat = partialProduct 79 x.toNat (2 ^ 79 - x.toNat) 80 ∧
      (logisticFirst x).toNat ≤ 2 ^ 77 := by
  have hsquare := four_mul_le_pow_two_add x.toNat (2 ^ 79 - x.toNat)
  rw [Nat.add_sub_of_le hx.le, Nat.mul_assoc] at hsquare
  have hproduct := partialProduct_mul_le (f := 79) (k := 80) (a := x.toNat)
    (b := 2 ^ 79 - x.toNat) le_rfl
  have hquarter : partialProduct 79 x.toNat (2 ^ 79 - x.toNat) 80 ≤ 2 ^ 77 := by omega
  have heq : (logisticFirst x).toNat = partialProduct 79 x.toNat (2 ^ 79 - x.toNat) 80 := by
    rw [logisticFirst, toNat_complement hx.le]
    exact toNat_ofNat_of_lt (by omega)
  exact ⟨heq, heq.le.trans hquarter⟩

/-- `SHIFT` loses no bit. -/
theorem toNat_logisticKey (hx : x.toNat < 2 ^ 79) : (logisticKey x).toNat
    = 2 * partialProduct 79 (logisticFirst x).toNat (15 * 2 ^ 76) 79 := by
  obtain ⟨-, hquarter⟩ := toNat_logisticFirst hx
  have hproduct := partialProduct_mul_le (f := 79) (k := 79) (a := (logisticFirst x).toNat)
    (b := 15 * 2 ^ 76) (by decide)
  have hfactor : (0xF0000000000000000000 : Key).toNat = 15 * 2 ^ 76 := rfl
  have hlt : partialProduct 79 (logisticFirst x).toNat (15 * 2 ^ 76) 79 < 2 ^ 79 := by omega
  rw [logisticKey, logisticSecond, hfactor, BitVec.toNat_shiftLeft, BitVec.toNat_setWidth,
    BitVec.toNat_setWidth, toNat_ofNat_of_lt (by omega), Nat.mod_eq_of_lt hlt,
    Nat.mod_eq_of_lt (by omega), Nat.shiftLeft_eq, Nat.mod_eq_of_lt (by omega), Nat.mul_comm]

/-! ### The error -/

/-- Short of `r` by at most `e` of the last places. -/
def FallsShort (k : Key) (r : ℚ) (e : ℕ) : Prop := value k ≤ r ∧ r - value k ≤ e / 2 ^ 79

theorem value_mul (k : Key) : value k * 2 ^ 79 = k.toNat := div_mul_cancel₀ _ (by positivity)

/-- In last places. -/
theorem fallsShort_iff {k : Key} {r : ℚ} {e : ℕ} :
    FallsShort k r e ↔ (k.toNat : ℚ) ≤ r * 2 ^ 79 ∧ r * 2 ^ 79 ≤ k.toNat + e := by
  rw [FallsShort, sub_le_iff_le_add, value, ← add_div, div_le_iff₀ (by positivity),
    le_div_iff₀ (by positivity), add_comm (e : ℚ)]

theorem tent_fallsShort (hx : x.toNat ≤ 2 ^ 79) :
    FallsShort (tentKey x) (realMap .tent (value x)) (mapError .tent) := by
  -- in places, the tent is three halves of a whole number
  have hmin : min (value x) (1 - value x) * 2 ^ 79
      = ((min x.toNat (2 ^ 79 - x.toNat) : ℕ) : ℚ) := by
    rw [min_mul_of_nonneg _ _ (by positivity), sub_mul, value_mul, one_mul, Nat.cast_min,
      Nat.cast_sub hx]
    norm_num
  have hfloor := toNat_tentKey hx
  rw [fallsShort_iff, realMap, mul_assoc, hmin]
  generalize min x.toNat (2 ^ 79 - x.toNat) = y at hfloor
  -- a half rounded down falls short by a half at most
  have hlow : ((tentKey x).toNat * 2 : ℚ) ≤ 3 * y := by
    norm_cast
    omega
  have hhigh : (3 * y : ℚ) ≤ (tentKey x).toNat * 2 + 1 := by
    norm_cast
    omega
  rw [mapError, Nat.cast_one]
  constructor <;> linarith

theorem bern_fallsShort (hx : x.toNat < 2 ^ 79) :
    FallsShort (bernKey x) (realMap .bern (value x)) (mapError .bern) := by
  -- the bit that is shifted out is the whole part
  have hdouble : (2 ^ 79 * (2 * x.toNat / 2 ^ 79 : ℕ) + (bernKey x).toNat : ℚ)
      = 2 * x.toNat := by
    rw [toNat_bernKey hx]
    exact_mod_cast Nat.div_add_mod (2 * x.toNat) (2 ^ 79)
  have hlt : ((bernKey x).toNat : ℚ) < 2 ^ 79 := by
    rw [toNat_bernKey hx]
    exact_mod_cast Nat.mod_lt _ (by decide)
  -- so what is left is the fraction
  have hfract : Int.fract (2 * value x) = value (bernKey x) := by
    rw [Int.fract_eq_iff]
    refine ⟨by rw [value]; positivity, ?_, (2 * x.toNat / 2 ^ 79 : ℕ), ?_⟩
    · rw [value, div_lt_one (by positivity)]
      exact hlt
    · rw [value, value, ← mul_div_assoc, ← sub_div, ← hdouble, add_sub_cancel_right,
        mul_div_cancel_left₀ _ (by positivity), Int.cast_natCast]
  rw [FallsShort, realMap, hfract, mapError]
  simp

theorem quad_fallsShort (hx : x.toNat < 2 ^ 79) :
    FallsShort (quadKey x) (realMap .quad (value x)) (mapError .quad) := by
  have hlow := partialProduct_mul_le (f := 79) (k := 79) (a := x.toNat) (b := x.toNat) (by decide)
  have hhigh := mul_le_partialProduct (f := 79) (b := x.toNat) x.isLt
  rw [partialProduct_last hx] at hhigh
  rw [fallsShort_iff, realMap, mapError, toNat_quadKey hx]
  generalize partialProduct 79 x.toNat x.toNat 79 = y at hlow hhigh
  have hlow' : (y * 2 ^ 79 : ℚ) ≤ x.toNat * x.toNat := by exact_mod_cast hlow
  have hhigh' : (x.toNat * x.toNat : ℚ) ≤ (y + 79) * 2 ^ 79 := by exact_mod_cast hhigh
  rw [← value_mul] at hlow' hhigh'
  push_cast
  constructor <;> linarith

theorem logistic_fallsShort (hx : x.toNat < 2 ^ 79) :
    FallsShort (logisticKey x) (realMap .log (value x)) (mapError .log) := by
  obtain ⟨hfirst, -⟩ := toNat_logisticFirst hx
  -- the first product
  have hlow := partialProduct_mul_le (f := 79) (a := x.toNat) (b := 2 ^ 79 - x.toNat)
    (le_refl 80)
  have hhigh := mul_le_partialProduct (f := 79) (b := 2 ^ 79 - x.toNat) x.isLt
  rw [← hfirst] at hlow hhigh
  -- the second one: nothing is truncated before the last three bits of the factor
  have hlow₂ := partialProduct_mul_le (f := 79) (k := 79) (a := (logisticFirst x).toNat)
    (b := 15 * 2 ^ 76) (by decide)
  have hhigh₂ : (logisticFirst x).toNat * (15 * 2 ^ 76)
      ≤ partialProduct 79 (logisticFirst x).toNat (15 * 2 ^ 76) 79 * 2 ^ 79 + 105 * 2 ^ 76 := by
    have hexact := partialProduct_mul_of_dvd (f := 79) (k := 77) (b := 15 * 2 ^ 76) (by decide)
      (logisticFirst x).isLt fun i hi => (pow_dvd_pow 2 (by omega)).mul_left 15
    have hgrow : partialProduct 79 (logisticFirst x).toNat (15 * 2 ^ 76) 77
        ≤ partialProduct 79 (logisticFirst x).toNat (15 * 2 ^ 76) 79 :=
      (Nat.le_add_right _ _).trans (Nat.le_add_right _ _)
    have hrest : (logisticFirst x).toNat % 2 ^ 3 ≤ 7 := Nat.le_of_lt_succ (Nat.mod_lt _ (by decide))
    calc (logisticFirst x).toNat * (15 * 2 ^ 76)
        = ((logisticFirst x).toNat / 2 ^ 3 * 2 ^ 3 + (logisticFirst x).toNat % 2 ^ 3)
          * (15 * 2 ^ 76) := by rw [Nat.div_add_mod']
      _ = partialProduct 79 (logisticFirst x).toNat (15 * 2 ^ 76) 77 * 2 ^ 79
          + (logisticFirst x).toNat % 2 ^ 3 * (15 * 2 ^ 76) := by rw [Nat.add_mul, hexact]
      _ ≤ partialProduct 79 (logisticFirst x).toNat (15 * 2 ^ 76) 79 * 2 ^ 79
          + 7 * (15 * 2 ^ 76) := by gcongr
      _ = partialProduct 79 (logisticFirst x).toNat (15 * 2 ^ 76) 79 * 2 ^ 79
          + 105 * 2 ^ 76 := by ring
  rw [fallsShort_iff, realMap, mapError, toNat_logisticKey hx]
  generalize partialProduct 79 (logisticFirst x).toNat (15 * 2 ^ 76) 79 = p at hlow₂ hhigh₂
  generalize (logisticFirst x).toNat = q at hlow hhigh hlow₂ hhigh₂
  -- in rational numbers the two bounds add up
  have hlow' : (q * 2 ^ 79 : ℚ) ≤ x.toNat * (2 ^ 79 - x.toNat : ℕ) := by exact_mod_cast hlow
  have hhigh' : (x.toNat * (2 ^ 79 - x.toNat : ℕ) : ℚ) ≤ (q + 79) * 2 ^ 79 := by
    exact_mod_cast hhigh
  have hlow₂' : (p * 2 ^ 79 : ℚ) ≤ q * (15 * 2 ^ 76) := by exact_mod_cast hlow₂
  have hhigh₂' : (q * (15 * 2 ^ 76) : ℚ) ≤ p * 2 ^ 79 + 105 * 2 ^ 76 := by exact_mod_cast hhigh₂
  rw [Nat.cast_sub hx.le, ← value_mul] at hlow' hhigh'
  push_cast at hlow' hhigh' ⊢
  constructor <;> linarith

/-- **How exact the maps are**: on keys below 1 no module gives more than its map, and none gives
less by more than its error. -/
theorem mapKey_fallsShort (m : Map) (hx : x.toNat < 2 ^ 79) :
    FallsShort (mapKey m x) (realMap m (value x)) (mapError m) := by
  cases m
  case log => exact logistic_fallsShort hx
  case tent => exact tent_fallsShort hx.le
  case quad => exact quad_fallsShort hx
  case bern => exact bern_fallsShort hx

/-! ### The runs of the modules -/

/-- One clock edge of `logisticMap`. -/
def LogisticMap.edge (l : LogisticMap) (p : MapPort) : LogisticMap := l.tick p.run p.input

/-- One clock edge of `quadMap`. -/
def QuadMap.edge (q : QuadMap) (p : MapPort) : QuadMap := q.tick p.run p.input

/-- One clock edge of `bernMap`. -/
def BernMap.edge (b : BernMap) (p : MapPort) : BernMap := b.tick p.run p.input

/-- A module computes the map `m`: when it takes a key below 1 from an idle state, it raises `done`
`mapLatency` edges after the one that takes the key and no sooner, with a key that is `mapError` of
the last places short of the value of the map at most. It keeps that key while `Run` is high, and is
idle again one edge after `Run` drops. -/
def Computes {μ : Type} (edge : μ → MapPort → μ) (done : μ → Bool) (out : μ → Key)
    (idle : μ → Prop) (m : Map) : Prop :=
  ∀ s, idle s → ∀ inp : ℕ → MapPort, (inp 0).run = true → (inp 0).input.toNat < 2 ^ 79 →
    (∀ n ≤ mapLatency m, done (stateAt edge s inp n) = false) ∧
      ∀ n, (∀ i < n, (inp (mapLatency m + 1 + i)).run = true) →
        done (stateAt edge s inp (mapLatency m + 1 + n)) = true ∧
          FallsShort (out (stateAt edge s inp (mapLatency m + 1 + n)))
            (realMap m (value (inp 0).input)) (mapError m) ∧
          ((inp (mapLatency m + 1 + n)).run = false →
            idle (stateAt edge s inp (mapLatency m + 1 + n + 1)))

theorem computes_of_serves {μ : Type} {step : μ → Bool → Key → μ} {done : μ → Bool} {out : μ → Key}
    {m : Map} {R : μ → Server Key → Prop}
    (h : Serves step (fun s => if done s then some (out s) else none) (mapKey m) (mapLatency m) R) :
    Computes (fun s p => step s p.run p.input) done out (fun s => R s .idle) m := by
  intro s hs inp hrun hx
  -- before the latency the server has no answer, and from then on it has one
  obtain ⟨hbusy, hanswer⟩ := h.answers MapPort.run MapPort.input hs hrun
  refine ⟨fun n hn => ?_, fun n hheld => ?_⟩
  · have hnone := hbusy n hn
    by_contra hdone
    rw [Bool.not_eq_false] at hdone
    simp [hdone] at hnone
  · obtain ⟨hsome, hidle⟩ := hanswer n hheld
    cases hdone : done (stateAt (fun s p => step s p.run p.input) s inp (mapLatency m + 1 + n)) with
    | false => simp [hdone] at hsome
    | true =>
      rw [hdone, if_pos rfl, Option.some.injEq] at hsome
      exact ⟨rfl, hsome ▸ mapKey_fallsShort m hx, hidle⟩

/-- **The four modules compute the four maps**, with their multipliers and whatever their registers
hold. -/
theorem modules_compute :
    Computes LogisticMap.edge LogisticMap.done LogisticMap.out
        (fun l => l.state = .wait ∧ l.mult.state = .wait) .log ∧
      Computes TentMap.edge TentMap.done TentMap.out
        (fun t => t.state = .load ∧ t.mult.state = .wait) .tent ∧
      Computes QuadMap.edge QuadMap.done QuadMap.out
        (fun q => q.state = .load ∧ q.mult.state = .wait) .quad ∧
      Computes BernMap.edge BernMap.done BernMap.out (fun b => b.state = .load) .bern :=
  ⟨computes_of_serves (m := .log) logisticMap_serves,
    computes_of_serves (m := .tent) tentMap_serves,
    computes_of_serves (m := .quad) quadMap_serves,
    computes_of_serves (m := .bern) bernMap_serves⟩

/-- One third, less a third of the last place, with `Run` held. -/
def third (_ : ℕ) : MapPort := ⟨true, 0x2AAAAAAAAAAAAAAAAAAA⟩

/-- What the four modules make of one third. -/
theorem modules_compute_third :
    FallsShort (stateAt LogisticMap.edge ⟨.wait, 0, ⟨.wait, 0, 0, 0, 0⟩⟩ third 165).out
        (realMap .log (value 0x2AAAAAAAAAAAAAAAAAAA)) 323 ∧
      FallsShort (stateAt TentMap.edge ⟨.load, 0, ⟨.wait, 0, 0, 0, 0⟩⟩ third 83).out
        (realMap .tent (value 0x2AAAAAAAAAAAAAAAAAAA)) 1 ∧
      FallsShort (stateAt QuadMap.edge ⟨.load, 0, ⟨.wait, 0, 0, 0, 0⟩⟩ third 83).out
        (realMap .quad (value 0x2AAAAAAAAAAAAAAAAAAA)) 79 ∧
      FallsShort (stateAt BernMap.edge ⟨.load, 0⟩ third 2).out
        (realMap .bern (value 0x2AAAAAAAAAAAAAAAAAAA)) 0 := by
  -- in tick 0 all four take the operand, and each answers in its own time
  obtain ⟨hlog, htent, hquad, hbern⟩ := modules_compute
  have hlt : (third 0).input.toNat < 2 ^ 79 := by decide
  have hnone : ∀ {P : ℕ → Prop}, ∀ i < 0, P i := fun i hi => absurd hi i.not_lt_zero
  exact ⟨((hlog _ ⟨rfl, rfl⟩ third rfl hlt).2 0 hnone).2.1,
    ((htent _ ⟨rfl, rfl⟩ third rfl hlt).2 0 hnone).2.1,
    ((hquad _ ⟨rfl, rfl⟩ third rfl hlt).2 0 hnone).2.1,
    ((hbern _ rfl third rfl hlt).2 0 hnone).2.1⟩

end Subkey
end VideoEncryption
