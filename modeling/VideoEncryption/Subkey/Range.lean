import VideoEncryption.Subkey.Tent

/-!
# The range of the keys

The maps are meant for numbers below 1, keys below `2 ^ 79`. `InRange` says of a tick that all the
maps take and give is below that, and that no addition, subtraction or left shift in them loses a
bit.

The logistic, the tent and the Bernoulli map keep the range. `quadMap` computes `x * x + 3 / 8`,
which is 1 or more from `quadLimit` on, about the square root of `5 / 8` (`square_add_lt_iff`).
`inRange_of_quadBounded` says that nothing else can go wrong: as long as `quadMap` is given
operands below its limit, every tick of every run is in range.

The invariant is one for all modules at once (`Chip.Inv`), with a clause for each state of a module
(`TentMap.At`, `QuadMap.At`, `LogisticMap.At`). What the multiplier has added up in a tick is a
`partialProduct` (`Multiplying`).
-/

namespace VideoEncryption
namespace Subkey

open Clocked Fixed

/-! ### The multiplier -/

/-- The addition of this tick, if there is one, has no carry to lose. The top bit of `checker` is
read before it is shifted out. -/
def Multiplier.Exact (m : Multiplier) : Prop :=
  m.state = .multiply → m.checker.getLsbD 79 = true → m.out.toNat + m.shifter.toNat < 2 ^ 80

/-- After `k` steps of the multiplication of `a` by `b`. -/
structure Multiplying (a b : Key) (k : ℕ) (m : Multiplier) : Prop where
  state : m.state = .multiply
  counter : m.counter = BitVec.ofNat 10 k
  shifter : m.shifter = b >>> k
  checker : m.checker = a <<< k
  out : m.out.toNat = partialProduct 79 a.toNat b.toNat k

/-- Waiting for the multiplication of `a` by `b`, or in the course of it. -/
def Works (a b : Key) (m : Multiplier) : Prop :=
  m.state = .wait ∨ ∃ k ≤ 79, Multiplying a b k m

section Multiplier

variable {a b : Key} {k : ℕ} {m : Multiplier}

/-- A product below 2 fits the accumulator at every step. -/
theorem partialProduct_lt (hab : a.toNat * b.toNat < 2 ^ 159) (hk : k ≤ 80) :
    partialProduct 79 a.toNat b.toNat k < 2 ^ 80 := by
  have h := partialProduct_mul_le (f := 79) (a := a.toNat) (b := b.toNat) hk
  omega

/-- The loop in which nothing is lost is the loop of the multiplier. -/
theorem Multiplying.underway (hm : Multiplying a b k m) : Underway a b k m where
  state := hm.state
  counter := hm.counter
  shifter := hm.shifter
  checker := hm.checker
  out := by rw [← hm.out, BitVec.ofNat_toNat, BitVec.setWidth_eq]

/-- For a product below 2 nothing is lost in the loop. -/
theorem Underway.multiplying (hm : Underway a b k m) (hab : a.toNat * b.toNat < 2 ^ 159)
    (hk : k ≤ 80) : Multiplying a b k m where
  state := hm.state
  counter := hm.counter
  shifter := hm.shifter
  checker := hm.checker
  out := by rw [hm.out, toNat_ofNat_of_lt (partialProduct_lt hab hk)]

theorem Multiplying.added (hm : Multiplying a b k m) (hk : k ≤ 79) :
    partialProduct 79 a.toNat b.toNat (k + 1)
      = m.out.toNat + if m.checker.getLsbD 79 then m.shifter.toNat else 0 := by
  rw [hm.underway.scanned hk, hm.out, hm.shifter, BitVec.toNat_ushiftRight,
    Nat.shiftRight_eq_div_pow]
  rfl

theorem Multiplying.exact (hm : Multiplying a b k m) (hab : a.toNat * b.toNat < 2 ^ 159)
    (hk : k ≤ 79) : m.Exact := by
  intro _ hbit
  have hadded := hm.added hk
  rw [hbit, if_pos rfl] at hadded
  rw [← hadded]
  exact partialProduct_lt hab (by omega)

theorem exact_of_idle (hm : m.state = .wait) : m.Exact := by
  intro hstate
  rw [hm] at hstate
  cases hstate

theorem Works.exact (hm : Works a b m) (hab : a.toNat * b.toNat < 2 ^ 159) : m.Exact := by
  rcases hm with hm | ⟨k, hk, hm⟩
  · exact exact_of_idle hm
  · exact hm.exact hab hk

/-- While the multiplier is not done it goes on. -/
theorem Works.tick (hm : Works a b m) (hab : a.toNat * b.toNat < 2 ^ 159)
    (hdone : m.done = false) : Works a b (m.tick true a b) := by
  rcases hm with hm | ⟨k, hk, hm⟩
  · exact Or.inr ⟨0, by omega, (underway_zero hm).multiplying hab (by omega)⟩
  · rw [hm.underway.done_eq hk, decide_eq_false_iff_not] at hdone
    exact Or.inr ⟨k + 1, by omega, (hm.underway.tick (by omega)).multiplying hab (by omega)⟩

/-- **The last tick.** The sum that goes with `done` is one addition short of the one after it. -/
theorem Works.finish (hm : Works a b m) (hab : a.toNat * b.toNat < 2 ^ 159)
    (hdone : m.done = true) :
    m.out.toNat = partialProduct 79 a.toNat b.toNat 79 ∧ (m.tick true a b).state = .wait ∧
      (m.tick true a b).out.toNat = partialProduct 79 a.toNat b.toNat 80 := by
  rcases hm with hm | ⟨k, hk, hm⟩
  · simp [Multiplier.done, hm] at hdone
  · have hwait : (m.tick true a b).state = .wait := tick_of_done hdone
    rw [hm.underway.done_eq hk, decide_eq_true_eq] at hdone
    subst hdone
    refine ⟨hm.out, hwait, ?_⟩
    rw [hm.underway.tick_out le_rfl, toNat_ofNat_of_lt (partialProduct_lt hab (by decide))]

end Multiplier

/-! ### The maps -/

theorem square_lt {x : ℕ} (hx : x < 2 ^ 79) : x * x < 2 ^ 158 := by
  calc x * x < 2 ^ 79 * 2 ^ 79 := Nat.mul_lt_mul'' hx hx
    _ = 2 ^ 158 := by norm_num

/-- From here on `quadMap` gives 1 or more. -/
def quadLimit : ℕ := 0x653160eb696d4a481294

/-- **The limit of `quadMap`.** -/
theorem square_add_lt_iff {x : ℕ} (hx : x < 2 ^ 79) :
    partialProduct 79 x x 79 + 3 * 2 ^ 76 < 2 ^ 79 ↔ x < quadLimit := by
  -- the limit is the first number whose square does not fit
  have hbelow : partialProduct 79 (quadLimit - 1) (quadLimit - 1) 79 + 3 * 2 ^ 76 < 2 ^ 79 := by
    decide +kernel
  have habove : 2 ^ 79 ≤ partialProduct 79 quadLimit quadLimit 79 + 3 * 2 ^ 76 := by
    decide +kernel
  -- the square grows with the number
  constructor
  · intro h
    by_contra hge
    have hmono := partialProduct_mono (f := 79) (k := 79) (by omega) (Nat.not_lt.mp hge)
      (Nat.not_lt.mp hge) (by omega)
    omega
  · intro h
    have hle : x ≤ quadLimit - 1 := by omega
    have hmono := partialProduct_mono (f := 79) (k := 79) (by omega) hle hle (by decide)
    omega

/-- No borrow in the subtraction of `ADJUST`. -/
def TentMap.Exact (t : TentMap) : Prop :=
  (t.state = .adjust → 2 ^ 78 ≤ t.out.toNat → t.out.toNat ≤ 2 ^ 79) ∧ t.mult.Exact

/-- No carry in the addition of `ADD`. -/
def QuadMap.Exact (q : QuadMap) : Prop :=
  (q.state = .add → q.out.toNat + 3 * 2 ^ 76 < 2 ^ 80) ∧ q.mult.Exact

/-- No borrow in the subtraction that feeds the first multiplication, and no set top bit in the word
that loses it after the second one or in `SHIFT`. -/
def LogisticMap.Exact (l : LogisticMap) : Prop :=
  (l.state = .compute1 → l.out.toNat ≤ 2 ^ 79) ∧
    (l.state = .compute2 → l.mult.done = true → l.mult.out.getLsbD 79 = false) ∧
    (l.state = .shift → l.out.getLsbD 79 = false) ∧ l.mult.Exact

/-- No set top bit in the word that `COMPUTE` shifts; its addition wraps by design. -/
def BernMap.Exact (b : BernMap) : Prop := b.state = .compute → b.out.getLsbD 79 = false

theorem getLsbD_top_eq_false {x : Key} (hx : x.toNat < 2 ^ 79) : x.getLsbD 79 = false :=
  Nat.testBit_lt_two_pow hx

/-- What `tentMap` and its multiplier hold in each state. -/
def TentMap.At (t : TentMap) : TentFsm → Prop
  | .load | .adjust | .hold => t.mult.state = .wait
  | .compute => t.out.toNat ≤ 2 ^ 78 ∧ Works TentMap.op1 t.out t.mult

/-- The range of the registers of `tentMap`. -/
structure TentMap.Inv (t : TentMap) : Prop where
  out_lt : t.out.toNat < 2 ^ 79
  inState : t.At t.state

/-- What `quadMap` and its multiplier hold in each state. -/
def QuadMap.At (q : QuadMap) : QuadFsm → Prop
  | .load | .hold => q.mult.state = .wait
  | .compute => q.out.toNat < quadLimit ∧ Works q.out q.out q.mult
  | .add => q.mult.state = .wait ∧ q.out.toNat + 3 * 2 ^ 76 < 2 ^ 79

/-- The range of the registers of `quadMap`. -/
structure QuadMap.Inv (q : QuadMap) : Prop where
  out_lt : q.out.toNat < 2 ^ 79
  inState : q.At q.state

/-- What `logisticMap` and its multiplier hold in each state. -/
def LogisticMap.At (l : LogisticMap) : LogisticFsm → Prop
  | .wait | .hold => l.mult.state = .wait
  | .compute1 => Works l.out (0x80000000000000000000 - l.out) l.mult
  | .pause => l.mult.state = .wait ∧ l.mult.out.toNat ≤ 2 ^ 77
  | .compute2 => l.out.toNat ≤ 2 ^ 77 ∧ Works l.out 0xF0000000000000000000 l.mult
  | .shift => l.mult.state = .wait ∧ l.out.toNat < 2 ^ 78

/-- The range of the registers of `logisticMap`. -/
structure LogisticMap.Inv (l : LogisticMap) : Prop where
  out_lt : l.out.toNat < 2 ^ 79
  inState : l.At l.state

/-! ### One tick of a map -/

section Tick

variable {run : Bool} {input : Key} {t : TentMap} {q : QuadMap} {l : LogisticMap} {b : BernMap}

/-- `tentMap` multiplies a number up to a half by one and a half. -/
theorem tent_product (ht : t.out.toNat ≤ 2 ^ 78) :
    TentMap.op1.toNat * t.out.toNat ≤ 3 * 2 ^ 156 := by
  have hop1 : TentMap.op1.toNat = 3 * 2 ^ 78 := rfl
  rw [hop1]
  omega

theorem TentMap.Inv.exact (ht : t.Inv) : t.Exact := by
  obtain ⟨hlt, hin⟩ := ht
  refine ⟨fun _ _ => hlt.le, ?_⟩
  cases hs : t.state <;> rw [hs] at hin
  case compute => exact hin.2.exact (lt_of_le_of_lt (tent_product hin.1) (by decide))
  all_goals exact exact_of_idle hin

/-- `ADJUST` brings a number below 1 to a half at most. -/
theorem tent_adjusted (hlt : t.out.toNat < 2 ^ 79) :
    (if t.out ≥ 0x40000000000000000000 then 0x80000000000000000000 - t.out else t.out).toNat
      ≤ 2 ^ 78 := by
  have hfold := toNat_adjusted hlt.le
  rw [TentMap.adjusted] at hfold
  rw [hfold]
  omega

/-- **One tick of `tentMap`** keeps the range. -/
theorem TentMap.Inv.tick (ht : t.Inv) (hinput : input.toNat < 2 ^ 79) : (t.tick run input).Inv := by
  obtain ⟨hlt, hin⟩ := ht
  -- by the state, each of which has its own range
  cases hs : t.state with
  | load =>
    rw [hs] at hin
    have hidle := (tick_of_idle hin op1 t.out).1
    rw [tick_load hs]
    cases run
    · exact ⟨hlt, hidle⟩
    · exact ⟨hinput, hidle⟩
  | adjust =>
    rw [hs] at hin
    have hhalf := tent_adjusted hlt
    rw [tick_adjust hs]
    exact ⟨lt_of_le_of_lt hhalf (by decide), hhalf, Or.inl (tick_of_idle hin op1 t.out).1⟩
  | compute =>
    rw [hs] at hin
    obtain ⟨hhalf, hworks⟩ := hin
    have hle := tent_product hhalf
    have hab := lt_of_le_of_lt hle (show 3 * 2 ^ 156 < 2 ^ 159 by decide)
    rw [tick_compute hs]
    cases hdone : t.mult.done with
    | false => exact ⟨hlt, hhalf, hworks.tick hab hdone⟩
    | true =>
      obtain ⟨hout, hwait, -⟩ := hworks.finish hab hdone
      have hproduct := partialProduct_mul_le (f := 79) (k := 79) (a := TentMap.op1.toNat)
        (b := t.out.toNat) (by omega)
      refine ⟨?_, hwait⟩
      change t.mult.out.toNat < 2 ^ 79
      omega
  -- `HOLD` lets the run go and keeps the output
  | hold =>
    rw [hs] at hin
    have hidle := (tick_of_idle hin op1 t.out).1
    rw [tick_hold hs]
    cases run <;> exact ⟨hlt, hidle⟩

theorem QuadMap.Inv.exact (hq : q.Inv) : q.Exact := by
  obtain ⟨hlt, hin⟩ := hq
  cases hs : q.state <;> rw [hs] at hin
  case compute =>
    exact ⟨fun h => absurd (hs.symm.trans h) (by decide),
      hin.2.exact ((square_lt hlt).trans (by decide))⟩
  case add =>
    exact ⟨fun _ => hin.2.trans (by decide), exact_of_idle hin.1⟩
  all_goals exact ⟨fun h => absurd (hs.symm.trans h) (by decide), exact_of_idle hin⟩

/-- **One tick of `quadMap`** keeps the range, if it takes no operand from its limit on. -/
theorem QuadMap.Inv.tick (hq : q.Inv) (hinput : input.toNat < 2 ^ 79)
    (hlimit : q.state = .load → run = true → input.toNat < quadLimit) :
    (q.tick run input).Inv := by
  obtain ⟨hlt, hin⟩ := hq
  -- by the state again
  cases hs : q.state with
  | load =>
    rw [hs] at hin
    have hidle := (tick_of_idle hin q.out q.out).1
    rw [tick_load hs]
    cases run with
    | false => exact ⟨hlt, hidle⟩
    | true => exact ⟨hinput, hlimit hs rfl, Or.inl hidle⟩
  | compute =>
    rw [hs] at hin
    obtain ⟨hbelow, hworks⟩ := hin
    have hab : q.out.toNat * q.out.toNat < 2 ^ 159 := (square_lt hlt).trans (by decide)
    rw [tick_compute hs]
    cases hdone : q.mult.done with
    | false => exact ⟨hlt, hbelow, hworks.tick hab hdone⟩
    | true =>
      -- the product is there with `done`
      obtain ⟨hout, hwait, -⟩ := hworks.finish hab hdone
      -- below the limit the square leaves room for the addition
      have hroom := (square_add_lt_iff hlt).mpr hbelow
      rw [← hout] at hroom
      exact ⟨lt_of_le_of_lt (Nat.le_add_right _ _) hroom, hwait, hroom⟩
  | add =>
    rw [hs] at hin
    obtain ⟨hwait, hroom⟩ := hin
    rw [tick_add hs]
    refine ⟨?_, (tick_of_idle hwait q.out q.out).1⟩
    change (q.out + 0x30000000000000000000).toNat < 2 ^ 79
    rwa [BitVec.toNat_add_of_lt (hroom.trans (by decide))]
  | hold =>
    rw [hs] at hin
    have hidle := (tick_of_idle hin q.out q.out).1
    rw [tick_hold hs]
    cases run <;> exact ⟨hlt, hidle⟩

/-- The first product of `logisticMap` is a quarter at most. -/
theorem logistic_product (hl : l.out.toNat < 2 ^ 79) :
    l.out.toNat * (0x80000000000000000000 - l.out).toNat ≤ 2 ^ 156 := by
  have hsub : (0x80000000000000000000 - l.out).toNat = 2 ^ 79 - l.out.toNat :=
    BitVec.toNat_sub_of_le (BitVec.le_def.mpr hl.le)
  have hsquare := four_mul_le_pow_two_add l.out.toNat (2 ^ 79 - l.out.toNat)
  rw [Nat.add_sub_of_le hl.le, Nat.mul_assoc] at hsquare
  rw [hsub]
  omega

theorem logistic_product2 (hl : l.out.toNat ≤ 2 ^ 77) :
    l.out.toNat * (0xF0000000000000000000 : Key).toNat ≤ 15 * 2 ^ 153 := by
  have hfactor : (0xF0000000000000000000 : Key).toNat = 15 * 2 ^ 76 := rfl
  rw [hfactor]
  omega

/-- The second product, which `SHIFT` doubles, is below a half. -/
theorem logistic_half (hquarter : l.out.toNat ≤ 2 ^ 77)
    (hworks : Works l.out 0xF0000000000000000000 l.mult) (hdone : l.mult.done = true) :
    l.mult.out.toNat < 2 ^ 78 := by
  have hle := logistic_product2 hquarter
  obtain ⟨hout, -⟩ := hworks.finish (lt_of_le_of_lt hle (by decide)) hdone
  have hproduct := partialProduct_mul_le (f := 79) (k := 79) (a := l.out.toNat)
    (b := (0xF0000000000000000000 : Key).toNat) (by omega)
  omega

theorem LogisticMap.Inv.exact (hl : l.Inv) : l.Exact := by
  obtain ⟨hlt, hin⟩ := hl
  refine ⟨fun _ => hlt.le, fun hs hdone => ?_, fun hs => ?_, ?_⟩
  · rw [hs] at hin
    exact getLsbD_top_eq_false ((logistic_half hin.1 hin.2 hdone).trans (by decide))
  · exact getLsbD_top_eq_false hlt
  · cases hs : l.state <;> rw [hs] at hin
    case compute1 => exact hin.exact (lt_of_le_of_lt (logistic_product hlt) (by decide))
    case compute2 => exact hin.2.exact (lt_of_le_of_lt (logistic_product2 hin.1) (by decide))
    case pause | shift => exact exact_of_idle hin.1
    all_goals exact exact_of_idle hin

/-- **One tick of `logisticMap`** keeps the range. -/
theorem LogisticMap.Inv.tick (hl : l.Inv) (hinput : input.toNat < 2 ^ 79) :
    (l.tick run input).Inv := by
  obtain ⟨hlt, hin⟩ := hl
  -- by the state, of which two multiply
  cases hs : l.state with
  | wait =>
    rw [hs] at hin
    have hidle := (tick_of_idle hin l.op1 l.op2).1
    rw [tick_wait hs]
    cases run with
    | false => exact ⟨hlt, hidle⟩
    | true => exact ⟨hinput, Or.inl hidle⟩
  | compute1 =>
    rw [hs] at hin
    have hle := logistic_product hlt
    have hab := lt_of_le_of_lt hle (show 2 ^ 156 < 2 ^ 159 by decide)
    rw [tick_compute1 hs]
    cases hdone : l.mult.done with
    | false => exact ⟨hlt, hin.tick hab hdone⟩
    | true =>
      -- the first product is a quarter at most
      obtain ⟨-, hwait, hproduct⟩ := hin.finish hab hdone
      have hbound := partialProduct_mul_le (f := 79) (k := 80) (a := l.out.toNat)
        (b := (0x80000000000000000000 - l.out).toNat) (by omega)
      rw [← hproduct] at hbound
      refine ⟨hlt, hwait, ?_⟩
      change (l.mult.tick true l.out (0x80000000000000000000 - l.out)).out.toNat ≤ 2 ^ 77
      omega
  | pause =>
    rw [hs] at hin
    obtain ⟨hwait, hquarter⟩ := hin
    rw [tick_pause hs]
    exact ⟨lt_of_le_of_lt hquarter (by decide), hquarter,
      Or.inl (tick_of_idle hwait l.op1 l.op2).1⟩
  | compute2 =>
    rw [hs] at hin
    obtain ⟨hquarter, hworks⟩ := hin
    have hab := lt_of_le_of_lt (logistic_product2 hquarter)
      (show 15 * 2 ^ 153 < 2 ^ 159 by decide)
    rw [tick_compute2 hs]
    cases hdone : l.mult.done with
    | false => exact ⟨hlt, hquarter, hworks.tick hab hdone⟩
    | true =>
      have hhalf : ((l.mult.out.setWidth 79).setWidth 80).toNat < 2 ^ 78 := by
        -- the second one a half
        have hlow := logistic_half hquarter hworks hdone
        rw [BitVec.toNat_setWidth, BitVec.toNat_setWidth]
        omega
      exact ⟨hhalf.trans (by decide), (hworks.finish hab hdone).2.1, hhalf⟩
  | shift =>
    rw [hs] at hin
    obtain ⟨hwait, hhalf⟩ := hin
    rw [tick_shift hs]
    refine ⟨?_, (tick_of_idle hwait l.op1 l.op2).1⟩
    change (l.out <<< 1).toNat < 2 ^ 79
    rw [BitVec.toNat_shiftLeft, Nat.shiftLeft_eq]
    omega
  | hold =>
    rw [hs] at hin
    have hidle := (tick_of_idle hin l.op1 l.op2).1
    rw [tick_hold hs]
    cases run <;> exact ⟨hlt, hidle⟩

/-- **One tick of `bernMap`** keeps the range: twice a number from a half on, and 1, wraps to the
part of the double that is above 1. -/
theorem bern_out_lt (hb : b.out.toNat < 2 ^ 79) (hin : input.toNat < 2 ^ 79) :
    (b.tick run input).out.toNat < 2 ^ 79 := by
  have hhalf : b.out < 0x40000000000000000000 ↔ b.out.toNat < 2 ^ 78 := BitVec.lt_def
  -- below a half the double fits, from a half on 1 is taken away by the wrap
  cases hs : b.state with
  | load =>
    simp only [BernMap.tick, BernMap.nextOut, hs]
    split_ifs <;> assumption
  | compute =>
    simp only [BernMap.tick, BernMap.nextOut, hs]
    split_ifs with h
    · rw [hhalf] at h
      rw [BitVec.toNat_shiftLeft, Nat.shiftLeft_eq]
      omega
    · rw [hhalf] at h
      have hone : (0x80000000000000000000 : Key).toNat = 2 ^ 79 := rfl
      rw [BitVec.toNat_add, BitVec.toNat_shiftLeft, Nat.shiftLeft_eq, hone]
      omega
  | hold => simpa only [BernMap.tick, BernMap.nextOut, hs] using hb

end Tick

/-! ### The whole chip -/

/-- The map modules that wait for an operand. -/
def Chip.mapLoading (c : Chip) : Map → Bool
  | .log => decide (c.log.state = .wait)
  | .tent => decide (c.tent.state = .load)
  | .quad => decide (c.quad.state = .load)
  | .bern => decide (c.bern.state = .load)

/-- The map module `m` takes the key for its operand at this edge. -/
def Chip.Takes (c : Chip) (m : Map) : Prop := c.mapLoading m = true ∧ c.mapRun m = true

/-- **In range**: every operand that is taken and every result that is given is below 1, and no map
loses a bit in what it computes. -/
structure InRange (c : Chip) : Prop where
  operand : ∀ m, c.Takes m → c.gen.currentKey.toNat < 2 ^ 79
  result : ∀ m, c.mapDone m = true → (c.mapOut m).toNat < 2 ^ 79
  log : c.log.Exact
  tent : c.tent.Exact
  quad : c.quad.Exact
  bern : c.bern.Exact

/-- The operand that `quadMap` takes, if it takes one, is below its limit. -/
def QuadBounded (c : Chip) : Prop := c.Takes .quad → c.gen.currentKey.toNat < quadLimit

/-- The range of all registers. -/
structure Chip.Inv (c : Chip) : Prop where
  currentKey_lt : c.gen.currentKey.toNat < 2 ^ 79
  log : c.log.Inv
  tent : c.tent.Inv
  quad : c.quad.Inv
  bern : c.bern.out.toNat < 2 ^ 79

section Chip

variable {c : Chip} {p : Port}

theorem Chip.Inv.mapOut_lt (hc : c.Inv) (m : Map) : (c.mapOut m).toNat < 2 ^ 79 := by
  cases m
  exacts [hc.log.out_lt, hc.tent.out_lt, hc.quad.out_lt, hc.bern]

theorem Chip.Inv.inRange (hc : c.Inv) : InRange c where
  operand _ _ := hc.currentKey_lt
  result m _ := hc.mapOut_lt m
  log := hc.log.exact
  tent := hc.tent.exact
  quad := hc.quad.exact
  bern _ := getLsbD_top_eq_false hc.bern

/-- Whatever the generator takes for its key is in range. -/
theorem Chip.Inv.routine_lt (hc : c.Inv) (hkey : p.initialSubkey.toNat < 2 ^ 79) :
    (c.gen.routine p c.servers).currentKey.toNat < 2 ^ 79 := by
  have hlt := hc.currentKey_lt
  have hmap : ∀ m, (c.gen.mapRoutine (c.servers m).answer).currentKey.toNat < 2 ^ 79 := by
    intro m
    rw [Chip.servers]
    split_ifs
    · exact hc.mapOut_lt m
    · exact hlt
  -- by the state: the key comes from the input, from itself or from a map
  cases hs : c.gen.state <;> simp only [Generator.routine, hs]
  case wait =>
    simp only [Generator.waitRoutine]
    split_ifs <;> assumption
  case decideMap => exact hlt
  case hold => exact hlt
  all_goals exact hmap _

theorem TentMap.inv_clear (t : TentMap) : t.clear.Inv where
  out_lt := by change (0 : Key).toNat < _; decide
  inState := rfl

theorem QuadMap.inv_clear (q : QuadMap) : q.clear.Inv where
  out_lt := by change (0 : Key).toNat < _; decide
  inState := rfl

theorem LogisticMap.inv_clear (l : LogisticMap) : l.clear.Inv where
  out_lt := by change (0 : Key).toNat < _; decide
  inState := rfl

/-- After a reset every register is in range. -/
theorem inv_of_reset (c₀ : Chip) (hp : p.reset = true) : (c₀.tick p).Inv := by
  rw [Chip.tick, if_pos hp]
  refine ⟨?_, c₀.log.inv_clear, c₀.tent.inv_clear, c₀.quad.inv_clear, ?_⟩ <;>
    · change (0 : Key).toNat < _
      decide

/-- **One edge** keeps the range, if `quadMap` takes no operand from its limit on. -/
theorem Chip.Inv.tick (hc : c.Inv) (hkey : p.initialSubkey.toNat < 2 ^ 79)
    (hquad : QuadBounded c) : (c.tick p).Inv := by
  cases hreset : p.reset with
  | true => exact inv_of_reset c hreset
  | false =>
    rw [Chip.tick, hreset]
    have hlt := hc.currentKey_lt
    refine ⟨hc.routine_lt hkey, hc.log.tick hlt, hc.tent.tick hlt, hc.quad.tick hlt ?_,
      bern_out_lt hc.bern hlt⟩
    exact fun hload hrun => hquad ⟨decide_eq_true hload, hrun⟩

/-! ### `quadMap` to the end -/

/-- `quadMap` in the course of squaring `x`. -/
structure Squaring (x : Key) (k : ℕ) (q : QuadMap) : Prop where
  state : q.state = .compute
  out : q.out = x
  mult : Multiplying x x k q.mult

variable {x : Key} {q : QuadMap} {run : Bool} {input : Key} {k : ℕ}

theorem Squaring.tick (hq : Squaring x k q) (hx : x.toNat < 2 ^ 79) (hk : k < 79) :
    Squaring x (k + 1) (q.tick run input) := by
  have hdone : q.mult.done = false := by
    rw [hq.mult.underway.done_eq hk.le]
    exact decide_eq_false hk.ne
  have hab : x.toNat * x.toNat < 2 ^ 159 := (square_lt hx).trans (by decide)
  rw [QuadMap.tick_compute hq.state, hdone]
  exact ⟨rfl, hq.out, (hq.mult.underway.tick hk).multiplying hab (by omega)⟩

/-- The square goes to `out`, one addition short. -/
theorem Squaring.finish (hq : Squaring x 79 q) :
    (q.tick run input).state = .add ∧
      (q.tick run input).out.toNat = partialProduct 79 x.toNat x.toNat 79 := by
  have hdone : q.mult.done = true := hq.mult.underway.done_eq le_rfl
  rw [QuadMap.tick_compute hq.state, hdone]
  exact ⟨rfl, hq.mult.out⟩

theorem tick_quad (hp : p.reset = false) :
    (c.tick p).quad = c.quad.tick (c.mapRun .quad) c.gen.currentKey := by
  rw [Chip.tick, hp]
  rfl

/-- **`quadMap` gives its result** for every operand it has taken. -/
theorem quad_leadsTo (hx : x.toNat < 2 ^ 79) :
    LeadsTo Chip.tick (fun _ p => p.reset = false) (fun _ => True)
      (fun c => c.quad.state = .compute ∧ c.quad.out = x ∧ c.quad.mult.state = .wait)
      (fun c => c.quad.state = .hold ∧
        c.quad.out.toNat = partialProduct 79 x.toNat x.toNat 79 + 3 * 2 ^ 76) := by
  -- the multiplier starts, goes through the bits, and the constant is added
  refine .step_trans (Q := fun c : Chip => Squaring x 0 c.quad) (fun _ _ => trivial) ?_
    ((LeadsTo.loop (L := fun k (c : Chip) => Squaring x k c.quad) (Nat.zero_le 79) fun k _ hk =>
      .of_step (fun _ _ => trivial) ?_).trans
    (.step_trans (Q := fun c : Chip => c.quad.state = .add ∧
      c.quad.out.toNat = partialProduct 79 x.toNat x.toNat 79) (fun _ _ => trivial) ?_
    (.of_step (fun _ _ => trivial) ?_)))
  -- the operand is taken
  · rintro c p ⟨hs, hout, hwait⟩ hp
    have hdone : c.quad.mult.done = false := by simp [Multiplier.done, hwait]
    rw [tick_quad hp, QuadMap.tick_compute hs, hdone, hout]
    have hab : x.toNat * x.toNat < 2 ^ 159 := (square_lt hx).trans (by decide)
    exact ⟨rfl, rfl, (underway_zero hwait).multiplying hab (by omega)⟩
  · intro c p hq hp
    rw [tick_quad hp]
    exact hq.tick hx hk
  · intro c p hq hp
    rw [tick_quad hp]
    exact hq.finish
  -- and the constant added, without a carry out of the word
  · rintro c p ⟨hs, hout⟩ hp
    have hbound := partialProduct_mul_le (f := 79) (k := 79) (a := x.toNat) (b := x.toNat)
      (by omega)
    have hsquare := square_lt hx
    have hthree : (0x30000000000000000000 : Key).toNat = 3 * 2 ^ 76 := rfl
    have hroom : c.quad.out.toNat + (0x30000000000000000000 : Key).toNat < 2 ^ 80 := by
      rw [hout, hthree]
      omega
    rw [tick_quad hp, QuadMap.tick_add hs]
    refine ⟨rfl, ?_⟩
    change (c.quad.out + 0x30000000000000000000).toNat = _
    rw [BitVec.toNat_add_of_lt hroom, hout, hthree]

end Chip

/-! ### Runs -/

/-- Up to the first operand from the limit on, every register is in range. -/
theorem inv_stateAt (c₀ : Chip) {r : Port} (hr : r.reset = true) {inp : ℕ → Port}
    (hkey : ∀ n, (inp n).initialSubkey.toNat < 2 ^ 79) (n : ℕ)
    (hquad : ∀ m < n, QuadBounded (stateAt Chip.tick (c₀.tick r) inp m)) :
    (stateAt Chip.tick (c₀.tick r) inp n).Inv := by
  induction n with
  | zero => exact inv_of_reset c₀ hr
  | succ n ih =>
    exact (ih fun m hm => hquad m (by omega)).tick (hkey n) (hquad n (Nat.lt_succ_self n))

/-- An operand from the limit on is squared to a result that is out of range. -/
theorem quadBounded_of_inRange {c : Chip} {inp : ℕ → Port} (hc : c.Inv)
    (hreset : ∀ n, (inp n).reset = false) (h : ∀ n, InRange (stateAt Chip.tick c inp n)) :
    QuadBounded c := by
  rintro ⟨hload, hrun⟩
  -- the operand is in range because the run is
  have hx := (h 0).operand .quad ⟨hload, hrun⟩
  have hstate : c.quad.state = .load := of_decide_eq_true hload
  -- the tick that takes the operand
  have htaken : (c.tick (inp 0)).quad.state = .compute ∧
      (c.tick (inp 0)).quad.out = c.gen.currentKey ∧
      (c.tick (inp 0)).quad.mult.state = .wait := by
    have hidle := hc.quad.inState
    rw [hstate] at hidle
    rw [tick_quad (hreset 0), hrun, QuadMap.tick_load hstate]
    exact ⟨rfl, rfl, (tick_of_idle hidle _ _).1⟩
  -- its result comes, and is in range too
  obtain ⟨n, ⟨hhold, hout⟩, -⟩ := quad_leadsTo hx _ htaken (fun n => inp (n + 1))
    fun n => hreset (n + 1)
  rw [← stateAt_succ'] at hhold hout
  have hresult := (h (n + 1)).result .quad (decide_eq_true hhold)
  rw [Chip.mapOut, hout] at hresult
  exact (square_add_lt_iff hx).mp hresult

/-- In a run that stays in range `quadMap` takes no operand from its limit on. -/
theorem quadBounded_stateAt (c₀ : Chip) {r : Port} (hr : r.reset = true) {inp : ℕ → Port}
    (hreset : ∀ n, (inp n).reset = false) (hkey : ∀ n, (inp n).initialSubkey.toNat < 2 ^ 79)
    (h : ∀ n, InRange (stateAt Chip.tick (c₀.tick r) inp n)) (n : ℕ) :
    QuadBounded (stateAt Chip.tick (c₀.tick r) inp n) := by
  induction n using Nat.strong_induction_on with
  | _ n ih =>
    have hinv := inv_stateAt c₀ hr hkey n ih
    have hrest : ∀ k, InRange (stateAt Chip.tick (stateAt Chip.tick (c₀.tick r) inp n)
        (fun k => inp (n + k)) k) := by
      intro k
      rw [← stateAt_add]
      exact h (n + k)
    exact quadBounded_of_inRange hinv (fun k => hreset (n + k)) hrest

/-- **When the keys stay in range.** A run from a reset, on keys below 1, is in range at every tick
exactly when `quadMap` never takes an operand from its limit on. -/
theorem inRange_iff (c₀ : Chip) (r : Port) (hr : r.reset = true) (inp : ℕ → Port)
    (hreset : ∀ n, (inp n).reset = false) (hkey : ∀ n, (inp n).initialSubkey.toNat < 2 ^ 79) :
    (∀ n, InRange (stateAt Chip.tick (c₀.tick r) inp n)) ↔
      ∀ n, QuadBounded (stateAt Chip.tick (c₀.tick r) inp n) :=
  ⟨quadBounded_stateAt c₀ hr hreset hkey,
    fun h n => (inv_stateAt c₀ hr hkey n fun m _ => h m).inRange⟩

/-- The chip at power-up. -/
def powerUp : Chip where
  gen := .reset
  log := ⟨.wait, 0, ⟨.wait, 0, 0, 0, 0⟩⟩
  tent := ⟨.load, 0, ⟨.wait, 0, 0, 0, 0⟩⟩
  quad := ⟨.load, 0, ⟨.wait, 0, 0, 0, 0⟩⟩
  bern := ⟨.load, 0⟩

/-- A seed and a key, with `Run` high or low. -/
def portOf (run : Bool) (seed : BitVec 12) (key : Key) : Port :=
  ⟨false, run, seed, key, fun _ => 0⟩

/-- The inputs of the reset. -/
def resetPort : Port := { portOf false 0 0 with reset := true }

/-- `Run` with the seed `0x0C0`, which asks for `logisticMap` four times, `bernMap` seven times,
`tentMap` four times and `logisticMap` four times, and the key of ten letters z. -/
def calmPort : ℕ → Port := fun _ => portOf true 0x0C0 0x7a7a7a7a7a7a7a7a7a7a

/-- `WAIT` has still to take the seed `0x0C0`, or has taken it, and no `quadMap` is asked for. -/
def Calm (c : Chip) : Prop :=
  c.gen.state ≠ .quadratic ∧ (c.gen.state = .wait ∨ c.gen.tempSeed = 0x0C0)

/-- None of the four stages of that seed is `quadMap`'s. -/
theorem decideMapNext_calm {g : Generator} (hg : g.tempSeed = 0x0C0) :
    g.decideMapNext ≠ .quadratic := by
  simp only [Generator.decideMapNext, hg]
  generalize g.cycle = c
  revert c
  decide

/-- A map state is left for `DECIDE_MAP` alone. -/
theorem mapNext_ne_quadratic {g : Generator} (hg : g.state ≠ .quadratic) (answer : Option Key) :
    g.mapNext answer ≠ .quadratic := by
  unfold Generator.mapNext
  split_ifs
  exacts [Fsm.noConfusion, hg, hg]

theorem mapRoutine_tempSeed (g : Generator) (answer : Option Key) :
    (g.mapRoutine answer).tempSeed = g.tempSeed := by
  cases answer <;> rfl

theorem Calm.tick {c : Chip} (hc : Calm c) : Calm (c.tick (calmPort 0)) := by
  obtain ⟨hquad, hseed⟩ := hc
  change c.gen.nextState (calmPort 0) c.servers ≠ .quadratic ∧
    (c.gen.nextState (calmPort 0) c.servers = .wait ∨
      (c.gen.routine (calmPort 0) c.servers).tempSeed = 0x0C0)
  -- by the state: the seed is taken in `WAIT` and kept until the end
  unfold Generator.nextState Generator.routine
  cases hst : c.gen.state with
  | wait => exact ⟨Fsm.noConfusion, .inr rfl⟩
  | quadratic => exact absurd hst hquad
  | decideMap =>
    have htaken : c.gen.tempSeed = 0x0C0 := hseed.resolve_left (by rw [hst]; exact Fsm.noConfusion)
    exact ⟨decideMapNext_calm htaken, .inr htaken⟩
  | logistic | tent | bernoulli =>
    have htaken : c.gen.tempSeed = 0x0C0 := hseed.resolve_left (by rw [hst]; exact Fsm.noConfusion)
    exact ⟨mapNext_ne_quadratic hquad _, .inr ((mapRoutine_tempSeed _ _).trans htaken)⟩
  | hold => exact ⟨Fsm.noConfusion, .inr (hseed.resolve_left (by rw [hst]; exact Fsm.noConfusion))⟩

/-- A seed without `quadMap` takes the key at the third tick, has run through its nineteen
applications at tick 1691, and stays in range. -/
theorem inRange_calm :
    (stateAt Chip.tick (powerUp.tick resetPort) calmPort 2).Takes .log ∧
      (stateAt Chip.tick (powerUp.tick resetPort) calmPort 1691).gen.done = true ∧
      ∀ n, InRange (stateAt Chip.tick (powerUp.tick resetPort) calmPort n) := by
  have hkey : (0x7a7a7a7a7a7a7a7a7a7a : Key).toNat < 2 ^ 79 := by decide
  refine ⟨⟨by decide, by decide⟩, by decide +kernel,
    (inRange_iff powerUp resetPort rfl calmPort (fun _ => rfl) fun _ => hkey).mpr fun n => ?_⟩
  have hcalm : Calm (stateAt Chip.tick (powerUp.tick resetPort) calmPort n) :=
    stateAt_invariant (I := Calm) (c := fun (_ : Chip) (p : Port) => p = calmPort 0)
      (fun _ _ hc hp => hp ▸ hc.tick) ⟨by decide, .inl rfl⟩ (fun _ => rfl) n
  -- only its own state runs `quadMap`
  rintro ⟨-, hrun⟩
  simp [Chip.mapRun, Generator.mapRun, Map.state, hcalm.1] at hrun

/-- `Run` with the seed `0xA00`, which asks for `quadMap` first, and the key of ten letters z. -/
def zedPort : ℕ → Port := fun _ => portOf true 0xA00 0x7a7a7a7a7a7a7a7a7a7a

/-- The key of ten letters z is below 1, but its square and `3 / 8` together are not. -/
theorem quad_leaves_range : ¬ ∀ (c₀ : Chip) (r : Port) (inp : ℕ → Port), r.reset = true →
    (∀ n, (inp n).reset = false) → (∀ n, (inp n).initialSubkey.toNat < 2 ^ 79) →
    ∀ n, InRange (stateAt Chip.tick (c₀.tick r) inp n) := by
  intro h
  have hkey : ∀ n, (zedPort n).initialSubkey.toNat < 2 ^ 79 := fun _ => by
    change (0x7a7a7a7a7a7a7a7a7a7a : Key).toNat < _
    decide
  have hrange := h powerUp resetPort zedPort rfl (fun _ => rfl) hkey
  -- the third tick takes the key
  have hbounded := quadBounded_stateAt powerUp rfl (fun _ => rfl) hkey hrange 2
    ⟨by decide, by decide⟩
  exact absurd hbounded (by decide)

end Subkey
end VideoEncryption
