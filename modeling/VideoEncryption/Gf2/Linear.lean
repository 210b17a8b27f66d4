import Mathlib.Tactic

/-!
# Linear maps over GF(2)

Words of `w` bits as naturals below `2 ^ w`, added by `xor`. A linear map is given by its columns,
the images of the powers of two, so that the powers of a map can be computed by squaring: the kernel
evaluates `xor` on naturals directly.

* `map_eq_apply` — a linear map is given by its columns;
* `apply_mul` — the columns of a composition;
* `iterate_eq_apply_power` — an iterate of a linear map, by the binary digits of the exponent.
-/

namespace Gf2

/-- The map `f` is additive. -/
def Linear (f : ℕ → ℕ) : Prop := ∀ x y, f (x ^^^ y) = f x ^^^ f y

variable {f : ℕ → ℕ} {w x : ℕ}

theorem Linear.map_zero (hf : Linear f) : f 0 = 0 := by
  have h := hf 0 0
  rwa [Nat.xor_self, Nat.xor_self] at h

/-- The lowest bit of a word goes to nothing or to the first column. -/
theorem Linear.map_mod_two_mul (hf : Linear f) (x c : ℕ) : f (x % 2 * c) = x % 2 * f c := by
  rcases Nat.mod_two_eq_zero_or_one x with h | h
  · rw [h, Nat.zero_mul, Nat.zero_mul, hf.map_zero]
  · rw [h, Nat.one_mul, Nat.one_mul]

/-! ### Columns -/

/-- The map with these columns, the one of the lowest bit first. -/
def apply : List ℕ → ℕ → ℕ
  | [], _ => 0
  | c :: cs, x => x % 2 * c ^^^ apply cs (x / 2)

/-- The columns of a map on words of `w` bits. -/
def columns (f : ℕ → ℕ) (w : ℕ) : List ℕ := (List.range w).map fun i => f (2 ^ i)

theorem xor_mod_two_mul (x y c : ℕ) : (x ^^^ y) % 2 * c = x % 2 * c ^^^ y % 2 * c := by
  have hmod : (x ^^^ y) % 2 = x % 2 ^^^ y % 2 := Nat.xor_mod_two_pow (n := 1)
  rw [hmod]
  rcases Nat.mod_two_eq_zero_or_one x with hx | hx <;>
    rcases Nat.mod_two_eq_zero_or_one y with hy | hy <;> simp [hx, hy]

/-- A map given by columns is linear. -/
theorem linear_apply (A : List ℕ) : Linear (apply A) := by
  intro x y
  induction A generalizing x y with
  | nil => exact (Nat.xor_self 0).symm
  | cons c cs ih =>
    rw [apply, apply, apply, xor_mod_two_mul, Nat.xor_div_two, ih]
    ac_rfl

/-- **A linear map is given by its columns.** -/
theorem map_eq_apply (hf : Linear f) (hx : x < 2 ^ w) : f x = apply (columns f w) x := by
  induction w generalizing f x with
  | zero =>
    obtain rfl : x = 0 := by simpa using hx
    exact hf.map_zero
  | succ w ih =>
    -- the lowest bit, and the others as the bits of half the word
    have hhalf : Linear fun y => f (2 * y) := by
      intro a b
      have hdouble : 2 * (a ^^^ b) = 2 * a ^^^ 2 * b := by
        have h := Nat.shiftLeft_xor_distrib (i := 1) (a := a) (b := b)
        simpa only [Nat.shiftLeft_eq, Nat.pow_one, Nat.mul_comm 2] using h
      simp only [hdouble]
      exact hf _ _
    have hsplit : x = x % 2 ^^^ 2 * (x / 2) := by
      apply Nat.eq_of_testBit_eq
      intro i
      cases i with
      | zero => simp [Nat.testBit_zero]
      | succ i => simp [Nat.testBit_succ, Nat.xor_div_two]
    -- the other bits, by the induction, with the map on doubled words
    have htail := ih hhalf (x := x / 2) (by omega)
    have hcolumns : columns f (w + 1) = f 1 :: columns (fun y => f (2 * y)) w := by
      rw [columns, List.range_succ_eq_map, List.map_cons, List.map_map, columns]
      simp [Function.comp_def, Nat.pow_succ, Nat.mul_comm]
    calc f x = f (x % 2) ^^^ f (2 * (x / 2)) := by rw [← hf, ← hsplit]
      _ = x % 2 * f 1 ^^^ apply (columns (fun y => f (2 * y)) w) (x / 2) := by
        rw [← hf.map_mod_two_mul, Nat.mul_one, htail]
      _ = apply (columns f (w + 1)) x := by rw [hcolumns, apply]

/-! ### Composition -/

/-- The columns of the map `A` after the map `B`. -/
def mul (A B : List ℕ) : List ℕ := B.map (apply A)

theorem apply_mul (A B : List ℕ) (x : ℕ) : apply (mul A B) x = apply A (apply B x) := by
  induction B generalizing x with
  | nil => exact (linear_apply A).map_zero.symm
  | cons c cs ih =>
    have hcons : mul A (c :: cs) = apply A c :: mul A cs := rfl
    rw [hcons, apply, ih, apply, linear_apply A, (linear_apply A).map_mod_two_mul]

/-- The number with these binary digits, the lowest first. -/
def value : List Bool → ℕ
  | [] => 0
  | b :: bs => b.toNat + 2 * value bs

/-- The columns of a power of the map `A` on words of `w` bits, by squaring. -/
def power (w : ℕ) (A : List ℕ) : List Bool → List ℕ
  | [] => columns id w
  | b :: bs =>
    let square := mul (power w A bs) (power w A bs)
    if b then mul A square else square

/-- A map that keeps words of `w` bits keeps them in all its iterates. -/
theorem iterate_lt (hf : ∀ x < 2 ^ w, f x < 2 ^ w) (hx : x < 2 ^ w) (n : ℕ) :
    f^[n] x < 2 ^ w := by
  induction n with
  | zero => exact hx
  | succ n ih =>
    rw [Function.iterate_succ_apply']
    exact hf _ ih

theorem apply_power {A : List ℕ} (hA : ∀ x < 2 ^ w, apply A x < 2 ^ w) (bs : List Bool)
    (hx : x < 2 ^ w) : apply (power w A bs) x = (apply A)^[value bs] x := by
  induction bs generalizing x with
  | nil => exact (map_eq_apply (f := id) (fun _ _ => rfl) hx).symm
  | cons b bs ih =>
    -- the power of twice the number is the square of the power
    have hsquare : apply (mul (power w A bs) (power w A bs)) x = (apply A)^[2 * value bs] x := by
      rw [apply_mul, ih hx, ih (iterate_lt hA hx _), ← Function.iterate_add_apply, Nat.two_mul]
    cases b with
    | false =>
      rw [value, Bool.toNat_false, Nat.zero_add]
      exact hsquare
    | true =>
      rw [value, Bool.toNat_true, Nat.add_comm, Function.iterate_succ_apply', ← hsquare]
      exact apply_mul ..

/-- **An iterate of a linear map** on words of `w` bits. -/
theorem iterate_eq_apply_power (hf : Linear f) (hw : ∀ x < 2 ^ w, f x < 2 ^ w) (bs : List Bool)
    (hx : x < 2 ^ w) : f^[value bs] x = apply (power w (columns f w) bs) x := by
  -- what is left is that both sides iterate alike
  have hA : ∀ y < 2 ^ w, apply (columns f w) y < 2 ^ w := by
    intro y hy
    rw [← map_eq_apply hf hy]
    exact hw y hy
  rw [apply_power hA bs hx]
  -- on words of `w` bits the map is its columns
  generalize value bs = n
  induction n with
  | zero => rfl
  | succ n ih =>
    rw [Function.iterate_succ_apply', Function.iterate_succ_apply', ← ih,
      map_eq_apply hf (iterate_lt hw hx n)]

/-- A linear map one of whose powers has the columns of the identity comes back to every word. -/
theorem iterate_eq_self (hf : Linear f) (hw : ∀ x < 2 ^ w, f x < 2 ^ w) {bs : List Bool}
    (hbs : power w (columns f w) bs = columns id w) (hx : x < 2 ^ w) : f^[value bs] x = x := by
  rw [iterate_eq_apply_power hf hw bs hx, hbs]
  exact (map_eq_apply (f := id) (fun _ _ => rfl) hx).symm

end Gf2
