import Mathlib.Tactic

/-!
# Bit-serial products of fixed-point numbers

A number with `f` fraction bits is a natural, `2 ^ f` standing for 1. A serial multiplier runs
through the bits of one factor from bit `f` down and adds up the other factor, shifted one place
further to the right at every step and truncated there. `partialProduct` is the sum after `k` steps.

* `partialProduct_eq_sum` — the sum written out;
* `partialProduct_mul_le` — it never exceeds the product; `mul_le_partialProduct` — and how far it
  can fall short of it;
* `partialProduct_complement` — the sum for `x (1 - x)` when `x` is small;
* `partialProduct_mono` — it is monotone in both factors, for all that the truncation is not exact.
-/

namespace Fixed

/-- The sum after `k` steps. -/
def partialProduct (f a b : ℕ) : ℕ → ℕ
  | 0 => 0
  | k + 1 => partialProduct f a b k + if a.testBit (f - k) then b / 2 ^ k else 0

variable {f a a' b b' k : ℕ}

theorem partialProduct_eq_sum (f a b k : ℕ) : partialProduct f a b k
    = ∑ i ∈ Finset.range k, if a.testBit (f - i) then b / 2 ^ i else 0 := by
  induction k with
  | zero => rfl
  | succ k ih => rw [partialProduct, Finset.sum_range_succ, ih]

/-- The bits of the first factor from which on all are clear add nothing. -/
theorem partialProduct_of_clear {l : ℕ} (hkl : k ≤ l)
    (hclear : ∀ i, k ≤ i → i < l → a.testBit (f - i) = false) :
    partialProduct f a b l = partialProduct f a b k := by
  induction l, hkl using Nat.le_induction with
  | base => rfl
  | succ l hkl ih =>
    rw [partialProduct, ih fun i hki hil => hclear i hki (by omega),
      hclear l hkl (Nat.lt_succ_self l)]
    rfl

/-- The leading bits of a number, one more. -/
theorem div_two_pow_eq (a e : ℕ) :
    a / 2 ^ e = 2 * (a / 2 ^ (e + 1)) + if a.testBit e then 1 else 0 := by
  have hbit : (if a.testBit e then 1 else 0) = a / 2 ^ e % 2 := by
    rw [Nat.testBit_eq_decide_div_mod_eq]
    rcases Nat.mod_two_eq_zero_or_one (a / 2 ^ e) with h | h <;> simp [h]
  rw [hbit, Nat.pow_succ, ← Nat.div_div_eq_div_mul]
  exact (Nat.div_add_mod _ 2).symm

/-- The sum after `k` steps is at most the product with the `k` leading bits. -/
theorem partialProduct_mul_le_head (hk : k ≤ f + 1) :
    partialProduct f a b k * 2 ^ f ≤ a / 2 ^ (f + 1 - k) * 2 ^ (f + 1 - k) * b := by
  induction k with
  | zero => simp [partialProduct]
  | succ k ih =>
    obtain ⟨e, rfl⟩ : ∃ e, f = k + e := ⟨f - k, by omega⟩
    have hold := ih (by omega)
    rw [show k + e + 1 - k = e + 1 by omega] at hold
    -- what the shifted factor loses at this step
    have htrunc : b / 2 ^ k * 2 ^ k ≤ b := Nat.div_mul_le_self b _
    rw [partialProduct, show k + e + 1 - (k + 1) = e by omega, Nat.add_sub_cancel_left,
      div_two_pow_eq a e]
    split
    -- with the bit set the step adds the truncated factor, and without it nothing
    · calc (partialProduct (k + e) a b k + b / 2 ^ k) * 2 ^ (k + e)
          = partialProduct (k + e) a b k * 2 ^ (k + e) + b / 2 ^ k * 2 ^ k * 2 ^ e := by ring
        _ ≤ a / 2 ^ (e + 1) * 2 ^ (e + 1) * b + b * 2 ^ e := by gcongr
        _ = (2 * (a / 2 ^ (e + 1)) + 1) * 2 ^ e * b := by ring
    · calc (partialProduct (k + e) a b k + 0) * 2 ^ (k + e)
          = partialProduct (k + e) a b k * 2 ^ (k + e) := by ring
        _ ≤ a / 2 ^ (e + 1) * 2 ^ (e + 1) * b := hold
        _ = (2 * (a / 2 ^ (e + 1)) + 0) * 2 ^ e * b := by ring

/-- **The serial product never exceeds the product.** -/
theorem partialProduct_mul_le (hk : k ≤ f + 1) : partialProduct f a b k * 2 ^ f ≤ a * b :=
  (partialProduct_mul_le_head hk).trans (Nat.mul_le_mul_right b (Nat.div_mul_le_self a _))

/-- Every step but the first one loses less than one place. -/
theorem head_mul_le (hk : k ≤ f) (ha : a < 2 ^ (f + 1)) :
    a / 2 ^ (f - k) * 2 ^ (f - k) * b ≤ (partialProduct f a b (k + 1) + k) * 2 ^ f := by
  induction k with
  | zero =>
    -- before the first step no bit of `a` is read
    have hlead : a / 2 ^ (f + 1) = 0 := Nat.div_eq_of_lt ha
    rw [Nat.sub_zero, partialProduct, partialProduct, Nat.sub_zero, div_two_pow_eq a f, hlead]
    split <;> simp [Nat.mul_comm]
  | succ k ih =>
    obtain ⟨e, rfl⟩ : ∃ e, f = k + 1 + e := ⟨f - (k + 1), by omega⟩
    have hold := ih (by omega)
    rw [show k + 1 + e - k = e + 1 by omega] at hold
    -- one place is more than the step can lose
    have htrunc : b ≤ (b / 2 ^ (k + 1) + 1) * 2 ^ (k + 1) := by
      rw [Nat.mul_comm]
      exact (Nat.lt_mul_div_succ b (Nat.two_pow_pos (k + 1))).le
    rw [partialProduct, Nat.add_sub_cancel_left, div_two_pow_eq a e]
    split
    · calc (2 * (a / 2 ^ (e + 1)) + 1) * 2 ^ e * b
          = a / 2 ^ (e + 1) * 2 ^ (e + 1) * b + b * 2 ^ e := by ring
        _ ≤ (partialProduct (k + 1 + e) a b (k + 1) + k) * 2 ^ (k + 1 + e)
            + (b / 2 ^ (k + 1) + 1) * 2 ^ (k + 1) * 2 ^ e := by gcongr
        _ = (partialProduct (k + 1 + e) a b (k + 1) + b / 2 ^ (k + 1) + (k + 1))
            * 2 ^ (k + 1 + e) := by ring
    · calc (2 * (a / 2 ^ (e + 1)) + 0) * 2 ^ e * b
          = a / 2 ^ (e + 1) * 2 ^ (e + 1) * b := by ring
        _ ≤ (partialProduct (k + 1 + e) a b (k + 1) + k) * 2 ^ (k + 1 + e) := hold
        -- a step that adds nothing may still count as lost
        _ ≤ (partialProduct (k + 1 + e) a b (k + 1) + 0 + (k + 1)) * 2 ^ (k + 1 + e) := by
          gcongr
          · exact Nat.le_refl _
          · exact Nat.le_succ k

/-- **The serial product is the product**, up to one place for every step but the first one. -/
theorem mul_le_partialProduct (ha : a < 2 ^ (f + 1)) :
    a * b ≤ (partialProduct f a b (f + 1) + f) * 2 ^ f := by
  have h := head_mul_le (b := b) (le_refl f) ha
  rwa [Nat.sub_self, Nat.pow_zero, Nat.div_one, Nat.mul_one] at h

/-- Nothing is lost while the factor that is shifted has zeros to lose. -/
theorem partialProduct_mul_of_dvd (hk : k ≤ f + 1) (ha : a < 2 ^ (f + 1))
    (hb : ∀ i < k, 2 ^ i ∣ b) :
    partialProduct f a b k * 2 ^ f = a / 2 ^ (f + 1 - k) * 2 ^ (f + 1 - k) * b := by
  induction k with
  | zero => rw [Nat.sub_zero, Nat.div_eq_of_lt ha, partialProduct, Nat.zero_mul, Nat.zero_mul,
      Nat.zero_mul]
  | succ k ih =>
    obtain ⟨e, rfl⟩ : ∃ e, f = k + e := ⟨f - k, by omega⟩
    have hold := ih (by omega) fun i hi => hb i (by omega)
    rw [show k + e + 1 - k = e + 1 by omega] at hold
    -- nothing is cut off here, so the bound of the general case is an equality
    have hexact : b / 2 ^ k * 2 ^ k = b := Nat.div_mul_cancel (hb k (Nat.lt_succ_self k))
    rw [partialProduct, show k + e + 1 - (k + 1) = e by omega, Nat.add_sub_cancel_left,
      div_two_pow_eq a e]
    split
    · calc (partialProduct (k + e) a b k + b / 2 ^ k) * 2 ^ (k + e)
          = partialProduct (k + e) a b k * 2 ^ (k + e) + b / 2 ^ k * 2 ^ k * 2 ^ e := by ring
        _ = a / 2 ^ (e + 1) * 2 ^ (e + 1) * b + b * 2 ^ e := by rw [hold, hexact]
        _ = (2 * (a / 2 ^ (e + 1)) + 1) * 2 ^ e * b := by ring
    · calc (partialProduct (k + e) a b k + 0) * 2 ^ (k + e)
          = a / 2 ^ (e + 1) * 2 ^ (e + 1) * b := by rw [Nat.add_zero, hold]
        _ = (2 * (a / 2 ^ (e + 1)) + 0) * 2 ^ e * b := by ring

theorem two_pow_sub_div {i j : ℕ} (hij : i + j = f) (ha : 0 < a) (hai : a ≤ 2 ^ i) :
    (2 ^ f - a) / 2 ^ i = 2 ^ j - 1 := by
  subst hij
  have hpos : 0 < 2 ^ j := Nat.two_pow_pos j
  apply Nat.div_eq_of_lt_le
  · rw [Nat.sub_mul, Nat.one_mul, ← Nat.pow_add, Nat.add_comm j]
    exact Nat.sub_le_sub_left hai _
  · rw [Nat.sub_add_cancel hpos, ← Nat.pow_add, Nat.add_comm j]
    exact Nat.sub_lt (Nat.two_pow_pos _) ha

/-- A small number times its complement: each of its bits loses one place, the lowest bit
everything. -/
theorem partialProduct_complement {h : ℕ} (ha : a < 2 ^ h) (hf : 2 * h ≤ f + 1) :
    partialProduct f a (2 ^ f - a) (f + 1)
      = ∑ j ∈ Finset.range (f + 1), if a.testBit j then 2 ^ j - 1 else 0 := by
  -- from the lowest bit up
  rw [partialProduct_eq_sum, ← Finset.sum_range_reflect]
  refine Finset.sum_congr rfl fun i hi => ?_
  have hif : i ≤ f := by
    rw [Finset.mem_range] at hi
    omega
  rw [show f + 1 - 1 - i = f - i by omega, Nat.sub_sub_self hif]
  split_ifs with hbit
  -- the summand of a set bit: the complement ends in ones there
  · have hle : 2 ^ i ≤ a := Nat.ge_two_pow_of_testBit hbit
    have hih : i < h := (Nat.pow_lt_pow_iff_right (by decide)).mp (hle.trans_lt ha)
    have hsmall : a ≤ 2 ^ (f - i) := ha.le.trans (Nat.pow_le_pow_right (by decide) (by omega))
    exact two_pow_sub_div (by omega) ((Nat.two_pow_pos i).trans_le hle) hsmall
  · rfl

theorem partialProduct_mono_right (hb : b ≤ b') (k : ℕ) :
    partialProduct f a b k ≤ partialProduct f a b' k := by
  induction k with
  | zero => exact le_rfl
  | succ k ih =>
    rw [partialProduct, partialProduct]
    have hshift : b / 2 ^ k ≤ b' / 2 ^ k := Nat.div_le_div_right hb
    split <;> omega

/-- Where the leading bits agree the sums agree, and where they differ the sum of the larger factor
is ahead by more than what is still to come. -/
theorem partialProduct_head (hk : k ≤ f + 1) (ha : a < 2 ^ (f + 1)) (ha' : a' < 2 ^ (f + 1)) :
    (a / 2 ^ (f + 1 - k) = a' / 2 ^ (f + 1 - k) →
      partialProduct f a b k = partialProduct f a' b k) ∧
    (a / 2 ^ (f + 1 - k) < a' / 2 ^ (f + 1 - k) →
      partialProduct f a b k + 2 * (b / 2 ^ k) ≤ partialProduct f a' b k) := by
  induction k with
  | zero =>
    rw [Nat.sub_zero, Nat.div_eq_of_lt ha, Nat.div_eq_of_lt ha']
    exact ⟨fun _ => rfl, fun h => absurd h (Nat.lt_irrefl 0)⟩
  | succ k ih =>
    obtain ⟨e, rfl⟩ : ∃ e, f = k + e := ⟨f - k, by omega⟩
    obtain ⟨heq, hlt⟩ := ih (by omega)
    rw [show k + e + 1 - k = e + 1 by omega] at heq hlt
    -- the next step weighs half of this one
    have hhalf : 2 * (b / 2 ^ (k + 1)) ≤ b / 2 ^ k := by
      rw [Nat.pow_succ, ← Nat.div_div_eq_div_mul]
      exact Nat.mul_div_le _ 2
    rw [partialProduct, partialProduct, show k + e + 1 - (k + 1) = e by omega,
      Nat.add_sub_cancel_left, div_two_pow_eq a e, div_two_pow_eq a' e]
    -- which factor is ahead before this bit
    rcases Nat.lt_trichotomy (a / 2 ^ (e + 1)) (a' / 2 ^ (e + 1)) with h | h | h
    · have hahead := hlt h
      refine ⟨fun h' => ?_, fun _ => ?_⟩
      · split at h' <;> split at h' <;> omega
      · split <;> split <;> omega
    -- still equal: this bit decides
    · have hsame := heq h
      refine ⟨fun h' => ?_, fun h' => ?_⟩
      · split at h' <;> split at h' <;> simp_all
      · split at h' <;> split at h' <;> simp_all
    -- the other one is ahead and stays so
    · refine ⟨fun h' => ?_, fun h' => ?_⟩
      · split at h' <;> split at h' <;> omega
      · split at h' <;> split at h' <;> omega

/-- **The serial product is monotone.** -/
theorem partialProduct_mono (hk : k ≤ f + 1) (haa : a ≤ a') (hbb : b ≤ b')
    (ha' : a' < 2 ^ (f + 1)) : partialProduct f a b k ≤ partialProduct f a' b' k := by
  refine le_trans ?_ (partialProduct_mono_right hbb k)
  obtain ⟨heq, hlt⟩ := partialProduct_head (b := b) hk (lt_of_le_of_lt haa ha') ha'
  rcases Nat.lt_or_eq_of_le (Nat.div_le_div_right (c := 2 ^ (f + 1 - k)) haa) with h | h
  · exact (Nat.le_add_right _ _).trans (hlt h)
  · exact (heq h).le

end Fixed
