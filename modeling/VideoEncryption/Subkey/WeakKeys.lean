import VideoEncryption.Subkey.Accuracy
import VideoEncryption.Subkey.Range

/-!
# Weak keys

The maps lose information, and a key schedule made of them has weak keys, whatever the seed is.

* `outputs_iff` — the chip puts out the composition of the maps, and that only;
* `equivalent_keys` — **every seed has pairs of keys with the same subkey**: `tentMap` folds the
  interval, `logisticMap` and `quadMap` lose the last bit of a small number;
* `subkeys_of_bern` — each use of `bernMap` shifts one bit of the key out, so a seed that picks it
  for a stage of `n` uses has `2 ^ (80 - n)` subkeys at most.
-/

namespace VideoEncryption
namespace Subkey

open Clocked Fixed

variable {s : BitVec 12} {x y : Key} {c n : ℕ}

/-! ### What the chip puts out -/

/-- `y` is a subkey that some run of the chip puts out for the seed `s` and the key `x`. -/
def Outputs (s : BitVec 12) (x y : Key) : Prop :=
  ∃ (c₀ : Chip) (r : Port) (inp : ℕ → Port) (t n : ℕ), r.reset = true ∧
    (∀ n, (inp n).reset = false) ∧ (∀ n < t, (inp n).run = false) ∧ (inp t).run = true ∧
    (inp t).seed = s ∧ (inp t).initialSubkey = x ∧
    (stateAt Chip.tick (c₀.tick r) inp n).gen.done = true ∧
    (stateAt Chip.tick (c₀.tick r) inp n).gen.subkey = y

theorem outputs_iff : Outputs s x y ↔ y = subkeyOf mapKey s x := by
  constructor
  · rintro ⟨c₀, r, inp, t, n, hr, hreset, hwait, hrun, rfl, rfl, hdone, rfl⟩
    obtain ⟨htime, hsubkey⟩ := chip_generates_in c₀ hr inp hreset t hrun hwait n
    exact hsubkey (htime.mp hdone)
  · rintro rfl
    obtain ⟨htime, hsubkey⟩ := chip_generates_in powerUp (r := resetPort) rfl
      (fun _ => portOf true s x) (fun _ => rfl) 0 rfl (fun _ hn => absurd hn (Nat.not_lt_zero _))
      (0 + generationTime s)
    exact ⟨powerUp, resetPort, fun _ => portOf true s x, 0, 0 + generationTime s, rfl,
      fun _ => rfl, fun _ hn => absurd hn (Nat.not_lt_zero _), rfl, rfl, rfl, htime.mpr le_rfl,
      hsubkey le_rfl⟩

/-! ### Equivalent keys -/

/-- The key with the same subkey: the reflection at a half, or the lowest bit flipped. -/
def partner (s : BitVec 12) (x : Key) : Key :=
  if stageMap s 0 = .tent then 0x80000000000000000000 - x else x ^^^ 1

/-- The two halves of the interval go to the same values. -/
theorem tentKey_complement (hx : x.toNat ≤ 2 ^ 79) :
    tentKey (0x80000000000000000000 - x) = tentKey x := by
  have hy := toNat_complement hx
  have hyle : (0x80000000000000000000 - x).toNat ≤ 2 ^ 79 := by
    rw [hy]
    exact Nat.sub_le _ _
  apply BitVec.eq_of_toNat_eq
  rw [toNat_tentKey hx, toNat_tentKey hyle, hy, Nat.sub_sub_self hx, Nat.min_comm]

theorem toNat_flip_lt (hx : x.toNat < 2 ^ 39) : (x ^^^ 1).toNat < 2 ^ 39 := by
  rw [BitVec.toNat_xor]
  exact Nat.xor_lt_two_pow hx (by decide)

/-- The flip changes no bit but the lowest one. -/
theorem testBit_flip {j : ℕ} (hj : j ≠ 0) : (x ^^^ 1).toNat.testBit j = x.toNat.testBit j := by
  have hone : (1 : Key).toNat.testBit j = false := by
    obtain ⟨i, rfl⟩ := Nat.exists_eq_succ_of_ne_zero hj
    change Nat.testBit 1 (i + 1) = false
    rw [Nat.testBit_succ]
    exact Nat.zero_testBit i
  rw [BitVec.toNat_xor, Nat.testBit_xor, hone, Bool.xor_false]

/-- The first product of `logisticMap` for a small number. -/
theorem logisticFirst_small (hx : x.toNat < 2 ^ 39) : logisticFirst x = BitVec.ofNat 80
    (∑ j ∈ Finset.range 80, if x.toNat.testBit j then 2 ^ j - 1 else 0) := by
  rw [logisticFirst, toNat_complement (hx.le.trans (by decide)),
    partialProduct_complement hx (by decide)]

theorem logisticKey_flip (hx : x.toNat < 2 ^ 39) : logisticKey (x ^^^ 1) = logisticKey x := by
  have hfirst : logisticFirst (x ^^^ 1) = logisticFirst x := by
    rw [logisticFirst_small hx, logisticFirst_small (toNat_flip_lt hx)]
    refine congrArg (BitVec.ofNat 80) (Finset.sum_congr rfl fun j _ => ?_)
    rcases Nat.eq_zero_or_pos j with rfl | hj
    · simp
    · rw [testBit_flip hj.ne']
  rw [logisticKey, logisticSecond, hfirst, logisticKey, logisticSecond]

/-- The square of a small number is less than the last place. -/
theorem quadKey_small (hx : x.toNat < 2 ^ 39) : quadKey x = 0x30000000000000000000 := by
  have hsquare : x.toNat * x.toNat < 2 ^ 39 * 2 ^ 39 := Nat.mul_lt_mul'' hx hx
  have hproduct := partialProduct_mul_le (f := 79) (k := 79) (a := x.toNat) (b := x.toNat)
    (by decide)
  have hzero : partialProduct 79 x.toNat x.toNat 79 = 0 := by omega
  rw [quadKey, quadSquare, hzero]
  rfl

/-- The first map does not tell the two keys apart. -/
theorem mapKey_partner (hx : x.toNat < 2 ^ 39) :
    mapKey (stageMap s 0) (partner s x) = mapKey (stageMap s 0) x := by
  have hfirst : stageMap s 0 = .log ∨ stageMap s 0 = .tent ∨ stageMap s 0 = .quad := by
    rw [stageMap, firstMap]
    split_ifs <;> simp
  rcases hfirst with h | h | h <;> rw [partner, h]
  · exact logisticKey_flip hx
  · exact tentKey_complement (hx.le.trans (by decide))
  · exact (quadKey_small (toNat_flip_lt hx)).trans (quadKey_small hx).symm

theorem partner_ne (hx : x.toNat < 2 ^ 39) : partner s x ≠ x := by
  rw [partner]
  split_ifs
  · intro h
    have hy := toNat_complement (x := x) (hx.le.trans (by decide))
    rw [h] at hy
    omega
  · intro h
    have hone : x ^^^ (x ^^^ 1) = x ^^^ x := by rw [h]
    rw [← BitVec.xor_assoc, BitVec.xor_self, BitVec.zero_xor] at hone
    exact absurd hone (by decide)

theorem toNat_partner_lt (hpos : 0 < x.toNat) (hx : x.toNat < 2 ^ 39) :
    (partner s x).toNat < 2 ^ 79 := by
  rw [partner]
  split_ifs
  · rw [toNat_complement (hx.le.trans (by decide))]
    exact Nat.sub_lt (by decide) hpos
  · exact (toNat_flip_lt hx).trans (by decide)

/-- **Equivalent keys**: for every seed, each of the `2 ^ 39 - 1` smallest keys but zero has another
key below 1 with the same subkeys. -/
theorem equivalent_keys (s : BitVec 12) (x : Key) (hpos : 0 < x.toNat) (hx : x.toNat < 2 ^ 39) :
    partner s x ≠ x ∧ (partner s x).toNat < 2 ^ 79 ∧
      ∀ y, Outputs s (partner s x) y ↔ Outputs s x y := by
  refine ⟨partner_ne hx, toNat_partner_lt hpos hx, fun y => ?_⟩
  -- the two keys give the same key after the first use
  have hstage : keyAfter mapKey s (partner s x) 1 = keyAfter mapKey s x 1 := by
    obtain ⟨n, hn⟩ : ∃ n, stageUses s 0 = n + 1 := ⟨3 + seedField s (9 - 3 * 0), by
      rw [stageUses]
      omega⟩
    change (mapKey (stageMap s 0))^[stageUses s 0] (partner s x)
      = (mapKey (stageMap s 0))^[stageUses s 0] x
    rw [hn, Function.iterate_succ_apply, Function.iterate_succ_apply, mapKey_partner hx]
  -- and so the same in the end
  have hsubkey : subkeyOf mapKey s (partner s x) = subkeyOf mapKey s x :=
    congrArg (fun k => (mapKey (stageMap s 3))^[stageUses s 3]
      ((mapKey (stageMap s 2))^[stageUses s 2] ((mapKey (stageMap s 1))^[stageUses s 1] k))) hstage
  rw [outputs_iff, outputs_iff, hsubkey]

/-- `tentMap` comes first for the seed `0x600`: the keys 3 and `2 ^ 79 - 3`. -/
theorem equivalent_keys_three :
    partner 0x600 3 ≠ 3 ∧ (partner 0x600 3).toNat < 2 ^ 79 ∧
      ∀ y, Outputs 0x600 (partner 0x600 3) y ↔ Outputs 0x600 3 y :=
  equivalent_keys 0x600 3 (by decide) (by decide)

/-! ### The bits that `bernMap` loses -/

/-- Each use clears one more of the lowest bits. -/
theorem bernKey_iterate_dvd (k : Key) (hn : n ≤ 79) : 2 ^ n ∣ (bernKey^[n] k).toNat := by
  -- a shift doubles the number, and the word and 1 are even enough
  induction n with
  | zero => exact Nat.one_dvd _
  | succ n ih =>
    rw [Function.iterate_succ_apply']
    generalize bernKey^[n] k = z at ih
    have hword : 2 ^ (n + 1) ∣ 2 ^ 80 := pow_dvd_pow 2 (by omega)
    have htop : 2 ^ (n + 1) ∣ 2 ^ 79 := pow_dvd_pow 2 hn
    have hshift : 2 ^ (n + 1) ∣ (z <<< 1).toNat := by
      have hdouble : 2 ^ (n + 1) ∣ z.toNat * 2 ^ 1 := by
        rw [Nat.pow_succ]
        exact Nat.mul_dvd_mul_right (ih (by omega)) 2
      rw [BitVec.toNat_shiftLeft, Nat.shiftLeft_eq]
      exact (Nat.dvd_mod_iff hword).mpr hdouble
    rw [bernKey]
    split_ifs
    · exact hshift
    · rw [BitVec.toNat_add]
      exact (Nat.dvd_mod_iff hword).mpr (Nat.dvd_add hshift htop)

/-- The subkey is a function of the key after any of the stages. -/
theorem keyAfter_factors (F : Map → Key → Key) (s : BitVec 12) {d : ℕ} (hcd : c ≤ d) :
    ∃ G : Key → Key, ∀ k, keyAfter F s k d = G (keyAfter F s k c) := by
  induction d, hcd using Nat.le_induction with
  | base => exact ⟨id, fun _ => rfl⟩
  | succ d hcd ih =>
    obtain ⟨G, hG⟩ := ih
    exact ⟨fun k => (F (stageMap s d))^[stageUses s d] (G k), fun k => by rw [keyAfter, hG]⟩

/-- **The subkeys of a seed with `bernMap`**: the bits that a stage of it shifts out, four at least,
are lost for good. -/
theorem subkeys_of_bern (s : BitVec 12) (c : ℕ) (hc : c < 4) (hbern : stageMap s c = .bern) :
    {y | ∃ x, Outputs s x y}.ncard ≤ 2 ^ (80 - stageUses s c) := by
  -- the output is a function of the key after the stage
  obtain ⟨G, hG⟩ := keyAfter_factors mapKey s (show c + 1 ≤ 4 from hc)
  have huses : stageUses s c ≤ 79 := by
    have hfield := seedField_lt s (9 - 3 * c)
    rw [stageUses]
    omega
  generalize hn : stageUses s c = n at huses
  -- which is a multiple of a power of two
  have hsubset : {y | ∃ x, Outputs s x y} ⊆ (fun i => G (BitVec.ofNat 80 (2 ^ n * i))) ''
      (Finset.range (2 ^ (80 - n)) : Set ℕ) := by
    rintro y ⟨x, hy⟩
    obtain ⟨i, hi⟩ : 2 ^ n ∣ (keyAfter mapKey s x (c + 1)).toNat := by
      rw [keyAfter, hbern, hn]
      exact bernKey_iterate_dvd _ huses
    refine ⟨i, ?_, ?_⟩
    · rw [Finset.coe_range, Set.mem_Iio]
      have hlt := (keyAfter mapKey s x (c + 1)).isLt
      have hword : 2 ^ 80 = 2 ^ n * 2 ^ (80 - n) := by
        rw [← Nat.pow_add, Nat.add_sub_cancel' (by omega)]
      rw [hi, hword] at hlt
      exact Nat.lt_of_mul_lt_mul_left hlt
    · rw [outputs_iff.mp hy]
      dsimp only
      rw [← hi, BitVec.ofNat_toNat, BitVec.setWidth_eq]
      exact (hG x).symm
  -- so there are no more outputs than such multiples
  calc {y | ∃ x, Outputs s x y}.ncard
      ≤ ((fun i => G (BitVec.ofNat 80 (2 ^ n * i))) ''
          (Finset.range (2 ^ (80 - n)) : Set ℕ)).ncard :=
        Set.ncard_le_ncard hsubset ((Finset.finite_toSet _).image _)
    _ ≤ (Finset.range (2 ^ (80 - n)) : Set ℕ).ncard := Set.ncard_image_le (Finset.finite_toSet _)
    _ = 2 ^ (80 - n) := by rw [Set.ncard_coe_finset, Finset.card_range]

/-- The seed `0x140` uses `bernMap` nine times in its second stage. -/
theorem subkeys_of_bern_nine : {y | ∃ x, Outputs 0x140 x y}.ncard ≤ 2 ^ 71 :=
  subkeys_of_bern 0x140 1 (by decide) (by decide)

end Subkey
end VideoEncryption
