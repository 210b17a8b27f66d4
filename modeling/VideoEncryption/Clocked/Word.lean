import Mathlib.Tactic

/-!
# Counters in machine words

A register of width `w` that counts is `BitVec.ofNat w n` for the count `n`. Addition and
multiplication pass through `BitVec.ofNat` without side conditions (`BitVec.ofNat_add`,
`BitVec.ofNat_mul`); what does need the count to fit is a comparison, and those are the lemmas
below.
-/

namespace Clocked

variable {w a b : ℕ}

theorem ofNat_inj (ha : a < 2 ^ w) (hb : b < 2 ^ w) :
    BitVec.ofNat w a = BitVec.ofNat w b ↔ a = b := by
  rw [← BitVec.toNat_inj, BitVec.toNat_ofNat, BitVec.toNat_ofNat, Nat.mod_eq_of_lt ha,
    Nat.mod_eq_of_lt hb]

theorem ofNat_lt (ha : a < 2 ^ w) (hb : b < 2 ^ w) :
    BitVec.ofNat w a < BitVec.ofNat w b ↔ a < b := by
  rw [BitVec.lt_def, BitVec.toNat_ofNat, BitVec.toNat_ofNat, Nat.mod_eq_of_lt ha,
    Nat.mod_eq_of_lt hb]

theorem toNat_ofNat_of_lt (ha : a < 2 ^ w) : (BitVec.ofNat w a).toNat = a := by
  rw [BitVec.toNat_ofNat, Nat.mod_eq_of_lt ha]

theorem ofNat_succ (w a : ℕ) : BitVec.ofNat w a + 1 = BitVec.ofNat w (a + 1) :=
  (BitVec.ofNat_add a 1).symm

theorem ofNat_sub_ofNat (h : b ≤ a) (ha : a < 2 ^ w) :
    BitVec.ofNat w a - BitVec.ofNat w b = BitVec.ofNat w (a - b) := by
  apply BitVec.eq_of_toNat_eq
  have hb : b < 2 ^ w := by omega
  rw [BitVec.toNat_sub, toNat_ofNat_of_lt ha, toNat_ofNat_of_lt hb,
    toNat_ofNat_of_lt (by omega : a - b < 2 ^ w)]
  rw [show 2 ^ w - b + a = a - b + 2 ^ w by omega, Nat.add_mod_right,
    Nat.mod_eq_of_lt (by omega)]

end Clocked
