import VideoEncryption.Clocked.Word
import VideoEncryption.Gf2.Linear
import VideoEncryption.Live.Encryptor

/-!
# The orbits of the keystream

The update of a nonzero register of `encryptor.sv`, three xorshifts by 13, 7 and 5, is linear over
GF(2). Its power `440401815` is the identity (`power_xorshift`), so a channel that does not hold
zero repeats after that many steps at the latest and meets about a tenth of the `2 ^ 32 - 1` nonzero
states at most. Some cycles are much shorter: `fiveCycle` is one of five states.

A map with a power that is the identity is invertible (`xorshift_injective`), and so the registers
never die, merge or coincide (`keystream_lives`).
-/

namespace VideoEncryption
namespace Live

open Clocked Encryptor

/-- The update of a nonzero register. -/
def xorshift (prev : BitVec 32) : BitVec 32 := xor2 prev ^^^ (xor2 prev <<< 5)

theorem nextPrev_of_ne_zero {reseed prev : BitVec 32} (h : prev ≠ 0) :
    nextPrev reseed prev = xorshift prev :=
  if_neg h

/-! ### The update is linear -/

theorem xor_xor_xor_comm (a b c d : BitVec 32) :
    a ^^^ b ^^^ (c ^^^ d) = a ^^^ c ^^^ (b ^^^ d) := by
  calc a ^^^ b ^^^ (c ^^^ d) = a ^^^ (b ^^^ c ^^^ d) := by
        rw [BitVec.xor_assoc, BitVec.xor_assoc]
    _ = a ^^^ (c ^^^ b ^^^ d) := by rw [BitVec.xor_comm b c]
    _ = a ^^^ c ^^^ (b ^^^ d) := by rw [BitVec.xor_assoc, BitVec.xor_assoc]

theorem xor1_xor (a b : BitVec 32) : xor1 (a ^^^ b) = xor1 a ^^^ xor1 b := by
  rw [xor1, xor1, xor1, BitVec.shiftLeft_xor_distrib, xor_xor_xor_comm]

theorem xor2_xor (a b : BitVec 32) : xor2 (a ^^^ b) = xor2 a ^^^ xor2 b := by
  rw [xor2, xor2, xor2, xor1_xor, BitVec.ushiftRight_xor_distrib, xor_xor_xor_comm]

theorem xorshift_xor (a b : BitVec 32) : xorshift (a ^^^ b) = xorshift a ^^^ xorshift b := by
  rw [xorshift, xorshift, xorshift, xor2_xor, BitVec.shiftLeft_xor_distrib, xor_xor_xor_comm]

/-- The update on registers read as numbers. -/
def xorshiftNat (x : ℕ) : ℕ := (xorshift (BitVec.ofNat 32 x)).toNat

theorem linear_xorshiftNat : Gf2.Linear xorshiftNat := by
  intro a b
  have hword : BitVec.ofNat 32 (a ^^^ b) = BitVec.ofNat 32 a ^^^ BitVec.ofNat 32 b :=
    BitVec.eq_of_toNat_eq (by simp)
  rw [xorshiftNat, hword, xorshift_xor, BitVec.toNat_xor]
  rfl

theorem xorshiftNat_lt (x : ℕ) : xorshiftNat x < 2 ^ 32 := BitVec.isLt _

/-! ### A power of the update -/

/-- The binary digits of `440401815`, the lowest first. -/
def periodBits : List Bool :=
  [true, true, true, false, true, false, false, true, true, true, true, true, true, true, true,
    true, true, true, true, true, true, true, false, false, false, true, false, true, true]

theorem value_periodBits : Gf2.value periodBits = 440401815 := by decide

/-- **The power `440401815` of the update is the identity**, column by column. -/
theorem power_xorshift : Gf2.power 32 (Gf2.columns xorshiftNat 32) periodBits
    = Gf2.columns id 32 := by
  decide +kernel

theorem iterate_xorshift_toNat (prev : BitVec 32) (n : ℕ) :
    (xorshift^[n] prev).toNat = xorshiftNat^[n] prev.toNat := by
  induction n with
  | zero => rfl
  | succ n ih =>
    rw [Function.iterate_succ_apply', Function.iterate_succ_apply', ← ih, xorshiftNat,
      BitVec.ofNat_toNat, BitVec.setWidth_eq]

/-- Every register comes back. -/
theorem xorshift_period (prev : BitVec 32) : xorshift^[440401815] prev = prev := by
  apply BitVec.eq_of_toNat_eq
  rw [iterate_xorshift_toNat, ← value_periodBits]
  exact Gf2.iterate_eq_self linear_xorshiftNat (fun x _ => xorshiftNat_lt x) power_xorshift
    prev.isLt

/-- The update is invertible: what its shifts push out of the word is not lost. -/
theorem xorshift_injective : Function.Injective xorshift := by
  have hback : Function.LeftInverse xorshift^[440401814] xorshift := by
    intro prev
    calc xorshift^[440401814] (xorshift prev) = xorshift^[440401814 + 1] prev :=
          (Function.iterate_succ_apply ..).symm
      _ = prev := xorshift_period prev
  exact hback.injective

/-- No register other than zero comes to zero, where it would be reseeded. -/
theorem xorshift_ne_zero {prev : BitVec 32} (h : prev ≠ 0) : xorshift prev ≠ 0 := by
  have hzero : xorshift 0 = 0 := rfl
  intro heq
  exact h (xorshift_injective (heq.trans hzero.symm))

/-- From a register other than zero a channel steps by the update alone. -/
theorem iterate_nextPrev (reseed : BitVec 32) {prev : BitVec 32} (h : prev ≠ 0) (n : ℕ) :
    (nextPrev reseed)^[n] prev = xorshift^[n] prev ∧ xorshift^[n] prev ≠ 0 := by
  induction n with
  | zero => exact ⟨rfl, h⟩
  | succ n ih =>
    obtain ⟨heq, hne⟩ := ih
    rw [Function.iterate_succ_apply', Function.iterate_succ_apply', heq, nextPrev_of_ne_zero hne]
    exact ⟨rfl, xorshift_ne_zero hne⟩

theorem nextPrev_period (reseed : BitVec 32) {prev : BitVec 32} (h : prev ≠ 0) :
    (nextPrev reseed)^[440401815] prev = prev := by
  rw [(iterate_nextPrev reseed h _).1, xorshift_period]

/-- The channels step side by side. -/
theorem iterate_step (e : Encryptor) (n : ℕ) : Encryptor.step^[n] e
    = ⟨(nextPrev 33)^[n] e.rPrev, (nextPrev 63)^[n] e.gPrev, (nextPrev 11)^[n] e.bPrev⟩ := by
  induction n with
  | zero => rfl
  | succ n ih =>
    rw [Function.iterate_succ_apply', ih, Function.iterate_succ_apply',
      Function.iterate_succ_apply', Function.iterate_succ_apply']
    rfl

/-- The keystream of nonzero registers comes back as a whole. -/
theorem step_period {e : Encryptor} (hr : e.rPrev ≠ 0) (hg : e.gPrev ≠ 0) (hb : e.bPrev ≠ 0) :
    Encryptor.step^[440401815] e = e := by
  rw [iterate_step, nextPrev_period 33 hr, nextPrev_period 63 hg, nextPrev_period 11 hb]

/-! ### No single cycle -/

/-- A map that comes back after `N` steps meets at most `N` words. -/
theorem exists_unreached {f : BitVec 32 → BitVec 32} {x : BitVec 32} {N : ℕ} (hN : 0 < N)
    (hf : f^[N] x = x) (hlt : N + 1 < 2 ^ 32) : ∃ y ≠ 0, ∀ n, f^[n] x ≠ y := by
  by_contra hall
  simp only [not_exists, not_and, not_forall, not_not] at hall
  -- every word is zero or among the first `N` iterates
  have hcover : Finset.range (2 ^ 32)
      ⊆ insert 0 ((Finset.range N).image fun n => (f^[n] x).toNat) := by
    -- a word that is not zero has a number, and that number is in the image
    intro k hk
    rw [Finset.mem_range] at hk
    rw [Finset.mem_insert, Finset.mem_image]
    by_cases hzero : BitVec.ofNat 32 k = 0
    · left
      calc k = (BitVec.ofNat 32 k).toNat := (toNat_ofNat_of_lt hk).symm
        _ = 0 := congrArg BitVec.toNat hzero
    · right
      obtain ⟨n, hn⟩ := hall _ hzero
      refine ⟨n % N, Finset.mem_range.mpr (Nat.mod_lt n hN), ?_⟩
      have hperiodic : f^[n % N] x = f^[n] x := Function.IsPeriodicPt.iterate_mod_apply hf n
      rw [hperiodic, hn, toNat_ofNat_of_lt hk]
  -- so there are at most `N + 1` words
  have hcard := (Finset.card_le_card hcover).trans (Finset.card_insert_le _ _)
  have himage := Finset.card_image_le (s := Finset.range N) (f := fun n => (f^[n] x).toNat)
  rw [Finset.card_range] at hcard himage
  omega

/-- **No channel has the full period**: whatever its constant and whatever nonzero state it is in,
its state repeats before `2 ^ 32 - 1` steps, and some nonzero state is never met. -/
theorem keystream_period (reseed prev : BitVec 32) (h : prev ≠ 0) :
    (∃ n, 0 < n ∧ n < 2 ^ 32 - 1 ∧ (nextPrev reseed)^[n] prev = prev) ∧
      ∃ next ≠ 0, ∀ n, (nextPrev reseed)^[n] prev ≠ next :=
  ⟨⟨440401815, by decide, by decide, nextPrev_period reseed h⟩,
    exists_unreached (by decide) (nextPrev_period reseed h) (by decide)⟩

/-- The red channel after its first step from power-up. -/
theorem keystream_period_red :
    (∃ n, 0 < n ∧ n < 2 ^ 32 - 1 ∧ (nextPrev 33)^[n] 33 = 33) ∧
      ∃ next ≠ 0, ∀ n, (nextPrev 33)^[n] 33 ≠ next :=
  keystream_period 33 33 (by decide)

/-- Five states that follow one another in a circle. -/
def fiveCycle : List (BitVec 32) :=
  [0x0554a3bd, 0x9029f2fa, 0x4a61ac7f, 0x9d238c07, 0x423f713f]

theorem map_xorshift_fiveCycle : fiveCycle.map xorshift = fiveCycle.rotate 1 := by
  decide +kernel

/-- From one of them the update never comes to the state 1. -/
theorem xorshift_not_single_cycle :
    ¬ ∀ x y : BitVec 32, x ≠ 0 → y ≠ 0 → ∃ n, xorshift^[n] x = y := by
  intro h
  obtain ⟨n, hn⟩ := h 0x0554a3bd 1 (by decide) (by decide)
  -- the five states of the short cycle are closed under the update
  have hmem : ∀ n, xorshift^[n] 0x0554a3bd ∈ fiveCycle := by
    intro n
    induction n with
    | zero => decide
    | succ n ih =>
      rw [Function.iterate_succ_apply']
      rw [← List.mem_rotate (n := 1), ← map_xorshift_fiveCycle]
      exact List.mem_map_of_mem ih
  exact absurd (hn ▸ hmem n) (by decide)

/-! ### Keystreams that never die and never meet -/

/-- No register holds zero. -/
structure Alive (e : Encryptor) : Prop where
  rPrev : e.rPrev ≠ 0
  gPrev : e.gPrev ≠ 0
  bPrev : e.bPrev ≠ 0

/-- No two registers hold the same word. -/
structure Apart (e : Encryptor) : Prop where
  red_green : e.rPrev ≠ e.gPrev
  green_blue : e.gPrev ≠ e.bPrev
  blue_red : e.bPrev ≠ e.rPrev

variable {reseed reseed' a b : BitVec 32} {e e' : Encryptor}

theorem nextPrev_ne_zero (hreseed : reseed ≠ 0) (prev : BitVec 32) : nextPrev reseed prev ≠ 0 := by
  by_cases h : prev = 0
  · rw [h]
    exact hreseed
  · rw [nextPrev_of_ne_zero h]
    exact xorshift_ne_zero h

/-- After one step nothing is left to reseed. -/
theorem alive_step (e : Encryptor) : Alive e.step where
  rPrev := nextPrev_ne_zero (by decide) e.rPrev
  gPrev := nextPrev_ne_zero (by decide) e.gPrev
  bPrev := nextPrev_ne_zero (by decide) e.bPrev

/-- Different nonzero registers stay different, in one channel as in two. -/
theorem iterate_nextPrev_ne (ha : a ≠ 0) (hb : b ≠ 0) (hab : a ≠ b) (n : ℕ) :
    (nextPrev reseed)^[n] a ≠ (nextPrev reseed')^[n] b := by
  rw [(iterate_nextPrev reseed ha n).1, (iterate_nextPrev reseed' hb n).1]
  exact (xorshift_injective.iterate n).ne hab

theorem iterate_step_ne (he : Alive e) (he' : Alive e') (hne : e ≠ e') (n : ℕ) :
    Encryptor.step^[n] e ≠ Encryptor.step^[n] e' := by
  intro heq
  rw [iterate_step, iterate_step, Encryptor.mk.injEq] at heq
  obtain ⟨hr, hg, hb⟩ := heq
  -- the channel the two states differ in
  have hchannel : ∀ {reseed a b : BitVec 32}, a ≠ 0 → b ≠ 0 →
      (nextPrev reseed)^[n] a = (nextPrev reseed)^[n] b → a = b := by
    intro reseed a b ha hb heq
    by_contra hab
    exact iterate_nextPrev_ne ha hb hab n heq
  have hr' := hchannel he.rPrev he'.rPrev hr
  have hg' := hchannel he.gPrev he'.gPrev hg
  have hb' := hchannel he.bPrev he'.bPrev hb
  refine hne ?_
  calc e = ⟨e.rPrev, e.gPrev, e.bPrev⟩ := rfl
    _ = ⟨e'.rPrev, e'.gPrev, e'.bPrev⟩ := by rw [hr', hg', hb']
    _ = e' := rfl

/-- Registers that are alive and apart stay apart. -/
theorem Apart.iterate_step (h : Apart e) (he : Alive e) (n : ℕ) :
    Apart (Encryptor.step^[n] e) := by
  rw [Live.iterate_step]
  exact ⟨iterate_nextPrev_ne he.rPrev he.gPrev h.red_green n,
    iterate_nextPrev_ne he.gPrev he.bPrev h.green_blue n,
    iterate_nextPrev_ne he.bPrev he.rPrev h.blue_red n⟩

/-- **The keystream never dies, merges or coincides.** From the first step on no register is zero,
whatever they held; nonzero registers that differ never come to the same word, and so two states of
the keystream never merge; and from power-up the three channels are never in the same state. -/
theorem keystream_lives :
    (∀ (e : Encryptor) (n : ℕ), 1 ≤ n → Alive (Encryptor.step^[n] e)) ∧
      (∀ reseed a b : BitVec 32, a ≠ 0 → b ≠ 0 → a ≠ b →
        nextPrev reseed a ≠ nextPrev reseed b ∧
          ∀ n, (nextPrev reseed)^[n] a ≠ (nextPrev reseed)^[n] b) ∧
      (∀ e e' : Encryptor, Alive e → Alive e' → e ≠ e' → ∀ n,
        Encryptor.step^[n] e ≠ Encryptor.step^[n] e') ∧
      ∀ n, 1 ≤ n → Apart (Encryptor.step^[n] ⟨0, 0, 0⟩) := by
  refine ⟨fun e n hn => ?_, fun reseed a b ha hb hab => ?_, fun e e' he he' hne n =>
    iterate_step_ne he he' hne n, fun n hn => ?_⟩
  · obtain ⟨m, rfl⟩ := Nat.exists_eq_add_of_le' hn
    rw [Function.iterate_succ_apply']
    exact alive_step _
  · exact ⟨iterate_nextPrev_ne (n := 1) ha hb hab, fun n => iterate_nextPrev_ne ha hb hab n⟩
  · -- the first step puts the three constants into the registers
    obtain ⟨m, rfl⟩ := Nat.exists_eq_add_of_le' hn
    rw [Function.iterate_succ_apply]
    have hseeds : Apart (Encryptor.step ⟨0, 0, 0⟩) := ⟨by decide, by decide, by decide⟩
    exact hseeds.iterate_step (alive_step _) m

/-- The red and the green channel a thousand steps after power-up. -/
theorem keystream_lives_powerUp :
    (Encryptor.step^[1000] ⟨0, 0, 0⟩).rPrev ≠ (Encryptor.step^[1000] ⟨0, 0, 0⟩).gPrev :=
  (keystream_lives.2.2.2 1000 (by decide)).red_green

end Live
end VideoEncryption
