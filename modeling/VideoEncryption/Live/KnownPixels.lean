import VideoEncryption.Gf2.Observe
import VideoEncryption.Live.Period
import VideoEncryption.Live.RoundTrip

/-!
# What eight known pixels give away

The mask of a pixel shows the low bits of the three registers of `encryptor.sv`: five of red, six of
green, five of blue. As their update is linear over GF(2) (`Live/Period.lean`), the masks of eight
pixels in a row determine the registers (`recover_masks`), and as a power of the update is the
identity, the registers determine the keystream before those pixels as well as after them. So who
knows eight neighbouring pixels of the right half computes the frame from what VRAM holds
(`known_pixels_unlock`).
-/

namespace VideoEncryption
namespace Live

open Clocked Encryptor

/-! ### The registers behind the masks -/

/-- The masks of `n` states of the keystream, one step apart. -/
def masks (e : Encryptor) (n : ℕ) : List (BitVec 16) :=
  (List.iterate Encryptor.step e n).map (·.out.mask)

/-- The columns that give a register from five low bits of eight states. -/
def fiveBits : List ℕ :=
  [0x0efa40a1, 0x127cf162, 0x36c5b264, 0x9d1f2408, 0x4d0a1830, 0x98fe10c0, 0x36822120, 0x71da5200,
    0x97d69440, 0xc46f0820, 0x8b2c5020, 0x04928060, 0x86851020, 0x01120000, 0xfe5e1000, 0x8e343060,
    0x16920060, 0xbe9c3060, 0xe1082040, 0xb8903020, 0x02ca2020, 0x0a1c3060, 0x82043060, 0xfc9c2000,
    0x8e0c1020, 0x12ca2020, 0x28102040, 0xc0082040, 0x7c9c2000, 0x0c182040, 0, 0x84000000, 0, 0, 0,
    0, 0x860c1020]

/-- The columns that give a register from six low bits of eight states. -/
def sixBits : List ℕ :=
  [0x1c306081, 0x3860c102, 0x34c9a244, 0xe1830408, 0xcb060810, 0xd2801060, 0x98fe10c0, 0x0c582140,
    0x611c6200, 0x7f8c8440, 0x82292840, 0xc04a3040, 0x89204000, 0x1658a040, 0x7c152000, 0x01120000,
    0x92040000, 0x28102040, 0x08382040, 0x04582040, 0x10800000, 0x65082040, 0x42000000, 0x84000000,
    0x10000000, 0x20000000, 0x04082040, 0x80000000, 0x08000000, 0x548c0040, 0, 0, 0x44082040, 0,
    0x0c182040]

theorem mul_fiveBits : Gf2.mul fiveBits (Gf2.columns (Gf2.observe 5 xorshiftNat 8) 32)
    = Gf2.columns id 32 := by
  decide +kernel

theorem mul_sixBits : Gf2.mul sixBits (Gf2.columns (Gf2.observe 6 xorshiftNat 8) 32)
    = Gf2.columns id 32 := by
  decide +kernel

/-- The registers from eight masks in a row. -/
def recover (ms : List (BitVec 16)) : Encryptor where
  rPrev := BitVec.ofNat 32 (Gf2.apply fiveBits (Gf2.pack 5 (ms.map (·.toNat / 2 ^ 11))))
  gPrev := BitVec.ofNat 32 (Gf2.apply sixBits (Gf2.pack 6 (ms.map (·.toNat / 2 ^ 5))))
  bPrev := BitVec.ofNat 32 (Gf2.apply fiveBits (Gf2.pack 5 (ms.map (·.toNat))))

theorem toNat_mask (e : Encryptor) :
    e.out.mask.toNat = 2 ^ 11 * (e.rPrev.toNat % 2 ^ 5) + 2 ^ 5 * (e.gPrev.toNat % 2 ^ 6)
      + e.bPrev.toNat % 2 ^ 5 := by
  unfold EncryptorOut.mask Encryptor.out
  rw [BitVec.toNat_append, BitVec.toNat_append]
  simp only [BitVec.toNat_setWidth]
  have hg : e.gPrev.toNat % 2 ^ 8 % 2 ^ 6 < 2 ^ 6 := Nat.mod_lt _ (by norm_num)
  have hb : e.bPrev.toNat % 2 ^ 8 % 2 ^ 5 < 2 ^ 5 := Nat.mod_lt _ (by norm_num)
  rw [← Nat.shiftLeft_add_eq_or_of_lt hg, ← Nat.shiftLeft_add_eq_or_of_lt hb, Nat.shiftLeft_eq,
    Nat.shiftLeft_eq]
  omega

variable {e : Encryptor} {channel : Encryptor → BitVec 32}

/-- A channel that is alive goes through the iterates of the update. -/
theorem iterate_channel (hstep : ∀ e, Alive e → channel e.step = xorshift (channel e))
    (h : Alive e) (n : ℕ) : (List.iterate Encryptor.step e n).map (fun e => (channel e).toNat)
      = List.iterate xorshiftNat (channel e).toNat n := by
  induction n generalizing e with
  | zero => rfl
  | succ n ih =>
    have hnext : (channel e.step).toNat = xorshiftNat (channel e).toNat := by
      rw [hstep e h, xorshiftNat, BitVec.ofNat_toNat, BitVec.setWidth_eq]
    rw [List.iterate, List.iterate, List.map_cons, ih (alive_step e), hnext]

/-- A channel whose `m` low bits are in the mask is what the columns `B` give. -/
theorem apply_channel {m : ℕ} {B : List ℕ} {read : BitVec 16 → ℕ}
    (hB : Gf2.mul B (Gf2.columns (Gf2.observe m xorshiftNat 8) 32) = Gf2.columns id 32)
    (hstep : ∀ e, Alive e → channel e.step = xorshift (channel e))
    (hread : ∀ e : Encryptor, read e.out.mask % 2 ^ m = (channel e).toNat % 2 ^ m) (h : Alive e) :
    BitVec.ofNat 32 (Gf2.apply B (Gf2.pack m ((masks e 8).map read))) = channel e := by
  -- the low bits of the masks are an observation of the channel's register
  have hseen : Gf2.pack m ((masks e 8).map read)
      = Gf2.observe m xorshiftNat 8 (channel e).toNat := by
    calc Gf2.pack m ((masks e 8).map read)
        = Gf2.pack m ((List.iterate Encryptor.step e 8).map fun e => read e.out.mask) := by
          rw [masks, List.map_map]
          rfl
      _ = Gf2.pack m ((List.iterate Encryptor.step e 8).map fun e => (channel e).toNat) :=
          Gf2.pack_map_congr hread _
      _ = Gf2.observe m xorshiftNat 8 (channel e).toNat := by
          rw [iterate_channel hstep h]
          rfl
  rw [hseen, Gf2.apply_observe linear_xorshiftNat hB (channel e).isLt, BitVec.ofNat_toNat,
    BitVec.setWidth_eq]

/-- **Eight masks in a row determine the registers.** -/
theorem recover_masks (h : Alive e) : recover (masks e 8) = e := by
  -- red and blue show five bits of their register, green six
  have hr : (recover (masks e 8)).rPrev = e.rPrev :=
    apply_channel mul_fiveBits (fun e he => nextPrev_of_ne_zero he.rPrev)
      (fun e => by rw [toNat_mask]; omega) h
  have hg : (recover (masks e 8)).gPrev = e.gPrev :=
    apply_channel mul_sixBits (fun e he => nextPrev_of_ne_zero he.gPrev)
      (fun e => by rw [toNat_mask]; omega) h
  have hb : (recover (masks e 8)).bPrev = e.bPrev :=
    apply_channel mul_fiveBits (fun e he => nextPrev_of_ne_zero he.bPrev)
      (fun e => by rw [toNat_mask]; omega) h
  calc recover (masks e 8)
      = ⟨(recover (masks e 8)).rPrev, (recover (masks e 8)).gPrev, (recover (masks e 8)).bPrev⟩ :=
        rfl
    _ = ⟨e.rPrev, e.gPrev, e.bPrev⟩ := by rw [hr, hg, hb]
    _ = e := rfl

/-! ### The keystream before and after -/

theorem Alive.iterate_step (h : Alive e) (n : ℕ) : Alive (Encryptor.step^[n] e) := by
  cases n with
  | zero => exact h
  | succ n =>
    rw [Function.iterate_succ_apply']
    exact alive_step _

theorem iterate_step_period (h : Alive e) (n : ℕ) : Encryptor.step^[440401815 * n] e = e :=
  Function.IsPeriodicPt.mul_const (step_period h.rPrev h.gPrev h.bPrev) n

/-- The registers that are `b` steps behind what they were at first, from those that are `a`
steps behind it: the update is undone by what is left of its period. -/
def turn (a b : ℕ) (e : Encryptor) : Encryptor := Encryptor.step^[b + 440401814 * a] e

theorem turn_iterate {a b n : ℕ} (h : Alive (Encryptor.step^[n] e)) (hb : n ≤ b) :
    turn a b (Encryptor.step^[a] e) = Encryptor.step^[b] e := by
  obtain ⟨c, rfl⟩ := Nat.exists_eq_add_of_le hb
  calc turn a (n + c) (Encryptor.step^[a] e)
      = Encryptor.step^[c + 440401815 * a + n] e := by
        rw [turn, ← Function.iterate_add_apply]
        congr 1
        omega
    _ = Encryptor.step^[c] (Encryptor.step^[440401815 * a] (Encryptor.step^[n] e)) := by
        rw [Function.iterate_add_apply, Function.iterate_add_apply]
    _ = Encryptor.step^[n + c] e := by
        rw [iterate_step_period h, ← Function.iterate_add_apply, Nat.add_comm]

/-! ### The frame behind VRAM -/

/-- The word of pixel `k` from what VRAM holds and the words of the eight pixels from `j` on. -/
def unlock (σ : ℕ → ℕ) (j : ℕ) (known : List (BitVec 16)) (stored : ℕ → BitVec 16) (k : ℕ) :
    BitVec 16 :=
  if k % 640 < 320 then stored k
  else stored k ^^^ (turn (stepsUpTo σ j) (stepsUpTo σ k)
    (recover (known.mapIdx fun i w => stored (j + i) ^^^ w))).out.mask

variable {σ : ℕ → ℕ} {j k : ℕ}

theorem stepsUpTo_add_one (σ : ℕ → ℕ) (k : ℕ) : stepsUpTo σ (k + 1) = stepsUpTo σ k + σ (k + 1) :=
  Finset.sum_range_succ ..

/-- One step for every pixel. -/
theorem stepsUpTo_add {n : ℕ} (hone : ∀ i, j < i → i ≤ j + n → σ i = 1) :
    stepsUpTo σ (j + n) = stepsUpTo σ j + n := by
  induction n with
  | zero => rfl
  | succ n ih =>
    have hlast : σ (j + n + 1) = 1 := hone _ (by omega) (by omega)
    rw [← Nat.add_assoc, stepsUpTo_add_one, ih fun i hi hin => hone i hi (by omega), hlast,
      Nat.add_assoc]

theorem le_stepsUpTo (σ : ℕ → ℕ) (k : ℕ) : σ 0 ≤ stepsUpTo σ k :=
  Finset.single_le_sum (f := σ) (fun _ _ => Nat.zero_le _) (Finset.mem_range.mpr k.succ_pos)

/-- Known words give their masks away. -/
theorem mapIdx_known {frame : List (BitVec 16)} {stored : ℕ → BitVec 16} (hj : 320 ≤ j % 640)
    (hj8 : j % 640 + 8 ≤ 640) (hlen : j + 8 ≤ frame.length)
    (hone : ∀ i, j < i → i < j + 8 → σ i = 1)
    (hstored : ∀ k w, frame[k]? = some w → stored k = keyed e σ k w) :
    (((frame.drop j).take 8).mapIdx fun i w => stored (j + i) ^^^ w)
      = masks (Encryptor.step^[stepsUpTo σ j] e) 8 := by
  apply List.ext_getElem
  -- both lists have eight entries
  · simp [masks]
    omega
  · intro i hi hi8
    have hlt : i < 8 := by simpa [masks] using hi8
    have hw := hstored (j + i) frame[j + i] (List.getElem?_eq_getElem _)
    -- the pixel lies in the right half, where the mask is on
    have hkeyed : ¬ (j + i) % 640 < 320 := by omega
    -- and the registers made one step for each pixel since the first
    have hsteps := stepsUpTo_add (j := j) (n := i) fun m hm hmi => hone m hm (by omega)
    simp only [List.getElem_mapIdx, List.getElem_take, List.getElem_drop, masks, List.getElem_map,
      List.getElem_iterate]
    rw [hw, keyed, if_neg hkeyed, hsteps, BitVec.xor_comm, ← BitVec.xor_assoc, BitVec.xor_self,
      BitVec.zero_xor, Nat.add_comm (stepsUpTo σ j), Function.iterate_add_apply]

/-- **Eight known pixels unlock the frame.** Whoever knows eight neighbouring pixels of the right
half, between which the keystream made one step a pixel, and how many steps it made for the others,
computes every pixel from what the capture left in VRAM. -/
theorem known_pixels_unlock {s₀ : ImageInput} {history : List Edge} {ts : List LiveTick}
    {closing : LiveTick} {v : Vram} {frame : List (BitVec 16)} {w : BitVec 16}
    (hs₀ : s₀.state = .sleep) (hrun : EntersRun s₀ history) (h : Presents ts frame σ)
    (hlen : frame.length ≤ framePixels) (halive : Alive (Encryptor.step^[σ 0] e))
    (hj : 320 ≤ j % 640) (hj8 : j % 640 + 8 ≤ 640) (hjlen : j + 8 ≤ frame.length)
    (hone : ∀ i, j < i → i < j + 8 → σ i = 1) (hk : frame[k]? = some w) :
    unlock σ j ((frame.drop j).take 8)
      (captured v ⟨Clocked.run edge s₀ history, e⟩ ts closing).flat k = w := by
  obtain ⟨hclear, hst⟩ := entered hs₀ hrun
  have hstored (k : ℕ) (w : BitVec 16) (hk : frame[k]? = some w) :
      (captured v ⟨Clocked.run edge s₀ history, e⟩ ts closing).flat k = keyed e σ k w :=
    flat_captured hclear hst h hlen hk
  have hmasks := mapIdx_known hj hj8 hjlen hone hstored
  -- the registers at pixel `j`, and from them those at pixel `k`
  have hrecovered : Alive (Encryptor.step^[stepsUpTo σ j] e) := by
    obtain ⟨n, hn⟩ := Nat.exists_eq_add_of_le' (le_stepsUpTo σ j)
    rw [hn, Function.iterate_add_apply]
    exact halive.iterate_step n
  have hturn := turn_iterate (a := stepsUpTo σ j) halive (le_stepsUpTo σ k)
  -- what is stored matters only through the keyed words
  generalize (captured v ⟨Clocked.run edge s₀ history, e⟩ ts closing).flat = stored at *
  calc unlock σ j ((frame.drop j).take 8) stored k = keyed e σ k (stored k) := by
        rw [unlock, hmasks, recover_masks hrecovered, hturn]
        rfl
    _ = keyed e σ k (keyed e σ k w) := by rw [hstored k w hk]
    _ = w := keyed_keyed e σ k w

/-- The last of a row of white pixels, from the eight in the middle. -/
theorem known_pixels_unlock_white :
    unlock (fun _ => 1) 320 (((List.replicate 640 0xffff).drop 320).take 8)
      (captured (fun _ _ => 0) ⟨Clocked.run edge powerUp frameSync, ⟨0, 0, 0⟩⟩
        (presentFrom (fun _ => 1) 0 (List.replicate 640 0xffff)) ⟨0, bytePort 0⟩).flat 639
        = 0xffff :=
  known_pixels_unlock rfl frameSync_entersRun (presents_presentFrom _ _)
    (by rw [List.length_replicate]; decide) (alive_step _) (by decide) (by decide)
    (by rw [List.length_replicate]; decide) (fun _ _ _ => rfl)
    (by rw [List.getElem?_replicate_of_lt (by decide)])

end Live
end VideoEncryption
