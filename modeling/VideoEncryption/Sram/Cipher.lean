import VideoEncryption.Sram.ImageInput

/-!
# The cipher on frames

What the four phases are for, in terms of the frame alone. Three of them move pixels about and one
masks them:

* `shiftPerm` — the lines of some blocks, chosen by the key, are rotated by eight places;
* `mixPerm` — two quadrants, chosen by the key, are exchanged;
* `mask` — every pixel is masked by the key word of its column and that of its row.

`encrypt` and `decrypt` compose them, and `decrypt_encrypt` says that decryption undoes encryption.
A shifting phase and its inverse differ in the direction in which they scan a line: `shiftPerm` of
the `reversed` layout is the inverse permutation.
-/

namespace VideoEncryption
namespace Sram

/-- A pixel, by row and column. -/
abbrev Pixel := Fin 480 × Fin 640

/-- The words of the pixels of a frame. -/
abbrev Frame := Pixel → BitVec 16

/-! ### Shifted lines -/

/-- The line a shifting phase has come to at block `b`: a skipped block is eight lines, but the
first block that is not skipped ends one line early. -/
def lineAt (key : BitVec 80) (b : ℕ) : ℕ :=
  if ∃ c < b, key.getLsbD c = true then 8 * b - 1 else 8 * b

/-- The lines that a shifting phase over `blocks` blocks rotates. -/
def Shifted (key : BitVec 80) (blocks l : ℕ) : Prop :=
  ∃ b < blocks, key.getLsbD b = true ∧ lineAt key b ≤ l ∧ l < 8 * b + 7

instance (key : BitVec 80) (blocks l : ℕ) : Decidable (Shifted key blocks l) :=
  inferInstanceAs (Decidable (∃ b < blocks, _))

section Walk

variable {key : BitVec 80}

theorem lineAt_zero (key : BitVec 80) : lineAt key 0 = 0 := by
  simp [lineAt]

theorem lineAt_mono (key : BitVec 80) {b c : ℕ} (h : b ≤ c) : lineAt key b ≤ lineAt key c := by
  unfold lineAt
  -- whether a block before `b` is shifted, and then one before `c`
  by_cases hb : ∃ d < b, key.getLsbD d = true
  · have hc : ∃ d < c, key.getLsbD d = true := by
      obtain ⟨d, hd, hbit⟩ := hb
      exact ⟨d, by omega, hbit⟩
    rw [if_pos hb, if_pos hc]
    omega
  · rw [if_neg hb]
    by_cases hc : ∃ d < c, key.getLsbD d = true
    · -- the first shifted block lies between the two and costs a line only after them
      rw [if_pos hc]
      obtain ⟨d, hd, hbit⟩ := hc
      have hdb : ¬ d < b := fun hlt => hb ⟨d, hlt, hbit⟩
      omega
    · rw [if_neg hc]
      omega

theorem lineAt_succ_of_true {b : ℕ} (hk : key.getLsbD b = true) :
    lineAt key (b + 1) = 8 * b + 7 := by
  rw [lineAt, if_pos ⟨b, Nat.lt_succ_self b, hk⟩]
  omega

theorem lineAt_succ_of_false {b : ℕ} (hk : key.getLsbD b = false) :
    lineAt key (b + 1) = lineAt key b + 8 := by
  -- a skipped block is not the first shifted one
  have hseen : (∃ c < b + 1, key.getLsbD c = true) ↔ ∃ c < b, key.getLsbD c = true := by
    constructor
    · rintro ⟨c, hc, hbit⟩
      have hne : c ≠ b := by
        rintro rfl
        simp [hk] at hbit
      exact ⟨c, by omega, hbit⟩
    · rintro ⟨c, hc, hbit⟩
      exact ⟨c, by omega, hbit⟩
  unfold lineAt
  -- the line lost to the first shifted block is lost on both sides, or on neither
  by_cases h : ∃ c < b, key.getLsbD c = true
  · rw [if_pos h, if_pos (hseen.mpr h)]
    obtain ⟨c, hc, -⟩ := h
    omega
  · rw [if_neg h, if_neg (mt hseen.mp h)]
    omega

theorem lineAt_le (key : BitVec 80) (b : ℕ) : lineAt key b ≤ 8 * b := by
  unfold lineAt
  split <;> omega

/-- The lines that a skipped block passes over are not shifted. -/
theorem not_shifted_of_false {blocks b l : ℕ} (hk : key.getLsbD b = false)
    (hge : lineAt key b ≤ l) (hlt : l < lineAt key (b + 1)) : ¬ Shifted key blocks l := by
  rintro ⟨c, -, hc, hcl, hlc⟩
  -- the blocks before it end below the line, the blocks after it start above
  rcases Nat.lt_trichotomy c b with h | rfl | h
  · have hb : lineAt key (c + 1) ≤ lineAt key b := lineAt_mono key h
    rw [lineAt_succ_of_true hc] at hb
    omega
  · simp [hk] at hc
  · have hb : lineAt key (b + 1) ≤ lineAt key c := lineAt_mono key h
    omega

/-- The lines after the last block are not shifted. -/
theorem not_shifted_of_lineAt_le {blocks l : ℕ} (hge : lineAt key blocks ≤ l) :
    ¬ Shifted key blocks l := by
  rintro ⟨c, hc, hbit, -, hlc⟩
  have hb : lineAt key (c + 1) ≤ lineAt key blocks := lineAt_mono key hc
  rw [lineAt_succ_of_true hbit] at hb
  omega

end Walk

variable {L N : ℕ}

/-- A way to read a frame as lines of words. -/
abbrev Layout (L N : ℕ) := Fin L × Fin N ≃ Pixel

/-- The lines read from the other end. -/
def Layout.reversed (e : Layout L N) : Layout L N :=
  (Equiv.prodCongr (.refl _) Fin.revPerm).trans e

section Lines

variable [NeZero N]

/-- Rotate the lines in `S` by eight places. -/
def linePerm (S : Fin L → Prop) [DecidablePred S] : Equiv.Perm (Fin L × Fin N) :=
  Equiv.prodShear (.refl _) fun l => if S l then Equiv.addRight 8 else .refl _

variable {S : Fin L → Prop} [DecidablePred S]

theorem linePerm_apply_of_pos {l : Fin L} (q : Fin N) (h : S l) :
    linePerm S (l, q) = (l, q + 8) := by
  simp [linePerm, h]

theorem linePerm_apply_of_neg {l : Fin L} (q : Fin N) (h : ¬ S l) : linePerm S (l, q) = (l, q) := by
  simp [linePerm, h]

/-- A shifting phase as a permutation of the pixels. -/
def shiftPerm (key : BitVec 80) (blocks : ℕ) (e : Layout L N) : Equiv.Perm Pixel :=
  e.permCongr (linePerm fun l => Shifted key blocks l)

/-- **Scanning the lines from the other end undoes the shift.** -/
theorem shiftPerm_reversed (key : BitVec 80) (blocks : ℕ) (e : Layout L N) :
    shiftPerm key blocks e.reversed = (shiftPerm key blocks e)⁻¹ := by
  rw [eq_inv_iff_mul_eq_one]
  ext1 px
  obtain ⟨⟨l, q⟩, rfl⟩ := e.surjective px
  by_cases hl : Shifted key blocks l
  · -- eight places on from the other end are eight places back
    have hback : Fin.rev (Fin.rev (q + 8) + 8) = q := by
      rw [Fin.rev_add, Fin.rev_rev, add_sub_cancel_right]
    simp [shiftPerm, Layout.reversed, Equiv.permCongr_apply, linePerm_apply_of_pos, hl, hback]
  · simp [shiftPerm, Layout.reversed, Equiv.permCongr_apply, linePerm_apply_of_neg, hl]

end Lines

/-- The rows of the frame as lines. -/
def rowLayout : Layout 480 640 := .refl _

/-- The columns of the frame as lines. -/
def columnLayout : Layout 640 480 := .prodComm _ _

/-! ### Quadrants -/

/-- The frame as four quadrants of 240 rows by 320 columns. -/
def quadrants : (Fin 2 × Fin 2) × (Fin 240 × Fin 320) ≃ Pixel :=
  (Equiv.prodProdProdComm _ _ _ _).trans (.prodCongr finProdFinEquiv finProdFinEquiv)

/-- The two quadrants to exchange. -/
def quadrantPair (key : BitVec 80) : (Fin 2 × Fin 2) × (Fin 2 × Fin 2) :=
  match mixSequence key with
  | (false, false) => ((0, 0), (0, 1))
  | (false, true) => ((0, 0), (1, 0))
  | (true, false) => ((1, 0), (1, 1))
  | (true, true) => ((0, 1), (1, 1))

theorem quadrantPair_ne (key : BitVec 80) : (quadrantPair key).1 ≠ (quadrantPair key).2 := by
  unfold quadrantPair
  split <;> decide

/-- The exchange of two quadrants. -/
def quadrantSwap (key : BitVec 80) : Equiv.Perm ((Fin 2 × Fin 2) × (Fin 240 × Fin 320)) :=
  Equiv.prodCongr (Equiv.swap (quadrantPair key).1 (quadrantPair key).2) (.refl _)

/-- The quadrant shift phase as a permutation of the pixels. -/
def mixPerm (key : BitVec 80) : Equiv.Perm Pixel :=
  quadrants.permCongr (quadrantSwap key)

/-- **Exchanging the two quadrants again undoes the exchange.** -/
theorem mixPerm_mixPerm (key : BitVec 80) (px : Pixel) : mixPerm key (mixPerm key px) = px := by
  obtain ⟨⟨a, i⟩, rfl⟩ := quadrants.surjective px
  simp [mixPerm, quadrantSwap, Equiv.permCongr_apply]

/-! ### Masks -/

/-- One pass of the XOR phase: the key word is selected by the position in the line. -/
def maskLines (key : BitVec 80) (e : Layout L N) (F : Frame) : Frame := fun px =>
  F px ^^^ keyWord key (BitVec.ofNat 2 (e.symm px).2)

theorem maskLines_maskLines (key : BitVec 80) (e : Layout L N) (F : Frame) :
    maskLines key e (maskLines key e F) = F := by
  funext px
  rw [maskLines, maskLines, BitVec.xor_assoc, BitVec.xor_self, BitVec.xor_zero]

theorem maskLines_comm {L' N' : ℕ} (key : BitVec 80) (e : Layout L N) (e' : Layout L' N')
    (F : Frame) :
    maskLines key e (maskLines key e' F) = maskLines key e' (maskLines key e F) := by
  funext px
  simp only [maskLines, BitVec.xor_assoc]
  rw [BitVec.xor_comm (keyWord _ _)]

/-- The XOR phase. -/
def mask (key : BitVec 80) (F : Frame) : Frame :=
  maskLines key columnLayout (maskLines key rowLayout F)

theorem mask_mask (key : BitVec 80) (F : Frame) : mask key (mask key F) = F := by
  calc mask key (mask key F)
      = maskLines key columnLayout (maskLines key rowLayout
          (maskLines key columnLayout (maskLines key rowLayout F))) := rfl
    _ = maskLines key columnLayout (maskLines key columnLayout
          (maskLines key rowLayout (maskLines key rowLayout F))) := by
        rw [maskLines_comm key rowLayout columnLayout]
    _ = F := by rw [maskLines_maskLines, maskLines_maskLines]

/-! ### The cipher -/

/-- What the encryption chain makes of a frame. -/
def encrypt (key : BitVec 80) (F : Frame) : Frame :=
  mask key (((F ∘ shiftPerm key 60 rowLayout) ∘ shiftPerm key 80 columnLayout) ∘ mixPerm key)

/-- What the decryption chain makes of a frame. -/
def decrypt (key : BitVec 80) (F : Frame) : Frame :=
  ((mask key F ∘ mixPerm key) ∘ shiftPerm key 80 columnLayout.reversed)
    ∘ shiftPerm key 60 rowLayout.reversed

/-- **Decryption undoes encryption.** -/
theorem decrypt_encrypt (key : BitVec 80) (F : Frame) : decrypt key (encrypt key F) = F := by
  funext px
  have hmix : ∀ px, mixPerm key (mixPerm key px) = px := mixPerm_mixPerm key
  -- from the outside in, each phase meets its inverse
  calc decrypt key (encrypt key F) px
      = F (shiftPerm key 60 rowLayout (shiftPerm key 80 columnLayout (mixPerm key (mixPerm key
          ((shiftPerm key 80 columnLayout)⁻¹ ((shiftPerm key 60 rowLayout)⁻¹ px)))))) := by
        rw [decrypt, encrypt, mask_mask, shiftPerm_reversed, shiftPerm_reversed]
        simp only [Function.comp_apply]
    _ = F (shiftPerm key 60 rowLayout (shiftPerm key 80 columnLayout
          ((shiftPerm key 80 columnLayout)⁻¹ ((shiftPerm key 60 rowLayout)⁻¹ px)))) := by
        rw [hmix]
    _ = F px := by simp

/-- The pixel whose word the encryption chain brings to a pixel. -/
def place (key : BitVec 80) : Equiv.Perm Pixel :=
  shiftPerm key 60 rowLayout * shiftPerm key 80 columnLayout * mixPerm key

/-- The encryption without the rotations of the rows. -/
def encryptUnrotated (key : BitVec 80) (A : Frame) : Frame :=
  mask key ((A ∘ shiftPerm key 80 columnLayout) ∘ mixPerm key)

/-- It encrypts what would be the picture with its rows rotated back. -/
theorem encryptUnrotated_eq (key : BitVec 80) (A : Frame) :
    encryptUnrotated key A = encrypt key (A ∘ (shiftPerm key 60 rowLayout).symm) := by
  have hback : (A ∘ (shiftPerm key 60 rowLayout).symm) ∘ shiftPerm key 60 rowLayout = A := by
    funext px
    simp
  rw [encrypt, hback, encryptUnrotated]

end Sram
end VideoEncryption
