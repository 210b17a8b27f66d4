import VideoEncryption.Sram.RoundTrip

/-!
# What a single phase does to the frame

`shift_leadsTo` and `xor_leadsTo` give the frame a phase leaves. Here it is compared, line by line
and pixel by pixel, with what the key asks for.

* A shifting phase gives eight lines to every key bit, but it compares the line counter with
  `8 * block_counter + 7` after the increment: from the first shifted block on a block is left one
  line early. The last line of a block follows the next key bit then, and `Misaligned` says when
  that makes a difference.
* The XOR phase masks a pixel twice, by the key word of its column and by that of its row. Where the
  two words are equal the pixel comes out as it went in.
-/

namespace VideoEncryption
namespace Sram

open Clocked

variable {key : BitVec 80} {B L N : ℕ} {e : Layout L N} {F : Frame}

/-! ### The lines a shifting phase shifts -/

/-- The first seven lines of a block follow its key bit. -/
theorem shifted_iff_of_ne_last {l : ℕ} (hl : l % 8 ≠ 7) (hB : l / 8 < B) :
    Shifted key B l ↔ key.getLsbD (l / 8) = true := by
  constructor
  · rintro ⟨b, -, hbit, hge, hlt⟩
    have hstart : 8 * b - 1 ≤ lineAt key b := by
      unfold lineAt
      split <;> omega
    rwa [show l / 8 = b by omega]
  · intro hbit
    have hstart := lineAt_le key (l / 8)
    exact ⟨l / 8, hB, hbit, by omega, by omega⟩

/-- The last line of a block is the first one of the next block, once a block has been shifted. -/
theorem shifted_last_iff {l : ℕ} (hl : l % 8 = 7) :
    Shifted key B l ↔ l / 8 + 1 < B ∧ key.getLsbD (l / 8 + 1) = true ∧
      ∃ c ≤ l / 8, key.getLsbD c = true := by
  constructor
  -- the block that shifts the line starts at it, for no block ends there
  · rintro ⟨b, hb, hbit, hge, hlt⟩
    by_cases hseen : ∃ c < b, key.getLsbD c = true
    · rw [lineAt, if_pos hseen] at hge
      obtain rfl : b = l / 8 + 1 := by omega
      obtain ⟨c, hc, hcbit⟩ := hseen
      exact ⟨hb, hbit, c, by omega, hcbit⟩
    · -- the first shifted block ends before its last line
      rw [lineAt, if_neg hseen] at hge
      omega
  -- conversely the next block reaches back one line
  · rintro ⟨hb, hbit, c, hc, hcbit⟩
    refine ⟨l / 8 + 1, hb, hbit, ?_, by omega⟩
    rw [lineAt, if_pos ⟨c, by omega, hcbit⟩]
    omega

/-- The last line of block `m` does not follow key bit `m`: a shifted block that a skipped one
follows, or a skipped one between two shifted blocks. -/
def Misaligned (key : BitVec 80) (B m : ℕ) : Prop :=
  if key.getLsbD m = true then ¬ (m + 1 < B ∧ key.getLsbD (m + 1) = true)
  else m + 1 < B ∧ key.getLsbD (m + 1) = true ∧ ∃ c < m, key.getLsbD c = true

instance (key : BitVec 80) (B m : ℕ) : Decidable (Misaligned key B m) :=
  inferInstanceAs (Decidable (ite _ _ _))

theorem misaligned_iff {l : ℕ} (hl : l % 8 = 7) :
    Misaligned key B (l / 8) ↔ ¬ (Shifted key B l ↔ key.getLsbD (l / 8) = true) := by
  -- by the key bit of the block itself
  rw [shifted_last_iff hl, Misaligned]
  by_cases hbit : key.getLsbD (l / 8) = true
  · rw [if_pos hbit]
    have hseen : ∃ c ≤ l / 8, key.getLsbD c = true := ⟨l / 8, le_rfl, hbit⟩
    simp [hbit, hseen]
  · rw [if_neg hbit]
    -- block `l / 8` is not among the shifted ones
    have hseen : (∃ c ≤ l / 8, key.getLsbD c = true) ↔ ∃ c < l / 8, key.getLsbD c = true := by
      constructor
      · rintro ⟨c, hc, hcbit⟩
        have hne : c ≠ l / 8 := by
          rintro rfl
          exact hbit hcbit
        exact ⟨c, by omega, hcbit⟩
      · rintro ⟨c, hc, hcbit⟩
        exact ⟨c, hc.le, hcbit⟩
    rw [hseen]
    simp [hbit]

/-- A key that shifts any block is misaligned at the last one it shifts. -/
theorem misaligned_of_shifts {b : ℕ} (hb : b < B) (hbit : key.getLsbD b = true) :
    ∃ m < B, Misaligned key B m := by
  by_contra hno
  simp only [not_exists, not_and] at hno
  -- with no misaligned block all blocks from `b` on are shifted
  have hall : ∀ m, b ≤ m → m < B → key.getLsbD m = true := by
    intro m hm
    induction m, hm using Nat.le_induction with
    | base => exact fun _ => hbit
    | succ m hm ih =>
      intro hlt
      have haligned := hno m (by omega)
      rw [Misaligned, if_pos (ih (by omega)), not_not] at haligned
      exact haligned.2
  -- and the last block has no next one to be misaligned with
  have hlast := hno (B - 1) (by omega)
  rw [Misaligned, if_pos (hall (B - 1) (by omega) (by omega))] at hlast
  exact hlast (by omega)

/-! ### Rotation by the key -/

section Rotation

variable [NeZero N]

/-- Line `l` of `F'` is line `l` of `F`, rotated by eight places exactly when key bit `l / 8` is
set. -/
def FollowsKey (key : BitVec 80) (e : Layout L N) (F F' : Frame) : Prop :=
  ∀ (l : Fin L) (q : Fin N),
    F' (e (l, q)) = if key.getLsbD (l / 8) = true then F (e (l, q + 8)) else F (e (l, q))

/-- The last line of every misaligned block has period 8. -/
def PeriodicWhereMisaligned (key : BitVec 80) (B : ℕ) (e : Layout L N) (F : Frame) : Prop :=
  ∀ l : Fin L, (l : ℕ) % 8 = 7 → Misaligned key B (l / 8) →
    ∀ q, F (e (l, q + 8)) = F (e (l, q))

theorem comp_shiftPerm (l : Fin L) (q : Fin N) :
    (F ∘ shiftPerm key B e) (e (l, q))
      = if Shifted key B l then F (e (l, q + 8)) else F (e (l, q)) := by
  by_cases hl : Shifted key B l
  · simp [shiftPerm, Equiv.permCongr_apply, linePerm_apply_of_pos, hl]
  · simp [shiftPerm, Equiv.permCongr_apply, linePerm_apply_of_neg, hl]

/-- **When a shifting phase follows the key.** -/
theorem followsKey_iff (hL : L = 8 * B) :
    FollowsKey key e F (F ∘ shiftPerm key B e) ↔ PeriodicWhereMisaligned key B e F := by
  constructor
  -- where the phase and the key disagree, both can only hold of a line of period 8
  · intro h l hl hmis q
    have hline := h l q
    rw [comp_shiftPerm] at hline
    rw [misaligned_iff hl] at hmis
    by_cases hbit : key.getLsbD (l / 8) = true <;> by_cases hs : Shifted key B l <;>
      simp_all
  · intro h l q
    rw [comp_shiftPerm]
    by_cases hagree : Shifted key B l ↔ key.getLsbD (l / 8) = true
    · simp only [hagree]
    · -- the phase and the key disagree at the last line of a misaligned block only
      have hlast : (l : ℕ) % 8 = 7 := by
        by_contra hne
        exact hagree (shifted_iff_of_ne_last hne (by omega))
      rw [h l hlast ((misaligned_iff hlast).mpr hagree) q, ite_self, ite_self]

/-- On every frame, only when it shifts nothing. -/
theorem followsKey_forall_iff (hL : L = 8 * B) (hN : 8 < N) :
    (∀ F, FollowsKey key e F (F ∘ shiftPerm key B e)) ↔ ∀ b < B, key.getLsbD b = false := by
  simp only [followsKey_iff hL]
  constructor
  · intro h b hb
    by_contra hbit
    obtain ⟨m, hm, hmis⟩ := misaligned_of_shifts hb (Bool.eq_true_of_not_eq_false hbit)
    -- a frame with a single word in every line has no line of period 8
    have hone := h (fun px => if (e.symm px).2 = 0 then 1 else 0) ⟨8 * m + 7, by omega⟩
      (by simp only; omega) (by rwa [show (8 * m + 7) / 8 = m by omega]) 0
    have hval : ((8 : Fin N) : ℕ) = 8 := Nat.mod_eq_of_lt hN
    have height : (8 : Fin N) ≠ 0 := by
      rw [Ne, Fin.ext_iff, hval]
      exact Nat.noConfusion
    simp [height] at hone
  · intro h F l hl hmis q
    -- a misaligned block is shifted or follows a shifted one
    unfold Misaligned at hmis
    rw [h (l / 8) (by omega), if_neg (by decide)] at hmis
    obtain ⟨hlt, hbit, -⟩ := hmis
    rw [h _ hlt] at hbit
    exact absurd hbit (by decide)

end Rotation

/-- What is asked of `ENCRYPT_HOR` and `ENCRYPT_VER`: entered with cleared counters, the phase ends,
and the lines are rotated as the key says. -/
structure RotatesByKey (key : BitVec 80) (F : Frame) : Prop where
  hor : LeadsTo System.tick (Held key) (fun s => s.state = .encryptHor) (Entered .encryptHor F)
    fun s => s.state = .encryptInterval ∧ FollowsKey key rowLayout F s.frame
  ver : LeadsTo System.tick (Held key) (fun s => s.state = .encryptVer) (Entered .encryptVer F)
    fun s => s.state = .encryptVerInterval ∧ FollowsKey key columnLayout F s.frame

/-- A shifting phase ends, and it has followed the key exactly when the last lines of the misaligned
blocks had period 8. -/
theorem ShiftPhase.Fits.follows_iff [NeZero N] {p : ShiftPhase} {st nxt : Fsm} (hp : p.Fits B e)
    (hd : p.Drives key st nxt) (F : Frame) :
    LeadsTo System.tick (Held key) (fun s => s.state = st) (Entered st F) fun s =>
      s.state = nxt ∧ (FollowsKey key e F s.frame ↔ PeriodicWhereMisaligned key B e F) := by
  refine (shift_leadsTo hp hd (fun _ hs => hs) F).trans (.of_imp fun s hs => ⟨hs.state, ?_⟩)
  rw [hs.frame]
  exact followsKey_iff hp.lines

/-- **When the rotation phases follow the key.** Both phases always end. `ENCRYPT_HOR` has rotated
the rows by their key bits exactly when the last rows of the misaligned ones among the blocks 0 to
59 had period 8, and `ENCRYPT_VER` the columns exactly when that held of the columns, blocks 0 to
79. -/
theorem rotation_follows_key_iff (key : BitVec 80) (F : Frame) :
    LeadsTo System.tick (Held key) (fun s => s.state = .encryptHor) (Entered .encryptHor F)
        (fun s => s.state = .encryptInterval ∧
          (FollowsKey key rowLayout F s.frame ↔ PeriodicWhereMisaligned key 60 rowLayout F)) ∧
      LeadsTo System.tick (Held key) (fun s => s.state = .encryptVer) (Entered .encryptVer F)
        (fun s => s.state = .encryptVerInterval ∧
          (FollowsKey key columnLayout F s.frame ↔
            PeriodicWhereMisaligned key 80 columnLayout F)) :=
  ⟨encryptHor_fits.follows_iff (encryptHor_drives key) F,
    encryptVer_fits.follows_iff (encryptVer_drives key) F⟩

/-- The machine of `displaying` on entering a phase, with the contents `m` in the SRAM. -/
def entering (st : Fsm) (m : Memory) : System := { displaying with state := st, mem := m }

theorem entered_entering (st : Fsm) (m : Memory) :
    Entered st (entering st m).frame (entering st m) :=
  ⟨rfl, rfl, rfl, rfl, rfl, rfl⟩

/-- `KEY` stays the same there. -/
theorem held_entering {st : Fsm} (hst : st ≠ .keyGen) (m : Memory) (n : ℕ) :
    Held (displaying.key (inTurn 0)) (stateAt System.tick (entering st m) (fun _ => inTurn 0) n)
      (inTurn 0) :=
  @held_stateAt (entering st m) (fun _ => inTurn 0) hst
    (fun _ => ⟨rfl, fun h => absurd h.1 (by decide)⟩) (fun _ => ⟨rfl, rfl, rfl, rfl⟩) n

/-- A black frame but for the first pixel. -/
def cornerMemory : Memory := fun a => if a = 0 then 0xffff else 0

theorem corner_frame (px : Pixel) :
    (entering .encryptHor cornerMemory).frame px = if px = (0, 0) then 0xffff else 0 := by
  change (if pixelAddr px = 0 then (0xffff : BitVec 16) else 0) = _
  exact if_congr (pixelAddr_injective.eq_iff (a := px) (b := (0, 0))) rfl rfl

/-- Key bit 0 is set: the first pixel goes round to column 632 of its row, as the key says. -/
theorem rotation_follows_key_corner :
    ∃ n, (stateAt System.tick (entering .encryptHor cornerMemory) (fun _ => inTurn 0) n).state
        = .encryptInterval ∧
      (stateAt System.tick (entering .encryptHor cornerMemory)
        (fun _ => inTurn 0) n).frame (0, 632) = 0xffff ∧
      (stateAt System.tick (entering .encryptHor cornerMemory)
        (fun _ => inTurn 0) n).frame (0, 0) = 0 := by
  -- nothing of the frame is in a row where the two disagree
  obtain ⟨n, ⟨hstate, hiff⟩, -⟩ := (rotation_follows_key_iff (displaying.key (inTurn 0))
    (entering .encryptHor cornerMemory).frame).1 _ (entered_entering .encryptHor cornerMemory)
      (fun _ => inTurn 0) (held_entering (by decide) _)
  have hfollows := hiff.mpr fun l hl _ q => by
    -- the last rows of the blocks are black
    have hblack : ∀ x, (entering .encryptHor cornerMemory).frame (rowLayout (l, x)) = 0 := by
      intro x
      rw [corner_frame, if_neg]
      intro hpx
      have hl0 : l = 0 := congrArg Prod.fst hpx
      rw [hl0] at hl
      exact absurd hl (by decide)
    rw [hblack, hblack]
  refine ⟨n, hstate, (hfollows 0 632).trans ?_, (hfollows 0 0).trans ?_⟩
  · rw [if_pos (by decide), corner_frame]
    rfl
  · rw [if_pos (by decide), corner_frame]
    rfl

/-- With key bit 0 set and key bit 1 clear, row 7 is not rotated. -/
theorem rotation_ignores_key : ¬ ∀ (key : BitVec 80) (F : Frame), RotatesByKey key F := by
  intro h
  have hboth := (h (displaying.key (inTurn 0)) (entering .encryptHor (·.setWidth 16)).frame).hor.and
    (fun s hs => by simp [hs.1]) (fun s hs => by simp [hs.1])
    (encryptHor_fits.follows_iff (encryptHor_drives _) _)
  obtain ⟨n, ⟨⟨-, hfollows⟩, -, hiff⟩, -⟩ := hboth _ (entered_entering .encryptHor (·.setWidth 16))
    (fun _ => inTurn 0) (held_entering (by decide) _)
  -- the ninth and the first word of row 7 differ
  exact absurd (hiff.mp hfollows 7 (by decide) (by decide) 0) (by decide)

/-! ### Pixels the XOR phase leaves alone -/

theorem mask_apply (key : BitVec 80) (F : Frame) (y : Fin 480) (x : Fin 640) :
    mask key F (y, x)
      = F (y, x) ^^^ (keyWord key (BitVec.ofNat 2 x) ^^^ keyWord key (BitVec.ofNat 2 y)) :=
  BitVec.xor_assoc ..

/-- A pixel is masked unless its two key words are equal. -/
theorem mask_ne_iff (key : BitVec 80) (F : Frame) (y : Fin 480) (x : Fin 640) :
    mask key F (y, x) ≠ F (y, x) ↔
      keyWord key (BitVec.ofNat 2 x) ≠ keyWord key (BitVec.ofNat 2 y) := by
  rw [mask_apply, Ne, Ne, not_iff_not]
  constructor
  · intro h
    have hzero : keyWord key (BitVec.ofNat 2 x) ^^^ keyWord key (BitVec.ofNat 2 y) = 0 := by
      rwa [← BitVec.xor_right_inj (F (y, x)), BitVec.ofNat_eq_ofNat, BitVec.xor_zero]
    exact BitVec.xor_eq_zero_iff.mp hzero
  · intro h
    rw [h, BitVec.xor_self, BitVec.xor_zero]

/-- **Which pixels the XOR phase masks**: entered with cleared counters the phase ends, and a pixel
has changed exactly when the key words of its column and of its row differ. -/
theorem xor_masks_iff (key : BitVec 80) (F : Frame) :
    LeadsTo System.tick (Held key) (fun s => s.state = .encryptXor) (Entered .encryptXor F)
      fun s => s.state = .hiatus ∧ ∀ (y : Fin 480) (x : Fin 640),
        s.frame (y, x) ≠ F (y, x) ↔
          keyWord key (BitVec.ofNat 2 x) ≠ keyWord key (BitVec.ofNat 2 y) := by
  refine (xor_leadsTo (encryptXor_drives key) (fun _ hs => hs) F).trans
    (.of_imp fun s hs => ⟨hs.state, fun y x => ?_⟩)
  rw [hs.frame]
  exact mask_ne_iff key F y x

/-- The phase on a black frame: pixel (0,1) is masked. -/
theorem xor_masks_black :
    ∃ n, (stateAt System.tick (entering .encryptXor fun _ => 0) (fun _ => inTurn 0) n).state
        = .hiatus ∧
      (stateAt System.tick (entering .encryptXor fun _ => 0) (fun _ => inTurn 0) n).frame (0, 1)
        ≠ 0 := by
  obtain ⟨n, ⟨hstate, hiff⟩, -⟩ := xor_masks_iff (displaying.key (inTurn 0)) (fun _ => 0) _
    (entered_entering .encryptXor fun _ => 0) (fun _ => inTurn 0) (held_entering (by decide) _)
  exact ⟨n, hstate, (hiff 0 1).mpr (by decide)⟩

/-- The four low words of the key are not zero. -/
def WordsNonzero (key : BitVec 80) : Prop := ∀ sel, keyWord key sel ≠ 0

/-- Pixel (0,0) is masked twice by the same word. -/
theorem xor_leaves_pixel : ¬ ∀ (key : BitVec 80) (F : Frame), WordsNonzero key →
    LeadsTo System.tick (Held key) (fun s => s.state = .encryptXor) (Entered .encryptXor F)
      fun s => s.state = .hiatus ∧ ∀ px, s.frame px ≠ F px := by
  -- with no subkeys stored the words of the key are those of the reset value
  intro h
  have hwords : WordsNonzero (displaying.key (inTurn 0)) := by
    unfold WordsNonzero
    decide
  have hboth := (h _ (entering .encryptXor fun _ => 0).frame hwords).and
    (fun s hs => by simp [hs.1]) (fun s hs => by simp [hs.state])
    (xor_leadsTo (encryptXor_drives _) (fun _ hs => hs) _)
  obtain ⟨n, ⟨⟨-, hall⟩, hleft⟩, -⟩ := hboth _ (entered_entering .encryptXor fun _ => 0)
    (fun _ => inTurn 0) (held_entering (by decide) _)
  -- at pixel (0,0) the two masks cancel
  rw [hleft.frame] at hall
  exact absurd (hall (0, 0)) (by rw [mask_ne_iff]; decide)

end Sram
end VideoEncryption
