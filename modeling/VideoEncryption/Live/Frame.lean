import VideoEncryption.Live.Capture

/-!
# The captured frame

What the stores of a stay leave in the VRAM banks. `CapturesFrame` is the contract of the write
port: the first 640·240 pixels are stored once each, at their flat address and with their value,
and whatever later pixels store leaves every captured word as it is.

The port keeps it on every stay of at most 640·240 pixels. A longer stay stores zero for each
further pixel without setting the address, so the last captured word is overwritten
(`capturesFrame_iff`).
-/

namespace VideoEncryption
namespace Live

open Clocked

/-! ### Flat addresses -/

/-- A store at one flat address, seen from another. -/
theorem flat_store_of_lt {v : Vram} {j k : ℕ} {d : BitVec 16} (hj : j < 3 * 65536)
    (hk : k < 3 * 65536) : (v.store (flatStore j d)).flat k = if k = j then d else v.flat k := by
  have hbank : Fin.ofNat 3 (k / 65536) = Fin.ofNat 3 (j / 65536) ↔ k / 65536 = j / 65536 := by
    rw [Fin.ext_iff]
    simp only [Fin.ofNat]
    omega
  have hword : BitVec.ofNat 16 (k % 65536) = BitVec.ofNat 16 (j % 65536) ↔ k % 65536 = j % 65536 :=
    ofNat_inj (by omega) (by omega)
  unfold Vram.store Vram.flat flatStore
  dsimp only
  -- two flat addresses are the same word exactly when bank and word agree
  by_cases hb : k / 65536 = j / 65536
  · rw [hbank.mpr hb, Function.update_self]
    by_cases hw : k % 65536 = j % 65536
    · rw [hword.mpr hw, Function.update_self, if_pos (by omega)]
    · rw [Function.update_of_ne fun h => hw (hword.mp h), if_neg fun h => hw (by rw [h])]
  · rw [Function.update_of_ne fun h => hb (hbank.mp h), if_neg fun h => hb (by rw [h])]

/-- The frame fits the banks. -/
theorem framePixels_lt : framePixels < 3 * 65536 := by decide

theorem flat_store {v : Vram} {j k : ℕ} {d : BitVec 16} (hj : j < framePixels)
    (hk : k < framePixels) :
    (v.store (flatStore j d)).flat k = if k = j then d else v.flat k :=
  flat_store_of_lt (hj.trans framePixels_lt) (hk.trans framePixels_lt)

theorem storeAll_append (v : Vram) (as bs : List Store) :
    v.storeAll (as ++ bs) = (v.storeAll as).storeAll bs :=
  List.foldl_append

/-- The stores of the pixels of one frame. -/
def valueStores (ps : List Pixel) : List Store :=
  ps.mapIdx fun k p => flatStore k (p.value k)

/-- Storing at most a frame of pixels leaves every one of them at its address. -/
theorem flat_storeAll_valueStores (v : Vram) {ps : List Pixel} (hps : ps.length ≤ framePixels)
    {k : ℕ} {p : Pixel} (hk : ps[k]? = some p) :
    (v.storeAll (valueStores ps)).flat k = p.value k := by
  -- induction on the last pixel: its store goes to an address that no earlier one has
  induction ps using List.reverseRecOn generalizing k p with
  | nil => exact absurd hk (by simp)
  | append_singleton ps q ih =>
    rw [List.length_append, List.length_singleton] at hps
    unfold valueStores
    rw [List.mapIdx_concat, storeAll_append]
    change (Vram.store _ (flatStore ps.length (q.value ps.length))).flat k = _
    -- the address is one of the frame
    have hklt : k < framePixels := by
      have := (List.getElem?_eq_some_iff.mp hk).1
      rw [List.length_append, List.length_singleton] at this
      omega
    rw [flat_store (by omega) hklt]
    by_cases hlast : k = ps.length
    -- the last pixel is the one just stored
    · subst hlast
      rw [List.getElem?_concat_length] at hk
      rw [if_pos rfl, Option.some.inj hk]
    · rw [if_neg hlast]
      -- any other pixel is among those before it
      refine ih (by omega) ?_
      rw [List.getElem?_append] at hk
      split at hk
      · exact hk
      · have := (List.getElem?_eq_some_iff.mp hk).1
        rw [List.length_singleton] at this
        omega

/-! ### The stores of a stay, split at the end of the frame -/

/-- The store every pixel below the frame makes. -/
def overrunStore : Store := flatStore (framePixels - 1) 0

/-- A stay first stores the pixels of the frame and then makes the same store for each later one. -/
theorem frameStores_eq (ps : List Pixel) :
    frameStores ps = valueStores (ps.take framePixels)
      ++ List.replicate (ps.length - framePixels) overrunStore := by
  apply List.ext_getElem?
  intro k
  have hlen : (valueStores (ps.take framePixels)).length = min framePixels ps.length := by
    simp [valueStores]
  rw [List.getElem?_append, hlen]
  unfold frameStores
  rw [List.getElem?_mapIdx]
  -- store by store: inside the frame, below it, and past the end of the stay
  by_cases hk : k < min framePixels ps.length
  · rw [if_pos hk]
    unfold valueStores
    rw [List.getElem?_mapIdx, List.getElem?_take_of_lt (by omega)]
    congr 1
    funext p
    exact if_pos (by omega)
  · rw [if_neg hk, List.getElem?_replicate]
    by_cases hps : k < ps.length
    · rw [if_pos (by omega), List.getElem?_eq_getElem hps]
      exact congrArg some (if_neg (by omega))
    · rw [if_neg (by omega), List.getElem?_eq_none (by omega)]
      rfl

theorem storeAll_replicate_overrun (v : Vram) (n : ℕ) {k : ℕ} (hk : k < framePixels) :
    (v.storeAll (List.replicate n overrunStore)).flat k
      = if n ≠ 0 ∧ k = framePixels - 1 then 0 else v.flat k := by
  induction n with
  | zero => simp [Vram.storeAll]
  | succ n ih =>
    rw [List.replicate_succ', storeAll_append]
    change (Vram.store _ overrunStore).flat k = _
    unfold overrunStore at ih ⊢
    rw [flat_store (by decide) hk, ih]
    -- the overrun goes to the last address, whatever was there
    by_cases hlast : k = framePixels - 1
    · rw [if_pos hlast, if_pos ⟨Nat.succ_ne_zero n, hlast⟩]
    · rw [if_neg hlast, if_neg fun h => hlast h.2, if_neg fun h => hlast h.2]

/-! ### The contract -/

/-- **The contract of the write port** for a stay that receives the pixels `ps` and performs the
stores `sts`. -/
structure CapturesFrame (ps : List Pixel) (sts : List Store) : Prop where
  /-- Every pixel of the frame is stored once, in order; any further store is a later pixel's. -/
  stored : ∃ late, sts = valueStores (ps.take framePixels) ++ late ∧
    late.length ≤ ps.length - framePixels
  /-- At the end every captured word is still in place, whatever the banks held before. -/
  kept : ∀ (v : Vram) (k : ℕ) (p : Pixel), k < framePixels → ps[k]? = some p →
    (v.storeAll sts).flat k = p.value k

/-- The stores of a stay keep the contract exactly when no pixel follows the frame, or the word its
zero lands on is zero already. -/
theorem capturesFrame_iff (ps : List Pixel) :
    CapturesFrame ps (frameStores ps) ↔
      ps.length ≤ framePixels ∨
        ∀ p, ps[framePixels - 1]? = some p → p.value (framePixels - 1) = 0 := by
  -- what the banks hold at the end, at every address of the frame
  have hflat : ∀ (v : Vram) (k : ℕ) (p : Pixel), k < framePixels → ps[k]? = some p →
      (v.storeAll (frameStores ps)).flat k
        = if ps.length - framePixels ≠ 0 ∧ k = framePixels - 1 then 0 else p.value k := by
    intro v k p hk hp
    -- the first part of the stores fills the frame
    have hvalue : (v.storeAll (valueStores (ps.take framePixels))).flat k = p.value k := by
      refine flat_storeAll_valueStores v (by rw [List.length_take]; omega) ?_
      rw [List.getElem?_take_of_lt hk]
      exact hp
    calc (v.storeAll (frameStores ps)).flat k
        = if ps.length - framePixels ≠ 0 ∧ k = framePixels - 1 then 0
          else (v.storeAll (valueStores (ps.take framePixels))).flat k := by
          rw [frameStores_eq, storeAll_append, storeAll_replicate_overrun _ _ hk]
      _ = if ps.length - framePixels ≠ 0 ∧ k = framePixels - 1 then 0 else p.value k := by
          rw [hvalue]
  constructor
  · intro h
    rcases Nat.lt_or_ge framePixels ps.length with hlt | hge
    · -- a longer stay has put zero over the last pixel, and the contract says it is still there
      refine Or.inr fun p hp => ?_
      have hzero := hflat (fun _ _ => 0) _ p (by decide) hp
      rw [if_pos ⟨by omega, rfl⟩] at hzero
      rw [← h.kept (fun _ _ => 0) _ p (by decide) hp]
      exact hzero
    · exact Or.inl hge
  · intro h
    refine ⟨⟨_, frameStores_eq ps, by rw [List.length_replicate]⟩, fun v k p hk hp => ?_⟩
    -- with the overrun or without it
    rw [hflat v k p hk hp]
    split
    · next hover =>
      obtain ⟨hne, rfl⟩ := hover
      rcases h with hle | hzero
      · omega
      · exact (hzero p hp).symm
    · rfl

/-- **The captured frame.** After any history that enters `RUN` and any stay of up to `2 ^ 19` rows,
the write port keeps its contract exactly when the stay has at most 640·240 pixels, or when the
value of the frame's last pixel is zero. -/
theorem capture_frame_iff {s₀ : ImageInput} {history : List Edge} {ts : List CamTick}
    {closing : CamTick} (h₀ : s₀.state = .sleep) (hrun : EntersRun s₀ history) (hstay : Stay ts)
    (hlen : (pixels (hrefTicks ts)).length ≤ 640 * 2 ^ 19) :
    CapturesFrame (pixels (hrefTicks ts))
        (emitted edge edgeStores (Clocked.run edge s₀ history) ((ts ++ [closing]).map .pclk)) ↔
      (pixels (hrefTicks ts)).length ≤ framePixels ∨
        ∀ p, (pixels (hrefTicks ts))[framePixels - 1]? = some p →
          p.value (framePixels - 1) = 0 := by
  obtain ⟨hclear, hs⟩ := entered h₀ hrun
  rw [emitted_eq_frameStores hclear hs hstay (by omega)]
  exact capturesFrame_iff _

/-- An edge with `Run` high, then one with the sync high, then one with the sync low. -/
def frameSync : List Edge :=
  [.pclk ⟨⟨false, true, false, false, 0⟩, ⟨0, 0, 0⟩⟩,
    .pclk ⟨⟨false, false, true, false, 0⟩, ⟨0, 0, 0⟩⟩,
    .pclk ⟨⟨false, false, false, false, 0⟩, ⟨0, 0, 0⟩⟩]

theorem frameSync_entersRun : EntersRun powerUp frameSync :=
  ⟨frameSync.take 2, .pclk ⟨⟨false, false, false, false, 0⟩, ⟨0, 0, 0⟩⟩, rfl, by decide, by decide⟩

/-- A byte `0xff` on the camera port with the keystream at zero. -/
def whiteTick : CamTick := ⟨⟨false, false, false, true, 0xff⟩, ⟨0, 0, 0⟩⟩

theorem hrefTicks_replicate_whiteTick (n : ℕ) :
    hrefTicks (List.replicate n whiteTick) = List.replicate n whiteTick :=
  List.filter_replicate_of_pos rfl

theorem pixels_replicate (n : ℕ) (t : CamTick) :
    pixels (List.replicate (2 * n) t) = List.replicate n ⟨t, t⟩ := by
  induction n with
  | zero => rfl
  | succ n ih =>
    rw [Nat.mul_succ, List.replicate_succ, List.replicate_succ, List.replicate_succ]
    exact congrArg _ ih

theorem stay_replicate_whiteTick (n : ℕ) : Stay (List.replicate n whiteTick) where
  reset := fun t ht => by rw [List.eq_of_mem_replicate ht]; rfl
  vsync := fun t ht => by
    rw [List.eq_of_mem_replicate (List.dropLast_subset _ ht)]; rfl

/-- A byte `0xff` under a keystream that is not at zero, and an edge between two rows. -/
def maskedTick : CamTick := ⟨⟨false, false, false, true, 0xff⟩, ⟨1, 2, 3⟩⟩

def gapTick : CamTick := ⟨⟨false, false, false, false, 0⟩, ⟨1, 2, 3⟩⟩

/-- A row of white pixels, a gap, and the first pixel of the next row. -/
def rowAndMore : List CamTick :=
  List.replicate (2 * 640) maskedTick ++ gapTick :: List.replicate 2 maskedTick

theorem hrefTicks_rowAndMore : hrefTicks rowAndMore = List.replicate (2 * 641) maskedTick := by
  rw [rowAndMore, hrefTicks, List.filter_append, List.filter_cons_of_neg (by decide),
    List.filter_replicate_of_pos rfl, List.filter_replicate_of_pos rfl,
    List.replicate_append_replicate]

theorem stay_rowAndMore : Stay rowAndMore := by
  have hmem : ∀ t ∈ rowAndMore, t = maskedTick ∨ t = gapTick := by
    intro t ht
    rcases List.mem_append.mp ht with ht | ht
    · exact .inl (List.eq_of_mem_replicate ht)
    · rcases List.mem_cons.mp ht with rfl | ht
      exacts [.inr rfl, .inl (List.eq_of_mem_replicate ht)]
  constructor
  · intro t ht
    rcases hmem t ht with rfl | rfl <;> rfl
  · intro t ht
    rcases hmem t (List.dropLast_subset _ ht) with rfl | rfl <;> rfl

/-- The words that a stay of `rowAndMore` stores, from a cleared VRAM. -/
def rowStored : ℕ → BitVec 16 :=
  Vram.flat (Vram.storeAll (fun _ _ => 0) (emitted edge edgeStores
    (Clocked.run edge powerUp frameSync) ((rowAndMore ++ [whiteTick]).map .pclk)))

/-- The last plain pixel of the first row, the first masked one and the first pixel of the second
row. -/
theorem capture_frame_row :
    rowStored 319 = 0xffff ∧ rowStored 320 = 0xf7bc ∧ rowStored 640 = 0xffff := by
  have hpixels : pixels (hrefTicks rowAndMore) = List.replicate 641 ⟨maskedTick, maskedTick⟩ := by
    rw [hrefTicks_rowAndMore, pixels_replicate]
  have hlen : (pixels (hrefTicks rowAndMore)).length = 641 := by
    rw [hpixels, List.length_replicate]
  -- 641 pixels are within the frame, so the contract holds
  have hcaptured : CapturesFrame (pixels (hrefTicks rowAndMore))
      (emitted edge edgeStores (Clocked.run edge powerUp frameSync)
        ((rowAndMore ++ [whiteTick]).map .pclk)) :=
    (capture_frame_iff rfl frameSync_entersRun stay_rowAndMore
      (by rw [hlen]; decide)).mpr (.inl (by rw [hlen]; decide))
  have hpixel : ∀ k < 641, (pixels (hrefTicks rowAndMore))[k]? = some ⟨maskedTick, maskedTick⟩ :=
    fun k hk => by rw [hpixels, List.getElem?_replicate_of_lt hk]
  exact ⟨hcaptured.kept _ 319 _ (by decide) (hpixel 319 (by decide)),
    hcaptured.kept _ 320 _ (by decide) (hpixel 320 (by decide)),
    hcaptured.kept _ 640 _ (by decide) (hpixel 640 (by decide))⟩

/-- A stay of one white pixel more than the frame breaks the contract. -/
theorem capture_frame_overrun :
    EntersRun powerUp frameSync ∧ Stay (List.replicate (2 * (framePixels + 1)) whiteTick) ∧
      (pixels (hrefTicks (List.replicate (2 * (framePixels + 1)) whiteTick))).length
        ≤ 640 * 2 ^ 19 ∧
      ¬ CapturesFrame (pixels (hrefTicks (List.replicate (2 * (framePixels + 1)) whiteTick)))
        (emitted edge edgeStores (Clocked.run edge powerUp frameSync)
          ((List.replicate (2 * (framePixels + 1)) whiteTick ++ [whiteTick]).map .pclk)) := by
  have hlen : (pixels (hrefTicks (List.replicate (2 * (framePixels + 1)) whiteTick))).length
      = framePixels + 1 := by
    rw [hrefTicks_replicate_whiteTick, pixels_replicate, List.length_replicate]
  have hbound : framePixels + 1 ≤ 640 * 2 ^ 19 := by decide
  refine ⟨frameSync_entersRun, stay_replicate_whiteTick _, by rw [hlen]; exact hbound, ?_⟩
  obtain ⟨hclear, hs⟩ := entered rfl frameSync_entersRun
  rw [emitted_eq_frameStores hclear hs (stay_replicate_whiteTick _) (by rw [hlen]; omega),
    capturesFrame_iff, hlen, hrefTicks_replicate_whiteTick, pixels_replicate]
  rintro (hle | hzero)
  · omega
  · -- the last captured word is `0xffff`, not the zero stored over it
    have := hzero ⟨whiteTick, whiteTick⟩ (List.getElem?_replicate_of_lt (by omega))
    exact absurd this (by decide)

end Live
end VideoEncryption
