import VideoEncryption.Live.Frame

/-!
# Capturing a captured frame

The right half of every row is stored under the keystream, so capturing what was captured, from the
same keystream position, gives the original frame back. The only thing the two captures have to
share is the position of the keystream at the second byte of every pixel: the encryptor is stepped
by all pixels, also by those of the left half to which it is not applied, and the stays may differ
in their gaps.

`LiveTick` is a `Cam_pclk` edge together with the encryptor's steps since the edge before it, and
`Presents` says that a stay shows a frame, high byte first, with a given number of steps for every
pixel. `flat_captured` reads the captured word off the frame; the round trip applies it twice.
-/

namespace VideoEncryption
namespace Live

open Clocked

/-! ### Stays with a running keystream -/

/-- A `Cam_pclk` edge and the number of encryptor steps since the edge before it. -/
structure LiveTick where
  steps : ℕ
  port : CamPort

/-- `Image_Input`'s capture registers and its encryptor. -/
structure LiveState where
  image : ImageInput
  encryptor : Encryptor

/-- The steps since the last edge, then the edge. -/
def liveTick (s : LiveState) (t : LiveTick) : LiveState :=
  let e := Encryptor.step^[t.steps] s.encryptor
  ⟨s.image.pclk t.port e.out, e⟩

/-- The stay's edges as the capture block sees them. -/
def camTicks (e : Encryptor) : List LiveTick → List CamTick
  | [] => []
  | t :: ts =>
    let e' := Encryptor.step^[t.steps] e
    ⟨t.port, e'.out⟩ :: camTicks e' ts

/-- The stay's edges with the number of encryptor steps since its beginning. -/
def totals (m : ℕ) : List LiveTick → List (ℕ × CamPort)
  | [] => []
  | t :: ts => (m + t.steps, t.port) :: totals (m + t.steps) ts

theorem emitted_liveTick (s : LiveState) (ts : List LiveTick) :
    emitted liveTick (fun s _ => stores s.image) s ts
      = emitted edge edgeStores s.image ((camTicks s.encryptor ts).map .pclk) := by
  induction ts generalizing s with
  | nil => rfl
  | cons t ts ih => rw [emitted_cons, ih]; rfl

theorem camTicks_eq_totals (e : Encryptor) (m : ℕ) (ts : List LiveTick) :
    camTicks (Encryptor.step^[m] e) ts
      = (totals m ts).map fun x => ⟨x.2, (Encryptor.step^[x.1] e).out⟩ := by
  induction ts generalizing m with
  | nil => rfl
  | cons t ts ih =>
    have hsteps : Encryptor.step^[t.steps] (Encryptor.step^[m] e)
        = Encryptor.step^[m + t.steps] e := by
      rw [← Function.iterate_add_apply, Nat.add_comm]
    simp only [camTicks, totals, List.map_cons, hsteps, ih]

/-! ### Presenting a frame -/

/-- The encryptor steps made up to the second byte of pixel `k`, when pixel `j` is given `σ j`. -/
def stepsUpTo (σ : ℕ → ℕ) (k : ℕ) : ℕ := ∑ j ∈ Finset.range (k + 1), σ j

/-- The bytes of a word, high byte first. -/
def bytesOf (w : BitVec 16) : List (BitVec 8) := [w.extractLsb' 8 8, w.extractLsb' 0 8]

/-- The edges of a stay that take a byte, with their keystream positions. -/
def byteTicks (ts : List LiveTick) : List (ℕ × CamPort) := (totals 0 ts).filter (·.2.camHref)

/-- The stay `ts` shows the frame `frame` on the camera port and gives pixel `k` `σ k` steps. -/
structure Presents (ts : List LiveTick) (frame : List (BitVec 16)) (σ : ℕ → ℕ) : Prop where
  reset : ∀ t ∈ ts, t.port.reset = false
  vsync : ∀ t ∈ ts.dropLast, t.port.camVsync = false
  bytes : (byteTicks ts).map (·.2.camData) = frame.flatMap bytesOf
  steps : (pairUp (byteTicks ts)).map (·.2.1) = (List.range frame.length).map (stepsUpTo σ)

/-- What the write port carries for the word `w` of pixel `k` with the keystream at `σ`. -/
def keyed (e : Encryptor) (σ : ℕ → ℕ) (k : ℕ) (w : BitVec 16) : BitVec 16 :=
  if k % 640 < 320 then w else w ^^^ (Encryptor.step^[stepsUpTo σ k] e).out.mask

/-- The keystream cancels itself. -/
theorem keyed_keyed (e : Encryptor) (σ : ℕ → ℕ) (k : ℕ) (w : BitVec 16) :
    keyed e σ k (keyed e σ k w) = w := by
  unfold keyed
  split
  · rfl
  · rw [BitVec.xor_assoc, BitVec.xor_self, BitVec.xor_zero]

theorem append_bytesOf (w : BitVec 16) : w.extractLsb' 8 8 ++ w.extractLsb' 0 8 = w := by
  apply BitVec.eq_of_toNat_eq
  rw [BitVec.toNat_append, BitVec.extractLsb'_toNat, BitVec.extractLsb'_toNat,
    Nat.shiftRight_eq_div_pow, Nat.shiftRight_eq_div_pow]
  -- the low byte is below the place where the high one starts
  have hlow : w.toNat / 2 ^ 0 % 2 ^ 8 < 2 ^ 8 := Nat.mod_lt _ (by norm_num)
  rw [← Nat.shiftLeft_add_eq_or_of_lt hlow, Nat.shiftLeft_eq]
  have := w.isLt
  omega

theorem pairUp_flatMap_bytesOf (frame : List (BitVec 16)) :
    pairUp (frame.flatMap bytesOf)
      = frame.map fun w => (w.extractLsb' 8 8, w.extractLsb' 0 8) := by
  induction frame with
  | nil => rfl
  | cons w frame ih =>
    rw [List.flatMap_cons, List.map_cons, ← ih]
    rfl

namespace Presents

variable {ts : List LiveTick} {frame : List (BitVec 16)} {σ : ℕ → ℕ}

theorem pairs (h : Presents ts frame σ) :
    (pairUp (byteTicks ts)).map (Prod.map (·.2.camData) (·.2.camData))
      = frame.map fun w => (w.extractLsb' 8 8, w.extractLsb' 0 8) := by
  rw [← pairUp_map, h.bytes, pairUp_flatMap_bytesOf]

theorem pairs_length (h : Presents ts frame σ) : (pairUp (byteTicks ts)).length = frame.length := by
  simpa using congrArg List.length h.pairs

/-- The pixels the capture block receives from the stay. -/
theorem pixels_eq (e : Encryptor) (ts : List LiveTick) :
    pixels (hrefTicks (camTicks e ts))
      = (pairUp (byteTicks ts)).map fun q =>
          ⟨⟨q.1.2, (Encryptor.step^[q.1.1] e).out⟩, ⟨q.2.2, (Encryptor.step^[q.2.1] e).out⟩⟩ := by
  -- the keystream at an edge depends only on the number of steps before it
  have htotals := camTicks_eq_totals e 0 ts
  rw [Function.iterate_zero_apply] at htotals
  have hfilter : hrefTicks (camTicks e ts)
      = (byteTicks ts).map fun x => ⟨x.2, (Encryptor.step^[x.1] e).out⟩ := by
    rw [htotals, hrefTicks, List.filter_map]
    rfl
  rw [hfilter, pixels, pairUp_map, List.map_map]
  rfl

/-- Pixel `k` carries the frame's word `k` under the keystream at its position. -/
theorem value_eq (h : Presents ts frame σ) (e : Encryptor) {k : ℕ} {w : BitVec 16}
    (hk : frame[k]? = some w) :
    ∃ p, (pixels (hrefTicks (camTicks e ts)))[k]? = some p ∧ p.value k = keyed e σ k w := by
  -- the pixels are the pairs of bytes, as many as there are words
  have hlt : k < frame.length := (List.getElem?_eq_some_iff.mp hk).1
  obtain ⟨q, hq⟩ : ∃ q, (pairUp (byteTicks ts))[k]? = some q :=
    ⟨_, List.getElem?_eq_getElem (by rw [h.pairs_length]; exact hlt)⟩
  -- the bytes of pixel `k` are those of word `k`, and its second byte has the position of `σ`
  have hbytes := congrArg (·[k]?) h.pairs
  have hsteps := congrArg (·[k]?) h.steps
  simp only [List.getElem?_map, hq, hk, Option.map_some, Option.some.injEq, Prod.map,
    Prod.mk.injEq, List.getElem?_range hlt] at hbytes hsteps
  refine ⟨_, by rw [pixels_eq, List.getElem?_map, hq]; rfl, ?_⟩
  unfold Pixel.value keyed Pixel.word
  dsimp only
  rw [hbytes.1, hbytes.2, hsteps, append_bytesOf]

end Presents

/-! ### Capturing -/

/-- The VRAM banks after a stay and the edge that follows it. -/
def captured (v : Vram) (s : LiveState) (ts : List LiveTick) (closing : LiveTick) : Vram :=
  v.storeAll (emitted liveTick (fun s _ => stores s.image) s (ts ++ [closing]))

theorem camTicks_append_singleton (e : Encryptor) (ts : List LiveTick) (t : LiveTick) :
    ∃ c, camTicks e (ts ++ [t]) = camTicks e ts ++ [c] := by
  induction ts generalizing e with
  | nil => exact ⟨_, rfl⟩
  | cons u ts ih =>
    obtain ⟨c, hc⟩ := ih (Encryptor.step^[u.steps] e)
    exact ⟨c, by rw [List.cons_append, camTicks, camTicks, hc]; rfl⟩

theorem camTicks_map_port (e : Encryptor) (ts : List LiveTick) :
    (camTicks e ts).map (·.port) = ts.map (·.port) := by
  induction ts generalizing e with
  | nil => rfl
  | cons t ts ih => simp [camTicks, ih]

theorem Presents.stay {ts : List LiveTick} {frame : List (BitVec 16)} {σ : ℕ → ℕ}
    (h : Presents ts frame σ) (e : Encryptor) : Stay (camTicks e ts) where
  reset := fun t ht => by
    have hmem : t.port ∈ ts.map (·.port) := by
      rw [← camTicks_map_port e ts]
      exact List.mem_map_of_mem ht
    obtain ⟨u, hu, hport⟩ := List.mem_map.mp hmem
    rw [← hport]
    exact h.reset u hu
  vsync := fun t ht => by
    have hmem : t.port ∈ ts.dropLast.map (·.port) := by
      rw [List.map_dropLast, ← camTicks_map_port e ts, ← List.map_dropLast]
      exact List.mem_map_of_mem ht
    obtain ⟨u, hu, hport⟩ := List.mem_map.mp hmem
    rw [← hport]
    exact h.vsync u hu

/-- **The captured frame under the keystream.** A stay that presents at most a frame leaves every
word of it, keyed, at its flat address. -/
theorem flat_captured {v : Vram} {s : LiveState} {ts : List LiveTick} {closing : LiveTick}
    {frame : List (BitVec 16)} {σ : ℕ → ℕ} (hclear : Cleared s.image) (hs : s.image.state = .run)
    (h : Presents ts frame σ) (hlen : frame.length ≤ framePixels) {k : ℕ} {w : BitVec 16}
    (hk : frame[k]? = some w) :
    (captured v s ts closing).flat k = keyed s.encryptor σ k w := by
  have hpix : (pixels (hrefTicks (camTicks s.encryptor ts))).length = frame.length := by
    rw [Presents.pixels_eq, List.length_map, h.pairs_length]
  -- the closing edge carries a write of its own, which no pixel of the frame is
  obtain ⟨c, hc⟩ := camTicks_append_singleton s.encryptor ts closing
  obtain ⟨p, hp, hvalue⟩ := h.value_eq s.encryptor hk
  have hframe : framePixels < 640 * 2 ^ 20 := by decide
  have hlt : k < frame.length := (List.getElem?_eq_some_iff.mp hk).1
  unfold captured
  rw [emitted_liveTick, hc, emitted_eq_frameStores hclear hs (h.stay _) (by omega), ← hvalue]
  exact ((capturesFrame_iff _).mpr (Or.inl (by omega))).kept v k p (by omega) hp

/-- **Live encryption is its own inverse.** Capturing a frame of up to 240 rows, and then capturing
the resulting VRAM contents from the same encryptor registers with the same number of steps for
every pixel, leaves the original frame in VRAM. -/
theorem capture_round_trip {n : ℕ} {frame : List (BitVec 16)} {σ : ℕ → ℕ} {e : Encryptor}
    {s₁ s₂ : ImageInput} {history₁ history₂ : List Edge} {ts₁ ts₂ : List LiveTick}
    {closing₁ closing₂ : LiveTick} {v₁ v₂ : Vram} (hn : n ≤ 240) (hframe : frame.length = 640 * n)
    (hs₁ : s₁.state = .sleep) (hs₂ : s₂.state = .sleep)
    (hrun₁ : EntersRun s₁ history₁) (hrun₂ : EntersRun s₂ history₂)
    (h₁ : Presents ts₁ frame σ)
    (h₂ : Presents ts₂
      ((List.range (640 * n)).map
        (captured v₁ ⟨Clocked.run edge s₁ history₁, e⟩ ts₁ closing₁).flat) σ) :
    (List.range (640 * n)).map
      (captured v₂ ⟨Clocked.run edge s₂ history₂, e⟩ ts₂ closing₂).flat = frame := by
  have hlen : 640 * n ≤ framePixels := by unfold framePixels; omega
  obtain ⟨hclear₁, hst₁⟩ := entered hs₁ hrun₁
  obtain ⟨hclear₂, hst₂⟩ := entered hs₂ hrun₂
  generalize Clocked.run edge s₁ history₁ = r₁ at *
  generalize Clocked.run edge s₂ history₂ = r₂ at *
  -- word by word, and the captures are as long as the frame
  apply List.ext_getElem?
  intro k
  rw [List.getElem?_map]
  rcases Nat.lt_or_ge k (640 * n) with hk | hk
  · -- the keystream is at the same position for pixel `k` in both captures
    have hw : frame[k]? = some frame[k] := List.getElem?_eq_getElem _
    have hfirst : (captured v₁ ⟨r₁, e⟩ ts₁ closing₁).flat k = keyed e σ k frame[k] :=
      flat_captured hclear₁ hst₁ h₁ (by omega) hw
    have hsecond : (captured v₂ ⟨r₂, e⟩ ts₂ closing₂).flat k
        = keyed e σ k ((captured v₁ ⟨r₁, e⟩ ts₁ closing₁).flat k) :=
      flat_captured hclear₂ hst₂ h₂ (by simpa using hlen)
        (by rw [List.getElem?_map, List.getElem?_range hk]; rfl)
    rw [List.getElem?_range hk, hw]
    refine congrArg some ?_
    calc (captured v₂ ⟨r₂, e⟩ ts₂ closing₂).flat k
        = keyed e σ k ((captured v₁ ⟨r₁, e⟩ ts₁ closing₁).flat k) := hsecond
      _ = keyed e σ k (keyed e σ k frame[k]) := by rw [hfirst]
      _ = frame[k] := keyed_keyed e σ k _
  -- beyond the frame there is no word on either side
  · rw [List.getElem?_eq_none (by rw [List.length_range]; exact hk),
      List.getElem?_eq_none (by omega)]
    rfl

/-! ### A gapless presentation -/

/-- The camera port with a byte on it. -/
def bytePort (b : BitVec 8) : CamPort := ⟨false, false, false, true, b⟩

/-- The words `ws` without gaps, as the pixels from number `k` on, stepped before their second
bytes. -/
def presentFrom (σ : ℕ → ℕ) : ℕ → List (BitVec 16) → List LiveTick
  | _, [] => []
  | k, w :: ws =>
    ⟨0, bytePort (w.extractLsb' 8 8)⟩ :: ⟨σ k, bytePort (w.extractLsb' 0 8)⟩
      :: presentFrom σ (k + 1) ws

theorem presentFrom_port (σ : ℕ → ℕ) (k : ℕ) (ws : List (BitVec 16)) :
    ∀ t ∈ presentFrom σ k ws, ∃ b, t.port = bytePort b := by
  induction ws generalizing k with
  | nil => exact fun t ht => absurd ht (by simp [presentFrom])
  | cons w ws ih =>
    intro t ht
    simp only [presentFrom, List.mem_cons] at ht
    rcases ht with rfl | rfl | ht
    · exact ⟨_, rfl⟩
    · exact ⟨_, rfl⟩
    · exact ih (k + 1) t ht

theorem totals_presentFrom (σ : ℕ → ℕ) (m k : ℕ) (ws : List (BitVec 16)) :
    ((totals m (presentFrom σ k ws)).filter (·.2.camHref)).map (·.2.camData)
        = ws.flatMap bytesOf ∧
      (pairUp ((totals m (presentFrom σ k ws)).filter (·.2.camHref))).map (·.2.1)
        = (List.range ws.length).map fun j => m + ∑ i ∈ Finset.range (j + 1), σ (k + i) := by
  induction ws generalizing m k with
  | nil => exact ⟨rfl, rfl⟩
  | cons w ws ih =>
    -- what is totalled after the first pixel starts at its last position
    obtain ⟨hbytes, hsteps⟩ := ih (m + σ k) (k + 1)
    simp only [presentFrom, totals, bytePort, List.filter_cons_of_pos, List.map_cons, pairUp,
      Nat.add_zero, List.length_cons, List.range_succ_eq_map, hbytes, hsteps, List.map_map]
    refine ⟨rfl, ?_⟩
    rw [Finset.sum_range_one, Nat.add_zero]
    refine congrArg _ (List.map_congr_left fun j _ => ?_)
    -- the sum up to pixel `k + j + 1` starts with pixel `k`'s own steps
    rw [Function.comp_apply, Nat.succ_eq_add_one, Finset.sum_range_succ' _ (j + 1)]
    simp only [Nat.add_assoc, Nat.add_comm 1, Nat.add_comm (σ k), Nat.add_zero]

/-- Every frame has a presentation with any number of steps for every pixel. -/
theorem presents_presentFrom (frame : List (BitVec 16)) (σ : ℕ → ℕ) :
    Presents (presentFrom σ 0 frame) frame σ where
  reset := fun t ht => by
    obtain ⟨b, hb⟩ := presentFrom_port σ 0 frame t ht
    rw [hb]
    rfl
  vsync := fun t ht => by
    obtain ⟨b, hb⟩ := presentFrom_port σ 0 frame t (List.dropLast_subset _ ht)
    rw [hb]
    rfl
  bytes := (totals_presentFrom σ 0 0 frame).1
  steps := by
    have h := (totals_presentFrom σ 0 0 frame).2
    simp only [Nat.zero_add] at h
    exact h

/-- One row of a fixed colour, captured twice with one step for every pixel. -/
theorem capture_round_trip_row :
    (List.range (640 * 1)).map
      (captured (fun _ _ => 0) ⟨Clocked.run edge powerUp frameSync, ⟨1, 2, 3⟩⟩
        (presentFrom (fun _ => 1) 0
          ((List.range (640 * 1)).map
            (captured (fun _ _ => 0) ⟨Clocked.run edge powerUp frameSync, ⟨1, 2, 3⟩⟩
              (presentFrom (fun _ => 1) 0 (List.replicate 640 0xabcd)) ⟨0, bytePort 0⟩).flat))
        ⟨0, bytePort 0⟩).flat = List.replicate 640 0xabcd :=
  capture_round_trip (by decide) List.length_replicate rfl rfl frameSync_entersRun
    frameSync_entersRun (presents_presentFrom _ _) (presents_presentFrom _ _)

end Live
end VideoEncryption
