import VideoEncryption.Clocked.Word
import VideoEncryption.Live.ImageInput

/-!
# What the capture path writes

A stay in `RUN` reads the bytes sampled with `Cam_href` high two by two as pixels and registers one
write for each of them. This file follows the write port through a whole stay:

* `entered` — whatever the history was, the machine enters `RUN` with its counters at zero and no
  write pending;
* `Captured` — the invariant of a stay: how many pixels are complete, whether one is half received,
  and that the stores performed so far together with the pending one are exactly `frameStores`;
* `emitted_eq_frameStores` — after any stay and one more edge the stores performed are
  `frameStores`: pixel `k` at flat address `k` for the first 640·240 pixels, and for every later
  pixel a store of zero at the address left behind by the last captured one.

The last point is why the captured frame is intact exactly when the stay is no longer than the
frame, or when the overwritten word was zero anyway (`capturesFrame_iff`).
-/

namespace VideoEncryption
namespace Live

open Clocked

/-! ### Pixels -/

/-- The number of pixels the VRAM banks hold. -/
def framePixels : ℕ := 640 * 240

/-- A pixel as received: the edges that took its first and its second byte. -/
structure Pixel where
  first : CamTick
  second : CamTick
deriving DecidableEq, Repr

/-- The pixel's sixteen bits, first byte high. -/
def Pixel.word (p : Pixel) : BitVec 16 := p.first.port.camData ++ p.second.port.camData

/-- What the write port carries for pixel number `k`: the pixel in the left half of the row, the
pixel under the keystream at its second byte in the right half. -/
def Pixel.value (k : ℕ) (p : Pixel) : BitVec 16 :=
  if k % 640 < 320 then p.word else p.word ^^^ p.second.enc.mask

/-- The edges of a stay that take a byte. -/
def hrefTicks (ts : List CamTick) : List CamTick := ts.filter (·.port.camHref)

/-- Pair a list up: pair `k` is made of elements `2k` and `2k + 1`. -/
def pairUp {α : Type} : List α → List (α × α)
  | a :: b :: rest => (a, b) :: pairUp rest
  | _ => []

theorem pairUp_map {α β : Type} (f : α → β) (l : List α) :
    pairUp (l.map f) = (pairUp l).map (Prod.map f f) := by
  fun_induction pairUp l with
  | case1 a b rest ih => simp [pairUp, ih]
  | case2 l h =>
    match l, h with
    | [], _ => rfl
    | [_], _ => rfl
    | a :: b :: rest, h => exact absurd rfl (h a b rest)

/-- Pixel `k` is made of bytes `2k` and `2k + 1`. -/
def pixels (bytes : List CamTick) : List Pixel :=
  (pairUp bytes).map fun q => ⟨q.1, q.2⟩

/-- The store made for pixel number `k`. -/
def pixelStore (k : ℕ) (p : Pixel) : Store :=
  if k < framePixels then flatStore k (p.value k) else flatStore (framePixels - 1) 0

/-- The stores made for a stay that receives the pixels `ps`. -/
def frameStores (ps : List Pixel) : List Store := ps.mapIdx pixelStore

/-- Take one edge into the pixels received so far and the byte still waiting for its second. -/
def assemble (a : List Pixel × Option CamTick) (t : CamTick) : List Pixel × Option CamTick :=
  if t.port.camHref then
    match a.2 with
    | none => (a.1, some t)
    | some u => (a.1 ++ [⟨u, t⟩], none)
  else a

theorem assemble_foldl (ts : List CamTick) (ps : List Pixel) (half : Option CamTick) :
    (ts.foldl assemble (ps, half)).1 = ps ++ pixels (half.toList ++ hrefTicks ts) := by
  induction ts generalizing ps half with
  | nil => cases half <;> simp [pixels, pairUp, hrefTicks]
  | cons t ts ih =>
    rw [List.foldl_cons]
    by_cases hh : t.port.camHref
    · have hcons : hrefTicks (t :: ts) = t :: hrefTicks ts := by simp [hrefTicks, hh]
      rw [hcons]
      -- a byte waits for its second one, or completes a pixel
      cases half with
      | none =>
        rw [show assemble (ps, none) t = (ps, some t) by simp [assemble, hh], ih]
        rfl
      | some u =>
        rw [show assemble (ps, some u) t = (ps ++ [⟨u, t⟩], none) by simp [assemble, hh], ih]
        simp [pixels, pairUp]
    · have hcons : hrefTicks (t :: ts) = hrefTicks ts := by simp [hrefTicks, hh]
      rw [hcons, show assemble (ps, half) t = (ps, half) by simp [assemble, hh], ih]

theorem assemble_length_le (a : List Pixel × Option CamTick) (t : CamTick) :
    a.1.length ≤ (assemble a t).1.length := by
  obtain ⟨ps, half⟩ := a
  unfold assemble
  split
  · cases half <;> simp
  · exact le_rfl

theorem assemble_foldl_length_le (ts : List CamTick) (a : List Pixel × Option CamTick) :
    a.1.length ≤ (ts.foldl assemble a).1.length := by
  induction ts generalizing a with
  | nil => exact le_rfl
  | cons t ts ih => exact (assemble_length_le a t).trans (ih _)

/-! ### The write port -/

theorem stores_of_not_wren {s : ImageInput} (h : s.vramWren = false) : stores s = [] := by
  simp [stores, bankWren, h]

theorem extractLsb'_bank {k : ℕ} (hk : k < framePixels) :
    (BitVec.ofNat 18 k).extractLsb' 16 2 = BitVec.ofNat 2 (k / 65536) := by
  unfold framePixels at hk
  apply BitVec.eq_of_toNat_eq
  rw [BitVec.extractLsb'_toNat, BitVec.toNat_ofNat, BitVec.toNat_ofNat, Nat.shiftRight_eq_div_pow]
  omega

theorem extractLsb'_word (k : ℕ) :
    (BitVec.ofNat 18 k).extractLsb' 0 16 = BitVec.ofNat 16 (k % 65536) := by
  apply BitVec.eq_of_toNat_eq
  rw [BitVec.extractLsb'_toNat, BitVec.toNat_ofNat, BitVec.toNat_ofNat, Nat.shiftRight_eq_div_pow]
  omega

/-- A pending write inside the frame is one store, at its flat address. -/
theorem stores_of_wren {s : ImageInput} {k : ℕ} (hw : s.vramWren = true)
    (ha : s.vramWraddress = BitVec.ofNat 18 k) (hk : k < framePixels) :
    stores s = [flatStore k s.vramIn] := by
  have hbank : k / 65536 = 0 ∨ k / 65536 = 1 ∨ k / 65536 = 2 := by
    unfold framePixels at hk
    omega
  -- the two top bits of the address select the bank
  have hwren : ∀ b : Fin 3, bankWren s b = decide (b = Fin.ofNat 3 (k / 65536)) := by
    intro b
    unfold bankWren
    rw [hw, ha, extractLsb'_bank hk]
    rcases hbank with h | h | h <;> rw [h] <;> revert b <;> decide
  -- the write decode enables one bank
  have hpick : ∀ (c : Fin 3) (w d : BitVec 16), (List.finRange 3).filterMap
      (fun b => if decide (b = c) = true then some (⟨b, w, d⟩ : Store) else none)
      = [⟨c, w, d⟩] := by
    intro c w d
    fin_cases c <;> rfl
  unfold stores flatStore
  simp only [hwren, ha, extractLsb'_word]
  exact hpick _ _ _

/-! ### The invariant of a stay in `RUN` -/

/-- The registers after the pixels `ps` and possibly one more byte, with `sts` the stores performed
since `RUN` was entered. -/
structure Captured (ps : List Pixel) (half : Option CamTick) (s : ImageInput)
    (sts : List Store) : Prop where
  byteNum : s.byteNum = half.isSome
  temp : ∀ u, half = some u → s.temp = u.port.camData
  horizontal : s.horizontalCounter = BitVec.ofNat 20 (ps.length % 640)
  vertical : s.verticalCounter = BitVec.ofNat 20 (ps.length / 640)
  /-- The performed stores and the pending one are the stores of the complete pixels. -/
  stored : sts ++ stores s = frameStores ps
  /-- The address register still holds the last captured pixel's address. -/
  address : ps ≠ [] → s.vramWraddress = BitVec.ofNat 18 (min ps.length framePixels - 1)

/-- The registers as `PREP` leaves them. -/
structure Cleared (s : ImageInput) : Prop where
  byteNum : s.byteNum = false
  horizontal : s.horizontalCounter = 0
  vertical : s.verticalCounter = 0
  wren : s.vramWren = false

theorem Cleared.captured {s : ImageInput} (h : Cleared s) : Captured [] none s [] where
  byteNum := h.byteNum
  temp := fun _ hu => absurd hu (by simp)
  horizontal := h.horizontal
  vertical := h.vertical
  stored := stores_of_not_wren h.wren
  address := fun hne => absurd rfl hne

section Tick

variable {s : ImageInput} {p : CamPort} {e : EncryptorOut}

theorem pclk_run_low (hs : s.state = .run) (hh : p.camHref = false) :
    s.pclk p e
      = { s with vramWren := false, state := if p.reset then .sleep else nextState s.state p } := by
  simp [ImageInput.pclk, ImageInput.capture, hs, hh]

theorem pclk_run_first (hs : s.state = .run) (hh : p.camHref = true) (hb : s.byteNum = false) :
    s.pclk p e
      = { s.takeFirst p with
          byteNum := true
          state := if p.reset then .sleep else nextState s.state p } := by
  simp [ImageInput.pclk, ImageInput.capture, hs, hh, hb]

theorem pclk_run_second (hs : s.state = .run) (hh : p.camHref = true) (hb : s.byteNum = true) :
    s.pclk p e
      = { s.takeSecond p e with
          byteNum := false
          state := if p.reset then .sleep else nextState s.state p } := by
  simp [ImageInput.pclk, ImageInput.capture, hs, hh, hb]

/-- The raster position after one more pixel. -/
theorem advance_raster {n : ℕ} (hh : s.horizontalCounter = BitVec.ofNat 20 (n % 640))
    (hv : s.verticalCounter = BitVec.ofNat 20 (n / 640)) :
    s.advance.horizontalCounter = BitVec.ofNat 20 ((n + 1) % 640) ∧
      s.advance.verticalCounter = BitVec.ofNat 20 ((n + 1) / 640) := by
  -- the counters hold numbers far below their width
  have hlast : s.horizontalCounter = 639 ↔ n % 640 = 639 := by
    rw [hh]
    exact ofNat_inj (by omega) (by norm_num)
  unfold ImageInput.advance
  by_cases hn : n % 640 = 639
  · -- the end of a row
    rw [if_pos (hlast.mpr hn)]
    constructor
    · rw [show (n + 1) % 640 = 0 by omega]
      rfl
    · rw [show (n + 1) / 640 = n / 640 + 1 by omega, ← ofNat_succ, ← hv]
  · rw [if_neg fun h => hn (hlast.mp h)]
    constructor
    · rw [show (n + 1) % 640 = n % 640 + 1 by omega, ← ofNat_succ, ← hh]
    · rw [show (n + 1) / 640 = n / 640 by omega, ← hv]

@[simp] theorem advance_vramWren : s.advance.vramWren = s.vramWren := by
  unfold ImageInput.advance; split <;> rfl

@[simp] theorem advance_vramWraddress : s.advance.vramWraddress = s.vramWraddress := by
  unfold ImageInput.advance; split <;> rfl

@[simp] theorem advance_vramIn : s.advance.vramIn = s.vramIn := by
  unfold ImageInput.advance; split <;> rfl

@[simp] theorem registerWrite_horizontalCounter :
    (s.registerWrite p e).horizontalCounter = s.horizontalCounter := by
  unfold ImageInput.registerWrite; split <;> rfl

@[simp] theorem registerWrite_verticalCounter :
    (s.registerWrite p e).verticalCounter = s.verticalCounter := by
  unfold ImageInput.registerWrite; split <;> rfl

@[simp] theorem registerWrite_vramWren : (s.registerWrite p e).vramWren = true := by
  unfold ImageInput.registerWrite; split <;> rfl

/-- The write registered with the second byte of pixel number `n` inside the frame. -/
theorem registerWrite_inside {n : ℕ} {u : CamTick} (hn : n < framePixels)
    (hh : s.horizontalCounter = BitVec.ofNat 20 (n % 640))
    (hv : s.verticalCounter = BitVec.ofNat 20 (n / 640)) (ht : s.temp = u.port.camData) :
    (s.registerWrite p e).vramWraddress = BitVec.ofNat 18 n ∧
      (s.registerWrite p e).vramIn = Pixel.value n ⟨u, ⟨p, e⟩⟩ := by
  unfold framePixels at hn
  -- the comparisons of the source, on numbers
  have hrow : s.verticalCounter < 240 := by
    rw [hv]
    exact (ofNat_lt (b := 240) (by omega) (by norm_num)).mpr (by omega)
  have hleft : s.horizontalCounter < 320 ↔ n % 640 < 320 := by
    rw [hh]
    exact ofNat_lt (by omega) (by norm_num)
  -- the flat address fits eighteen bits inside the frame, and no sum in it overflows
  have haddr : (s.horizontalCounter + s.verticalCounter * 640).setWidth 18 = BitVec.ofNat 18 n := by
    have hmul : BitVec.ofNat 20 (n / 640) * 640 = BitVec.ofNat 20 (n / 640 * 640) :=
      (BitVec.ofNat_mul _ _).symm
    rw [hh, hv, hmul, ← BitVec.ofNat_add, show n % 640 + n / 640 * 640 = n by omega]
    apply BitVec.eq_of_toNat_eq
    rw [BitVec.toNat_setWidth, BitVec.toNat_ofNat, BitVec.toNat_ofNat]
    omega
  unfold ImageInput.registerWrite
  rw [if_pos hrow]
  refine ⟨haddr, ?_⟩
  -- the left half is stored as it is
  change (if s.horizontalCounter < 320 then s.temp ++ p.camData
    else (s.temp ++ p.camData) ^^^ e.mask) = _
  rw [ht]
  exact if_congr hleft rfl rfl

/-- The write registered with the second byte of pixel number `n` below the frame. -/
theorem registerWrite_below {n : ℕ} (hn : framePixels ≤ n) (hlt : n / 640 < 2 ^ 20)
    (hv : s.verticalCounter = BitVec.ofNat 20 (n / 640)) :
    (s.registerWrite p e).vramWraddress = s.vramWraddress ∧ (s.registerWrite p e).vramIn = 0 := by
  unfold framePixels at hn
  have hrow : ¬ s.verticalCounter < 240 := by
    rw [hv]
    exact fun h => absurd ((ofNat_lt (b := 240) hlt (by norm_num)).mp h) (by omega)
  unfold ImageInput.registerWrite
  rw [if_neg hrow]
  exact ⟨rfl, rfl⟩

end Tick

/-- An edge that registers no write performs the pending one and leaves none. -/
theorem Captured.stored_quiet {ps : List Pixel} {half : Option CamTick} {s s' : ImageInput}
    {sts : List Store} (h : Captured ps half s sts) (hw : s'.vramWren = false) :
    (sts ++ stores s) ++ stores s' = frameStores ps := by
  rw [stores_of_not_wren hw, List.append_nil]
  exact h.stored

/-- The write registered with the next pixel's second byte is that pixel's store, at the address of
the last captured pixel. -/
theorem Captured.registers {ps : List Pixel} {u t : CamTick} {s : ImageInput} {sts : List Store}
    (h : Captured ps (some u) s sts) (hlen : ps.length < 640 * 2 ^ 20) :
    (s.registerWrite t.port t.enc).vramWraddress
        = BitVec.ofNat 18 (min (ps.length + 1) framePixels - 1) ∧
      flatStore (min (ps.length + 1) framePixels - 1) (s.registerWrite t.port t.enc).vramIn
        = pixelStore ps.length ⟨u, t⟩ := by
  rcases Nat.lt_or_ge ps.length framePixels with hn | hn
  · -- inside the frame the address is computed from the counters
    obtain ⟨ha, hd⟩ := registerWrite_inside (p := t.port) (e := t.enc) hn h.horizontal
      h.vertical (h.temp u rfl)
    rw [show min (ps.length + 1) framePixels - 1 = ps.length by omega]
    exact ⟨ha, by rw [hd]; exact (if_pos hn).symm⟩
  · -- below it the address register keeps what the last captured pixel left there
    obtain ⟨ha, hd⟩ := registerWrite_below (p := t.port) (e := t.enc) hn (by omega) h.vertical
    -- some pixel has been captured before
    have hne : ps ≠ [] := by
      rintro rfl
      exact absurd hn (by decide)
    rw [show min (ps.length + 1) framePixels - 1 = framePixels - 1 by omega]
    refine ⟨?_, by rw [hd]; exact (if_neg (by omega)).symm⟩
    rw [ha, h.address hne, Nat.min_eq_right hn]

/-- **One edge of a stay.** Every edge taken in `RUN` keeps the invariant, with the edge assembled
into the pixels received and the pending write performed. -/
theorem Captured.tick {ps : List Pixel} {half : Option CamTick} {s : ImageInput} {sts : List Store}
    {t : CamTick} (h : Captured ps half s sts) (hs : s.state = .run)
    (hlen : ps.length < 640 * 2 ^ 20) :
    Captured (assemble (ps, half) t).1 (assemble (ps, half) t).2 (s.pclk t.port t.enc)
      (sts ++ stores s) := by
  cases hh : t.port.camHref with
  | false =>
    -- no byte: the pending write is performed and no other is registered
    rw [pclk_run_low hs hh, show assemble (ps, half) t = (ps, half) by simp [assemble, hh]]
    exact ⟨h.byteNum, h.temp, h.horizontal, h.vertical,
      h.stored_quiet rfl, h.address⟩
  | true =>
    cases half with
    | none =>
      -- a first byte: kept in `temp`, with the write enable low
      rw [pclk_run_first hs hh h.byteNum,
        show assemble (ps, none) t = (ps, some t) by simp [assemble, hh]]
      refine ⟨rfl, ?_, h.horizontal, h.vertical, h.stored_quiet rfl, h.address⟩
      intro u hu
      obtain rfl := Option.some.inj hu
      rfl
    | some u =>
      -- a second byte completes a pixel and registers its write
      rw [pclk_run_second hs hh h.byteNum,
        show assemble (ps, some u) t = (ps ++ [⟨u, t⟩], none) by simp [assemble, hh]]
      obtain ⟨hhor, hver⟩ := advance_raster (s := s.registerWrite t.port t.enc)
        (by rw [registerWrite_horizontalCounter]; exact h.horizontal)
        (by rw [registerWrite_verticalCounter]; exact h.vertical)
      obtain ⟨haddr, hdata⟩ := h.registers (t := t) hlen
      have hinside : min (ps.length + 1) framePixels - 1 < framePixels := by
        have : 0 < framePixels := by decide
        omega
      refine ⟨rfl, fun _ hv => absurd hv (by simp), ?_, ?_, ?_, ?_⟩
      · rw [List.length_append]
        exact hhor
      · rw [List.length_append]
        exact hver
      · -- the stores performed so far are those of `ps`, and the pending one is the new pixel's
        rw [h.stored, stores_of_wren (k := min (ps.length + 1) framePixels - 1) ?_ ?_ hinside]
        · unfold frameStores
          rw [List.mapIdx_concat, ← hdata]
          simp [ImageInput.takeSecond]
        · simp [ImageInput.takeSecond]
        · simpa [ImageInput.takeSecond] using haddr
      · intro _
        rw [List.length_append]
        simpa [ImageInput.takeSecond] using haddr

/-! ### Whole stays -/

/-- A stay in `RUN`: no reset, and the frame sync low at every edge but possibly the last one. -/
structure Stay (ts : List CamTick) : Prop where
  reset : ∀ t ∈ ts, t.port.reset = false
  vsync : ∀ t ∈ ts.dropLast, t.port.camVsync = false

/-- **The invariant over a whole stay.** -/
theorem Captured.run {ts : List CamTick} {ps : List Pixel} {half : Option CamTick} {s : ImageInput}
    {sts : List Store} (h : Captured ps half s sts) (hs : s.state = .run) (hstay : Stay ts)
    (hlen : (ts.foldl assemble (ps, half)).1.length < 640 * 2 ^ 20) :
    Captured (ts.foldl assemble (ps, half)).1 (ts.foldl assemble (ps, half)).2
      (Clocked.run edge s (ts.map .pclk))
      (sts ++ emitted edge edgeStores s (ts.map .pclk)) := by
  -- the edges one by one, with the pixels and the stores so far carried along
  induction ts generalizing ps half s sts with
  | nil => simpa using h
  | cons t ts ih =>
    have hps : ps.length < 640 * 2 ^ 20 :=
      lt_of_le_of_lt (assemble_foldl_length_le (t :: ts) (ps, half)) hlen
    -- one edge, and then the induction for the rest
    have htick := h.tick (t := t) hs hps
    rw [List.map_cons, run_cons, emitted_cons, ← List.append_assoc, List.foldl_cons]
    cases ts with
    | nil =>
      change Captured _ _ (s.pclk t.port t.enc) ((sts ++ stores s) ++ [])
      rw [List.append_nil]
      exact htick
    | cons t' ts =>
      refine ih htick ?_ ⟨fun u hu => hstay.reset u (List.mem_cons_of_mem _ hu),
        fun u hu => hstay.vsync u (List.mem_cons_of_mem _ hu)⟩ hlen
      -- the sync is low at `t`, so the machine is still in `RUN` at the next edge
      have hreset : t.port.reset = false := hstay.reset t List.mem_cons_self
      have hvsync : t.port.camVsync = false := hstay.vsync t List.mem_cons_self
      simp [edge, ImageInput.pclk, nextState, hs, hreset, hvsync]

/-- **The stores of a stay.** From registers as `PREP` leaves them, the stores performed during a
stay and at the edge after it are those of the complete pixels. -/
theorem emitted_eq_frameStores {s : ImageInput} {ts : List CamTick} {closing : CamTick}
    (hclear : Cleared s) (hs : s.state = .run) (hstay : Stay ts)
    (hlen : (pixels (hrefTicks ts)).length < 640 * 2 ^ 20) :
    emitted edge edgeStores s ((ts ++ [closing]).map .pclk)
      = frameStores (pixels (hrefTicks ts)) := by
  have hps : (ts.foldl assemble ([], none)).1 = pixels (hrefTicks ts) := assemble_foldl ts [] none
  have h := hclear.captured.run hs hstay (by rw [hps]; exact hlen)
  rw [hps] at h
  rw [List.map_append, emitted_append]
  simpa [edgeStores] using h.stored

/-! ### Entering `RUN` -/

/-- The history `history` brings the machine from `s₀` into `RUN` at its last edge. -/
def EntersRun (s₀ : ImageInput) (history : List Edge) : Prop :=
  ∃ before last, history = before ++ [last] ∧ (Clocked.run edge s₀ before).state ≠ .run ∧
    (Clocked.run edge s₀ history).state = .run

/-- `PREP2` is only ever seen with the registers `PREP` has cleared. -/
theorem prep2_cleared_step {s : ImageInput} (h : s.state = .prep2 → Cleared s) (ed : Edge) :
    (edge s ed).state = .prep2 → Cleared (edge s ed) := by
  intro hs
  cases ed with
  | reset => exact absurd hs (by simp [edge, ImageInput.posedgeReset])
  | pclk t =>
    simp only [edge, ImageInput.pclk] at hs ⊢
    split at hs
    · exact absurd hs (by simp)
    · -- `PREP` clears the registers as it is left, and `PREP2` keeps them
      rcases of_nextState_prep2 hs with hst | hst
      · simp only [ImageInput.capture, hst]
        exact ⟨rfl, rfl, rfl, rfl⟩
      · obtain ⟨hb, hh, hv, hw⟩ := h hst
        simp only [ImageInput.capture, hst]
        exact ⟨hb, hh, hv, hw⟩

/-- **Entry.** Whatever brought the machine into `RUN`, its counters are zero and no write is
pending. -/
theorem entered {s₀ : ImageInput} {history : List Edge} (h₀ : s₀.state = .sleep)
    (h : EntersRun s₀ history) :
    Cleared (Clocked.run edge s₀ history) ∧ (Clocked.run edge s₀ history).state = .run := by
  obtain ⟨before, last, rfl, hbefore, hafter⟩ := h
  refine ⟨?_, hafter⟩
  -- up to the last edge but one
  have hinv : (Clocked.run edge s₀ before).state = .prep2 → Cleared (Clocked.run edge s₀ before) :=
    run_invariant (c := fun _ _ => True) (I := fun s => s.state = .prep2 → Cleared s)
      (fun s ed hI _ => prep2_cleared_step hI ed) (fun h => absurd (h₀ ▸ h) (by simp))
      (along_true _ _)
  rw [run_append, run_cons, run_nil] at hafter ⊢
  generalize Clocked.run edge s₀ before = s at hbefore hinv hafter ⊢
  cases last with
  | reset => exact absurd hafter (by simp [edge, ImageInput.posedgeReset])
  | pclk t =>
    simp only [edge, ImageInput.pclk] at hafter ⊢
    split at hafter
    · exact absurd hafter (by simp)
    · -- `RUN` is entered from `PREP2` alone, and `PREP2` leaves the data path untouched
      rcases of_nextState_run hafter with hst | hst
      · obtain ⟨hb, hh, hv, hw⟩ := hinv hst
        simp only [ImageInput.capture, hst]
        exact ⟨hb, hh, hv, hw⟩
      · exact absurd hst hbefore

end Live
end VideoEncryption
