import VideoEncryption.Live.Frame

/-!
# What the capture path is for

The recorder keeps the words of a frame as the camera sends it: pixel `k` at address `k`, in the
right half of a row under the mask of the moment, and a write behind. It has no write port, no banks
and no counters of its own width. A frame of 640 * 2 ^ 20 pixels brings the row counter around, so
the recorder counts its pixels up to there.

* `Recorder`, `Recorder.pclk` — the recorder and what one edge of `Cam_pclk` does to it;
* `Records` — the capture registers and the banks stand for a recorder;
* `Records.pclk`, `Records.reset` — **every edge keeps it**, in every state of the machine.
-/

namespace VideoEncryption
namespace Live

open Clocked

/-! ### The recorder -/

/-- The number of pixels after which the raster counters of the capture block start again. -/
def countedPixels : ℕ := 640 * 2 ^ 20

/-- A frame being received and the words kept of it. -/
structure Recorder where
  state : Fsm
  /-- The pixels of the frame that are complete. -/
  received : ℕ
  /-- The first byte of the next one. -/
  half : Option (BitVec 8)
  /-- The address and the word of the write that the next edge performs. -/
  writing : Option (ℕ × BitVec 16)
  kept : ℕ → BitVec 16

/-- The recorder asleep over the words `kept`. -/
def Recorder.asleep (kept : ℕ → BitVec 16) : Recorder := ⟨.sleep, 0, none, none, kept⟩

/-- Pixel number `n` where it is kept, and as what. Below the frame it clears the last pixel. -/
def keptAs (n : ℕ) (w mask : BitVec 16) : ℕ × BitVec 16 :=
  if n < framePixels then (n, if n % 640 < 320 then w else w ^^^ mask) else (framePixels - 1, 0)

theorem keptAs_fst (n : ℕ) (w mask : BitVec 16) :
    (keptAs n w mask).1 = min n (framePixels - 1) := by
  unfold keptAs
  by_cases hn : n < framePixels
  · rw [if_pos hn]
    exact (min_eq_left (by omega)).symm
  · rw [if_neg hn]
    exact (min_eq_right (by omega)).symm

theorem keptAs_inside (n : ℕ) (w mask : BitVec 16) : (keptAs n w mask).1 < framePixels := by
  rw [keptAs_fst]
  exact lt_of_le_of_lt (min_le_right _ _) (by decide)

namespace Recorder

/-- The words with the write performed. -/
def written (r : Recorder) : ℕ → BitVec 16 :=
  match r.writing with
  | none => r.kept
  | some (k, w) => Function.update r.kept k w

/-- What an edge takes in. -/
def take (r : Recorder) (p : CamPort) (mask : BitVec 16) : Recorder :=
  match r.state with
  | .sleep | .prep2 => r
  | .prep => { r with received := 0, half := none, writing := none }
  | .run =>
    if p.camHref then
      match r.half with
      | none => { r with half := some p.camData, writing := none }
      | some u =>
        { r with
          received := (r.received + 1) % countedPixels
          half := none
          writing := some (keptAs r.received (u ++ p.camData) mask) }
    else { r with writing := none }

/-- An edge of `Cam_pclk`. -/
def pclk (r : Recorder) (p : CamPort) (mask : BitVec 16) : Recorder :=
  { r.take p mask with
    state := if p.reset then .sleep else nextState r.state p
    kept := r.written }

/-- An edge of `Reset`. -/
def reset (r : Recorder) : Recorder := { r with state := .sleep }

end Recorder

/-! ### The capture registers as a recorder -/

/-- The registers of the capture block and the banks behind them stand for the recorder `r`. -/
structure Records (s : ImageInput) (v : Vram) (r : Recorder) : Prop where
  state : s.state = r.state
  byteNum : s.byteNum = r.half.isSome
  trigger : s.encryptionTrigger = r.half.isSome
  temp : ∀ u, r.half = some u → s.temp = u
  received : r.received < countedPixels
  horizontal : s.horizontalCounter = BitVec.ofNat 20 (r.received % 640)
  vertical : s.verticalCounter = BitVec.ofNat 20 (r.received / 640)
  /-- Below the frame the address register stands at its last pixel. -/
  address : framePixels ≤ r.received → s.vramWraddress = BitVec.ofNat 18 (framePixels - 1)
  writing : stores s = (r.writing.map fun x => flatStore x.1 x.2).toList
  inside : ∀ x, r.writing = some x → x.1 < framePixels
  kept : ∀ k < 3 * 65536, v.flat k = r.kept k

theorem records_powerUp (v : Vram) : Records powerUp v (.asleep v.flat) where
  state := rfl
  byteNum := rfl
  trigger := rfl
  temp _ hu := absurd hu (by simp [Recorder.asleep])
  received := (by decide : 0 < countedPixels)
  horizontal := (by decide : powerUp.horizontalCounter = BitVec.ofNat 20 (0 % 640))
  vertical := (by decide : powerUp.verticalCounter = BitVec.ofNat 20 (0 / 640))
  address h := absurd h (by decide : ¬ framePixels ≤ 0)
  writing := stores_of_not_wren rfl
  inside _ hx := absurd hx (by simp [Recorder.asleep])
  kept _ _ := rfl

variable {s s' : ImageInput} {v : Vram} {r : Recorder} {p : CamPort} {e : EncryptorOut}

/-! ### The banks -/

/-- **The pending write** reaches the banks at the next edge. -/
theorem Records.flat_storeAll (h : Records s v r) {k : ℕ} (hk : k < 3 * 65536) :
    (v.storeAll (stores s)).flat k = r.written k := by
  rw [h.writing, Recorder.written]
  cases hw : r.writing with
  | none => exact h.kept k hk
  | some x =>
    change (v.store (flatStore x.1 x.2)).flat k = Function.update r.kept x.1 x.2 k
    rw [flat_store_of_lt ((h.inside x hw).trans framePixels_lt) hk, h.kept k hk,
      Function.update_apply]

/-- The stores only depend on the write port. -/
theorem stores_congr (hwren : s'.vramWren = s.vramWren) (haddr : s'.vramWraddress = s.vramWraddress)
    (hdata : s'.vramIn = s.vramIn) : stores s' = stores s := by
  unfold stores bankWren
  rw [hwren, haddr, hdata]

/-! ### Edges -/

/-- An edge that registers no write and moves no counter. -/
theorem Records.of_quiet (h : Records s v r) {st : Fsm} {half : Option (BitVec 8)}
    (hstate : s'.state = st) (hbyte : s'.byteNum = half.isSome)
    (htrigger : s'.encryptionTrigger = half.isSome) (htemp : ∀ u, half = some u → s'.temp = u)
    (hhor : s'.horizontalCounter = s.horizontalCounter)
    (hver : s'.verticalCounter = s.verticalCounter)
    (haddr : s'.vramWraddress = s.vramWraddress) (hwren : s'.vramWren = false) :
    Records s' (v.storeAll (stores s))
      { r with state := st, half := half, writing := none, kept := r.written } where
  state := hstate
  byteNum := hbyte
  trigger := htrigger
  temp := htemp
  received := h.received
  horizontal := hhor.trans h.horizontal
  vertical := hver.trans h.vertical
  address hn := haddr.trans (h.address hn)
  writing := stores_of_not_wren hwren
  inside _ hx := absurd hx (Option.some_ne_none _).symm
  kept _ hk := h.flat_storeAll hk

/-- The pixel number that a second byte completes, and the raster position after it. -/
theorem advance_received {n : ℕ} (hn : n < countedPixels)
    (hhor : s.horizontalCounter = BitVec.ofNat 20 (n % 640))
    (hver : s.verticalCounter = BitVec.ofNat 20 (n / 640)) :
    s.advance.horizontalCounter = BitVec.ofNat 20 ((n + 1) % countedPixels % 640) ∧
      s.advance.verticalCounter = BitVec.ofNat 20 ((n + 1) % countedPixels / 640) := by
  obtain ⟨hhor', hver'⟩ := advance_raster hhor hver
  rw [hhor', hver']
  unfold countedPixels at *
  -- the last pixel counted is the last one of a row
  rcases Nat.lt_or_eq_of_le (Nat.succ_le_of_lt hn) with hlt | hlast
  -- inside the count, and at its last pixel, where both wrap to zero
  · rw [Nat.mod_eq_of_lt hlt]
    exact ⟨rfl, rfl⟩
  · rw [show n + 1 = 640 * 2 ^ 20 from hlast]
    decide

/-- The write registered with a second byte is what the recorder keeps the pixel as. -/
theorem Records.registers (h : Records s v r) {u : BitVec 8} (hhalf : r.half = some u)
    (p : CamPort) (e : EncryptorOut) :
    (s.registerWrite p e).vramWraddress
        = BitVec.ofNat 18 (keptAs r.received (u ++ p.camData) e.mask).1 ∧
      (s.registerWrite p e).vramIn = (keptAs r.received (u ++ p.camData) e.mask).2 := by
  have hcounted := h.received
  unfold countedPixels at hcounted
  unfold keptAs
  by_cases hn : r.received < framePixels
  -- inside the frame the address is the pixel's own, below it that of the last pixel
  · rw [if_pos hn]
    exact registerWrite_inside (u := ⟨⟨false, false, false, false, u⟩, e⟩) hn h.horizontal
      h.vertical (h.temp u hhalf)
  · obtain ⟨haddr, hdata⟩ :=
      registerWrite_below (p := p) (e := e) (not_lt.mp hn) (by omega) h.vertical
    rw [if_neg hn]
    exact ⟨haddr.trans (h.address (not_lt.mp hn)), hdata⟩

/-- A second byte. -/
theorem Records.takeSecond (h : Records s v r) {u : BitVec 8} (hhalf : r.half = some u)
    (p : CamPort) (e : EncryptorOut) (st : Fsm) :
    Records { s.takeSecond p e with byteNum := false, state := st } (v.storeAll (stores s))
      { r with
        state := st
        received := (r.received + 1) % countedPixels
        half := none
        writing := some (keptAs r.received (u ++ p.camData) e.mask)
        kept := r.written } := by
  -- the write port takes the pixel, and then the raster advances
  obtain ⟨haddr, hdata⟩ := h.registers hhalf p e
  obtain ⟨hhor, hver⟩ := advance_received (s := s.registerWrite p e) h.received
    (by rw [registerWrite_horizontalCounter]; exact h.horizontal)
    (by rw [registerWrite_verticalCounter]; exact h.vertical)
  refine ⟨rfl, rfl, rfl, fun _ hu => absurd hu (Option.some_ne_none _).symm,
    Nat.mod_lt _ (by decide), hhor, hver, fun hn => ?_, ?_, fun x hx => ?_,
    fun k hk => h.flat_storeAll hk⟩
  · -- at the end of the frame and below it the address is that of the last pixel
    have hbelow : framePixels - 1 ≤ r.received := by
      have hle := Nat.mod_le (r.received + 1) countedPixels
      change framePixels ≤ (r.received + 1) % countedPixels at hn
      omega
    have hlast : (keptAs r.received (u ++ p.camData) e.mask).1 = framePixels - 1 := by
      rw [keptAs_fst, min_eq_right hbelow]
    simpa [ImageInput.takeSecond, hlast] using haddr
  -- the write now pending is the pixel just completed
  · rw [stores_of_wren (k := (keptAs r.received (u ++ p.camData) e.mask).1) ?_ ?_
      (keptAs_inside _ _ _)]
    · simp [ImageInput.takeSecond, hdata]
    · simp [ImageInput.takeSecond]
    · simpa [ImageInput.takeSecond] using haddr
  · obtain rfl := Option.some.inj hx
    exact keptAs_inside _ _ _

/-- An edge that leaves the write port and the counters alone. -/
theorem Records.of_still (h : Records s v r) (st : Fsm) :
    Records { s with state := st } (v.storeAll (stores s))
      { r with state := st, kept := r.written } where
  state := rfl
  byteNum := h.byteNum
  trigger := h.trigger
  temp := h.temp
  received := h.received
  horizontal := h.horizontal
  vertical := h.vertical
  address := h.address
  writing := (stores_congr rfl rfl rfl).trans h.writing
  inside := h.inside
  kept _ hk := h.flat_storeAll hk

/-- **An edge of `Cam_pclk`** is an edge of the recorder, with the banks one write behind. -/
theorem Records.pclk (h : Records s v r) (p : CamPort) (e : EncryptorOut) :
    Records (s.pclk p e) (v.storeAll (stores s)) (r.pclk p e.mask) := by
  have hstate := h.state
  unfold ImageInput.pclk Recorder.pclk Recorder.take
  rw [hstate]
  cases hst : r.state with
  | sleep | prep2 =>
    rw [hst] at hstate
    -- no byte is taken and nothing is registered
    simp only [ImageInput.capture, hstate]
    exact h.of_still _
  | prep =>
    rw [hst] at hstate
    simp only [ImageInput.capture, hstate]
    -- `PREP` clears the counters
    refine ⟨rfl, rfl, rfl, fun _ hu => absurd hu (Option.some_ne_none _).symm,
      (by decide : 0 < countedPixels),
      (by decide : (0 : BitVec 20) = BitVec.ofNat 20 (0 % 640)),
      (by decide : (0 : BitVec 20) = BitVec.ofNat 20 (0 / 640)),
      fun hn => absurd hn (by decide : ¬ framePixels ≤ 0), stores_of_not_wren rfl,
      fun _ hx => absurd hx (Option.some_ne_none _).symm, fun k hk => h.flat_storeAll hk⟩
  | run =>
    rw [hst] at hstate
    simp only [ImageInput.capture, hstate]
    cases hhref : p.camHref with
    | false =>
      -- between the rows nothing is taken
      simp only [Bool.false_eq_true, if_false]
      exact h.of_quiet rfl h.byteNum h.trigger h.temp rfl rfl rfl rfl
    | true =>
      simp only [if_true]
      cases hhalf : r.half with
      | none =>
        have hbyte : s.byteNum = false := by rw [h.byteNum, hhalf]; rfl
        simp only [hbyte, Bool.false_eq_true, if_false, Bool.not_false]
        -- a first byte is held in `temp`
        refine h.of_quiet rfl rfl rfl (fun u hu => ?_) rfl rfl rfl rfl
        exact Option.some.inj hu
      | some u =>
        have hbyte : s.byteNum = true := by rw [h.byteNum, hhalf]; rfl
        simp only [hbyte, if_true, Bool.not_true]
        -- a second one completes the pixel
        exact h.takeSecond hhalf p e _

/-- **An edge of `Reset`** puts the recorder to sleep, with its write still pending. -/
theorem Records.reset (h : Records s v r) : Records s.posedgeReset v r.reset where
  state := rfl
  byteNum := h.byteNum
  trigger := h.trigger
  temp := h.temp
  received := h.received
  horizontal := h.horizontal
  vertical := h.vertical
  address := h.address
  writing := (stores_congr rfl rfl rfl).trans h.writing
  inside := h.inside
  kept := h.kept

end Live
end VideoEncryption
