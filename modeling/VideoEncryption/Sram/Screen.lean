import VideoEncryption.Live.Display
import VideoEncryption.Sram.Capture

/-!
# From the camera to the screen

In `DISPLAY` the raster addresses the SRAM and the word read shows as a colour. The pins and the
colours are registers: a tick of `VGA_Clk` sets the address of the position it leaves, the next one
takes the word, so the colour shown belongs to the position two ticks back (`Showing`). The chip
keeps the top wire of the bus low meanwhile, so the top bit of a word may not arrive (`ShowsWord`).

The words were stored from the last address down. So the picture is the camera's upside down and
back to front, two columns to the right, and the first two columns show a piece of its middle
(`camera_to_screen`).
-/

namespace VideoEncryption
namespace Sram

open Clocked

/-! ### The raster -/

/-- The raster position after one tick of `VGA_Clk` in `DISPLAY`. -/
def Raster.next (v : Raster) : Raster :=
  if v.hc = 799 then ⟨0, if v.vc = 524 then 0 else v.vc + 1⟩ else { v with hc := v.hc + 1 }

/-- The address of a raster position. -/
def Raster.address (v : Raster) : BitVec 20 := 640 * v.vc.setWidth 20 + v.hc.setWidth 20

/-- 800 positions of 525 lines. -/
structure Raster.InRange (v : Raster) : Prop where
  hc : v.hc.toNat < 800
  vc : v.vc.toNat < 525

section Raster

variable {v : Raster}

/-- The position after one tick, in numbers. -/
theorem Raster.next_toNat (h : v.InRange) :
    (v.next.hc.toNat = if v.hc.toNat = 799 then 0 else v.hc.toNat + 1) ∧
      v.next.vc.toNat = if v.hc.toNat = 799 then
        if v.vc.toNat = 524 then 0 else v.vc.toNat + 1 else v.vc.toNat := by
  obtain ⟨hhc, hvc⟩ := h
  -- the comparisons of the source are those of numbers
  have hlast : v.hc = 799 ↔ v.hc.toNat = 799 := by rw [← BitVec.toNat_inj]; rfl
  have hbottom : v.vc = 524 ↔ v.vc.toNat = 524 := by rw [← BitVec.toNat_inj]; rfl
  have hsucc : ∀ c : BitVec 10, c.toNat < 800 → (c + 1).toNat = c.toNat + 1 := fun c hc =>
    BitVec.toNat_add_of_lt (show c.toNat + 1 < 1024 by omega)
  unfold Raster.next
  -- the end of a row, and then the bottom of the screen
  by_cases h799 : v.hc.toNat = 799
  · rw [if_pos (hlast.mpr h799), if_pos h799, if_pos h799]
    by_cases h524 : v.vc.toNat = 524
    · rw [if_pos (hbottom.mpr h524), if_pos h524]
      exact ⟨rfl, rfl⟩
    · rw [if_neg fun h => h524 (hbottom.mp h), if_neg h524]
      exact ⟨rfl, hsucc _ (by omega)⟩
  · rw [if_neg fun h => h799 (hlast.mp h), if_neg h799, if_neg h799]
    exact ⟨hsucc _ hhc, rfl⟩

theorem Raster.InRange.next (h : v.InRange) : v.next.InRange := by
  obtain ⟨hhc, hvc⟩ := Raster.next_toNat h
  obtain ⟨hlt, hlt'⟩ := h
  constructor
  · rw [hhc]
    split_ifs <;> omega
  · rw [hvc]
    split_ifs <;> omega

theorem Raster.InRange.iterate (h : v.InRange) (n : ℕ) : (Raster.next^[n] v).InRange := by
  induction n with
  | zero => exact h
  | succ n ih =>
    rw [Function.iterate_succ_apply']
    exact ih.next

theorem Raster.address_eq (v : Raster) :
    v.address = BitVec.ofNat 20 (640 * v.vc.toNat + v.hc.toNat) := by
  rw [Raster.address, BitVec.ofNat_add, BitVec.ofNat_mul, BitVec.ofNat_toNat, BitVec.ofNat_toNat]
  rfl

/-- The address of the position two ticks before a visible one. -/
theorem Raster.address_of_next_next (h : v.InRange) {x y : ℕ} (hx : v.next.next.hc.toNat = x)
    (hy : v.next.next.vc.toNat = y) (hx640 : x < 640) :
    (2 ≤ x → v.address = BitVec.ofNat 20 (640 * y + (x - 2))) ∧
      (x < 2 → 0 < y → v.address = BitVec.ofNat 20 (640 * y + (158 + x))) := by
  obtain ⟨hhc, hvc⟩ := Raster.next_toNat h
  obtain ⟨hhc', hvc'⟩ := Raster.next_toNat h.next
  obtain ⟨hlt, hlt'⟩ := h
  rw [hhc'] at hx
  rw [hvc'] at hy
  rw [v.address_eq]
  -- two ticks back in the same row, or at the end of the row before
  constructor
  · intro h2
    congr 1
    split_ifs at hx hhc hvc hy <;> omega
  · intro h2 hpos
    congr 1
    split_ifs at hx hhc hvc hy <;> omega

end Raster

theorem scan_eq (s : System) (i : Inputs) : s.scan i =
    if i.reset then ⟨0, 0⟩ else if s.state = .display then s.raster.next else s.raster := rfl

/-! ### A stay in `DISPLAY` -/

/-- The colour on the screen. -/
def System.colour (s : System) : Live.Colour := ⟨s.regs.red, s.regs.green, s.regs.blue⟩

/-- The two revisions of `Image_Input` expand a word alike. -/
theorem display_colour (r : Regs) (v : Raster) (dq : BitVec 16) :
    (⟨(r.display v dq).red, (r.display v dq).green, (r.display v dq).blue⟩ : Live.Colour)
      = Live.expand dq := by
  -- the green bits come in two pieces here
  have hgreen : dq.extractLsb' 8 3 ++ dq.extractLsb' 5 3 = dq.extractLsb' 5 6 :=
    BitVec.extractLsb'_append_extractLsb'_eq_extractLsb' rfl
  rw [Live.expand, ← hgreen]
  rfl

/-- The colour `c` is that of the word `w`, or of `w` without its top bit. -/
def ShowsWord (w : BitVec 16) (c : Live.Colour) : Prop :=
  c = Live.expand w ∨ c = Live.expand (w &&& 0x7fff)

/-- All bits but the top one. -/
theorem getLsbD_low_bits {i : ℕ} (hi : i < 16) :
    (0x7fff : BitVec 16).getLsbD i = decide (i ≠ 15) := by
  interval_cases i <;> rfl

theorem or_low_bits (f : BitVec 16) :
    f ||| 0x7fff = BitVec.allOnes 16 ∨ f ||| 0x7fff = 0x7fff := by
  -- the top bit is the only one that the literal leaves open
  cases hf : f.getLsbD 15 with
  | true =>
    refine .inl (BitVec.eq_of_getLsbD_eq fun i hi => ?_)
    rw [BitVec.getLsbD_or, getLsbD_low_bits hi, BitVec.getLsbD_allOnes, decide_eq_true hi]
    obtain rfl | h15 := eq_or_ne i 15
    · rw [hf, Bool.true_or]
    · rw [decide_eq_true h15, Bool.or_true]
  | false =>
    refine .inr (BitVec.eq_of_getLsbD_eq fun i hi => ?_)
    rw [BitVec.getLsbD_or, getLsbD_low_bits hi]
    obtain rfl | h15 := eq_or_ne i 15
    · rw [hf, Bool.false_or]
    · rw [decide_eq_true h15, Bool.or_true]

/-- Without a top bit there is none to lose. -/
theorem showsWord_iff {w : BitVec 16} {c : Live.Colour} (hw : w.getLsbD 15 = false) :
    ShowsWord w c ↔ c = Live.expand w := by
  have hlow : w &&& 0x7fff = w := by
    refine BitVec.eq_of_getLsbD_eq fun i hi => ?_
    rw [BitVec.getLsbD_and, getLsbD_low_bits hi]
    obtain rfl | h15 := eq_or_ne i 15
    · rw [hw, Bool.false_and]
    · rw [decide_eq_true h15, Bool.and_true]
  rw [ShowsWord, hlow, or_self]

/-- A word fetched in `DISPLAY` arrives but for its top bit, which the chip keeps low. -/
theorem bus_display (a : BitVec 20) (m : Memory) (f : BitVec 16) :
    (Pins.display a).bus m f = m a &&& (f ||| 0x7fff) :=
  Driver.resolve_shortZ_word (m a) f 15

theorem showsWord_bus (a : BitVec 20) (m : Memory) (f : BitVec 16) :
    ShowsWord (m a) (Live.expand ((Pins.display a).bus m f)) := by
  have hbits : m a &&& (f ||| 0x7fff) = m a ∨ m a &&& (f ||| 0x7fff) = m a &&& 0x7fff := by
    -- what the top wire happens to read decides
    rcases or_low_bits f with hf | hf <;> rw [hf]
    exacts [.inl BitVec.and_allOnes, .inr rfl]
  rw [bus_display]
  exact hbits.imp (congrArg Live.expand) (congrArg Live.expand)

/-- No reset, and no request. -/
def Watching : ClockEdge → Prop
  | .clk _ => True
  | .vgaClk i => i.reset = false
  | .camPclk i => i.reset = false ∧ (i.run = false ∨ (i.sw1 = true ∧ i.sw2 = true))

/-- The chip after `n` ticks of `VGA_Clk` in `DISPLAY`, with the contents `m` in the SRAM and the
raster at `v` in the beginning: the pins hold the address of the position before, the colours the
word of the position before that. -/
structure Showing (m : Memory) (v : Raster) (n : ℕ) (s : System) : Prop where
  state : s.state = .display
  raster : s.raster = Raster.next^[n] v
  stored : s.stored = m
  pins : ∀ k, n = k + 1 → s.regs.pins = .display (Raster.next^[k] v).address
  colour : ∀ k, n = k + 2 → ShowsWord (m (Raster.next^[k] v).address) s.colour

section Run

variable {F : Subkey.Map → Subkey.Key → Subkey.Key} {seed : BitVec 12} {b : Board} {m : Memory}
  {v : Raster} {n : ℕ} {es : List ClockEdge} {i : Inputs}

theorem showing_zero (hs : b.chip.state = .display) :
    Showing b.chip.stored b.chip.raster 0 b.chip where
  state := hs
  raster := rfl
  stored := rfl
  pins := fun k hk => absurd hk (by omega)
  colour := fun k hk => absurd hk (by omega)

/-- **A tick of `VGA_Clk`** in `DISPLAY`. -/
theorem Showing.vgaClk (h : Showing m v n b.chip) (hi : i.reset = false) :
    Showing m v (n + 1) (b.edge F seed (.vgaClk i)).chip := by
  -- the tick sets the address of the position and moves the raster
  have hregs : (b.edge F seed (.vgaClk i)).chip.regs
      = b.chip.regs.display b.chip.raster (b.chip.dq (b.inputs i)) := by
    change b.chip.dataPath (b.inputs i) = _
    rw [System.dataPath, h.state]
  have hraster : (b.edge F seed (.vgaClk i)).chip.raster = b.chip.raster.next := by
    change b.chip.scan i = _
    rw [scan_eq, hi, h.state]
    rfl
  refine ⟨h.state, ?_, ?_, ?_, ?_⟩
  · rw [hraster, h.raster, Function.iterate_succ_apply']
  · rw [System.stored, hregs]
    exact (Pins.store_of_weN rfl _).trans h.stored
  -- the address one tick back is that of the position then
  · rintro k hk
    obtain rfl : n = k := by omega
    rw [hregs, ← h.raster]
    rfl
  · rintro k hk
    obtain rfl : n = k + 1 := by omega
    -- the bus carries the word that was asked for, as far as the chip lets it
    have hpins := h.pins k rfl
    have hmem : b.chip.mem = m := by
      rw [← h.stored, System.stored, hpins]
      exact (Pins.store_of_weN rfl _).symm
    rw [System.colour, hregs, display_colour, System.dq, hpins, hmem]
    exact showsWord_bus _ m _

variable (F seed) in
/-- **The run of the screen**: any edges of the three clocks. -/
theorem Showing.run (h : Showing m v n b.chip) (hes : ∀ e ∈ es, Watching e) :
    Showing m v (n + es.countP (·.clock = .vgaClk)) (run (Board.edge · F seed) b es).chip := by
  -- each edge of `VGA_Clk` is one more tick, the others are none
  induction es generalizing b n with
  | nil => exact h
  | cons e es ih =>
    have hrest : ∀ e ∈ es, Watching e := fun e he => hes e (List.mem_cons_of_mem _ he)
    have hfirst := hes e List.mem_cons_self
    rw [run_cons, List.countP_cons]
    cases e with
    | clk l => exact ih (b := b.edge F seed (.clk l)) h hrest
    | vgaClk i =>
      have hnext := ih (b := b.edge F seed (.vgaClk i)) (h.vgaClk hfirst) hrest
      rw [Nat.add_right_comm] at hnext
      exact hnext
    | camPclk i =>
      -- `Cam_pclk` finds no request, so the chip displays on
      refine ih (b := b.edge F seed (.camPclk i)) ⟨?_, h.raster, h.stored, h.pins, h.colour⟩ hrest
      rw [camPclk_state_of_unreset hfirst.1, System.nextState, h.state]
      rcases hfirst.2 with hrun | ⟨h1, h2⟩
      · simp [hrun]
      · simp [h1, h2]

/-! ### From the camera to the screen -/

/-- The raster never leaves its range. -/
theorem inRange_run (hb : b.chip.raster.InRange) (es : List ClockEdge) :
    (run (Board.edge · F seed) b es).chip.raster.InRange := by
  refine run_invariant (c := fun _ _ => True) (I := fun b : Board => b.chip.raster.InRange)
    (fun b e hb _ => ?_) hb (along_true _ _)
  cases e with
  | clk l => exact hb
  | camPclk i => exact hb
  | vgaClk i =>
    change (b.chip.scan i).InRange
    rw [scan_eq]
    split_ifs
    exacts [⟨by decide, by decide⟩, hb.next, hb]

/-- The word stored for the frame position `(y, x)`. -/
theorem storeWords_position (m : Memory) {ws : List (BitVec 16)} (h₀ : 307200 ≤ ws.length)
    (hlen : ws.length ≤ 2 ^ 20) {x y : ℕ} (hx : x < 640) (hy : y < 480) :
    ws[640 * (479 - y) + (639 - x)]? = some (storeWords m ws (BitVec.ofNat 20 (640 * y + x))) := by
  have haddr : BitVec.ofNat 20 (640 * y + x) = captureAddr (640 * (479 - y) + (639 - x)) := by
    rw [captureAddr, show (307199 : BitVec 20) = BitVec.ofNat 20 307199 from rfl,
      ofNat_sub_ofNat (by omega) (by omega)]
    congr 1
    omega
  have hget := List.getElem?_eq_getElem (show 640 * (479 - y) + (639 - x) < ws.length by omega)
  rw [hget, haddr, storeWords_apply m hlen hget]

/-- **From the camera to the screen.** A stay in `RUN` that receives a whole frame or more is shown
in `DISPLAY`, from the second tick of `VGA_Clk` on: position `(y, x)` of the screen shows pixel
`(479 - y, 641 - x)` of the camera, and the first two columns pixel `(479 - y, 481 - x)` in all rows
but the first, each up to its top bit. -/
theorem camera_to_screen {b₀ : Board} {history stay shown : List ClockEdge} {closing : Inputs}
    {x y : ℕ} (h₀ : b₀.chip.state = .sleep) (hraster : b₀.chip.raster.InRange)
    (hrun : EntersRun F seed b₀ history) (hstay : ∀ e ∈ stay, Exposing e)
    (hpaced : Paced false (stay ++ [.camPclk closing])) (hclosing : Closes closing)
    (hframe : 307200 ≤ (words stay).length) (hlen : (words stay).length ≤ 2 ^ 20)
    (hshown : ∀ e ∈ shown, Watching e) (hticks : 2 ≤ shown.countP (·.clock = .vgaClk))
    (hx : (run (Board.edge · F seed) b₀
      (history ++ stay ++ [.camPclk closing] ++ shown)).chip.raster.hc.toNat = x)
    (hy : (run (Board.edge · F seed) b₀
      (history ++ stay ++ [.camPclk closing] ++ shown)).chip.raster.vc.toNat = y)
    (hx640 : x < 640) (hy480 : y < 480) :
    (2 ≤ x → ∃ w, (words stay)[640 * (479 - y) + (641 - x)]? = some w ∧
        ShowsWord w (run (Board.edge · F seed) b₀
          (history ++ stay ++ [.camPclk closing] ++ shown)).chip.colour) ∧
      (x < 2 → 0 < y → ∃ w, (words stay)[640 * (479 - y) + (481 - x)]? = some w ∧
        ShowsWord w (run (Board.edge · F seed) b₀
          (history ++ stay ++ [.camPclk closing] ++ shown)).chip.colour) := by
  -- the whole stay is stored when the display starts
  obtain ⟨hs, hstored⟩ := displays_of_stay h₀ hrun hstay hpaced hclosing
  have hrange : (run (Board.edge · F seed) b₀
      (history ++ stay ++ [.camPclk closing])).chip.raster.InRange := inRange_run hraster _
  rw [run_append] at hx hy ⊢
  generalize run (Board.edge · F seed) b₀ (history ++ stay ++ [.camPclk closing]) = b
    at hs hstored hrange hx hy ⊢
  -- two ticks back
  obtain ⟨k, hk⟩ : ∃ k, 0 + shown.countP (·.clock = .vgaClk) = k + 2 :=
    ⟨shown.countP (·.clock = .vgaClk) - 2, by omega⟩
  have hshowing := (showing_zero hs).run F seed hshown
  rw [hstored, hk] at hshowing
  have hcolour := hshowing.colour k rfl
  rw [hshowing.raster, Function.iterate_succ_apply', Function.iterate_succ_apply'] at hx hy
  obtain ⟨hright, hleft⟩ := Raster.address_of_next_next (hrange.iterate k) hx hy hx640
  -- the word at the address two ticks back is that pixel of the stay
  constructor
  · intro h2
    have hword := storeWords_position (run (Board.edge · F seed) b₀ history).chip.flushed hframe
      hlen (show x - 2 < 640 by omega) hy480
    rw [show 639 - (x - 2) = 641 - x by omega] at hword
    exact ⟨_, hword, hright h2 ▸ hcolour⟩
  · intro h2 hpos
    have hword := storeWords_position (run (Board.edge · F seed) b₀ history).chip.flushed hframe
      hlen (show 158 + x < 640 by omega) hy480
    rw [show 639 - (158 + x) = 481 - x by omega] at hword
    exact ⟨_, hword, hleft h2 hpos ▸ hcolour⟩

/-! ### A plain frame -/

/-- The raster rests during the stay. -/
theorem raster_stay (hs : b.chip.state = .run) (hes : ∀ e ∈ es, Exposing e) :
    (run (Board.edge · F seed) b es).chip.raster = b.chip.raster := by
  -- the raster moves in `DISPLAY` only
  induction es generalizing b with
  | nil => rfl
  | cons e es ih =>
    have hrest : ∀ e ∈ es, Exposing e := fun e he => hes e (List.mem_cons_of_mem _ he)
    have hfirst := hes e List.mem_cons_self
    rw [run_cons]
    cases e with
    | clk l => exact ih (b := b.edge F seed (.clk l)) hs hrest
    | vgaClk i =>
      have hscan : b.chip.scan i = b.chip.raster := by
        rw [scan_eq, show i.reset = false from hfirst, hs]
        rfl
      exact (ih (b := b.edge F seed (.vgaClk i)) hs hrest).trans hscan
    | camPclk i =>
      exact ih (b := b.edge F seed (.camPclk i)) (camPclk_state_of_run hs hfirst) hrest

theorem filterMap_sendBytes (bytes : List (BitVec 8)) :
    (sendBytes bytes).filterMap ClockEdge.byte = bytes := by
  induction bytes with
  | nil => rfl
  | cons x bytes ih => exact congrArg (x :: ·) ih

theorem exposing_sendBytes (bytes : List (BitVec 8)) : ∀ e ∈ sendBytes bytes, Exposing e := by
  induction bytes with
  | nil => simp [sendBytes, Exposing, inTurn]
  | cons x bytes ih =>
    intro e he
    change e ∈ .vgaClk (inTurn 0) :: .camPclk (sends false true x) :: sendBytes bytes at he
    rcases List.mem_cons.mp he with rfl | he
    · rfl
    · rcases List.mem_cons.mp he with rfl | he
      · exact ⟨rfl, rfl⟩
      · exact ih e he

theorem paced_sendBytes (bytes : List (BitVec 8)) :
    Paced seen (sendBytes bytes ++ [.camPclk closing]) := by
  induction bytes generalizing seen with
  | nil => exact ⟨rfl, trivial⟩
  | cons x bytes ih => exact ⟨rfl, ih⟩

theorem words_sendBytes_replicate (n : ℕ) (x : BitVec 8) :
    words (sendBytes (List.replicate (2 * n) x)) = List.replicate n (x ++ x) := by
  rw [words, filterMap_sendBytes]
  induction n with
  | zero => rfl
  | succ n ih => exact congrArg ((x ++ x) :: ·) ih

theorem raster_sendBytes (F : Subkey.Map → Subkey.Key → Subkey.Key) (seed : BitVec 12)
    (bytes : List (BitVec 8)) : (run (Board.edge · F seed) sleepingBoard
      (frameSync ++ sendBytes bytes ++ [.camPclk (sends true false 0)]
        ++ [.vgaClk (inTurn 0), .vgaClk (inTurn 0)])).chip.raster = ⟨2, 0⟩ := by
  have hs := (@displays_of_stay F seed (sends true false 0) sleepingBoard frameSync
    (sendBytes bytes) rfl frameSync_entersRun (exposing_sendBytes _) (paced_sendBytes _)
    ⟨rfl, rfl⟩).1
  -- the display starts at the origin of the raster
  have hrest : (run (Board.edge · F seed) sleepingBoard
      (frameSync ++ sendBytes bytes ++ [.camPclk (sends true false 0)])).chip.raster = ⟨0, 0⟩ := by
    rw [run_append, run_append]
    exact raster_stay (b := run (Board.edge · F seed) sleepingBoard frameSync) rfl
      (exposing_sendBytes _)
  have hticks : ∀ e ∈ [ClockEdge.vgaClk (inTurn 0), .vgaClk (inTurn 0)], Watching e := by
    simp [Watching, inTurn]
  rw [run_append, ((showing_zero hs).run F seed hticks).raster, hrest]
  rfl

/-- A frame of one colour, the top bit of its word low. -/
theorem camera_to_screen_plain : (run (Board.edge · (fun _ k => k) 0) sleepingBoard
    (frameSync ++ sendBytes (List.replicate (2 * 307200) 0x55) ++ [.camPclk (sends true false 0)]
      ++ [.vgaClk (inTurn 0), .vgaClk (inTurn 0)])).chip.colour = ⟨0x52, 0xaa, 0xad⟩ := by
  -- all words of the frame are the same
  have hwords := words_sendBytes_replicate 307200 0x55
  have hlength : (words (sendBytes (List.replicate (2 * 307200) 0x55))).length = 307200 := by
    rw [hwords, List.length_replicate]
  have hposition := raster_sendBytes (fun _ k => k) 0 (List.replicate (2 * 307200) 0x55)
  obtain ⟨w, hw, hcolour⟩ := (camera_to_screen rfl ⟨by decide, by decide⟩ frameSync_entersRun
    (exposing_sendBytes _) (paced_sendBytes _) ⟨rfl, rfl⟩ hlength.ge
    (hlength.le.trans (by decide)) (by simp [Watching, inTurn]) (by decide)
    -- after two ticks the raster shows the third column
    (congrArg (fun v : Raster => v.hc.toNat) hposition)
    (congrArg (fun v : Raster => v.vc.toNat) hposition) (by decide) (by decide)).1 (by decide)
  rw [hwords, List.getElem?_replicate, if_pos (by decide)] at hw
  obtain rfl := Option.some.inj hw
  exact (showsWord_iff (by decide)).mp hcolour

end Run

end Sram
end VideoEncryption
