import VideoEncryption.Live.Capture
import VideoEncryption.Sram.Subkeys

/-!
# The captured frame in the SRAM

The capture block runs on `Cam_pclk` and may not drive the SRAM. It leaves each word in the
`LOCAL_SRAM` registers, which the block on `VGA_Clk` copies to the pins; the SRAM stores what the
pins held through a tick of `VGA_Clk`. So two stores can be under way, and `System.flushed` is what
the SRAM holds once they are done.

`Cam_xclk` is `VGA_CLK`, and the camera derives `Cam_pclk` from it, no faster: there is an edge of
`VGA_Clk` between two edges of `Cam_pclk` (`Paced`), in whatever phase.

* `Capturing` — the invariant of a stay in `RUN`: `flushed` holds the words received so far;
* `captures_words` — **word `k` of a stay is stored at address `307199 - k`**, and nothing else is
  stored.
-/

namespace VideoEncryption
namespace Sram

open Clocked
open Live (pairUp)

/-! ### The words of a stay -/

/-- The byte that an edge brings. -/
def ClockEdge.byte : ClockEdge → Option (BitVec 8)
  | .clk _ | .vgaClk _ => none
  | .camPclk i => if i.camHref then some i.camData else none

/-- Word `k` is made of bytes `2k` and `2k + 1`, the first one high. -/
def words (es : List ClockEdge) : List (BitVec 16) :=
  (pairUp (es.filterMap ClockEdge.byte)).map fun q => q.1 ++ q.2

/-- Take one edge into the words received so far and the byte still waiting for its second. -/
def assemble (a : List (BitVec 16) × Option (BitVec 8)) (e : ClockEdge) :
    List (BitVec 16) × Option (BitVec 8) :=
  match e.byte, a.2 with
  | none, _ => a
  | some x, none => (a.1, some x)
  | some y, some x => (a.1 ++ [x ++ y], none)

theorem assemble_foldl (es : List ClockEdge) (ws : List (BitVec 16)) (half : Option (BitVec 8)) :
    (es.foldl assemble (ws, half)).1
      = ws ++ (pairUp (half.toList ++ es.filterMap ClockEdge.byte)).map fun q => q.1 ++ q.2 := by
  -- edge by edge, with the byte that waits as part of the list of bytes
  induction es generalizing ws half with
  | nil => cases half <;> simp [pairUp]
  | cons e es ih =>
    rw [List.foldl_cons]
    cases hbyte : e.byte with
    | none => rw [List.filterMap_cons_none hbyte, show assemble (ws, half) e = (ws, half) by
        simp [assemble, hbyte], ih]
    | some y =>
      rw [List.filterMap_cons_some hbyte]
      -- a byte waits for its second one, or completes a word
      cases half with
      | none =>
        rw [show assemble (ws, none) e = (ws, some y) by simp [assemble, hbyte], ih]
        rfl
      | some x =>
        rw [show assemble (ws, some x) e = (ws ++ [x ++ y], none) by simp [assemble, hbyte], ih]
        simp [pairUp]

/-! ### The stores -/

/-- The address of word `k`. -/
def captureAddr (k : ℕ) : BitVec 20 := 307199 - BitVec.ofNat 20 k

theorem captureAddr_inj {j k : ℕ} (hj : j < 2 ^ 20) (hk : k < 2 ^ 20) :
    captureAddr j = captureAddr k ↔ j = k := by
  rw [captureAddr, captureAddr, BitVec.sub_right_inj, ofNat_inj hj hk]

/-- Store a list of words, each at its address. -/
def storeWords (m : Memory) (ws : List (BitVec 16)) : Memory :=
  ws.zipIdx.foldl (fun m p => Function.update m (captureAddr p.2) p.1) m

theorem storeWords_concat (m : Memory) (ws : List (BitVec 16)) (w : BitVec 16) :
    storeWords m (ws ++ [w])
      = Function.update (storeWords m ws) (captureAddr ws.length) w := by
  unfold storeWords
  rw [List.zipIdx_append, List.foldl_append, List.zipIdx_singleton, Nat.zero_add, List.foldl_cons,
    List.foldl_nil]

theorem storeWords_apply (m : Memory) {ws : List (BitVec 16)} (hlen : ws.length ≤ 2 ^ 20) {k : ℕ}
    {w : BitVec 16} (hk : ws[k]? = some w) : storeWords m ws (captureAddr k) = w := by
  -- over the last word, which its own address alone holds
  induction ws using List.reverseRecOn with
  | nil => exact absurd hk (by simp)
  | append_singleton ws v ih =>
    rw [List.length_append, List.length_singleton] at hlen
    have hklt : k < ws.length + 1 := by
      have hlt := (List.getElem?_eq_some_iff.mp hk).1
      rwa [List.length_append, List.length_singleton] at hlt
    -- a word before the last is at another address
    rw [storeWords_concat]
    rcases Nat.lt_or_eq_of_le (Nat.le_of_lt_succ hklt) with hlt | rfl
    · rw [Function.update_of_ne]
      · rw [List.getElem?_append_left hlt] at hk
        exact ih (by omega) hk
      · rw [Ne, captureAddr_inj (by omega) (by omega)]
        omega
    -- the last word is there
    · rw [List.getElem?_concat_length] at hk
      rw [Function.update_self, Option.some.inj hk]

theorem storeWords_of_ne (m : Memory) (ws : List (BitVec 16)) {a : BitVec 20}
    (ha : ∀ k < ws.length, a ≠ captureAddr k) : storeWords m ws a = m a := by
  induction ws using List.reverseRecOn with
  | nil => rfl
  | append_singleton ws v ih =>
    rw [List.length_append, List.length_singleton] at ha
    rw [storeWords_concat, Function.update_of_ne (ha _ (Nat.lt_succ_self _))]
    exact ih fun k hk => ha k (by omega)

/-! ### The invariant of a stay in `RUN` -/

/-- What the SRAM holds once the stores under way are done. -/
def System.flushed (s : System) : Memory := s.camera.pins.store s.stored

/-- The chip after the words `ws` and possibly one more byte; `seen` tells whether `VGA_Clk` has
ticked since the last edge of `Cam_pclk`. -/
structure Capturing (m : Memory) (ws : List (BitVec 16)) (half : Option (BitVec 8)) (seen : Bool)
    (s : System) : Prop where
  byteNum : s.camera.byteNum = half.isSome
  temp : ∀ x, half = some x → s.camera.temp = x
  counter : s.camera.counter = BitVec.ofNat 21 ws.length
  flushed : s.flushed = storeWords m ws
  settled : seen = true → s.regs.pins = s.camera.pins

section Tick

variable {m : Memory} {ws : List (BitVec 16)} {half : Option (BitVec 8)} {seen : Bool} {s : System}
  {i : Inputs}

/-- `VGA_Clk` moves the stores under way one register on. -/
theorem Capturing.vgaClk (h : Capturing m ws half seen s) (hs : s.state = .run) (r : Raster) :
    Capturing m ws half true { s with regs := s.dataPath i, raster := r, mem := s.stored } := by
  have hregs : s.dataPath i = { s.regs with pins := s.camera.pins } := by rw [System.dataPath, hs]
  refine ⟨h.byteNum, h.temp, h.counter, ?_, fun _ => by rw [hregs]⟩
  rw [hregs, ← h.flushed]
  exact s.camera.pins.store_store s.stored

/-- The pins that the next edge of `Cam_pclk` leaves are those of the next store. -/
theorem Capturing.flushed_load (h : Capturing m ws half true s) (st : Fsm) (c : Camera) :
    ({ s with state := st, camera := c } : System).flushed = c.pins.store (storeWords m ws) := by
  have hflushed : s.stored = storeWords m ws := by
    rw [← h.flushed, System.flushed, ← h.settled rfl]
    exact (s.regs.pins.store_store s.mem).symm
  exact congrArg c.pins.store hflushed

/-- **An edge of `Cam_pclk`** takes a byte, or none. -/
theorem Capturing.camPclk (h : Capturing m ws half true s) (hs : s.state = .run) (st : Fsm) :
    Capturing m (assemble (ws, half) (.camPclk i)).1 (assemble (ws, half) (.camPclk i)).2 false
      { s with state := st, camera := s.capture i } := by
  -- by `HREF` and by whether a byte waits
  cases hh : i.camHref with
  | false =>
    have hcamera : s.capture i = { s.camera with pins := .off } := by
      simp [System.capture, hs, hh]
    have hassemble : assemble (ws, half) (.camPclk i) = (ws, half) := by
      simp [assemble, ClockEdge.byte, hh]
    rw [hcamera, hassemble]
    exact ⟨h.byteNum, h.temp, h.counter, h.flushed_load _ _, fun hf => absurd hf (by decide)⟩
  -- a first byte waits in `temp`
  | true =>
    cases half with
    | none =>
      have hcamera : s.capture i
          = { s.camera with pins := .off, temp := i.camData, byteNum := true } := by
        simp [System.capture, hs, hh, h.byteNum]
      have hassemble : assemble (ws, none) (.camPclk i) = (ws, some i.camData) := by
        simp [assemble, ClockEdge.byte, hh]
      rw [hcamera, hassemble]
      exact ⟨rfl, fun x hx => Option.some.inj hx, h.counter, h.flushed_load _ _,
        fun hf => absurd hf (by decide)⟩
    -- a second one registers a write at the counter's address
    | some x =>
      have hcamera : s.capture i
          = { s.camera with
              pins := .write (captureAddr ws.length) (x ++ i.camData)
              counter := s.camera.counter + 1
              byteNum := false } := by
        simp [System.capture, hs, hh, h.byteNum, h.temp x rfl, h.counter, captureAddr]
      have hassemble : assemble (ws, some x) (.camPclk i) = (ws ++ [x ++ i.camData], none) := by
        simp [assemble, ClockEdge.byte, hh]
      rw [hcamera, hassemble]
      refine ⟨rfl, fun _ hx => absurd hx (by simp), ?_, ?_, fun hf => absurd hf (by decide)⟩
      · rw [h.counter, ofNat_succ, List.length_append, List.length_singleton]
      · rw [h.flushed_load, storeWords_concat, Pins.store_write]

end Tick

/-! ### Whole stays -/

/-- `VGA_Clk` ticks between two edges of `Cam_pclk`; `seen` tells whether it has ticked since the
last one. -/
def Paced : (seen : Bool) → List ClockEdge → Prop
  | _, [] => True
  | seen, .clk _ :: es => Paced seen es
  | _, .vgaClk _ :: es => Paced true es
  | seen, .camPclk _ :: es => seen = true ∧ Paced false es

/-- No reset, and no frame sync. -/
def Exposing : ClockEdge → Prop
  | .clk _ => True
  | .vgaClk i => i.reset = false
  | .camPclk i => i.reset = false ∧ i.camVsync = false

section Run

variable {F : Subkey.Map → Subkey.Key → Subkey.Key} {seed : BitVec 12} {b : Board} {m : Memory}
  {ws : List (BitVec 16)} {half : Option (BitVec 8)} {seen : Bool} {es : List ClockEdge}
  {i closing : Inputs}

/-- While the sync is low the chip stays in `RUN`. -/
theorem camPclk_state_of_run (hs : b.chip.state = .run) (hi : Exposing (.camPclk i)) :
    (b.edge F seed (.camPclk i)).chip.state = .run := by
  rw [camPclk_state_of_unreset hi.1, System.nextState, hs, hi.2]
  rfl

variable (F seed) in
/-- **The invariant over a whole stay**, up to the edge that closes it. -/
theorem Capturing.run (h : Capturing m ws half seen b.chip) (hs : b.chip.state = .run)
    (hexposing : ∀ e ∈ es, Exposing e) (hpaced : Paced seen (es ++ [.camPclk closing])) :
    (run (Board.edge · F seed) b es).chip.state = .run ∧
      Capturing m (es.foldl assemble (ws, half)).1 (es.foldl assemble (ws, half)).2 true
        (run (Board.edge · F seed) b es).chip := by
  -- edge by edge, each kind with its own step lemma
  induction es generalizing b ws half seen with
  -- the stay ends on a tick of `VGA_Clk` or the pacing fails
  | nil =>
    obtain rfl : seen = true := hpaced.1
    exact ⟨hs, h⟩
  | cons e es ih =>
    have hrest : ∀ e ∈ es, Exposing e := fun e he => hexposing e (List.mem_cons_of_mem _ he)
    have hfirst := hexposing e List.mem_cons_self
    rw [run_cons, List.foldl_cons]
    cases e with
    | clk l => exact ih (b := b.edge F seed (.clk l)) h hs hrest hpaced
    | vgaClk i => exact ih (b := b.edge F seed (.vgaClk i)) (h.vgaClk hs _) hs hrest hpaced
    | camPclk i =>
      obtain ⟨rfl, hpaced⟩ := hpaced
      exact ih (b := b.edge F seed (.camPclk i)) (h.camPclk hs _) (camPclk_state_of_run hs hfirst)
        hrest hpaced

/-! ### Entering and leaving `RUN` -/

/-- The edges `history` bring the board from `b₀` into `RUN`, with the last one of them. -/
def EntersRun (F : Subkey.Map → Subkey.Key → Subkey.Key) (seed : BitVec 12) (b₀ : Board)
    (history : List ClockEdge) : Prop :=
  ∃ before last, history = before ++ [last] ∧
    (run (Board.edge · F seed) b₀ before).chip.state ≠ .run ∧
    (run (Board.edge · F seed) b₀ history).chip.state = .run

/-- The capture block as `PREP` leaves it. -/
structure Cleared (s : System) : Prop where
  byteNum : s.camera.byteNum = false
  counter : s.camera.counter = 0

/-- `PREP2` is entered from `PREP` alone, and `RUN` from `PREP2`. -/
theorem of_nextState (s : System) (i : Inputs) :
    (s.nextState i = .prep2 → s.state = .prep ∨ s.state = .prep2) ∧
      (s.nextState i = .run → s.state = .prep2 ∨ s.state = .run) := by
  cases hs : s.state <;> simp only [System.nextState, hs] <;> try split_ifs
  all_goals simp

/-- `PREP2` is only ever seen with the counters that `PREP` has cleared. -/
theorem cleared_edge (h : b.chip.state = .prep2 → Cleared b.chip) (e : ClockEdge) :
    (b.edge F seed e).chip.state = .prep2 → Cleared (b.edge F seed e).chip := by
  -- only `Cam_pclk` moves the state
  intro hs
  cases e with
  | clk l => exact h hs
  | vgaClk i => exact ⟨(h hs).byteNum, (h hs).counter⟩
  | camPclk i =>
    rw [camPclk_state] at hs
    split_ifs at hs
    have hcamera : (b.edge F seed (.camPclk i)).chip.camera = b.chip.capture i := rfl
    -- `PREP` clears the block, `PREP2` leaves it
    rcases (of_nextState b.chip i).1 hs with hst | hst
    · exact ⟨by simp [hcamera, System.capture, hst], by simp [hcamera, System.capture, hst]⟩
    · obtain ⟨hbyte, hcounter⟩ := h hst
      exact ⟨by simp [hcamera, System.capture, hst, hbyte],
        by simp [hcamera, System.capture, hst, hcounter]⟩

/-- **Entry.** Whatever brought the board into `RUN`, the capture block is cleared, and what it left
to store before is all there is to store. -/
theorem EntersRun.capturing {b₀ : Board} {history : List ClockEdge} (h₀ : b₀.chip.state = .sleep)
    (h : EntersRun F seed b₀ history) :
    Capturing (run (Board.edge · F seed) b₀ history).chip.flushed [] none false
      (run (Board.edge · F seed) b₀ history).chip := by
  obtain ⟨before, last, rfl, hbefore, hafter⟩ := h
  -- the counters are clear whenever the state is `PREP2`
  have hinv : (run (Board.edge · F seed) b₀ before).chip.state = .prep2 →
      Cleared (run (Board.edge · F seed) b₀ before).chip :=
    run_invariant (c := fun _ _ => True)
      (I := fun b : Board => b.chip.state = .prep2 → Cleared b.chip)
      (fun b e hb _ => cleared_edge hb e) (fun h => absurd (h₀ ▸ h) (by simp)) (along_true _ _)
  rw [run_append, run_cons, run_nil] at hafter ⊢
  generalize run (Board.edge · F seed) b₀ before = b at hbefore hinv hafter ⊢
  -- the edge that enters `RUN` is one of `Cam_pclk`, from `PREP2`
  have hcleared : Cleared (b.edge F seed last).chip := by
    cases last with
    | clk l => exact absurd hafter hbefore
    | vgaClk i => exact absurd hafter hbefore
    | camPclk i =>
      rw [camPclk_state] at hafter
      split_ifs at hafter
      have hcamera : (b.edge F seed (.camPclk i)).chip.camera = b.chip.capture i := rfl
      rcases (of_nextState b.chip i).2 hafter with hst | hst
      · obtain ⟨hbyte, hcounter⟩ := hinv hst
        exact ⟨by simp [hcamera, System.capture, hst, hbyte],
          by simp [hcamera, System.capture, hst, hcounter]⟩
      · exact absurd hst hbefore
  exact ⟨hcleared.byteNum, fun _ hx => absurd hx (by simp), hcleared.counter, rfl,
    fun hf => absurd hf (by decide)⟩

/-- The frame sync. -/
structure Closes (i : Inputs) : Prop where
  reset : i.reset = false
  vsync : i.camVsync = true

/-- **A whole stay.** The edge that closes it leaves the last word to one more tick of
`VGA_Clk`. -/
theorem displays_of_stay {b₀ : Board} {history stay : List ClockEdge} (h₀ : b₀.chip.state = .sleep)
    (hrun : EntersRun F seed b₀ history) (hstay : ∀ e ∈ stay, Exposing e)
    (hpaced : Paced false (stay ++ [.camPclk closing])) (hclosing : Closes closing) :
    (run (Board.edge · F seed) b₀ (history ++ stay ++ [.camPclk closing])).chip.state = .display ∧
      (run (Board.edge · F seed) b₀ (history ++ stay ++ [.camPclk closing])).chip.stored
        = storeWords (run (Board.edge · F seed) b₀ history).chip.flushed (words stay) := by
  have hwords : (stay.foldl assemble ([], none)).1 = words stay := assemble_foldl stay [] none
  have hentry := hrun.capturing h₀
  obtain ⟨-, -, -, -, hs⟩ := hrun
  obtain ⟨hs, hcapturing⟩ := hentry.run F seed hs hstay hpaced
  rw [hwords] at hcapturing
  -- the capture block has all of the stay, and the clocks before it are forgotten
  rw [run_append, run_append, run_cons, run_nil]
  generalize run (Board.edge · F seed) (run (Board.edge · F seed) b₀ history) stay = b
    at hs hcapturing ⊢
  constructor
  · change (if closing.reset then Fsm.sleep else b.chip.nextState closing) = .display
    rw [hclosing.reset, System.nextState, hs, hclosing.vsync]
    rfl
  · -- what the capture block leaves at this edge is not copied any more
    exact hcapturing.flushed_load .display { b.chip.camera with pins := .off }

/-- **The frame in the SRAM.** Word `k` of a stay in `RUN`, of any length up to the number of
addresses, is stored at address `307199 - k` one tick of `VGA_Clk` after the frame sync, however the
two clocks interleave; the other addresses hold what they held when `RUN` was entered, with the
stores under way then. -/
theorem captures_words {b₀ : Board} {history stay : List ClockEdge} {last : Inputs}
    (h₀ : b₀.chip.state = .sleep) (hrun : EntersRun F seed b₀ history)
    (hstay : ∀ e ∈ stay, Exposing e) (hpaced : Paced false (stay ++ [.camPclk closing]))
    (hclosing : Closes closing) (hlen : (words stay).length ≤ 2 ^ 20) :
    (∀ k w, (words stay)[k]? = some w →
        (run (Board.edge · F seed) b₀
          (history ++ stay ++ [.camPclk closing] ++ [.vgaClk last])).chip.mem (captureAddr k) = w) ∧
      ∀ a, (∀ k < (words stay).length, a ≠ captureAddr k) →
        (run (Board.edge · F seed) b₀
          (history ++ stay ++ [.camPclk closing] ++ [.vgaClk last])).chip.mem a
            = (run (Board.edge · F seed) b₀ history).chip.flushed a := by
  obtain ⟨-, hstored⟩ := displays_of_stay h₀ hrun hstay hpaced hclosing
  have hmem : (run (Board.edge · F seed) b₀
      (history ++ stay ++ [.camPclk closing] ++ [.vgaClk last])).chip.mem
        = storeWords (run (Board.edge · F seed) b₀ history).chip.flushed (words stay) := by
    -- one more tick of `VGA_Clk` performs the store under way
    rw [run_append, ← hstored]
    rfl
  rw [hmem]
  exact ⟨fun k w hk => storeWords_apply _ hlen hk, fun a ha => storeWords_of_ne _ _ ha⟩

/-- A board after `Reset`. -/
def sleepingBoard : Board where
  chip := entering .sleep fun _ => 0
  module1 := generatorReset
  held := fun _ => rfl

/-- What the camera sends, with `Run` held. -/
def sends (vsync href : Bool) (data : BitVec 8) : Inputs :=
  { inTurn 0 with camVsync := vsync, camHref := href, camData := data }

/-- `Run`, and a frame sync. -/
def frameSync : List ClockEdge :=
  [.camPclk (sends false false 0), .camPclk (sends true false 0), .camPclk (sends false false 0)]

theorem frameSync_entersRun : EntersRun F seed sleepingBoard frameSync :=
  ⟨frameSync.take 2, .camPclk (sends false false 0), rfl, fun h => Fsm.noConfusion h, rfl⟩

/-- The bytes, each after a tick of `VGA_Clk`, and one tick more. -/
def sendBytes (bytes : List (BitVec 8)) : List ClockEdge :=
  bytes.flatMap (fun x => [.vgaClk (inTurn 0), .camPclk (sends false true x)])
    ++ [.vgaClk (inTurn 0)]

/-- Three bytes, a gap, a fourth byte, and the sync high with the next one. -/
def gappedStay : List ClockEdge :=
  sendBytes [0xab, 0xcd, 0x12] ++ .camPclk (sends false false 0x77) :: sendBytes [0x34]

/-- The board one tick of `VGA_Clk` after the sync that ends `gappedStay`. -/
def gappedBoard : Board :=
  run (Board.edge · (fun _ k => k) 0) sleepingBoard
    (frameSync ++ gappedStay ++ [.camPclk (sends true true 0xff)] ++ [.vgaClk (inTurn 0)])

/-- Two words, and an address that keeps what it held. -/
theorem captures_words_gapped :
    gappedBoard.chip.mem (captureAddr 0) = 0xabcd ∧
      gappedBoard.chip.mem (captureAddr 1) = 0x1234 ∧
      gappedBoard.chip.mem (captureAddr 2) = 0 := by
  have hrun : EntersRun (fun _ k => k) 0 sleepingBoard frameSync := frameSync_entersRun
  have hstay : ∀ e ∈ gappedStay, Exposing e := by
    simp [gappedStay, sendBytes, Exposing, sends, inTurn]
  have hpaced : Paced false (gappedStay ++ [.camPclk (sends true true 0xff)]) := by
    simp [gappedStay, sendBytes, Paced]
  have hclosing : Closes (sends true true 0xff) := ⟨rfl, rfl⟩
  have hlen : (words gappedStay).length ≤ 2 ^ 20 := by decide
  -- no address from the third on is one that the stay stores at
  have hfree : ∀ k < (words gappedStay).length, captureAddr 2 ≠ captureAddr k := by decide
  exact ⟨(captures_words rfl hrun hstay hpaced hclosing hlen).1 0 0xabcd (by decide),
    (captures_words rfl hrun hstay hpaced hclosing hlen).1 1 0x1234 (by decide),
    (captures_words rfl hrun hstay hpaced hclosing hlen).2 (captureAddr 2) hfree⟩

end Run

end Sram
end VideoEncryption
