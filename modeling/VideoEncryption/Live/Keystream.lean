import VideoEncryption.Live.ImageInput

/-!
# The keystream and the pixels

`Image_Input` clocks its `encryptor` instance with `VGA_Clk` and gates it with `encryption_trigger`,
which the capture block sets on the first byte of a pixel and clears on the second one. The
encryptor steps on every rise of the gated expression `clk && wren`, so it steps when `VGA_Clk`
rises under an open gate, and also when the gate opens under a high `VGA_Clk`.

The two clocks interleave freely but for their rate: the camera's clock is derived from `VGA_CLK`,
so `VGA_Clk` changes exactly twice between two `Cam_pclk` edges (`Spaced`). A run is observed as the
sequence of first bytes, keystream steps and second bytes, and it is `Synchronised` when that
sequence reads first byte, one step, second byte, over and over.

The gate gives that only on the runs meeting `PixelUnbroken`: the gate opens under a low `VGA_Clk`
and the very next `Cam_pclk` edge takes the second byte. A gate opened under a high `VGA_Clk` steps
at once and again on the next rise; a gap, a frame sync or a reset inside a pixel leaves the gate
open for further rises.
-/

namespace VideoEncryption
namespace Live

open Clocked

/-! ### The two clock domains -/

/-- `Image_Input` with its `VGA_Clk` divider and its `encryptor` instance. -/
structure Chip where
  image : ImageInput
  vgaClk : Bool
  encryptor : Encryptor
deriving DecidableEq, Repr

/-- What happens at one instant of a run. -/
inductive Event
  /-- A rising `Reset` edge. -/
  | reset
  /-- `VGA_Clk` changes its level. -/
  | vga
  /-- A rising `Cam_pclk` edge. -/
  | pclk (p : CamPort)
deriving DecidableEq, Repr

namespace Chip

/-- The clock of the encryptor: `VGA_Clk && encryption_trigger`. -/
def gate (c : Chip) : Bool := c.vgaClk && c.image.encryptionTrigger

/-- The event's effect on `Image_Input`, before the encryptor reacts. The capture block samples
the encryptor's outputs as they are before the edge. -/
def domain (c : Chip) : Event → Chip
  | .reset => { c with image := c.image.posedgeReset }
  | .vga => { c with vgaClk := !c.vgaClk }
  | .pclk p => { c with image := c.image.pclk p c.encryptor.out }

/-- The encryptor's gated clock rises at the event. -/
def gateRises (c : Chip) (ev : Event) : Bool := !c.gate && (c.domain ev).gate

/-- One event. -/
def event (c : Chip) (ev : Event) : Chip :=
  if c.gateRises ev then { c.domain ev with encryptor := c.encryptor.step } else c.domain ev

/-- The `Cam_pclk` edge takes the first byte of a pixel. -/
def takesFirst (c : Chip) (p : CamPort) : Bool :=
  c.image.state == .run && p.camHref && !c.image.byteNum

/-- The `Cam_pclk` edge takes the second byte of a pixel. -/
def takesSecond (c : Chip) (p : CamPort) : Bool :=
  c.image.state == .run && p.camHref && c.image.byteNum

end Chip

/-- The run changes `VGA_Clk` exactly twice between two `Cam_pclk` edges; `since` counts the changes
since the last one. -/
def Spaced : (since : Option ℕ) → List Event → Prop
  | _, [] => True
  | n, .reset :: evs => Spaced n evs
  | none, .vga :: evs => Spaced none evs
  | some n, .vga :: evs => n < 2 ∧ Spaced (some (n + 1)) evs
  | n, .pclk _ :: evs => (n = none ∨ n = some 2) ∧ Spaced (some 0) evs

/-! ### Observing a run -/

/-- What is observed of a run. -/
inductive Obs
  | firstByte
  | keystream
  | secondByte
deriving DecidableEq, Repr

/-- The byte taken at an event. -/
def observeByte (c : Chip) : Event → List Obs
  | .pclk p =>
    if c.takesFirst p then [.firstByte] else if c.takesSecond p then [.secondByte] else []
  | _ => []

/-- The observations at one event, in order: a byte is taken before the gate it opens reacts. -/
def observe (c : Chip) (ev : Event) : List Obs :=
  observeByte c ev ++ if c.gateRises ev then [.keystream] else []

/-- Where a run stands within a pixel. -/
inductive PixelPhase
  | idle
  | opened
  | stepped
deriving DecidableEq, Repr

/-- First byte, one step, second byte, and nothing else. -/
def PixelPhase.next : PixelPhase → Obs → Option PixelPhase
  | .idle, .firstByte => some .opened
  | .opened, .keystream => some .stepped
  | .stepped, .secondByte => some .idle
  | _, _ => none

/-- **Synchronisation.** The encryptor steps exactly once for every pixel, after its first byte and
before its second one, and at no other time. -/
def Synchronised (obs : List Obs) : Prop :=
  (obs.foldlM PixelPhase.next .idle).isSome

instance (obs : List Obs) : Decidable (Synchronised obs) :=
  inferInstanceAs (Decidable (_ = true))

/-- The condition a run has to meet at every event: a gate is opened under a low `VGA_Clk`, and the
`Cam_pclk` edge after it takes the pixel's second byte. -/
def PixelUnbroken (c : Chip) : Event → Prop
  | .pclk p => (c.takesFirst p = true → c.vgaClk = false) ∧
      (c.image.encryptionTrigger = true → c.takesSecond p = true)
  | _ => True

instance (c : Chip) (ev : Event) : Decidable (PixelUnbroken c ev) := by
  cases ev <;> unfold PixelUnbroken <;> infer_instance

/-- What holds of the registers in each phase of a pixel. -/
def AtPhase (since : Option ℕ) (c : Chip) : PixelPhase → Prop
  | .idle => c.image.encryptionTrigger = false ∧
      (c.image.state = .run ∨ c.image.state = .prep2 → c.image.byteNum = false)
  | .opened => c.image.encryptionTrigger = true ∧ since = some 0 ∧ c.vgaClk = false
  | .stepped => c.image.encryptionTrigger = true ∧
      (since = some 1 ∧ c.vgaClk = true ∨ since = some 2 ∧ c.vgaClk = false)

theorem event_of_not_gateRises {c : Chip} {ev : Event} (h : c.gateRises ev = false) :
    c.event ev = c.domain ev ∧ observe c ev = observeByte c ev := by
  simp [Chip.event, observe, h]

theorem gateRises_of_closed {c : Chip} (ev : Event)
    (h : (c.domain ev).image.encryptionTrigger = false) : c.gateRises ev = false := by
  simp [Chip.gateRises, Chip.gate, h]

theorem gateRises_of_low {c : Chip} (ev : Event) (h : (c.domain ev).vgaClk = false) :
    c.gateRises ev = false := by
  simp [Chip.gateRises, Chip.gate, h]

/-- An edge outside a pixel that takes no byte leaves the gate closed and no pixel half received. -/
theorem idle_domain {since : Option ℕ} {c : Chip} {p : CamPort} (h : AtPhase since c .idle)
    (hfirst : c.takesFirst p = false) : AtPhase (some 0) (c.domain (.pclk p)) .idle := by
  obtain ⟨htrig, hbyte⟩ := h
  cases hst : c.image.state with
  | sleep =>
    -- the next state is neither `PREP2` nor `RUN`
    refine ⟨by simpa [Chip.domain, ImageInput.pclk, ImageInput.capture, hst] using htrig, ?_⟩
    simp only [Chip.domain, ImageInput.pclk, hst, nextState]
    split
    · simp
    · split <;> simp
  | prep => exact ⟨by simp [Chip.domain, ImageInput.pclk, ImageInput.capture, hst],
      fun _ => by simp [Chip.domain, ImageInput.pclk, ImageInput.capture, hst]⟩
  | prep2 =>
    have hb := hbyte (Or.inr hst)
    exact ⟨by simpa [Chip.domain, ImageInput.pclk, ImageInput.capture, hst] using htrig,
      fun _ => by simpa [Chip.domain, ImageInput.pclk, ImageInput.capture, hst] using hb⟩
  | run =>
    -- between two pixels only a first byte could be taken, so `Cam_href` is low
    have hb := hbyte (Or.inl hst)
    have hh : p.camHref = false := by
      simpa [Chip.takesFirst, hst, hb] using hfirst
    exact ⟨by simpa [Chip.domain, ImageInput.pclk, ImageInput.capture, hst, hh] using htrig,
      fun _ => by simpa [Chip.domain, ImageInput.pclk, ImageInput.capture, hst, hh] using hb⟩

/-- A `Cam_pclk` edge outside a pixel opens the gate on a first byte and does nothing else. -/
theorem idle_pclk {since : Option ℕ} {c : Chip} {p : CamPort} (h : AtPhase since c .idle)
    (hc : PixelUnbroken c (.pclk p)) :
    ∃ q, (observe c (.pclk p)).foldlM PixelPhase.next .idle = some q ∧
      AtPhase (some 0) (c.event (.pclk p)) q := by
  cases hfirst : c.takesFirst p with
  | true =>
    -- the gate opens under a low clock, so the gated clock does not rise yet
    have hlow := hc.1 hfirst
    obtain ⟨hev, hobs⟩ := event_of_not_gateRises (gateRises_of_low (.pclk p) hlow)
    refine ⟨.opened, ?_, ?_⟩
    · rw [hobs, observeByte, hfirst]
      rfl
    · rw [hev]
      simp only [Chip.takesFirst, Bool.and_eq_true, beq_iff_eq, Bool.not_eq_true'] at hfirst
      obtain ⟨⟨hs, hh⟩, hb⟩ := hfirst
      refine ⟨?_, rfl, hlow⟩
      simp [Chip.domain, ImageInput.pclk, ImageInput.capture, ImageInput.takeFirst, hs, hh, hb]
  | false =>
    -- no second byte is taken where no first one was
    have hsecond : c.takesSecond p = false := by
      cases hs : c.takesSecond p
      · rfl
      · simp only [Chip.takesSecond, Bool.and_eq_true, beq_iff_eq] at hs
        exact absurd (h.2 (Or.inl hs.1.1)) (by simp [hs.2])
    have hkeep := idle_domain h hfirst
    obtain ⟨hev, hobs⟩ := event_of_not_gateRises (gateRises_of_closed (.pclk p) hkeep.1)
    refine ⟨.idle, ?_, by rw [hev]; exact hkeep⟩
    rw [hobs, observeByte, hfirst, hsecond]
    rfl

/-- The `Cam_pclk` edge after the step takes the second byte and closes the gate. -/
theorem stepped_pclk {since : Option ℕ} {c : Chip} {p : CamPort} (h : AtPhase since c .stepped)
    (hc : PixelUnbroken c (.pclk p)) :
    ∃ q, (observe c (.pclk p)).foldlM PixelPhase.next .stepped = some q ∧
      AtPhase (some 0) (c.event (.pclk p)) q := by
  have hsecond := hc.2 h.1
  -- the byte is a second one, so it is no first one
  have hfirst : c.takesFirst p = false := by
    cases hf : c.takesFirst p
    · rfl
    · simp only [Chip.takesFirst, Chip.takesSecond, Bool.and_eq_true] at hf hsecond
      exact absurd hf.2 (by simp [hsecond.2])
  have hbytes : observeByte c (.pclk p) = [.secondByte] := by
    rw [observeByte, hfirst, hsecond]
    rfl
  simp only [Chip.takesSecond, Bool.and_eq_true, beq_iff_eq] at hsecond
  obtain ⟨⟨hs, hh⟩, hb⟩ := hsecond
  have hclosed : (c.domain (.pclk p)).image.encryptionTrigger = false := by
    simp [Chip.domain, ImageInput.pclk, ImageInput.capture, ImageInput.takeSecond, hs, hh, hb]
  obtain ⟨hev, hobs⟩ := event_of_not_gateRises (gateRises_of_closed (.pclk p) hclosed)
  refine ⟨.idle, by rw [hobs, hbytes]; rfl, ?_⟩
  rw [hev]
  refine ⟨hclosed, fun _ => ?_⟩
  -- in `RUN` with the byte flag cleared
  simp [Chip.domain, ImageInput.pclk, ImageInput.capture, hs, hh, hb]

/-- A change of `VGA_Clk`: the first one after a first byte rises under the open gate. -/
theorem vga_phase {since : Option ℕ} {c : Chip} {q : PixelPhase} (h : AtPhase since c q)
    (hsince : ∀ n, since = some n → n < 2) :
    ∃ q', (observe c .vga).foldlM PixelPhase.next q = some q' ∧
      AtPhase (since.map (· + 1)) (c.event .vga) q' := by
  cases q with
  | idle =>
    -- the gate is closed
    obtain ⟨hev, hobs⟩ := event_of_not_gateRises (gateRises_of_closed .vga h.1)
    exact ⟨.idle, by rw [hobs]; rfl, by rw [hev]; exact h⟩
  | opened =>
    -- the change is a rise, and the gate is open
    obtain ⟨htrig, rfl, hlow⟩ := h
    have hrise : c.gateRises .vga = true := by
      simp [Chip.gateRises, Chip.gate, Chip.domain, htrig, hlow]
    refine ⟨.stepped, by simp [observe, observeByte, hrise, PixelPhase.next], ?_⟩
    simp [Chip.event, hrise, AtPhase, Chip.domain, htrig, hlow]
  | stepped =>
    -- the second change is the fall, and there is no third before the next `Cam_pclk` edge
    obtain ⟨htrig, ⟨rfl, hhigh⟩ | ⟨rfl, hlow⟩⟩ := h
    -- the fall leaves the gated clock low
    · obtain ⟨hev, hobs⟩ := event_of_not_gateRises
        (gateRises_of_low (c := c) .vga (by simp [Chip.domain, hhigh]))
      refine ⟨.stepped, by rw [hobs]; rfl, ?_⟩
      rw [hev]
      exact ⟨htrig, Or.inr ⟨rfl, by simp [Chip.domain, hhigh]⟩⟩
    · exact absurd (hsince 2 rfl) (by decide)

/-- A reset moves the state register alone, so the gate stays as it is. -/
theorem reset_phase {since : Option ℕ} {c : Chip} {q : PixelPhase} (h : AtPhase since c q) :
    (observe c .reset).foldlM PixelPhase.next q = some q ∧ AtPhase since (c.event .reset) q := by
  have hgate : c.gateRises .reset = false := by
    have hsame : (c.domain .reset).gate = c.gate := rfl
    rw [Chip.gateRises, hsame, Bool.not_and_self]
  obtain ⟨hev, hobs⟩ := event_of_not_gateRises hgate
  refine ⟨by rw [hobs]; rfl, ?_⟩
  rw [hev]
  cases q with
  | idle => exact ⟨h.1, fun hs => absurd hs (by simp [Chip.domain, ImageInput.posedgeReset])⟩
  | opened => exact h
  | stepped => exact h

/-- **The run lemma.** A run whose events are spaced and unbroken is accepted from the phase it
starts in. -/
theorem accepted_of_unbroken {since : Option ℕ} {c : Chip} {q : PixelPhase} {evs : List Event}
    (h : AtPhase since c q) (hsp : Spaced since evs) (hc : Along Chip.event PixelUnbroken c evs) :
    ((emitted Chip.event observe c evs).foldlM PixelPhase.next q).isSome := by
  -- induction on the run, with the phase and the changes since the last `Cam_pclk` edge
  induction evs generalizing since c q with
  | nil => rfl
  | cons ev evs ih =>
    rw [emitted_cons, List.foldlM_append]
    obtain ⟨hc, hcs⟩ := hc
    cases ev with
    | reset =>
      obtain ⟨hacc, hnext⟩ := reset_phase h
      rw [hacc]
      exact ih hnext hsp hcs
    | vga =>
      -- before the first edge of `Cam_pclk` the changes are not counted
      cases since with
      | none =>
        obtain ⟨q', hacc, hnext⟩ := vga_phase h (fun n hn => absurd hn (by simp))
        rw [hacc]
        exact ih hnext hsp hcs
      | some n =>
        obtain ⟨q', hacc, hnext⟩ := vga_phase h (fun m hm => Option.some.inj hm ▸ hsp.1)
        rw [hacc]
        exact ih hnext hsp.2 hcs
    | pclk p =>
      -- `opened` is left by the first `VGA_Clk` change, so the next edge finds `stepped`
      have hq : q ≠ .opened := by
        rintro rfl
        obtain ⟨-, rfl, -⟩ := h
        exact absurd hsp.1 (by simp)
      have htail : Spaced (some 0) evs := by
        cases since <;> exact hsp.2
      cases q with
      | opened => exact absurd rfl hq
      | idle =>
        obtain ⟨q', hacc, hnext⟩ := idle_pclk h hc
        rw [hacc]
        exact ih hnext htail hcs
      | stepped =>
        obtain ⟨q', hacc, hnext⟩ := stepped_pclk h hc
        rw [hacc]
        exact ih hnext htail hcs

/-- **Keystream synchronisation.** From a chip asleep with its gate closed, every run that spaces
the two clocks and breaks no pixel steps the encryptor exactly once for every pixel, between its two
bytes, and never otherwise. -/
theorem keystream_synchronised {c : Chip} {evs : List Event} (hs : c.image.state = .sleep)
    (hgate : c.image.encryptionTrigger = false) (hsp : Spaced none evs)
    (hc : Along Chip.event PixelUnbroken c evs) :
    Synchronised (emitted Chip.event observe c evs) :=
  accepted_of_unbroken (q := .idle) ⟨hgate, fun h => absurd h (by simp [hs])⟩ hsp hc

/-- The chip at power-up with `VGA_Clk` at the given level. -/
def chipAt (level : Bool) : Chip := ⟨powerUp, level, ⟨0, 0, 0⟩⟩

/-- `Cam_pclk` edges with `VGA_Clk` changing twice after each of them. -/
def interleave (ps : List CamPort) : List Event :=
  ps.flatMap fun p => [.pclk p, .vga, .vga]

/-- The camera's side of a frame with a single pixel: wake up, sync high, sync low, two bytes. -/
def onePixel : List CamPort :=
  [⟨false, true, false, false, 0⟩, ⟨false, false, true, false, 0⟩, ⟨false, false, false, false, 0⟩,
    ⟨false, false, false, true, 1⟩, ⟨false, false, false, true, 2⟩]

/-- A pixel whose gate opens under a low `VGA_Clk` gets its one step. -/
theorem keystream_synchronised_onePixel :
    Synchronised (emitted Chip.event observe (chipAt false) (interleave onePixel)) :=
  keystream_synchronised rfl rfl (by simp [interleave, onePixel, Spaced])
    (by simp only [interleave, onePixel, List.flatMap_cons, List.flatMap_nil, List.cons_append,
          List.nil_append, along_cons, along_nil]
        decide)

/-- The same pixel with `VGA_Clk` high at the `Cam_pclk` edges is stepped twice: once as the gate
opens and once more before the second byte. -/
theorem keystream_doubled_under_high_clock :
    Spaced none (interleave onePixel) ∧
      emitted Chip.event observe (chipAt true) (interleave onePixel)
        = [.firstByte, .keystream, .keystream, .secondByte] ∧
      ¬ Synchronised (emitted Chip.event observe (chipAt true) (interleave onePixel)) := by
  refine ⟨by simp [interleave, onePixel, Spaced], by decide, by decide⟩

end Live
end VideoEncryption
