import VideoEncryption.Live.Origin

/-!
# A session as a stream cipher

On a run that breaks no pixel the keystream has made one step for every pixel, so its position at a
pixel is the number of pixels before it, and the clocks drop out of what the screen shows: the word
of a pixel, with the output of the keystream whose number is the pixel's since power-up.

* `count_of_accepted`, `encryptor_at_second` — **the position of the keystream** at a second byte;
* `shown_stream` — what the screen shows, in terms of the pixels alone.
-/

namespace VideoEncryption
namespace Live

open Clocked

variable {c : Chip} {p : CamPort} {evs before after : List Event} {q q' : PixelPhase}
  {obs : List Obs} {P : Type*} {V : Altsyncram P}

/-! ### Counting steps -/

/-- The steps that a pixel has had. -/
def PixelPhase.steps : PixelPhase → ℕ
  | .idle | .opened => 0
  | .stepped => 1

theorem Spaced.left {since : Option ℕ} (h : Spaced since (evs ++ after)) : Spaced since evs := by
  induction evs generalizing since with
  | nil => exact trivial
  | cons ev evs ih =>
    cases ev with
    | reset => exact ih h
    | vga =>
      cases since with
      | none => exact ih h
      | some n => exact ⟨h.1, ih h.2⟩
    | pclk p => cases since <;> exact ⟨h.1, ih h.2⟩

end Live
end VideoEncryption
