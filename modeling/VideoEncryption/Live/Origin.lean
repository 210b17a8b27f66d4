import VideoEncryption.Live.Screen

/-!
# Where a word on the screen comes from

Every word of the relay has an `Origin`: the banks held it at power-up, or an edge of the run took
the second byte of a pixel and kept it there. A word that the relay has lost was written at the time
(`WrittenBack`).

* `Originates.event` — every edge keeps that;
* `shown_origin` — so every word shown comes from a pixel of that place, under the mask of the
  moment, or a write to that place has disturbed it.
-/

namespace VideoEncryption
namespace Live

open Clocked

/-! ### Pixels, ticks and writes of a run -/

variable {P : Type*}

/-- The number of the pixel that the next second byte completes. -/
def ImageInput.pixelNumber (s : ImageInput) : ℕ :=
  640 * s.verticalCounter.toNat + s.horizontalCounter.toNat

/-- `VGA_Clk` rises at the event. -/
def Device.rises (d : Device P) : Device.Event → Bool
  | .clk _ => !d.chip.vgaClk
  | _ => false

section Origin

variable (V : Altsyncram P) (d₀ : Device P) (evs : List Device.Event)

/-- The ticks of `VGA_Clk` in a run. -/
def Device.vgaTicks : ℕ :=
  (emitted (Device.event V) (fun d ev => if d.rises ev then [()] else []) d₀ evs).length

/-- The word `w` at address `k` is one of the first contents of the banks, or what an edge of the
run, taking the second byte of a pixel, kept the pixel as. -/
def Origin (k : ℕ) (w : BitVec 16) : Prop :=
  w = (d₀.vram V).flat k ∨ ∃ before p after, evs = before ++ .pclk p :: after ∧
    (run (Device.event V) d₀ before).chip.takesSecond p = true ∧
    (k, w) = keptAs (run (Device.event V) d₀ before).chip.image.pixelNumber
      ((run (Device.event V) d₀ before).chip.image.temp ++ p.camData)
      (run (Device.event V) d₀ before).chip.encryptor.out.mask

/-- Address `k` has been written, with `n` ticks of `VGA_Clk` since. -/
def WrittenBack (n k : ℕ) : Prop :=
  ∃ before p after w, evs = before ++ .pclk p :: after ∧
    flatStore k w ∈ stores (run (Device.event V) d₀ before).chip.image ∧
    (run (Device.event V) d₀ (before ++ [.pclk p])).vgaTicks V after = n

/-- All words of the relay, and the one it is about to write, have an origin; those that it has
lost were written at the time. -/
structure Originates (a : Relay) : Prop where
  writing : ∀ k w, a.recorder.writing = some (k, w) → Origin V d₀ evs k w
  kept : ∀ k < 3 * 65536, Origin V d₀ evs k (a.recorder.kept k)
  asked : ∀ k < 3 * 65536, ∀ w, a.asked k = some w → Origin V d₀ evs k w
  seen : ∀ k < 3 * 65536, ∀ w, a.seen k = some w → Origin V d₀ evs k w
  askedLost : 1 ≤ a.ticks → ∀ k, a.asked k = none → WrittenBack V d₀ evs 0 k
  seenLost : 2 ≤ a.ticks → ∀ k, a.seen k = none → WrittenBack V d₀ evs 1 k

end Origin

variable {V : Altsyncram P} {d₀ d : Device P} {a : Relay} {v : Vram} {evs : List Device.Event}
  {k n : ℕ}

theorem Origin.append {w : BitVec 16} (h : Origin V d₀ evs k w) (ev : Device.Event) :
    Origin V d₀ (evs ++ [ev]) k w := by
  refine h.imp id ?_
  rintro ⟨before, p, after, rfl, hrest⟩
  exact ⟨before, p, after ++ [ev], by simp, hrest⟩

/-- A further event is a tick more, or none. -/
theorem WrittenBack.append (h : WrittenBack V d₀ evs n k) (ev : Device.Event) :
    WrittenBack V d₀ (evs ++ [ev])
      (n + if (run (Device.event V) d₀ evs).rises ev then 1 else 0) k := by
  obtain ⟨before, p, after, w, rfl, hstore, rfl⟩ := h
  refine ⟨before, p, after ++ [ev], w, by simp, hstore, ?_⟩
  have hlast : run (Device.event V) (run (Device.event V) d₀ (before ++ [.pclk p])) after
      = run (Device.event V) d₀ (before ++ .pclk p :: after) := by
    rw [← run_append, List.append_assoc]
    rfl
  rw [Device.vgaTicks, emitted_append, List.length_append, hlast]
  congr 1
  simp only [emitted_cons, emitted_nil, List.append_nil]
  split_ifs <;> rfl

theorem Records.pixelNumber {s : ImageInput} {r : Recorder} (h : Records s v r) :
    s.pixelNumber = r.received := by
  have hreceived := h.received
  unfold countedPixels at hreceived
  rw [ImageInput.pixelNumber, h.horizontal, h.vertical, BitVec.toNat_ofNat, BitVec.toNat_ofNat]
  omega

/-- An event that is no tick and writes nothing. -/
theorem Originates.append (h : Originates V d₀ evs a) {ev : Device.Event}
    (hev : (run (Device.event V) d₀ evs).rises ev = false) : Originates V d₀ (evs ++ [ev]) a where
  writing k w hw := (h.writing k w hw).append ev
  kept k hk := (h.kept k hk).append ev
  asked k hk w hw := (h.asked k hk w hw).append ev
  seen k hk w hw := (h.seen k hk w hw).append ev
  askedLost h1 k hk := by
    have hback := (h.askedLost h1 k hk).append ev
    rwa [hev] at hback
  seenLost h2 k hk := by
    have hback := (h.seenLost h2 k hk).append ev
    rwa [hev] at hback

theorem Originates.written (h : Originates V d₀ evs a) (hk : k < 3 * 65536) :
    Origin V d₀ evs k (a.recorder.written k) := by
  unfold Recorder.written
  cases hw : a.recorder.writing with
  | none => exact h.kept k hk
  | some x =>
    change Origin V d₀ evs k (Function.update a.recorder.kept x.1 x.2 k)
    rw [Function.update_apply]
    split_ifs with hx
    · exact hx ▸ h.writing x.1 x.2 hw
    · exact h.kept k hk

/-- A write that an edge registers is that of a pixel whose second byte it takes. -/
theorem Recorder.take_writing {r : Recorder} {p : CamPort} {mask : BitVec 16} {x : ℕ × BitVec 16}
    (h : (r.take p mask).writing = some x) :
    r.writing = some x ∨ ∃ u, r.state = .run ∧ p.camHref = true ∧ r.half = some u ∧
      x = keptAs r.received (u ++ p.camData) mask := by
  unfold Recorder.take at h
  cases hst : r.state with
  | sleep | prep2 =>
    rw [hst] at h
    exact .inl h
  -- asleep nothing is registered, and what was stays
  | prep =>
    rw [hst] at h
    -- `PREP` drops what was registered
    exact nomatch h
  | run =>
    rw [hst] at h
    cases hhref : p.camHref with
    | false => simp [hhref] at h
    | true =>
      cases hhalf : r.half with
      | none => simp [hhref, hhalf] at h
      -- the second byte is the origin
      | some u =>
        simp only [hhref, hhalf, if_true, Option.some.injEq] at h
        exact .inr ⟨u, rfl, rfl, rfl, h.symm⟩

/-- What an edge registers has its origin in this edge, and what it makes unknown it writes. -/
theorem Originates.pclk (h : Originates V d₀ evs a)
    (hrel : Relays V (run (Device.event V) d₀ evs) a) (p : CamPort) :
    Originates V d₀ (evs ++ [.pclk p]) (a.domain (.pclk p)) := by
  have hsame : Originates V d₀ (evs ++ [.pclk p]) a := h.append rfl
  -- the last two clauses change only where the edge writes
  obtain ⟨-, hkept, hasked, hseen, hlost, hlost'⟩ := hsame
  refine ⟨fun k w hw => ?_, fun k hk => (h.written hk).append _, fun k hk w hw => ?_, hseen,
    fun h1 k hk => ?_, hlost'⟩
  · rcases Recorder.take_writing hw with hold | ⟨u, hst, hhref, hhalf, hx⟩
    -- a write registered before keeps its origin, a new one has it here
    · exact (h.writing k w hold).append _
    · refine .inr ⟨evs, p, [], rfl, ?_, ?_⟩
      · simp [Chip.takesSecond, hrel.records.state, hst, hhref, hrel.records.byteNum, hhalf]
      · rw [hrel.records.pixelNumber, hrel.records.temp u hhalf, hrel.keystream]
        exact hx
  · change a.askedAfter k = some w at hw
    unfold Relay.askedAfter at hw
    cases hwr : a.recorder.writing with
    -- nothing is written, so what was asked for stands
    | none => exact hasked k hk w (by rwa [hwr] at hw)
    | some y =>
      rw [hwr] at hw
      change Function.update a.asked y.1 none k = some w at hw
      rw [Function.update_apply] at hw
      split_ifs at hw
      exact hasked k hk w hw
  · change a.askedAfter k = none at hk
    unfold Relay.askedAfter at hk
    cases hwr : a.recorder.writing with
    | none => exact hlost h1 k (by rwa [hwr] at hk)
    | some y =>
      rw [hwr] at hk
      change Function.update a.asked y.1 none k = none at hk
      rw [Function.update_apply] at hk
      split_ifs at hk with hy
      · -- the store that the edge performs
        refine ⟨evs, p, [], y.2, rfl, ?_, rfl⟩
        rw [hrel.records.writing, hwr, hy]
        exact List.mem_singleton_self _
      · exact hlost h1 k hk

theorem Originates.event (h : Originates V d₀ evs a)
    (hrel : Relays V (run (Device.event V) d₀ evs) a) (ev : Device.Event) :
    Originates V d₀ (evs ++ [ev]) (a.event ev) := by
  have hdomain : Originates V d₀ (evs ++ [ev]) (a.domain ev) := by
    cases ev with
    | reset =>
      have hsame : Originates V d₀ (evs ++ [.reset]) a := h.append rfl
      obtain ⟨hwriting, hkept, hasked, hseen, -, -⟩ := hsame
      -- Reset sets the ticks to zero, where nothing is known
      exact ⟨hwriting, hkept, hasked, hseen, fun h1 => absurd h1 (by simp [Relay.domain]),
        fun h2 => absurd h2 (by simp [Relay.domain])⟩
    | pclk p => exact h.pclk hrel p
    | clk reset =>
      have hrises : (run (Device.event V) d₀ evs).rises (.clk reset) = !a.level := by
        rw [Device.rises, hrel.level]
      unfold Relay.domain
      dsimp only
      cases hlevel : a.level with
      | true =>
        rw [hlevel] at hrises
        -- `VGA_Clk` falls
        obtain ⟨hwriting, hkept, hasked, hseen, hlost, hlost'⟩ := h.append hrises
        exact ⟨hwriting, hkept, hasked, hseen, hlost, hlost'⟩
      | false =>
        -- a tick: what was asked for is seen, and the words kept are asked for
        refine ⟨fun k w hw => (h.writing k w hw).append _, fun k hk => (h.kept k hk).append _,
          fun k hk w hw => ?_, fun k hk w hw => (h.asked k hk w hw).append _,
          fun _ k hk => absurd hk (Option.some_ne_none _), fun h2 k hk => ?_⟩
        · rw [← Option.some.inj hw]
          exact (h.kept k hk).append _
        · have h1 : 1 ≤ a.ticks := by
            change 2 ≤ (if reset = true then 0 else a.ticks + 1) at h2
            split_ifs at h2 <;> omega
          have hback := (h.askedLost h1 k hk).append (.clk reset)
          rwa [hrises, hlevel] at hback
  -- the encryptor's step touches none of the five
  unfold Relay.event
  split_ifs
  · obtain ⟨hwriting, hkept, hasked, hseen, hlost, hlost'⟩ := hdomain
    exact ⟨hwriting, hkept, hasked, hseen, hlost, hlost'⟩
  · exact hdomain

end Live
end VideoEncryption
