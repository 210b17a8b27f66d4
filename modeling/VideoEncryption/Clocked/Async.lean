import VideoEncryption.Clocked.Fair

/-!
# A controller and its data path on two clocks

A machine that is one step function on paper may have its state register on one clock and its data
path on another. When an edge of the data clock comes between any two edges of the control clock
(`Interleaves`), the two clocks compute what the one step computes, if the data path rests where
the state is left: `Decouples` says how each state splits its step.

* `works` — the data edge is the step, and the control edge changes nothing;
* `leaves` — the control edge is the step, and the data edge changes nothing;
* `passes` — the step is a data edge and a control edge, in this order. The control edge may not
  come first, and more data edges may come in between.

`Decouples.reaches` carries what the one-clock machine leads to over to the other one.
`Decouples.pending` says what a single edge does to a machine that is on its way there.
-/

namespace Clocked

variable {σ ι β κ γ : Type*} {step : σ → ι → σ} {ok : σ → ι → Prop} {W Q : σ → Prop}
  {edge : β → κ → β} {admits : β → κ → Prop} {kind : κ → γ} {c d : γ} {b : β} {inp : ℕ → κ}

/-- Both clocks tick again and again, and `d` ticks between any two ticks of `c`. -/
structure Interleaves (kind : κ → γ) (c d : γ) (inp : ℕ → κ) : Prop where
  control : ∀ n, ∃ k, kind (inp (n + k)) = c
  data : ∀ n, ∃ k, kind (inp (n + k)) = d
  between : ∀ n m, n < m → kind (inp n) = c → kind (inp m) = c →
    ∃ k, n < k ∧ k < m ∧ kind (inp k) = d

theorem Interleaves.drop (h : Interleaves kind c d inp) (j : ℕ) :
    Interleaves kind c d fun n => inp (j + n) where
  control n := by
    obtain ⟨k, hk⟩ := h.control (j + n)
    exact ⟨k, by rwa [← Nat.add_assoc]⟩
  data n := by
    obtain ⟨k, hk⟩ := h.data (j + n)
    exact ⟨k, by rwa [← Nat.add_assoc]⟩
  between n m hnm hn hm := by
    obtain ⟨k, hnk, hkm, hk⟩ := h.between (j + n) (j + m) (by omega) hn hm
    obtain ⟨i, rfl⟩ := Nat.exists_eq_add_of_lt hnk
    exact ⟨n + i + 1, by omega, by omega, by rwa [show j + (n + i + 1) = j + n + i + 1 by omega]⟩

/-- How a state splits its step between the clocks. -/
inductive Mode
  | works
  | leaves
  | passes
deriving DecidableEq, Repr

/-- The edges of the two clocks, in terms of the step: `R` relates the machine to the state of the
one-clock machine, `half` to one whose step has had its data edge. Edges of other clocks change
nothing. -/
structure Decouples (step : σ → ι → σ) (ok : σ → ι → Prop) (W : σ → Prop) (edge : β → κ → β)
    (admits : β → κ → Prop) (kind : κ → γ) (c d : γ) (mode : σ → Mode) (R half : β → σ → Prop) :
    Prop where
  works_go : ∀ b s e, W s → mode s = .works → R b s → admits b e → kind e = d →
    ∃ i, ok s i ∧ mode (step s i) ≠ .passes ∧ R (edge b e) (step s i)
  works_still : ∀ b s e, W s → mode s = .works → R b s → admits b e → kind e ≠ d →
    R (edge b e) s
  leaves_go : ∀ b s e, W s → mode s = .leaves → R b s → admits b e → kind e = c →
    ∃ i, ok s i ∧ R (edge b e) (step s i)
  leaves_still : ∀ b s e, W s → mode s = .leaves → R b s → admits b e → kind e ≠ c →
    R (edge b e) s
  passes_half : ∀ b s e, W s → mode s = .passes → R b s → admits b e → kind e = d →
    half (edge b e) s
  passes_still : ∀ b s e, W s → mode s = .passes → R b s → admits b e → kind e ≠ d →
    kind e ≠ c → R (edge b e) s
  half_go : ∀ b s e, W s → mode s = .passes → half b s → admits b e → kind e = c →
    ∃ i, ok s i ∧ R (edge b e) (step s i)
  half_still : ∀ b s e, W s → mode s = .passes → half b s → admits b e → kind e ≠ c →
    half (edge b e) s

/-- What the edges before the next one of the clock `a` keep holds until then. -/
theorem exists_first {a : γ} {P : β → Prop} (b : β) (inp : ℕ → κ) (hex : ∃ k, kind (inp k) = a)
    (hadmits : ∀ n, admits (stateAt edge b inp n) (inp n)) (h₀ : P b)
    (hstay : ∀ b n, P b → admits b (inp n) → (∀ m ≤ n, kind (inp m) ≠ a) → P (edge b (inp n))) :
    ∃ k, kind (inp k) = a ∧ P (stateAt edge b inp k) ∧ ∀ m < k, P (stateAt edge b inp m) := by
  classical
  -- no edge up to the first one of `a` is an edge of `a`
  have hwait : ∀ m ≤ Nat.find hex, P (stateAt edge b inp m) := by
    intro m hm
    induction m with
    | zero => exact h₀
    | succ m ih =>
      exact hstay _ _ (ih (by omega)) (hadmits m) fun j hj => Nat.find_min hex (by omega)
  exact ⟨Nat.find hex, Nat.find_spec hex, hwait _ le_rfl, fun m hm => hwait m (by omega)⟩

section Reaches

variable {mode : σ → Mode} {R half : β → σ → Prop}

/-- The machine comes to a state that stands for one in `Q`, through states that stand for ones in
`W`. -/
def Reaches (edge : β → κ → β) (W Q : σ → Prop) (R half : β → σ → Prop) (b : β) (inp : ℕ → κ) :
    Prop :=
  ∃ n, (∃ s, Q s ∧ R (stateAt edge b inp n) s) ∧
    ∀ m < n, ∃ s, W s ∧ (R (stateAt edge b inp m) s ∨ half (stateAt edge b inp m) s)

theorem Reaches.after {k : ℕ}
    (hbefore : ∀ m < k, ∃ s, W s ∧ (R (stateAt edge b inp m) s ∨ half (stateAt edge b inp m) s))
    (h : Reaches edge W Q R half (stateAt edge b inp k) fun n => inp (k + n)) :
    Reaches edge W Q R half b inp := by
  obtain ⟨n, hQ, hn⟩ := h
  rw [← stateAt_add] at hQ
  refine ⟨k + n, hQ, fun m hm => ?_⟩
  rcases Nat.lt_or_ge m k with hmk | hmk
  · exact hbefore m hmk
  · obtain ⟨j, rfl⟩ := Nat.exists_eq_add_of_le hmk
    rw [stateAt_add]
    exact hn j (by omega)

/-- **Two clocks do what one clock does.** The induction is on what is inevitable for the one-clock
machine: each of its steps is awaited on the clock, or the two clocks, that it takes place on. -/
theorem Decouples.reaches (h : Decouples step ok W edge admits kind c d mode R half)
    {s : σ} (hs : Inevitable step ok W Q s) : ∀ b inp, R b s → Interleaves kind c d inp →
      (∀ n, admits (stateAt edge b inp n) (inp n)) →
      (mode s = .passes → ∀ n, kind (inp n) = c → ∃ k < n, kind (inp k) = d) →
      Reaches edge W Q R half b inp := by
  induction hs with
  | @now s hQ => exact fun b inp hR _ _ _ => ⟨0, ⟨s, hQ, hR⟩, fun m hm => absurd hm (by omega)⟩
  | @later s hW _ ih =>
    intro b inp hR hinp hadmits hfresh
    -- the rest of the run, from the edge `k` that completes the step
    have hrest : ∀ k i, ok s i → R (stateAt edge b inp (k + 1)) (step s i) →
        (mode (step s i) = .passes → kind (inp k) = c) →
        (∀ m < k + 1, ∃ s, W s ∧ (R (stateAt edge b inp m) s ∨ half (stateAt edge b inp m) s)) →
        Reaches edge W Q R half b inp := by
      intro k i hi hRk hpasses hbefore
      refine .after hbefore (ih i hi _ _ hRk (hinp.drop (k + 1)) (fun n => ?_) fun hmode n hn => ?_)
      · rw [← stateAt_add]
        exact hadmits (k + 1 + n)
      -- a step that passes is awaited from a control edge on, and a data edge comes before the next
      -- one
      · obtain ⟨j, hkj, hjn, hj⟩ := hinp.between k (k + 1 + n) (by omega) (hpasses hmode) hn
        obtain ⟨l, rfl⟩ := Nat.exists_eq_add_of_lt hkj
        exact ⟨l, by omega, by rwa [show k + 1 + l = k + l + 1 by omega]⟩
    cases hmode : mode s with
    | works =>
      obtain ⟨k, hk, hRk, hbefore⟩ := exists_first (P := (R · s)) b inp
        (by simpa using hinp.data 0) hadmits hR
        fun b n hb hadm hne => h.works_still b s _ hW hmode hb hadm (hne n le_rfl)
      -- `d` works: until its edge nothing moves
      obtain ⟨i, hi, hnot, hnext⟩ := h.works_go _ s _ hW hmode hRk (hadmits k) hk
      refine hrest k i hi hnext (fun hp => absurd hp hnot) fun m hm => ?_
      rcases Nat.lt_succ_iff_lt_or_eq.mp hm with hmk | rfl
      exacts [⟨s, hW, .inl (hbefore m hmk)⟩, ⟨s, hW, .inl hRk⟩]
    | leaves =>
      obtain ⟨k, hk, hRk, hbefore⟩ := exists_first (P := (R · s)) b inp
        (by simpa using hinp.control 0) hadmits hR
        fun b n hb hadm hne => h.leaves_still b s _ hW hmode hb hadm (hne n le_rfl)
      -- `c` leaves: its edge alone is awaited
      obtain ⟨i, hi, hnext⟩ := h.leaves_go _ s _ hW hmode hRk (hadmits k) hk
      refine hrest k i hi hnext (fun _ => hk) fun m hm => ?_
      rcases Nat.lt_succ_iff_lt_or_eq.mp hm with hmk | rfl
      exacts [⟨s, hW, .inl (hbefore m hmk)⟩, ⟨s, hW, .inl hRk⟩]
    | passes =>
      -- the data edge first: until then there is none of the control clock
      obtain ⟨k, hk, hRk, hbefore⟩ := exists_first (P := (R · s)) b inp
        (by simpa using hinp.data 0) hadmits hR
        fun b n hb hadm hne => h.passes_still b s _ hW hmode hb hadm (hne n le_rfl) fun hc => by
          obtain ⟨j, hjn, hj⟩ := hfresh hmode n hc
          exact hne j (by omega) hj
      have hhalf := h.passes_half _ s _ hW hmode hRk (hadmits k) hk
      obtain ⟨l, hl, hhalfl, hbeforel⟩ := exists_first (P := (half · s))
        (stateAt edge b inp (k + 1)) (fun n => inp (k + 1 + n)) (hinp.control (k + 1))
        (fun n => by rw [← stateAt_add]; exact hadmits _) hhalf
        fun b n hb hadm hne => h.half_still b s _ hW hmode hb hadm (hne n le_rfl)
      rw [← stateAt_add] at hhalfl
      obtain ⟨i, hi, hnext⟩ := h.half_go _ s _ hW hmode hhalfl (hadmits _) hl
      refine hrest (k + 1 + l) i hi hnext (fun _ => hl) fun m hm => ?_
      -- before the data edge, or between it and the control edge
      rcases Nat.lt_or_ge m (k + 1) with hmk | hmk
      · rcases Nat.lt_succ_iff_lt_or_eq.mp hmk with hmk | rfl
        exacts [⟨s, hW, .inl (hbefore m hmk)⟩, ⟨s, hW, .inl hRk⟩]
      · obtain ⟨j, rfl⟩ := Nat.exists_eq_add_of_le hmk
        rcases Nat.lt_or_eq_of_le (show j ≤ l by omega) with hjl | rfl
        · refine ⟨s, hW, .inr ?_⟩
          rw [stateAt_add]
          exact hbeforel j hjl
        · exact ⟨s, hW, .inr hhalfl⟩

end Reaches

section Pending

variable {mode : σ → Mode} {R half : β → σ → Prop}

/-- The machine is on its way to `Q`. If its state is one to pass and the data edge is still to
come, no data edge has come since the last control edge: `seen` is false. -/
def Pending (step : σ → ι → σ) (ok : σ → ι → Prop) (W Q : σ → Prop) (mode : σ → Mode)
    (R half : β → σ → Prop) (seen : Prop) (b : β) : Prop :=
  ∃ s, W s ∧ Inevitable step ok W Q s ∧
    (R b s ∧ (mode s = .passes → ¬ seen) ∨ half b s ∧ mode s = .passes)

/-- **One edge on the way** leads on, or to the end of the way. A control edge comes only when a
data edge has been seen since the last one. -/
theorem Decouples.pending (h : Decouples step ok W edge admits kind c d mode R half)
    (hWQ : ∀ s, W s → ¬ Q s) {seen : Prop} {e : κ}
    (hb : Pending step ok W Q mode R half seen b) (hadmits : admits b e)
    (hc : kind e = c → seen) :
    Pending step ok W Q mode R half (kind e ≠ c ∧ (seen ∨ kind e = d)) (edge b e) ∨
      ∃ s, Q s ∧ R (edge b e) s := by
  obtain ⟨s, hW, hs, hb⟩ := hb
  -- the step under way is not the last one, since `W` keeps clear of `Q`
  obtain hQ | ⟨-, hnext⟩ := hs
  · exact absurd hQ (hWQ s hW)
  -- an edge that completes the step
  have hgo : ∀ i, ok s i → R (edge b e) (step s i) → (mode (step s i) = .passes → kind e = c) →
      Pending step ok W Q mode R half (kind e ≠ c ∧ (seen ∨ kind e = d)) (edge b e) ∨
        ∃ s, Q s ∧ R (edge b e) s := by
    intro i hi hR hpasses
    have hinev := hnext i hi
    cases hinev with
    | now hQ => exact .inr ⟨_, hQ, hR⟩
    | later hW' hnext' =>
      exact .inl ⟨_, hW', .later hW' hnext', .inl ⟨hR, fun hp hseen => hseen.1 (hpasses hp)⟩⟩
  -- otherwise the step is still to come
  have hstill : Inevitable step ok W Q s := .later hW hnext
  rcases hb with ⟨hR, hfresh⟩ | ⟨hhalf, hmode⟩
  · cases hmode : mode s with
    | works =>
      by_cases hd : kind e = d
      · obtain ⟨i, hi, hnot, hR'⟩ := h.works_go b s e hW hmode hR hadmits hd
        exact hgo i hi hR' fun hp => absurd hp hnot
      · refine .inl ⟨s, hW, hstill, .inl ⟨h.works_still b s e hW hmode hR hadmits hd, ?_⟩⟩
        exact fun hp => absurd (hmode.symm.trans hp) (by decide)
    | leaves =>
      -- whether the edge is the one that the step is awaited on
      by_cases hce : kind e = c
      · obtain ⟨i, hi, hR'⟩ := h.leaves_go b s e hW hmode hR hadmits hce
        exact hgo i hi hR' fun _ => hce
      · refine .inl ⟨s, hW, hstill, .inl ⟨h.leaves_still b s e hW hmode hR hadmits hce, ?_⟩⟩
        exact fun hp => absurd (hmode.symm.trans hp) (by decide)
    | passes =>
      have hne : kind e ≠ c := fun hce => hfresh hmode (hc hce)
      by_cases hd : kind e = d
      · exact .inl ⟨s, hW, hstill,
          .inr ⟨h.passes_half b s e hW hmode hR hadmits hd, hmode⟩⟩
      · refine .inl ⟨s, hW, hstill,
          .inl ⟨h.passes_still b s e hW hmode hR hadmits hd hne, fun _ hseen => ?_⟩⟩
        exact hseen.2.elim (hfresh hmode) hd
  -- half a step is completed by a control edge
  · by_cases hce : kind e = c
    · obtain ⟨i, hi, hR'⟩ := h.half_go b s e hW hmode hhalf hadmits hce
      exact hgo i hi hR' fun _ => hce
    · exact .inl ⟨s, hW, hstill,
        .inr ⟨h.half_still b s e hW hmode hhalf hadmits hce, hmode⟩⟩

end Pending

end Clocked
