import VideoEncryption.Clocked.Machine

/-!
# Phases of a clocked machine

A phase of a controller takes a fixed number of edges, puts out a fixed list and ends in a known
set of states, whatever the inputs sampled on the way are. `Performs` says so for one phase, and a
long transaction is assembled from its phases by three rules: `Performs.edge` for one edge,
`Performs.trans` for one phase after another, and `Performs.iterate` for a phase repeated once for
every value of a counter.

`emitted_flatMap` reads a coarser observation off a finer one, so that one analysis of the phases
serves several observers.
-/

namespace Clocked

variable {σ ι ω κ : Type*} {step : σ → ι → σ} {out : σ → ι → List ω} {ok : ι → Prop}

/-- An observation computed from a finer one edge by edge is computed from it over the whole run. -/
theorem emitted_flatMap (f : ω → List κ) (s : σ) (is : List ι) :
    emitted step (fun s i => (out s i).flatMap f) s is = (emitted step out s is).flatMap f := by
  induction is generalizing s with
  | nil => rfl
  | cons i is ih => rw [emitted_cons, emitted_cons, List.flatMap_append, ih]

/-- From `s`, any `n` admitted edges put out `ws` and end in `Q`, with `W` before each of them. -/
def Performs (step : σ → ι → σ) (out : σ → ι → List ω) (ok : ι → Prop) (W : σ → Prop) (n : ℕ)
    (s : σ) (ws : List ω) (Q : σ → Prop) : Prop :=
  ∀ is : List ι, is.length = n → (∀ i ∈ is, ok i) →
    Along step (fun s _ => W s) s is ∧ emitted step out s is = ws ∧ Q (run step s is)

section Performs

variable {W : σ → Prop} {m n : ℕ} {s : σ} {vs ws : List ω} {Q R : σ → Prop}

/-- No edge at all. -/
theorem Performs.refl (hs : Q s) : Performs step out ok W 0 s [] Q := by
  intro is hlen _
  rw [List.length_eq_zero_iff.mp hlen]
  exact ⟨trivial, rfl, hs⟩

/-- One edge. -/
theorem Performs.edge (hW : W s) (h : ∀ i, ok i → out s i = ws ∧ Q (step s i)) :
    Performs step out ok W 1 s ws Q := by
  intro is hlen hok
  obtain ⟨i, rfl⟩ := List.length_eq_one_iff.mp hlen
  obtain ⟨hout, hQ⟩ := h i (hok i (List.mem_singleton_self i))
  exact ⟨⟨hW, trivial⟩, by rw [emitted_cons, emitted_nil, List.append_nil, hout], hQ⟩

/-- Phases compose. -/
theorem Performs.trans (h₁ : Performs step out ok W m s vs Q)
    (h₂ : ∀ t, Q t → Performs step out ok W n t ws R) :
    Performs step out ok W (m + n) s (vs ++ ws) R := by
  intro is hlen hok
  -- the first `m` edges are the one phase, the rest the other
  have hsplit : is.take m ++ is.drop m = is := List.take_append_drop m is
  obtain ⟨hW₁, hvs, hQ⟩ := h₁ (is.take m) (by rw [List.length_take]; omega)
    fun i hi => hok i (List.mem_of_mem_take hi)
  obtain ⟨hW₂, hws, hR⟩ := h₂ _ hQ (is.drop m) (by rw [List.length_drop]; omega)
    fun i hi => hok i (List.mem_of_mem_drop hi)
  rw [← hsplit, along_append, emitted_append, run_append, hvs, hws]
  exact ⟨⟨hW₁, hW₂⟩, rfl, hR⟩

theorem Performs.mono (hQR : ∀ t, Q t → R t) (h : Performs step out ok W n s ws Q) :
    Performs step out ok W n s ws R := by
  intro is hlen hok
  obtain ⟨hW, hws, hQ⟩ := h is hlen hok
  exact ⟨hW, hws, hQR _ hQ⟩

/-- A phase under a weaker condition. -/
theorem Performs.weaken {V : σ → Prop} (hWV : ∀ t, W t → V t)
    (h : Performs step out ok W n s ws Q) : Performs step out ok V n s ws Q := by
  intro is hlen hok
  obtain ⟨hW, hws, hQ⟩ := h is hlen hok
  exact ⟨hW.mono fun t _ => hWV t, hws, hQ⟩

/-- A phase under a coarser observation. -/
theorem Performs.flatMap (f : ω → List κ) (h : Performs step out ok W n s ws Q) :
    Performs step (fun s i => (out s i).flatMap f) ok W n s (ws.flatMap f) Q := by
  intro is hlen hok
  obtain ⟨hW, hws, hQ⟩ := h is hlen hok
  exact ⟨hW, by rw [emitted_flatMap, hws], hQ⟩

/-- A body of `n` edges that takes the counter from `k` to `k + 1` and puts out `w k`, run for every
`k < b`. -/
theorem Performs.iterate {L : ℕ → σ → Prop} {w : ℕ → List ω} (b : ℕ)
    (h : ∀ k < b, ∀ t, L k t → Performs step out ok W n t (w k) (L (k + 1))) (hs : L 0 s) :
    Performs step out ok W (n * b) s ((List.range b).flatMap w) (L b) := by
  induction b with
  | zero => exact .refl hs
  | succ b ih =>
    rw [List.range_succ, List.flatMap_append, List.flatMap_singleton, Nat.mul_succ]
    exact (ih fun k hk => h k (by omega)).trans (h b (by omega))

/-- Silent edges that keep `Q`, any number of them. -/
theorem Performs.forever (h : ∀ t, Q t → Performs step out ok W 1 t [] Q) (n : ℕ) (hs : Q s) :
    Performs step out ok W n s [] Q := by
  have hloop := Performs.iterate (n := 1) (L := fun _ => Q) (w := fun _ => []) n
    (fun _ _ => h) hs
  rwa [Nat.one_mul, List.flatMap_eq_nil_iff.mpr fun _ _ => rfl] at hloop

/-- Before the last edge of a phase `W` holds, wherever the run is cut. -/
theorem Performs.underway (h : Performs step out ok W n s ws Q) {i : ι} (hi : ok i) {is : List ι}
    (hlen : is.length < n) (hok : ∀ i ∈ is, ok i) : W (run step s is) := by
  obtain ⟨k, hk⟩ : ∃ k, n = is.length + (k + 1) := ⟨n - is.length - 1, by omega⟩
  -- the run is made as long as the phase with more edges of the input `i`
  have hpad : ∀ j ∈ is ++ List.replicate (k + 1) i, ok j := by
    intro j hj
    rcases List.mem_append.mp hj with hj | hj
    · exact hok j hj
    · exact List.eq_of_mem_replicate hj ▸ hi
  -- what holds along the longer run holds along its first part
  obtain ⟨hW, -⟩ := h (is ++ List.replicate (k + 1) i) (by simp [hk]) hpad
  exact ((along_append.mp hW).2).1

end Performs

end Clocked
