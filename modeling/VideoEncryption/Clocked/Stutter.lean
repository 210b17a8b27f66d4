import Mathlib.Data.Nat.Nth
import VideoEncryption.Clocked.Async

/-!
# Simulation with steps of its own

A machine that does all that another one does, and more besides: `f` says which step of the other
machine a step stands for, if any (`Stutters`). An infinite run that shows a step of the other
machine again and again is a run of that machine with pauses (`Tracks`), so that what holds in every
run of the one can be read off for the other.
-/

namespace Clocked

variable {σ ι σ' ι' κ : Type*} {step : σ → ι → σ} {step' : σ' → ι' → σ'} {f : σ → ι → Option ι'}
  {R : σ → σ' → Prop} {s : σ} {t : σ'} {inp : ℕ → ι} {inp' : ℕ → ι'} {c : ℕ → ℕ}

/-- Every step keeps the relation `R`, as the step it stands for or as none. -/
structure Stutters (step : σ → ι → σ) (step' : σ' → ι' → σ') (f : σ → ι → Option ι')
    (R : σ → σ' → Prop) : Prop where
  pause : ∀ s t i, R s t → f s i = none → R (step s i) t
  edge : ∀ s t i j, R s t → f s i = some j → R (step s i) (step' t j)

/-- After `n` steps the run from `s` stands at step `c n` of the run from `t`. -/
structure Tracks (step : σ → ι → σ) (step' : σ' → ι' → σ') (f : σ → ι → Option ι')
    (R : σ → σ' → Prop) (s : σ) (t : σ') (inp : ℕ → ι) (inp' : ℕ → ι') (c : ℕ → ℕ) : Prop where
  related : ∀ n, R (stateAt step s inp n) (stateAt step' t inp' (c n))
  zero : c 0 = 0
  pause : ∀ n, f (stateAt step s inp n) (inp n) = none → c (n + 1) = c n
  edge : ∀ n j, f (stateAt step s inp n) (inp n) = some j → inp' (c n) = j ∧ c (n + 1) = c n + 1
  onto : ∀ k, ∃ n, c n = k ∧ f (stateAt step s inp n) (inp n) = some (inp' k)

/-- **A run with pauses.** -/
theorem Stutters.tracks (h : Stutters step step' f R) (hst : R s t)
    (hoften : ∀ n, ∃ k, (f (stateAt step s inp (n + k)) (inp (n + k))).isSome) :
    ∃ inp' c, Tracks step step' f R s t inp inp' c := by
  classical
  -- the steps that stand for one of the other machine, counted
  let shown : ℕ → Option ι' := fun n => f (stateAt step s inp n) (inp n)
  let p : ℕ → Prop := fun n => (shown n).isSome
  -- there are infinitely many of them, so the `k`-th one exists for every `k`
  have hinf : {n | p n}.Infinite := by
    refine Set.infinite_of_forall_exists_gt fun n => ?_
    obtain ⟨k, hk⟩ := hoften (n + 1)
    exact ⟨n + 1 + k, hk, by omega⟩
  have hnth : ∀ k, ∃ j, shown (Nat.nth p k) = some j :=
    fun k => Option.isSome_iff_exists.mp (Nat.nth_mem_of_infinite hinf k)
  choose inp' hinp' using hnth
  -- the other machine's step number is the count so far
  have hedge : ∀ n j, shown n = some j → inp' (Nat.count p n) = j ∧
      Nat.count p (n + 1) = Nat.count p n + 1 := by
    intro n j hj
    have hp : p n := Option.isSome_iff_exists.mpr ⟨j, hj⟩
    refine ⟨?_, by rw [Nat.count_succ, if_pos hp]⟩
    have hat := hinp' (Nat.count p n)
    rw [Nat.nth_count hp, hj] at hat
    exact (Option.some.inj hat).symm
  have hpause : ∀ n, shown n = none → Nat.count p (n + 1) = Nat.count p n := by
    intro n hn
    have hp : ¬ p n := by simp [p, hn]
    rw [Nat.count_succ, if_neg hp, Nat.add_zero]
  refine ⟨inp', Nat.count p, ⟨fun n => ?_, Nat.count_zero p, hpause, hedge, fun k => ?_⟩⟩
  -- related step by step: a pause leaves the other machine where it is
  · induction n with
    | zero => exact hst
    | succ n ih =>
      rw [stateAt_succ]
      cases hn : shown n with
      | none =>
        rw [hpause n hn]
        exact h.pause _ _ _ ih hn
      | some j =>
        obtain ⟨hj, hcount⟩ := hedge n j hn
        rw [hcount, stateAt_succ, hj]
        exact h.edge _ _ _ _ ih hn
  · exact ⟨Nat.nth p k, Nat.count_nth_of_infinite hinf k, hinp' k⟩

namespace Tracks

variable (h : Tracks step step' f R s t inp inp' c)
include h

theorem mono : Monotone c := by
  refine monotone_nat_of_le_succ fun n => ?_
  cases hn : f (stateAt step s inp n) (inp n) with
  | none => exact (h.pause n hn).ge
  | some j => exact ((h.edge n j hn).2.symm ▸ Nat.le_succ _)

/-- Every state of the other run is met, at its own step or, for the first, at once. -/
theorem exists_eq (k : ℕ) : ∃ n, c n = k := by
  obtain ⟨n, hn, -⟩ := h.onto k
  exact ⟨n, hn⟩

/-- What the other run does between two steps it does between two steps of this one. -/
theorem exists_between {n₁ n₂ k : ℕ} (hn : n₁ ≤ n₂) (h₁ : c n₁ ≤ k) (h₂ : k ≤ c n₂) :
    ∃ n, n₁ ≤ n ∧ n ≤ n₂ ∧ c n = k := by
  obtain ⟨n, hk⟩ := h.exists_eq k
  rcases Nat.lt_or_ge n n₁ with hlt | hge
  · have hle := h.mono hlt.le
    exact ⟨n₁, le_rfl, hn, by omega⟩
  rcases Nat.lt_or_ge n₂ n with hlt | hle
  · have hle := h.mono hlt.le
    exact ⟨n₂, hn, le_rfl, by omega⟩
  · exact ⟨n, hge, hle, hk⟩

/-- The steps of the other run from a step on are shown from there on. -/
theorem onto_from {n₁ k : ℕ} (hk : c n₁ ≤ k) :
    ∃ n, n₁ ≤ n ∧ c n = k ∧ f (stateAt step s inp n) (inp n) = some (inp' k) := by
  obtain ⟨n, hn, hshown⟩ := h.onto k
  refine ⟨n, ?_, hn, hshown⟩
  by_contra hlt
  have hnext := (h.edge n _ hshown).2
  have hle := h.mono (show n + 1 ≤ n₁ by omega)
  omega

/-- The step that leads to a later state of the other run. -/
theorem exists_first {n₁ k : ℕ} (hk : c n₁ < k) : ∃ n, n₁ < n ∧ c n = k ∧ ∀ m < n, c m < k := by
  obtain ⟨l, rfl⟩ := Nat.exists_eq_add_of_le' (show 1 ≤ k by omega)
  obtain ⟨n, hn, hcn, hshown⟩ := h.onto_from (show c n₁ ≤ l by omega)
  refine ⟨n + 1, by omega, by rw [(h.edge n _ hshown).2, hcn], fun m hm => ?_⟩
  have hle := h.mono (show m ≤ n by omega)
  omega

/-- The clocks of the other machine tick again and again. -/
theorem often {kind : ι → Option κ} {kind' : ι' → κ}
    (hkind : ∀ s i, (f s i).map kind' = kind i) {a : κ}
    (hoften : ∀ n, ∃ k, kind (inp (n + k)) = some a) (n : ℕ) : ∃ k, kind' (inp' (n + k)) = a := by
  obtain ⟨m, hm⟩ := h.exists_eq n
  obtain ⟨k, hk⟩ := hoften m
  obtain ⟨j, hj, hja⟩ := Option.map_eq_some_iff.mp ((hkind _ _).trans hk)
  obtain ⟨l, hl⟩ := Nat.exists_eq_add_of_le (h.mono (Nat.le_add_right m k))
  rw [hm] at hl
  exact ⟨l, by rw [← hl, (h.edge _ _ hj).1, hja]⟩

/-- The order of the clocks is that of the other machine. -/
theorem interleaves {kind : ι → Option κ} {kind' : ι' → κ}
    (hkind : ∀ s i, (f s i).map kind' = kind i) {a d : κ}
    (hclocks : Interleaves kind (some a) (some d) inp) : Interleaves kind' a d inp' where
  control := h.often hkind hclocks.control
  data := h.often hkind hclocks.data
  between k l hkl hk hl := by
    obtain ⟨n, hn, hnk⟩ := h.onto k
    obtain ⟨m, hm, hml⟩ := h.onto l
    -- the count is monotone, so later edges there come from later ones here
    have hnm : n < m := by
      by_contra hmn
      have hle := h.mono (not_lt.mp hmn)
      omega
    obtain ⟨o, hno, hom, ho⟩ := hclocks.between n m hnm
      ((hkind _ _).symm.trans (by rw [hnk, Option.map_some, hk]))
      ((hkind _ _).symm.trans (by rw [hml, Option.map_some, hl]))
    -- the edge of `d` in between is shown, strictly between the two
    obtain ⟨j, hj, hjd⟩ := Option.map_eq_some_iff.mp ((hkind _ _).trans ho)
    obtain ⟨hinp, hnext⟩ := h.edge _ _ hj
    have hafter := (h.edge _ _ hnk).2
    have hlow := h.mono (show n + 1 ≤ o from hno)
    have hhigh := h.mono (show o + 1 ≤ m from hom)
    exact ⟨c o, by omega, by omega, by rw [hinp, hjd]⟩

end Tracks

end Clocked
