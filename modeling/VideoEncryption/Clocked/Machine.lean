import Mathlib.Tactic

/-!
# Clocked machines

A clocked machine is a step function `step : σ → ι → σ`: one rising clock edge takes the registers
`σ` and the inputs `ι` sampled at that edge to the registers after it. This file fixes the three
ways the development runs such a machine and the rules that go with them:

* `run` — the registers after a finite list of edges, with `emitted` for what the edges put out on
  the way and `Along` for a condition met at every edge. `run_invariant` is the invariant rule;
* `stateAt` — the registers before edge `n` of an infinite input stream;
* `LeadsTo` — from every state satisfying `P`, whatever the admitted inputs are, the machine
  reaches `Q` after finitely many edges and satisfies `W` at every edge before that. `LeadsTo.trans`
  composes phases and `LeadsTo.loop` runs a phase once for every value of a counter.
-/

namespace Clocked

variable {σ ι ω : Type*} {step : σ → ι → σ}

/-! ### Finite runs -/

/-- The registers after the edges `is`. -/
def run (step : σ → ι → σ) (s : σ) (is : List ι) : σ :=
  is.foldl step s

@[simp] theorem run_nil (s : σ) : run step s [] = s := rfl

@[simp] theorem run_cons (s : σ) (i : ι) (is : List ι) :
    run step s (i :: is) = run step (step s i) is := rfl

theorem run_append (s : σ) (is js : List ι) :
    run step s (is ++ js) = run step (run step s is) js :=
  List.foldl_append

/-- What the edges `is` put out: `out s i` at every edge, read off the registers before it. -/
def emitted (step : σ → ι → σ) (out : σ → ι → List ω) : σ → List ι → List ω
  | _, [] => []
  | s, i :: is => out s i ++ emitted step out (step s i) is

@[simp] theorem emitted_nil (out : σ → ι → List ω) (s : σ) : emitted step out s [] = [] := rfl

@[simp] theorem emitted_cons (out : σ → ι → List ω) (s : σ) (i : ι) (is : List ι) :
    emitted step out s (i :: is) = out s i ++ emitted step out (step s i) is := rfl

theorem emitted_append (out : σ → ι → List ω) (s : σ) (is js : List ι) :
    emitted step out s (is ++ js)
      = emitted step out s is ++ emitted step out (run step s is) js := by
  induction is generalizing s with
  | nil => rfl
  | cons i is ih =>
    rw [List.cons_append, emitted_cons, emitted_cons, run_cons, ih, List.append_assoc]

/-- The condition `c` is met at every edge of the run from `s` along `is`. -/
def Along (step : σ → ι → σ) (c : σ → ι → Prop) : σ → List ι → Prop
  | _, [] => True
  | s, i :: is => c s i ∧ Along step c (step s i) is

@[simp] theorem along_nil (c : σ → ι → Prop) (s : σ) : Along step c s [] := trivial

@[simp] theorem along_cons {c : σ → ι → Prop} {s : σ} {i : ι} {is : List ι} :
    Along step c s (i :: is) ↔ c s i ∧ Along step c (step s i) is := Iff.rfl

theorem along_append {c : σ → ι → Prop} {s : σ} {is js : List ι} :
    Along step c s (is ++ js) ↔ Along step c s is ∧ Along step c (run step s is) js := by
  induction is generalizing s with
  | nil => simp
  | cons i is ih => rw [List.cons_append, along_cons, along_cons, run_cons, ih, and_assoc]

theorem Along.mono {c d : σ → ι → Prop} (hcd : ∀ s i, c s i → d s i) {s : σ} {is : List ι}
    (h : Along step c s is) : Along step d s is := by
  induction is generalizing s with
  | nil => trivial
  | cons i is ih => exact ⟨hcd _ _ h.1, ih h.2⟩

theorem along_true (s : σ) (is : List ι) : Along step (fun _ _ => True) s is := by
  induction is generalizing s with
  | nil => trivial
  | cons i is ih => exact ⟨trivial, ih _⟩

/-- **The invariant rule.** An invariant kept by every edge that meets `c` holds after every run
whose edges all meet `c`. -/
theorem run_invariant {c : σ → ι → Prop} {I : σ → Prop}
    (hstep : ∀ s i, I s → c s i → I (step s i)) {s : σ} {is : List ι} (h0 : I s)
    (hc : Along step c s is) : I (run step s is) := by
  induction is generalizing s with
  | nil => exact h0
  | cons i is ih => exact ih (hstep s i h0 hc.1) hc.2

/-! ### Infinite runs -/

/-- The registers before edge `n` of the run from `s` fed by the input stream `inp`. -/
def stateAt (step : σ → ι → σ) (s : σ) (inp : ℕ → ι) : ℕ → σ
  | 0 => s
  | n + 1 => step (stateAt step s inp n) (inp n)

@[simp] theorem stateAt_zero (s : σ) (inp : ℕ → ι) : stateAt step s inp 0 = s := rfl

theorem stateAt_succ (s : σ) (inp : ℕ → ι) (n : ℕ) :
    stateAt step s inp (n + 1) = step (stateAt step s inp n) (inp n) := rfl

theorem stateAt_add (s : σ) (inp : ℕ → ι) (m n : ℕ) :
    stateAt step s inp (m + n)
      = stateAt step (stateAt step s inp m) (fun k => inp (m + k)) n := by
  induction n with
  | zero => rfl
  | succ n ih => rw [← Nat.add_assoc, stateAt_succ, stateAt_succ, ih]

theorem stateAt_succ' (s : σ) (inp : ℕ → ι) (n : ℕ) :
    stateAt step s inp (n + 1) = stateAt step (step s (inp 0)) (fun k => inp (k + 1)) n := by
  calc stateAt step s inp (n + 1) = stateAt step s inp (1 + n) := by rw [Nat.add_comm]
    _ = stateAt step (step s (inp 0)) (fun k => inp (1 + k)) n := stateAt_add s inp 1 n
    _ = stateAt step (step s (inp 0)) (fun k => inp (k + 1)) n := by
      simp only [Nat.add_comm 1]

/-- A prefix of an infinite run is a finite run. -/
theorem stateAt_eq_run (s : σ) (inp : ℕ → ι) (n : ℕ) :
    stateAt step s inp n = run step s ((List.range n).map inp) := by
  induction n with
  | zero => rfl
  | succ n ih =>
    rw [stateAt_succ, ih, List.range_succ, List.map_append, run_append]
    rfl

/-- The state at `n` depends on the inputs before `n` only. -/
theorem stateAt_congr (s : σ) {inp inp' : ℕ → ι} {n : ℕ} (h : ∀ k < n, inp k = inp' k) :
    stateAt step s inp n = stateAt step s inp' n := by
  have hinputs : (List.range n).map inp = (List.range n).map inp' :=
    List.map_congr_left fun k hk => h k (List.mem_range.mp hk)
  rw [stateAt_eq_run, stateAt_eq_run, hinputs]

/-- The invariant rule along an infinite run. -/
theorem stateAt_invariant {c : σ → ι → Prop} {I : σ → Prop}
    (hstep : ∀ s i, I s → c s i → I (step s i)) {s : σ} {inp : ℕ → ι} (h0 : I s)
    (hc : ∀ n, c (stateAt step s inp n) (inp n)) (n : ℕ) : I (stateAt step s inp n) := by
  induction n with
  | zero => exact h0
  | succ n ih => exact hstep _ _ ih (hc n)

/-- **Two runs in step.** A relation kept by every pair of edges whose inputs satisfy `c` holds at
every time of two runs whose inputs do. -/
theorem stateAt_related {σ' ι' : Type*} {step' : σ' → ι' → σ'} {c : ι → ι' → Prop}
    {R : σ → σ' → Prop} (hstep : ∀ s t i j, R s t → c i j → R (step s i) (step' t j)) {s : σ}
    {t : σ'} {inp : ℕ → ι} {inp' : ℕ → ι'} (h0 : R s t) (hc : ∀ n, c (inp n) (inp' n)) (n : ℕ) :
    R (stateAt step s inp n) (stateAt step' t inp' n) := by
  induction n with
  | zero => exact h0
  | succ n ih => exact hstep _ _ _ _ ih (hc n)

/-- A counter that every edge takes from `k` to `k + 1` up to `b` counts the edges. -/
theorem stateAt_count {c : σ → ι → Prop} {L : ℕ → σ → Prop} {b : ℕ}
    (hstep : ∀ k < b, ∀ s i, L k s → c s i → L (k + 1) (step s i)) {s : σ} {inp : ℕ → ι}
    (h0 : L 0 s)
    (hc : ∀ n, c (stateAt step s inp n) (inp n)) {n : ℕ} (hn : n ≤ b) :
    L n (stateAt step s inp n) := by
  induction n with
  | zero => exact h0
  | succ n ih => exact hstep n (by omega) _ _ (ih (by omega)) (hc n)

/-! ### Leading from one state to another -/

/-- `P` **leads to** `Q` **through** `W`: from every state satisfying `P`, on every input stream
admitted by `ok`, some number of edges later `Q` holds, and `W` holds at every edge before. -/
def LeadsTo (step : σ → ι → σ) (ok : σ → ι → Prop) (W P Q : σ → Prop) : Prop :=
  ∀ s, P s → ∀ inp : ℕ → ι, (∀ n, ok (stateAt step s inp n) (inp n)) →
    ∃ n, Q (stateAt step s inp n) ∧ ∀ m < n, W (stateAt step s inp m)

section LeadsTo

variable {ok : σ → ι → Prop} {W P Q R : σ → Prop}

/-- The state itself already answers. -/
theorem LeadsTo.of_imp (h : ∀ s, P s → Q s) : LeadsTo step ok W P Q :=
  fun s hs _ _ => ⟨0, h s hs, fun _ hm => absurd hm (Nat.not_lt_zero _)⟩

/-- One edge answers. -/
theorem LeadsTo.of_step (hW : ∀ s, P s → W s) (h : ∀ s i, P s → ok s i → Q (step s i)) :
    LeadsTo step ok W P Q := by
  intro s hs inp hok
  refine ⟨1, h s (inp 0) hs (hok 0), fun m hm => ?_⟩
  obtain rfl : m = 0 := by omega
  exact hW s hs

/-- Phases compose. -/
theorem LeadsTo.trans (h₁ : LeadsTo step ok W P Q) (h₂ : LeadsTo step ok W Q R) :
    LeadsTo step ok W P R := by
  intro s hs inp hok
  obtain ⟨m, hQ, hm⟩ := h₁ s hs inp hok
  -- the second phase runs on the rest of the inputs
  have hok' : ∀ k, ok (stateAt step (stateAt step s inp m) (fun j => inp (m + j)) k)
      (inp (m + k)) := by
    intro k
    rw [← stateAt_add]
    exact hok (m + k)
  obtain ⟨n, hR, hn⟩ := h₂ _ hQ (fun k => inp (m + k)) hok'
  refine ⟨m + n, by rw [stateAt_add]; exact hR, fun k hk => ?_⟩
  rcases Nat.lt_or_ge k m with hkm | hkm
  · exact hm k hkm
  · obtain ⟨j, rfl⟩ := Nat.exists_eq_add_of_le hkm
    rw [stateAt_add]
    exact hn j (by omega)

/-- Two answers that both end the same wait come at the same edge. -/
theorem LeadsTo.and (hQ : ∀ s, Q s → ¬ W s) (hR : ∀ s, R s → ¬ W s) (h₁ : LeadsTo step ok W P Q)
    (h₂ : LeadsTo step ok W P R) : LeadsTo step ok W P fun s => Q s ∧ R s := by
  intro s hs inp hok
  obtain ⟨m, hm, hWm⟩ := h₁ s hs inp hok
  obtain ⟨n, hn, hWn⟩ := h₂ s hs inp hok
  -- an earlier answer would still be waiting for the later one
  rcases Nat.lt_trichotomy m n with hlt | rfl | hlt
  · exact absurd (hWn m hlt) (hQ _ hm)
  · exact ⟨m, ⟨hm, hn⟩, hWm⟩
  · exact absurd (hWm n hlt) (hR _ hn)

theorem LeadsTo.mono_left {P' : σ → Prop} (hP : ∀ s, P' s → P s) (h : LeadsTo step ok W P Q) :
    LeadsTo step ok W P' Q :=
  fun s hs => h s (hP s hs)

/-- With fewer inputs admitted. -/
theorem LeadsTo.mono_ok {ok' : σ → ι → Prop} (hok : ∀ s i, ok' s i → ok s i)
    (h : LeadsTo step ok W P Q) : LeadsTo step ok' W P Q :=
  fun s hs inp hinp => h s hs inp fun n => hok _ _ (hinp n)

/-- One edge, then the rest. -/
theorem LeadsTo.step_trans (hW : ∀ s, P s → W s) (h : ∀ s i, P s → ok s i → Q (step s i))
    (hR : LeadsTo step ok W Q R) : LeadsTo step ok W P R :=
  (LeadsTo.of_step hW h).trans hR

/-- A body that takes the counter from `k` to `k + 1`, run for every `k` in `[a, b)`. -/
theorem LeadsTo.loop {L : ℕ → σ → Prop} {a b : ℕ} (hab : a ≤ b)
    (h : ∀ k, a ≤ k → k < b → LeadsTo step ok W (L k) (L (k + 1))) :
    LeadsTo step ok W (L a) (L b) := by
  induction b, hab using Nat.le_induction with
  | base => exact .of_imp fun _ hs => hs
  | succ b hab ih =>
    exact (ih fun k hk hkb => h k hk (by omega)).trans (h b hab (by omega))

end LeadsTo

end Clocked
