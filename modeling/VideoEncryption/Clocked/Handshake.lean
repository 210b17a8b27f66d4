import VideoEncryption.Clocked.Machine

/-!
# Servers behind a run/done handshake

A server waits until `run` is sampled high, captures its input, works for any number of edges,
raises `done` with its answer and holds it until `run` is sampled low. The number of edges is an
input of the step that captures, so that every use may take another time.

* `Server.leadsTo_answer` — a client that keeps `run` high until it sees `done` gets the answer;
* `LeadsTo.iterate` — a client that uses a server `n` times in a row computes its `n`-th iterate.
-/

namespace Clocked

/-- The states of a server. -/
inductive Server (α : Type*)
  | idle
  | busy (n : ℕ) (x : α)
  | hold (y : α)
deriving DecidableEq, Repr

namespace Server

variable {α : Type*}

/-- The answer of a server whose `done` is high. -/
def answer : Server α → Option α
  | hold y => some y
  | _ => none

/-- With `n` edges of work on `x` ahead. -/
def working (F : α → α) (x : α) : ℕ → Server α
  | 0 => hold (F x)
  | n + 1 => busy n x

/-- One edge: `run` and the input are sampled, and `n` edges of work start with a capture. -/
def step (F : α → α) (s : Server α) (run : Bool) (input : α) (n : ℕ) : Server α :=
  match s with
  | idle => if run then working F input n else idle
  | busy m x => working F x m
  | hold y => if run then hold y else idle

@[simp] theorem answer_hold (y : α) : (hold y).answer = some y := rfl

@[simp] theorem step_idle_false (F : α → α) (x : α) (n : ℕ) : step F idle false x n = idle := rfl

@[simp] theorem step_hold_false (F : α → α) (y x : α) (n : ℕ) :
    step F (hold y) false x n = idle := rfl

/-! ### A client that waits for the answer -/

variable {σ ι : Type*} {step : σ → ι → σ} {ok : σ → ι → Prop} {W P : σ → Prop}
  {srv : σ → Server α} {F : α → α} {x : α}

/-- A server at work answers, as long as its client waits in `P`. -/
theorem leadsTo_of_working (hW : ∀ s, P s → W s)
    (hstep : ∀ s i, P s → ok s i → (srv s).answer = none →
      P (step s i) ∧ ∃ n, srv (step s i) = (srv s).step F true x n) (n : ℕ) :
    LeadsTo step ok W (fun s => P s ∧ srv s = working F x n)
      (fun s => P s ∧ srv s = hold (F x)) := by
  induction n with
  | zero => exact .of_imp fun s hs => hs
  | succ n ih =>
    refine .step_trans (fun s hs => hW s hs.1) (fun s i hs hok => ?_) ih
    obtain ⟨hP, m, hm⟩ := hstep s i hs.1 hok (by rw [hs.2]; rfl)
    exact ⟨hP, by rw [hm, hs.2]; rfl⟩

/-- **The answer.** A client that waits in `P` with `run` high and its input on `x` sees `done` with
the answer for `x`. -/
theorem leadsTo_answer (hW : ∀ s, P s → W s)
    (hstep : ∀ s i, P s → ok s i → (srv s).answer = none →
      P (step s i) ∧ ∃ n, srv (step s i) = (srv s).step F true x n) :
    LeadsTo step ok W (fun s => P s ∧ srv s = idle) (fun s => P s ∧ srv s = hold (F x)) := by
  -- the capture decides how long the server works, so the number of edges is existential after it
  have hcapture : ∀ s i, (P s ∧ srv s = idle) → ok s i →
      ∃ n, P (step s i) ∧ srv (step s i) = working F x n := by
    intro s i hs hok
    obtain ⟨hP, n, hn⟩ := hstep s i hs.1 hok (by rw [hs.2]; rfl)
    exact ⟨n, hP, by rw [hn, hs.2]; rfl⟩
  refine LeadsTo.step_trans (Q := fun s => ∃ n, P s ∧ srv s = working F x n)
    (fun s hs => hW s hs.1) hcapture ?_
  rintro s ⟨n, hs⟩
  exact leadsTo_of_working hW hstep n s hs

end Server

/-- A body that takes `k + 1` uses ahead with the value `x` to `k` uses ahead with the value `F x`
computes the iterate. -/
theorem LeadsTo.iterate {σ ι α : Type*} {step : σ → ι → σ} {ok : σ → ι → Prop} {W : σ → Prop}
    {F : α → α} {L : ℕ → α → σ → Prop} {n : ℕ}
    (h : ∀ k < n, ∀ x, LeadsTo step ok W (L (k + 1) x) (L k (F x))) (x : α) :
    LeadsTo step ok W (L n x) (L 0 (F^[n] x)) := by
  induction n generalizing x with
  | zero => exact .of_imp fun _ hs => hs
  | succ n ih =>
    exact (h n (Nat.lt_succ_self n) x).trans (ih (fun k hk => h k (by omega)) (F x))

end Clocked
