import VideoEncryption.Clocked.Handshake

/-!
# Simulations

A clocked machine simulates another one along a relation of their registers and a reading `f` of the
inputs, if every edge keeps the relation (`Simulates`). Then so does every run
(`Simulates.stateAt`).

`Serves` is the case of a module behind the run/done handshake, whose states are related to the
states of a `Server` of a known latency. `Serves.answers` is what a client on its own sees of it.
-/

namespace Clocked

variable {σ ι σ' ι' : Type*} {step : σ → ι → σ} {step' : σ' → ι' → σ'} {f : ι → ι'}
  {R : σ → σ' → Prop}

/-- Every edge keeps the relation `R`. -/
structure Simulates (step : σ → ι → σ) (step' : σ' → ι' → σ') (f : ι → ι') (R : σ → σ' → Prop) :
    Prop where
  edge : ∀ s t i, R s t → R (step s i) (step' t (f i))

namespace Simulates

theorem stateAt (h : Simulates step step' f R) {s : σ} {t : σ'} (hst : R s t) (inp : ℕ → ι)
    (n : ℕ) :
    R (Clocked.stateAt step s inp n) (Clocked.stateAt step' t (fun n => f (inp n)) n) :=
  stateAt_related (c := fun i j => j = f i) (fun s t i _ hst hj => hj ▸ h.edge s t i hst) hst
    (fun _ => rfl) n

end Simulates

/-- A module with the inputs `run` and data, whose states are related by `R` to those of a server
that computes `F` in `L` edges of work. -/
structure Serves {μ α : Type*} (step : μ → Bool → α → μ) (answer : μ → Option α) (F : α → α) (L : ℕ)
    (R : μ → Server α → Prop) : Prop where
  edge : ∀ m s run x, R m s → R (step m run x) (s.step F run x L)
  answer : ∀ m s, R m s → answer m = s.answer

section Serves

variable {μ α κ : Type*} {F : α → α} {L n : ℕ} {x : α} {run : κ → Bool} {data : κ → α}
  {inp : ℕ → κ}

/-- A server at work after `j` edges, whatever its inputs are. -/
theorem Server.stateAt_working {j : ℕ} (hj : j ≤ n) :
    stateAt (fun s k => Server.step F s (run k) (data k) L) (Server.working F x n) inp j
      = Server.working F x (n - j) := by
  induction j with
  | zero => rfl
  | succ j ih =>
    obtain ⟨k, hk⟩ : ∃ k, n - j = k + 1 := ⟨n - j - 1, by omega⟩
    rw [stateAt_succ, ih (by omega), hk, show n - (j + 1) = k by omega]
    rfl

/-- A server that holds its answer, as long as `run` is high. -/
theorem Server.stateAt_hold (hrun : ∀ i < n, run (inp i) = true) :
    stateAt (fun s k => Server.step F s (run k) (data k) L) (Server.hold x) inp n
      = Server.hold x := by
  induction n with
  | zero => rfl
  | succ n ih =>
    rw [stateAt_succ, ih fun i hi => hrun i (by omega)]
    dsimp only [Server.step]
    rw [hrun n (Nat.lt_succ_self n), if_pos rfl]

variable {step : μ → Bool → α → μ} {answer : μ → Option α} {R : μ → Server α → Prop} {m : μ}

variable (run data) in
/-- **The answer of a module**: nothing for `L + 1` edges from the one that captures its input, then
the value of `F` for as long as `run` is high; when it drops the module is idle again. -/
theorem Serves.answers (h : Serves step answer F L R) (hm : R m .idle)
    (hrun : run (inp 0) = true) :
    (∀ n ≤ L, answer (stateAt (fun m k => step m (run k) (data k)) m inp n) = none) ∧
      ∀ n, (∀ i < n, run (inp (L + 1 + i)) = true) →
        answer (stateAt (fun m k => step m (run k) (data k)) m inp (L + 1 + n))
            = some (F (data (inp 0))) ∧
          (run (inp (L + 1 + n)) = false →
            R (stateAt (fun m k => step m (run k) (data k)) m inp (L + 1 + n + 1)) .idle) := by
  -- the server runs alongside, on the same inputs
  have hsim : Simulates (fun m k => step m (run k) (data k))
      (fun s k => Server.step F s (run k) (data k) L) id R :=
    ⟨fun m s k hms => h.edge m s (run k) (data k) hms⟩
  have hrel := hsim.stateAt hm inp
  -- the states of the server
  have hwork : ∀ j ≤ L, stateAt (fun s k => Server.step F s (run k) (data k) L) .idle inp (1 + j)
      = Server.working F (data (inp 0)) (L - j) := by
    intro j hj
    have hcapture : stateAt (fun s k => Server.step F s (run k) (data k) L) .idle inp 1
        = Server.working F (data (inp 0)) L := if_pos hrun
    rw [stateAt_add, hcapture, Server.stateAt_working hj]
  constructor
  · intro n hn
    rw [h.answer _ _ (hrel n)]
    rcases n with _ | j
    · rfl
    -- still at work: one edge fewer for each edge since the capture
    · obtain ⟨k, hk⟩ : ∃ k, L - j = k + 1 := ⟨L - j - 1, by omega⟩
      change (stateAt (fun s k => Server.step F s (run k) (data k) L) .idle inp (j + 1)).answer = _
      rw [Nat.add_comm j, hwork j (by omega), hk]
      rfl
  · intro n hheld
    -- the answer is there and held
    have hhold : stateAt (fun s k => Server.step F s (run k) (data k) L) .idle inp (L + 1 + n)
        = Server.hold (F (data (inp 0))) := by
      rw [stateAt_add, Nat.add_comm L, hwork L le_rfl, Nat.sub_self]
      exact Server.stateAt_hold fun i hi => by rw [Nat.add_comm 1 L]; exact hheld i hi
    refine ⟨?_, fun hlow => ?_⟩
    · rw [h.answer _ _ (hrel _)]
      change (stateAt (fun s k => Server.step F s (run k) (data k) L) .idle inp _).answer = _
      rw [hhold]
      rfl
    · have hnext := hrel (L + 1 + n + 1)
      -- the edge that sees `run` low
      have hidle : stateAt (fun s k => Server.step F s (run k) (data k) L) .idle inp
          (L + 1 + n + 1) = Server.idle := by
        rw [stateAt_succ, hhold, hlow]
        rfl
      exact hidle ▸ hnext

end Serves

end Clocked
