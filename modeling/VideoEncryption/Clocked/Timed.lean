import VideoEncryption.Clocked.Handshake

/-!
# Phases of a known number of edges

`LeadsIn` is `LeadsTo` with the number of edges given: the edges of phases add up
(`LeadsIn.trans`), and a phase repeated `n` times takes `n` times its edges (`LeadsIn.iterate`).

A server whose latency is known answers after one edge for the capture and that many edges of work
(`Server.leadsIn_answer`).
-/

namespace Clocked

variable {σ ι : Type*} {step : σ → ι → σ} {ok : σ → ι → Prop} {W P Q R : σ → Prop} {m n : ℕ}

/-- `P` **leads to** `Q` **in** `n` edges **through** `W`. -/
def LeadsIn (step : σ → ι → σ) (ok : σ → ι → Prop) (W : σ → Prop) (n : ℕ) (P Q : σ → Prop) : Prop :=
  ∀ s, P s → ∀ inp : ℕ → ι, (∀ k, ok (stateAt step s inp k) (inp k)) →
    Q (stateAt step s inp n) ∧ ∀ m < n, W (stateAt step s inp m)

namespace LeadsIn

theorem of_imp (h : ∀ s, P s → Q s) : LeadsIn step ok W 0 P Q :=
  fun s hs _ _ => ⟨h s hs, fun _ hm => absurd hm (Nat.not_lt_zero _)⟩

theorem of_step (hW : ∀ s, P s → W s) (h : ∀ s i, P s → ok s i → Q (step s i)) :
    LeadsIn step ok W 1 P Q := by
  intro s hs inp hok
  refine ⟨h s (inp 0) hs (hok 0), fun m hm => ?_⟩
  obtain rfl : m = 0 := by omega
  exact hW s hs

/-- Phases compose, and their edges add up. -/
theorem trans (h₁ : LeadsIn step ok W m P Q) (h₂ : LeadsIn step ok W n Q R) :
    LeadsIn step ok W (m + n) P R := by
  -- the first phase ends at its own edge
  intro s hs inp hok
  obtain ⟨hQ, hm⟩ := h₁ s hs inp hok
  -- the second phase runs on the rest of the inputs
  have hok' : ∀ k, ok (stateAt step (stateAt step s inp m) (fun j => inp (m + j)) k)
      (inp (m + k)) := by
    intro k
    rw [← stateAt_add]
    exact hok (m + k)
  obtain ⟨hR, hn⟩ := h₂ _ hQ (fun k => inp (m + k)) hok'
  refine ⟨by rw [stateAt_add]; exact hR, fun k hk => ?_⟩
  -- an edge is one of the first phase, or one of the second
  rcases Nat.lt_or_ge k m with hkm | hkm
  · exact hm k hkm
  · obtain ⟨j, rfl⟩ := Nat.exists_eq_add_of_le hkm
    rw [stateAt_add]
    exact hn j (by omega)

/-- A body that takes `k + 1` uses ahead with the value `x` to `k` uses ahead with the value `F x`
in `m` edges takes `n * m` edges to the iterate. -/
theorem iterate {α : Type*} {F : α → α} {L : ℕ → α → σ → Prop}
    (h : ∀ k < n, ∀ x, LeadsIn step ok W m (L (k + 1) x) (L k (F x))) (x : α) :
    LeadsIn step ok W (n * m) (L n x) (L 0 (F^[n] x)) := by
  induction n generalizing x with
  | zero =>
    rw [Nat.zero_mul]
    exact .of_imp fun _ hs => hs
  | succ n ih =>
    rw [Nat.succ_mul, Nat.add_comm, Function.iterate_succ_apply]
    exact (h n (Nat.lt_succ_self n) x).trans (ih (fun k hk => h k (by omega)) (F x))

end LeadsIn

namespace Server

variable {α : Type*} {srv : σ → Server α} {F : α → α} {x : α}

/-- A server with `n` edges of work ahead answers in `n` edges, as long as its client waits. -/
theorem leadsIn_of_working (hW : ∀ s, P s → W s)
    (hstep : ∀ s i, P s → ok s i → (srv s).answer = none →
      P (step s i) ∧ srv (step s i) = (srv s).step F true x m) (n : ℕ) :
    LeadsIn step ok W n (fun s => P s ∧ srv s = working F x n)
      (fun s => P s ∧ srv s = hold (F x)) := by
  -- on the work that is left
  induction n with
  | zero => exact .of_imp fun s hs => hs
  | succ n ih =>
    have hwork : LeadsIn step ok W 1 (fun s => P s ∧ srv s = working F x (n + 1))
        (fun s => P s ∧ srv s = working F x n) := by
      refine .of_step (fun s hs => hW s hs.1) fun s i hs hok => ?_
      obtain ⟨hP, hm⟩ := hstep s i hs.1 hok (by rw [hs.2]; rfl)
      exact ⟨hP, by rw [hm, hs.2]; rfl⟩
    have hboth := hwork.trans ih
    rwa [Nat.add_comm 1 n] at hboth

/-- **The answer after a known time**: one edge for the capture and `m` edges of work. -/
theorem leadsIn_answer (hW : ∀ s, P s → W s)
    (hstep : ∀ s i, P s → ok s i → (srv s).answer = none →
      P (step s i) ∧ srv (step s i) = (srv s).step F true x m) :
    LeadsIn step ok W (1 + m) (fun s => P s ∧ srv s = idle)
      (fun s => P s ∧ srv s = hold (F x)) := by
  refine LeadsIn.trans (.of_step (fun s hs => hW s hs.1) fun s i hs hok => ?_)
    (leadsIn_of_working hW hstep m)
  obtain ⟨hP, hm⟩ := hstep s i hs.1 hok (by rw [hs.2]; rfl)
  exact ⟨hP, by rw [hm, hs.2]; rfl⟩

end Server

end Clocked
