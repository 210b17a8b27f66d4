import VideoEncryption.Clocked.Machine

/-!
# Machines on several clocks

Clocks that run freely against each other make one machine, each of whose edges is an edge of one
clock (`kind`). Of the order of the edges nothing is known but that every clock keeps ticking
(`Fair`).

* `FairlyLeadsTo` — `LeadsTo` on fair input streams. `FairlyLeadsTo.of_kind` is its basic step: what
  one clock does, the other clocks leave alone.
* `FairlyLeadsTo.of_component` — a component that reaches `Q` on a clock of its own reaches it among
  the edges of the other clocks. The proof goes by `Inevitable`, which says of a single state what
  `LeadsTo` says of all input streams.
-/

namespace Clocked

variable {σ ι κ : Type*} {step : σ → ι → σ} {kind : ι → κ} {ok : ι → Prop}

/-- Every edge of the stream is admitted, and every clock ticks again and again. -/
structure Fair (kind : ι → κ) (ok : ι → Prop) (inp : ℕ → ι) : Prop where
  ok : ∀ n, ok (inp n)
  often : ∀ a n, ∃ k, kind (inp (n + k)) = a

theorem Fair.drop {inp : ℕ → ι} (h : Fair kind ok inp) (m : ℕ) :
    Fair kind ok fun n => inp (m + n) where
  ok n := h.ok (m + n)
  often a n := by
    obtain ⟨k, hk⟩ := h.often a (m + n)
    exact ⟨k, by rw [← Nat.add_assoc]; exact hk⟩

/-- `P` **leads to** `Q` **through** `W` on every fair stream. -/
def FairlyLeadsTo (step : σ → ι → σ) (kind : ι → κ) (ok : ι → Prop) (W P Q : σ → Prop) : Prop :=
  ∀ s, P s → ∀ inp : ℕ → ι, Fair kind ok inp →
    ∃ n, Q (stateAt step s inp n) ∧ ∀ m < n, W (stateAt step s inp m)

namespace FairlyLeadsTo

variable {W P Q R : σ → Prop}

theorem of_imp (h : ∀ s, P s → Q s) : FairlyLeadsTo step kind ok W P Q :=
  fun s hs _ _ => ⟨0, h s hs, fun _ hm => absurd hm (Nat.not_lt_zero _)⟩

/-- Phases compose. -/
theorem trans (h₁ : FairlyLeadsTo step kind ok W P Q) (h₂ : FairlyLeadsTo step kind ok W Q R) :
    FairlyLeadsTo step kind ok W P R := by
  intro s hs inp hfair
  obtain ⟨m, hQ, hm⟩ := h₁ s hs inp hfair
  obtain ⟨n, hR, hn⟩ := h₂ _ hQ _ (hfair.drop m)
  rw [← stateAt_add] at hR
  refine ⟨m + n, hR, fun k hk => ?_⟩
  -- in the first phase or in the second one
  rcases Nat.lt_or_ge k m with hkm | hkm
  · exact hm k hkm
  · obtain ⟨j, rfl⟩ := Nat.exists_eq_add_of_le hkm
    rw [stateAt_add]
    exact hn j (by omega)

/-- **One edge of the clock `a`** answers, and the edges of the other clocks before it change
nothing that matters. -/
theorem of_kind (a : κ) (hW : ∀ s, P s → W s)
    (hstay : ∀ s i, P s → ok i → kind i ≠ a → P (step s i))
    (hgo : ∀ s i, P s → ok i → kind i = a → Q (step s i)) :
    FairlyLeadsTo step kind ok W P Q := by
  classical
  intro s hs inp hfair
  have hex : ∃ k, kind (inp k) = a := by
    obtain ⟨k, hk⟩ := hfair.often a 0
    exact ⟨k, by rwa [Nat.zero_add] at hk⟩
  -- up to the first edge of `a`
  have hwait : ∀ m ≤ Nat.find hex, P (stateAt step s inp m) := by
    intro m hm
    induction m with
    | zero => exact hs
    | succ m ih =>
      exact hstay _ _ (ih (by omega)) (hfair.ok m) (Nat.find_min hex (by omega))
  exact ⟨Nat.find hex + 1, hgo _ _ (hwait _ le_rfl) (hfair.ok _) (Nat.find_spec hex),
    fun m hm => hW _ (hwait m (by omega))⟩

/-- The same where the edges of the other clocks may arrive first. -/
theorem of_kind_or (a : κ) (hW : ∀ s, P s → W s)
    (hstay : ∀ s i, P s → ok i → kind i ≠ a → P (step s i) ∨ Q (step s i))
    (hgo : ∀ s i, P s → ok i → kind i = a → Q (step s i)) :
    FairlyLeadsTo step kind ok W P Q := by
  classical
  intro s hs inp hfair
  have hex : ∃ k, kind (inp k) = a ∨ Q (stateAt step s inp (k + 1)) := by
    obtain ⟨k, hk⟩ := hfair.often a 0
    exact ⟨k, .inl (by rwa [Nat.zero_add] at hk)⟩
  -- until then every edge leaves `P`
  have hwait : ∀ m ≤ Nat.find hex, P (stateAt step s inp m) := by
    intro m hm
    induction m with
    | zero => exact hs
    | succ m ih =>
      obtain ⟨hkind, hQ⟩ := not_or.mp (Nat.find_min hex (show m < Nat.find hex by omega))
      exact (hstay _ _ (ih (by omega)) (hfair.ok m) hkind).resolve_right hQ
  refine ⟨Nat.find hex + 1, ?_, fun m hm => hW _ (hwait m (by omega))⟩
  rcases Nat.find_spec hex with hkind | hQ
  · exact hgo _ _ (hwait _ le_rfl) (hfair.ok _) hkind
  · exact hQ

/-- Two ways to the same end. -/
theorem or (h₁ : FairlyLeadsTo step kind ok W P R) (h₂ : FairlyLeadsTo step kind ok W Q R) :
    FairlyLeadsTo step kind ok W (fun s => P s ∨ Q s) R :=
  fun s hs => hs.elim (h₁ s) (h₂ s)

/-- A body that takes the counter from `k` to `k + 1`, run for every `k` below `b`. -/
theorem loop {L : ℕ → σ → Prop} {b : ℕ}
    (h : ∀ k < b, FairlyLeadsTo step kind ok W (L k) (L (k + 1))) :
    FairlyLeadsTo step kind ok W (L 0) (L b) := by
  induction b with
  | zero => exact .of_imp fun _ hs => hs
  | succ b ih => exact (ih fun k hk => h k (by omega)).trans (h b (Nat.lt_succ_self b))

/-- **Only on the way** need the edges be admitted: `fix` makes an edge of the same clock an
admitted one, and nothing after the arrival matters. -/
theorem on_the_way (h : FairlyLeadsTo step kind ok W P Q) {fix : ι → ι}
    (hkind : ∀ i, kind (fix i) = kind i) (hok : ∀ i, ok (fix i)) (hfix : ∀ i, ok i → fix i = i)
    {s : σ} (hs : P s) (inp : ℕ → ι) (hoften : ∀ a n, ∃ k, kind (inp (n + k)) = a)
    (hinp : ∀ n, (∀ m ≤ n, W (stateAt step s inp m)) → ok (inp n)) :
    ∃ n, Q (stateAt step s inp n) ∧ ∀ m < n, W (stateAt step s inp m) := by
  obtain ⟨n, hQ, hW⟩ := h s hs (fun n => fix (inp n))
    ⟨fun n => hok (inp n), fun a n => by simpa only [hkind] using hoften a n⟩
  -- up to the arrival the corrected inputs are the inputs
  have hsame : ∀ m ≤ n, ∀ l ≤ m,
      stateAt step s (fun n => fix (inp n)) l = stateAt step s inp l := by
    intro m hm
    induction m with
    | zero =>
      intro l hl
      rw [Nat.le_zero.mp hl]
      rfl
    | succ m ih =>
      have hbefore := ih (by omega)
      have hadmitted : ok (inp m) := hinp m fun l hl => hbefore l hl ▸ hW l (by omega)
      intro l hl
      rcases Nat.lt_or_eq_of_le hl with hlt | rfl
      · exact hbefore l (by omega)
      · rw [stateAt_succ, stateAt_succ, hbefore m le_rfl, hfix _ hadmitted]
  exact ⟨n, hsame n le_rfl n le_rfl ▸ hQ, fun m hm => hsame n le_rfl m hm.le ▸ hW m hm⟩

end FairlyLeadsTo

/-! ### Components -/

/-- From this state on, every run whose edges are admitted comes to `Q`, through `W`. -/
inductive Inevitable (step : σ → ι → σ) (ok : σ → ι → Prop) (W Q : σ → Prop) : σ → Prop
  | now {s : σ} : Q s → Inevitable step ok W Q s
  | later {s : σ} : W s → (∀ i, ok s i → Inevitable step ok W Q (step s i)) →
      Inevitable step ok W Q s

/-- **What `LeadsTo` promises is inevitable**, if no state of the invariant `I` is without an
admitted edge. -/
theorem LeadsTo.inevitable_within {ok : σ → ι → Prop} {W P Q I : σ → Prop}
    (hI : ∀ s i, I s → ok s i → I (step s i)) (hser : ∀ s, I s → ∃ i, ok s i)
    (h : LeadsTo step ok W P Q) {s : σ} (hs : P s) (hIs : I s) : Inevitable step ok W Q s := by
  -- the contrary: a run along admitted edges that avoids `Q` for good
  classical
  by_contra hnot
  -- an admitted edge at every state, to a state that avoids `Q` wherever there is one
  have hchoice : ∀ s, ∃ i, I s → ok s i ∧
      ((∃ j, ok s j ∧ ¬ Inevitable step ok W Q (step s j)) →
        ¬ Inevitable step ok W Q (step s i)) := by
    intro s
    by_cases hj : ∃ j, ok s j ∧ ¬ Inevitable step ok W Q (step s j)
    · obtain ⟨j, hok, hj'⟩ := hj
      exact ⟨j, fun _ => ⟨hok, fun _ => hj'⟩⟩
    · by_cases hsI : I s
      · obtain ⟨i, hi⟩ := hser s hsI
        exact ⟨i, fun _ => ⟨hi, fun h => absurd h hj⟩⟩
      · obtain ⟨i, -⟩ := hser _ hIs
        exact ⟨i, fun h => absurd h hsI⟩
  choose next hnext using hchoice
  let inp : ℕ → ι := fun n => next ((fun s => step s (next s))^[n] s)
  -- the inputs are chosen along the run that they make
  have hstate : ∀ n, stateAt step s inp n = (fun s => step s (next s))^[n] s := by
    intro n
    induction n with
    | zero => rfl
    | succ n ih => rw [stateAt_succ, ih, Function.iterate_succ_apply']
  have hedge : ∀ n, inp n = next (stateAt step s inp n) := fun n => by rw [hstate n]
  have hinv : ∀ n, I (stateAt step s inp n) := by
    intro n
    induction n with
    | zero => exact hIs
    | succ n ih =>
      rw [stateAt_succ]
      refine hI _ _ ih ?_
      rw [hedge]
      exact (hnext _ ih).1
  -- `LeadsTo` brings this run to `Q`, against its choice
  obtain ⟨n, hQ, hW⟩ := h s hs inp fun n => by rw [hedge]; exact (hnext _ (hinv n)).1
  have havoid : ∀ m ≤ n, ¬ Inevitable step ok W Q (stateAt step s inp m) := by
    intro m hm
    induction m with
    | zero => exact hnot
    | succ m ih =>
      rw [stateAt_succ, hedge]
      refine (hnext _ (hinv m)).2 ?_
      by_contra hnone
      simp only [not_exists, not_and, not_not] at hnone
      exact ih (by omega) (.later (hW m (by omega)) hnone)
  exact havoid n le_rfl (.now hQ)

/-- **What `LeadsTo` promises is inevitable**, if no state is without an admitted edge. -/
theorem LeadsTo.inevitable {ok : σ → ι → Prop} {W P Q : σ → Prop} (hser : ∀ s, ∃ i, ok s i)
    (h : LeadsTo step ok W P Q) {s : σ} (hs : P s) : Inevitable step ok W Q s :=
  h.inevitable_within (I := fun _ => True) (fun _ _ _ _ => trivial) (fun s _ => hser s) hs trivial

/-- **A component on its own clock.** While the rest of the machine waits in `J`, the edges of the
clock `a` are edges of the component, and those of the other clocks do not reach it. -/
theorem FairlyLeadsTo.of_component {π ν : Type*} {part : σ → π} {pstep : π → ν → π}
    {pok : π → ν → Prop} {V P Q : π → Prop} {W J : σ → Prop} (a : κ)
    (hser : ∀ p, ∃ v, pok p v) (h : LeadsTo pstep pok V P Q) (hW : ∀ s, J s → W s)
    (hown : ∀ s i, J s → V (part s) → ok i → kind i = a →
      J (step s i) ∧ ∃ v, pok (part s) v ∧ part (step s i) = pstep (part s) v)
    (hother : ∀ s i, J s → V (part s) → ok i → kind i ≠ a →
      J (step s i) ∧ part (step s i) = part s) :
    FairlyLeadsTo step kind ok W (fun s => J s ∧ P (part s)) (fun s => J s ∧ Q (part s)) := by
  -- by induction on what is inevitable for the component
  have hstate : ∀ p, Inevitable pstep pok V Q p →
      FairlyLeadsTo step kind ok W (fun s => J s ∧ part s = p) (fun s => J s ∧ Q (part s)) := by
    intro p hp
    induction hp with
    | now hQ => exact .of_imp fun s hs => ⟨hs.1, hs.2 ▸ hQ⟩
    | @later p hV _ ih =>
      -- the next edge of `a` moves the component on
      refine trans (Q := fun s => ∃ v, pok p v ∧ J s ∧ part s = pstep p v)
        (of_kind a (fun s hs => hW s hs.1) ?_ ?_) ?_
      · rintro s i ⟨hJ, rfl⟩ hok hne
        exact hother s i hJ hV hok hne
      · rintro s i ⟨hJ, rfl⟩ hok heq
        obtain ⟨hJ', v, hv, hpart⟩ := hown s i hJ hV hok heq
        exact ⟨v, hv, hJ', hpart⟩
      · rintro s ⟨v, hv, hs⟩
        exact ih v hv s hs
  rintro s ⟨hJ, hP⟩
  exact hstate _ (h.inevitable hser hP) s ⟨hJ, rfl⟩

end Clocked
