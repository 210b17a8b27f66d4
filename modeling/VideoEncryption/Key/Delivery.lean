import VideoEncryption.Key.Handshake

/-!
# Key delivery

What the receiver holds at the end of a round when a clock edge falls between any two accesses of
the program. Nothing is assumed of the receiver and of the signal registers before the program's
first access.

* `Spaced` — the schedules; `Started` — the invariant of spaced runs, which makes them timely;
* `Inv.delivered` — a round that has seen acknowledgement 10 has delivered its keys and its command;
* `Passing` — a round without a transfer leaves the receiver's data alone;
* `key_delivery` — **both, in every state of every spaced run**.
-/

namespace VideoEncryption
namespace Key

open Clocked

/-- A clock edge falls between any two consecutive accesses. -/
def Spaced (s : System) (a : Action) : Prop :=
  a = .access → s.pc = .initSig ∨ s.ticked = true

/-- What the receiver hands to the rest of the chip. -/
def Receiver.data (h : Receiver) :
    (Fin 8 → BitVec 8) × (Fin 10 → BitVec 8) × (Fin 3 → BitVec 8) × Bool :=
  (h.rowShift, h.columnShift, h.diagonalShift, h.command)

/-- The keys and the command of a round are in the receiver. -/
structure Delivered (k : Round) (h : Receiver) : Prop where
  row : ∀ i : Fin 8, h.rowShift i = k.rowKey i
  column : ∀ i : Fin 10, h.columnShift i = k.columnKey i
  encrypt : k.command = 'E' → h.command = true
  decrypt : k.command = 'D' → h.command = false

/-- The round has a command that starts a transfer. -/
def Transfers (k : Round) : Prop := k.command = 'E' ∨ k.command = 'D'

variable {rounds : ℕ → Round} {k : Round} {s : System}

/-! ### Delivery -/

/-- A round that has seen acknowledgement 10 has delivered everything. -/
theorem Inv.delivered (hs : Inv k s) (hpc : s.pc = .putZero) : Delivered k s.receiver := by
  rw [Inv, hpc] at hs
  obtain ⟨⟨hrow, hcolumn⟩, ⟨hE, hD⟩, -, hcommand⟩ := hs
  refine ⟨fun i => ?_, fun i => ?_, fun hc => ?_, fun hc => ?_⟩
  -- the slots are the bytes of the shift registers
  · have hslot := hrow (by decide) i i.isLt
    simpa only [Receiver.slot, Round.key, i.isLt, dite_true, Option.some.injEq, Fin.eta]
      using hslot
  · have hslot := hcolumn (by decide) i i.isLt
    simpa only [Receiver.slot, Round.key, i.isLt, dite_true, Option.some.injEq, Fin.eta]
      using hslot
  -- the command is the low bit of what the program wrote to the port
  · rw [hcommand, hE hc]
    rfl
  · rw [hcommand, hD hc]
    rfl

/-! ### Spaced runs are timely -/

/-- With code 0 on the wire, and cleared by the first clock edge. -/
def Clearing (s : System) : Prop :=
  s.toHwSig = 0 ∧ (s.ticked = true → s.receiver.toSwSig = 0 ∧ s.receiver.counter = 0)

/-- What spaced runs add to the invariant at the start of a round. -/
def StartedAt (s : System) : Pc → Prop
  | .initPort | .topSig | .topPort => Clearing s
  | .awaitSync .start | .writeSync .start => s.receiver.counter = 0
  | _ => True

/-- The invariant of spaced runs; the first two accesses only establish it. -/
structure Started (k : Round) (s : System) : Prop where
  inv : s.pc = .initSig ∨ s.pc = .initPort ∨ Inv k s
  started : StartedAt s s.pc

theorem Clearing.tick (hs : Clearing s) : Clearing s.tick := by
  refine ⟨hs.1, fun _ => ?_⟩
  rw [System.tick, hs.1]
  exact ⟨rfl, rfl⟩

/-- While code 0 or code 1 is on the wire, a clear counter stays clear. -/
theorem counter_tick (hs : Syncing .start s) (hc : s.receiver.counter = 0) :
    s.tick.receiver.counter = 0 := by
  rcases hs with ⟨hsig, -⟩ | ⟨hsig, -⟩
  · rw [System.tick, hsig]
    rfl
  · rw [System.tick, hsig]
    exact hc

theorem Started.tick (hs : Started k s) : Started k s.tick := by
  obtain ⟨hinv, hstarted⟩ := hs
  refine ⟨hinv.imp id (Or.imp id inv_tick), ?_⟩
  rw [show s.tick.pc = s.pc from rfl]
  cases hpc : s.pc <;> rw [hpc] at hstarted
  case initPort | topSig | topPort => exact Clearing.tick hstarted
  case awaitSync c | writeSync c =>
    cases c
    case start =>
      -- the codes on the wire in the first loop are 0 and 1, by the invariant
      have hsync : Inv k s := by simpa [hpc] using hinv
      rw [Inv, hpc] at hsync
      exact counter_tick hsync.2 hstarted
    all_goals trivial
  all_goals trivial

/-- A spaced access at the start of the program or with the invariant is timely. -/
theorem Started.timely (hs : Started k s) (hsp : Spaced s .access) : Timely s .access := by
  unfold Timely
  split
  case h_1 p i _ hpc =>
    -- the edge since the write of the store code
    exact (hsp rfl).resolve_left (by rw [hpc]; simp)
  case h_2 _ hpc =>
    -- the first loop is entered with the counter clear
    have hcounter := hs.started
    rw [hpc] at hcounter
    exact hcounter
  case h_3 => trivial

/-- An access leaves the start of a round only from a state with the counter clear. -/
theorem startedAt_access (hs : StartedAt s s.pc) (hsp : Spaced s .access) :
    StartedAt (step rounds s .access) (step rounds s .access).pc := by
  obtain ⟨pc, round, sig, port, h, ticked, stored⟩ := s
  cases pc
  case initSig | topSig | putZero => exact ⟨rfl, fun hf => absurd hf Bool.false_ne_true⟩
  case initPort => exact ⟨hs.1, fun hf => absurd hf Bool.false_ne_true⟩
  case topPort =>
    -- the edge since code 0 was written has cleared the counter
    have hticked : ticked = true := (hsp rfl).resolve_left (by simp)
    by_cases hcmd : (rounds round).command = 'E' ∨ (rounds round).command = 'D'
    · rw [step_topPort_of_command hcmd]
      exact (hs.2 hticked).2
    · rw [step_topPort_of_not hcmd]
      exact ⟨hs.1, fun hf => absurd hf Bool.false_ne_true⟩
  case awaitSync c =>
    change StartedAt _ (if h.toSwSig ≠ c.code then .writeSync c else .putPort c.phase 0)
    -- the first loop keeps what it was entered with
    split
    · cases c
      case start => exact hs
      all_goals trivial
    · trivial
  case writeSync c =>
    cases c
    case start => exact hs
    all_goals trivial
  case putPort | putSig | putNext | putCommand | putTen => trivial
  case check p i =>
    change StartedAt _ (if h.toSwSig = p.storeCode then .putNext p i else .poll p i)
    split <;> trivial
  case poll p i =>
    change StartedAt _ (if h.toSwSig ≠ p.nextCode then .poll p i
      else if i + 1 < p.length then .putPort p (i + 1) else p.after)
    -- the end of the row key and of the column key is another loop
    split_ifs
    · trivial
    · trivial
    · cases p <;> trivial
  case pollTen =>
    change StartedAt _ (if h.toSwSig ≠ 10 then .pollTen else .putZero)
    split <;> trivial

theorem Started.access (hs : Started (rounds s.round) s) (hsp : Spaced s .access) :
    Started (rounds (step rounds s .access).round) (step rounds s .access) := by
  refine ⟨?_, startedAt_access hs.started hsp⟩
  have hstarted := hs.started
  rcases hs.inv with hpc | hpc | hinv
  · -- the first access
    right
    left
    simp only [step, System.access, hpc]
  · -- the second one: a clock edge has seen code 0
    right
    right
    rw [hpc] at hstarted
    have hticked : s.ticked = true := (hsp rfl).resolve_left (by rw [hpc]; decide)
    have hack : s.receiver.toSwSig = 0 := (hstarted.2 hticked).1
    have hnext : (step rounds s .access).pc = .topSig := by
      simp only [step, System.access, hpc]
    have hsig : (step rounds s .access).toHwSig = s.toHwSig := by
      simp only [step, System.access, hpc]
    -- the second access writes the port and nothing else
    have hrec : (step rounds s .access).receiver = s.receiver := by
      simp only [step, System.access, hpc]
    rw [Inv, hnext]
    refine ⟨hsig.trans hstarted.1, ?_⟩
    rw [hrec, hack]
    decide
  · exact Or.inr (Or.inr (inv_access hinv (hs.timely hsp)))

/-- **Spaced steps** keep the invariant of spaced runs. -/
theorem started_step (a : Action) (hs : Started (rounds s.round) s) (hsp : Spaced s a) :
    Started (rounds (step rounds s a).round) (step rounds s a) := by
  cases a
  case access => exact hs.access hsp
  case tick => exact hs.tick

theorem started_start (k : Round) (sig port : BitVec 8) (h : Receiver) :
    Started k (start sig port h) :=
  ⟨Or.inl rfl, trivial⟩

theorem started_run {sig port : BitVec 8} {h : Receiver} {as : List Action}
    (hsp : Along (step rounds) Spaced (start sig port h) as) :
    Started (rounds (run (step rounds) (start sig port h) as).round)
      (run (step rounds) (start sig port h) as) :=
  run_invariant (I := fun t => Started (rounds t.round) t) (fun _ a ht hc => started_step a ht hc)
    (started_start _ sig port h) hsp

/-! ### Rounds without a transfer -/

/-- In round `r`, which transfers nothing, or at the top of the round after it: code 0 is on the
wire and the data are those the round found. -/
structure Passing (r : ℕ) (h : Receiver) (s : System) : Prop where
  place : (s.round = r ∧ (s.pc = .topSig ∨ s.pc = .topPort)) ∨ (s.round = r + 1 ∧ s.pc = .topSig)
  sig : s.toHwSig = 0
  data : s.receiver.data = h.data

/-- Past the top of the round after `r`. -/
def Past (r : ℕ) (s : System) : Prop :=
  s.pc ≠ .initSig ∧ s.pc ≠ .initPort ∧ ((s.round = r + 1 ∧ s.pc ≠ .topSig) ∨ r + 1 < s.round)

theorem Passing.tick {r : ℕ} {h : Receiver} (hs : Passing r h s) : Passing r h s.tick := by
  refine ⟨hs.place, hs.sig, ?_⟩
  rw [System.tick, hs.sig]
  exact hs.data

/-- An access past the first two stays in its round without reaching the top, or starts the next
round. -/
theorem access_round (rounds : ℕ → Round) (h₁ : s.pc ≠ .initSig) (h₂ : s.pc ≠ .initPort) :
    (step rounds s .access).pc ≠ .initSig ∧ (step rounds s .access).pc ≠ .initPort ∧
      (((step rounds s .access).round = s.round ∧ (step rounds s .access).pc ≠ .topSig) ∨
        (step rounds s .access).round = s.round + 1) := by
  obtain ⟨pc, round, sig, port, h, ticked, stored⟩ := s
  -- only the two ends of a round count it up, and only they lead to the top
  cases pc
  case initSig => exact absurd rfl h₁
  case initPort => exact absurd rfl h₂
  case poll p i =>
    simp only [step, System.access]
    cases p <;> split_ifs <;> simp [Phase.after]
  case topPort | awaitSync | check | pollTen =>
    simp only [step, System.access]
    split_ifs <;> simp
  all_goals simp [step, System.access]

theorem Past.step {r : ℕ} (hs : Past r s) (a : Action) : Past r (step rounds s a) := by
  obtain ⟨h₁, h₂, hplace⟩ := hs
  cases a
  case tick => exact ⟨h₁, h₂, hplace⟩
  case access =>
    obtain ⟨h₁', h₂', hround⟩ := access_round rounds h₁ h₂
    refine ⟨h₁', h₂', ?_⟩
    rcases hround with ⟨hround, hpc⟩ | hround
    -- the round has not moved on, so the program is not at its top
    · rw [hround]
      exact hplace.imp (fun h => ⟨h.1, hpc⟩) id
    · right
      omega

/-- A round that transfers nothing goes through its top to the top of the next round. -/
theorem Passing.step {r : ℕ} {h : Receiver} (hs : Passing r h s) (hr : ¬ Transfers (rounds r))
    (a : Action) : Passing r h (step rounds s a) ∨ Past r (step rounds s a) := by
  cases a
  case tick => exact Or.inl hs.tick
  case access =>
    obtain ⟨hplace, hsig, hdata⟩ := hs
    obtain ⟨pc, round, sig, port, rec, ticked, stored⟩ := s
    simp only at hplace hsig hdata
    -- the two accesses at the top of round `r`, and the first one of the next round
    rcases hplace with ⟨rfl, rfl | rfl⟩ | ⟨rfl, rfl⟩
    · exact Or.inl ⟨Or.inl ⟨rfl, Or.inr rfl⟩, rfl, hdata⟩
    · rw [step_topPort_of_not hr]
      exact Or.inl ⟨Or.inr ⟨rfl, rfl⟩, hsig, hdata⟩
    · exact Or.inr ⟨by simp [Key.step, System.access], by simp [Key.step, System.access],
        Or.inl ⟨rfl, by simp [Key.step, System.access]⟩⟩

/-- From the top of a round that transfers nothing, the data stay the same up to the top of the next
round. -/
theorem passing_run {h : Receiver} {r : ℕ} (hs : Passing r h s) (hr : ¬ Transfers (rounds r))
    (bs : List Action)
    (ht : (run (step rounds) s bs).round = r ∨
      ((run (step rounds) s bs).round = r + 1 ∧ (run (step rounds) s bs).pc = .topSig)) :
    (run (step rounds) s bs).receiver.data = h.data := by
  -- a run that leaves `Passing` is past the round for good
  have hrun : Passing r h (run (step rounds) s bs) ∨ Past r (run (step rounds) s bs) := by
    refine run_invariant (I := fun t => Passing r h t ∨ Past r t) (fun t a hI _ => ?_) (Or.inl hs)
      (along_true s bs)
    rcases hI with hI | hI
    · exact hI.step hr a
    · exact Or.inr (hI.step a)
  rcases hrun with hpass | ⟨-, -, hpast⟩
  · exact hpass.data
  · rcases ht with hround | ⟨hround, hpc⟩
    · omega
    · exact absurd hpc (hpast.resolve_right (by omega)).2

/-! ### Every spaced run -/

/-- **Key delivery.** In every spaced run, whatever the receiver and the signal registers were
before: a round that has seen acknowledgement 10 has delivered its keys and its command; and a round
with another command leaves the data as it found them, up to the top of the next round. -/
theorem key_delivery (rounds : ℕ → Round) (sig port : BitVec 8) (h : Receiver) (as : List Action)
    (hsp : Along (step rounds) Spaced (start sig port h) as) :
    ((run (step rounds) (start sig port h) as).pc = .putZero →
      Delivered (rounds (run (step rounds) (start sig port h) as).round)
        (run (step rounds) (start sig port h) as).receiver) ∧
    ((run (step rounds) (start sig port h) as).pc = .topSig →
      ¬ Transfers (rounds (run (step rounds) (start sig port h) as).round) →
      ∀ bs : List Action,
        ((run (step rounds) (start sig port h) (as ++ bs)).round
            = (run (step rounds) (start sig port h) as).round ∨
          ((run (step rounds) (start sig port h) (as ++ bs)).round
              = (run (step rounds) (start sig port h) as).round + 1 ∧
            (run (step rounds) (start sig port h) (as ++ bs)).pc = .topSig)) →
        (run (step rounds) (start sig port h) (as ++ bs)).receiver.data
          = (run (step rounds) (start sig port h) as).receiver.data) := by
  have hs := started_run hsp
  refine ⟨fun hpc => ?_, fun hpc hr bs ht => ?_⟩
  · -- past the first two accesses the invariant of the handshake holds
    rcases hs.inv with hinit | hinit | hinv
    · exact absurd (hpc.symm.trans hinit) (by decide)
    · exact absurd (hpc.symm.trans hinit) (by decide)
    · exact hinv.delivered hpc
  · -- at the top code 0 is on the wire, whatever the round before was
    have hclear := hs.started
    rw [hpc] at hclear
    rw [run_append] at ht ⊢
    exact passing_run ⟨Or.inl ⟨rfl, Or.inl hpc⟩, hclear.1, rfl⟩ hr bs ht

/-- A clock edge before every access. -/
def spacedActions (n : ℕ) : List Action := (List.replicate n [.tick, .access]).flatten

theorem along_spacedActions (s : System) (n : ℕ) :
    Along (step rounds) Spaced s (spacedActions n) := by
  induction n generalizing s with
  | zero => exact along_nil _ _
  | succ n ih =>
    have hcons : spacedActions (n + 1) = .tick :: .access :: spacedActions n := by
      rw [spacedActions, List.replicate_succ, List.flatten_cons]
      rfl
    rw [hcons, along_cons, along_cons]
    exact ⟨(fun h => nomatch h), fun _ => Or.inr rfl, ih _⟩

/-- One round from power-up, up to the acknowledgement of its command. -/
theorem key_delivery_round :
    Delivered (exampleRounds 0)
      (run (step exampleRounds) (start 0 0 powerUp) (spacedActions 121)).receiver := by
  have hpc : (run (step exampleRounds) (start 0 0 powerUp) (spacedActions 121)).pc = .putZero := by
    decide +kernel
  have hround : (run (step exampleRounds) (start 0 0 powerUp) (spacedActions 121)).round = 0 := by
    decide +kernel
  have hdelivered := (key_delivery exampleRounds 0 0 powerUp (spacedActions 121)
    (along_spacedActions _ _)).1 hpc
  rwa [hround] at hdelivered

end Key
end VideoEncryption
