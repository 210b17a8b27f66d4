import VideoEncryption.Sccb.Master
import VideoEncryption.Clocked.Word

/-!
# Who drives the data wire

The master shares `sdiod` with the camera: the ninth bit of every byte and the eight bits of a
register that is read belong to the camera, and between transactions the wire should be released.
The source releases it in `HALT` and `STOP` only. Every other routine leaves the wire at its last
level, which is a driven one from `PREP` on.

* `Driven` — the invariant of runs from a reset; `released_iff` — what is released, tick by tick;
* `OpenAt` — the first twenty ticks of a transaction;
* `releases_bus_iff` — **which runs never drive the wire out of turn**.
-/

namespace VideoEncryption
namespace Sccb

open Clocked

/-! ### Turns -/

/-- The tick belongs to the ninth bit of a byte that the master sends. -/
def Master.NinthBit (s : Master) : Prop :=
  (s.state = .phase1 ∨ s.state = .phase2 ∨ s.state = .input ∨ s.state = .phase3) ∧
    ((s.camClk = false ∧ s.stateCounter = 8) ∨ (s.camClk = true ∧ s.stateCounter = 9))

/-- The tick belongs to one of the eight bits that the camera sends in `Phase4`. -/
def Master.ReadBit (s : Master) : Prop :=
  s.state = .phase4 ∧
    ((s.camClk = false ∧ s.stateCounter < 8) ∨
      (s.camClk = true ∧ 0 < s.stateCounter ∧ s.stateCounter ≤ 8))

/-- The endless hiatus: `FIN` after the last register. -/
def Master.Hiatus (s : Master) : Prop := s.state = .fin ∧ s.sccbCounter = 0x3b

/-- The tick is not the master's: a slot of the camera, or no transaction in progress. -/
def Master.NotItsTurn (s : Master) : Prop :=
  s.NinthBit ∨ s.ReadBit ∨ s.state = .halt ∨ s.state = .stop ∨ s.Hiatus

/-- The wire is released after every tick of the run that is not the master's. -/
def ReleasesBus (s : Master) (inp : ℕ → Port) : Prop :=
  ∀ n, (stateAt Master.tick s inp n).NotItsTurn → (stateAt Master.tick s inp (n + 1)).sdiod = none

/-! ### What is released -/

/-- From `Phase1` on the wire is driven. -/
def Driven (s : Master) : Prop :=
  s.state = .halt ∨ s.state = .stop ∨ s.state = .prep ∨ s.sdiod.isSome

variable {s : Master} {p : Port} {j : ℕ}

/-- A routine other than those of `HALT` and `STOP` keeps a driven wire driven, and `PREP` drives
it. -/
theorem isSome_tick (hhalt : s.state ≠ .halt) (hstop : s.state ≠ .stop)
    (h : s.state = .prep ∨ s.sdiod.isSome) : (s.tick p).sdiod.isSome := by
  change (s.routine p).sdiod.isSome
  unfold Master.routine
  cases hs : s.state
  case halt => exact absurd hs hhalt
  case stop => exact absurd hs hstop
  case prep =>
    dsimp only [Master.prepRoutine]
    split <;> rfl
  all_goals replace h : s.sdiod.isSome := h.resolve_left (by simp [hs])
  -- a phase that sends a byte drives a bit of it or leaves the wire
  case phase1 | phase2 | phase3 =>
    simp only [Master.phase1Routine, Master.phase2Routine, Master.phase3Routine, Master.sendByte]
    split_ifs <;> first | exact h | rfl
  case input =>
    simp only [Master.inputRoutine]
    split_ifs <;> first | exact h | rfl
  case phase4 =>
    simp only [Master.phase4Routine]
    split_ifs <;> first | exact h | rfl
  -- the other routines drive a level
  all_goals rfl

theorem Driven.tick (h : Driven s) : Driven (s.tick p) := by
  by_cases hhalt : s.state = .halt
  · simp only [Driven, Master.tick, Master.nextState, hhalt]
    split_ifs <;> simp
  by_cases hstop : s.state = .stop
  · simp only [Driven, Master.tick, Master.nextState, hstop]
    split_ifs <;> simp
  · exact Or.inr (Or.inr (Or.inr (isSome_tick hhalt hstop
      ((h.resolve_left hhalt).resolve_left hstop))))

theorem driven_stateAt (hs : s.state = .halt) (inp : ℕ → Port) (n : ℕ) :
    Driven (stateAt Master.tick s inp n) :=
  stateAt_invariant (c := fun _ _ => True) (I := Driven) (fun _ _ h _ => h.tick) (Or.inl hs)
    (fun _ => trivial) n

/-- **What is released**: out of its turn the master releases the wire in `HALT` and in `STOP`, and
nowhere else. -/
theorem released_iff (h : Driven s) (hturn : s.NotItsTurn) :
    (s.tick p).sdiod = none ↔ s.state = .halt ∨ s.state = .stop := by
  constructor
  · intro hnone
    -- out of its turn the master is in none of the other states that drive
    by_contra hne
    rw [not_or] at hne
    have hprep : s.state ≠ .prep := by
      intro hs
      simp [Master.NotItsTurn, Master.NinthBit, Master.ReadBit, Master.Hiatus, hs] at hturn
    have hsome : (s.tick p).sdiod.isSome := isSome_tick hne.1 hne.2
      (Or.inr (((h.resolve_left hne.1).resolve_left hne.2).resolve_left hprep))
    simp [hnone] at hsome
  · rintro (hs | hs) <;>
      simp only [Master.tick, Master.routine, Master.haltRoutine, Master.stopRoutine, hs]

/-! ### The first ticks of a transaction -/

/-- `j` ticks after `STOP` was executed, up to the ninth bit of `Phase1`: three ticks of `PREP`,
then two for every bit. -/
def OpenAt (j : ℕ) (s : Master) : Prop :=
  if j ≤ 3 then
    s.state = .prep ∧ s.prepSig1 = decide (1 < j) ∧ s.prepSig2 = decide (2 < j) ∧
      s.stateCounter = 0 ∧ s.camClk = false
  else
    s.state = .phase1 ∧ s.stateCounter = BitVec.ofNat 5 ((j - 3) / 2) ∧
      s.camClk = decide (j % 2 = 1)

theorem openAt_stop (hs : s.state = .stop) (hp : p.reset = false) : OpenAt 1 (s.tick p) := by
  simp [OpenAt, Master.tick, Master.routine, Master.nextState, Master.stopRoutine, hs, hp]

theorem OpenAt.tick (h1 : 1 ≤ j) (hj : j < 20) (h : OpenAt j s) (hp : p.reset = false) :
    OpenAt (j + 1) (s.tick p) := by
  unfold OpenAt at h
  split_ifs at h with h3
  · -- `PREP` drives the wire high, then low, and lags its own flag by a tick
    obtain ⟨hstate, hsig1, hsig2, hcounter, hclk⟩ := h
    interval_cases j <;>
      simp_all [OpenAt, Master.tick, Master.routine, Master.nextState, Master.prepRoutine]
  · -- a low half counts the bit, a high half leaves the counter
    obtain ⟨hstate, hcounter, hclk⟩ := h
    interval_cases j <;>
      simp_all [OpenAt, Master.tick, Master.routine, Master.nextState, Master.phase1Routine,
        Master.sendByte]

/-- Before the ninth bit of `Phase1` no tick of a transaction is out of turn. -/
theorem OpenAt.its_turn (hj : j < 20) (h : OpenAt j s) : ¬ s.NotItsTurn := by
  unfold OpenAt at h
  unfold Master.NotItsTurn Master.NinthBit Master.ReadBit Master.Hiatus
  split_ifs at h with h3
  · simp [h.1]
  · obtain ⟨hstate, hcounter, hclk⟩ := h
    interval_cases j <;> simp_all

/-- Twenty ticks after `STOP` comes the ninth bit. -/
theorem OpenAt.ninthBit (h : OpenAt 20 s) : s.NinthBit := by
  obtain ⟨hstate, hcounter, hclk⟩ := h
  exact ⟨Or.inl hstate, Or.inl ⟨hclk, hcounter⟩⟩

/-! ### Which runs release the wire -/

variable {inp : ℕ → Port} {n : ℕ}

/-- Without a reset a transaction gets to the ninth bit. -/
theorem openAt_stateAt (hs : (stateAt Master.tick s inp n).state = .stop) (h1 : 1 ≤ j)
    (hj : j ≤ 20) (hp : ∀ k < j, (inp (n + k)).reset = false) :
    OpenAt j (stateAt Master.tick s inp (n + j)) := by
  induction j, h1 using Nat.le_induction with
  | base => exact openAt_stop hs (hp 0 (by omega))
  | succ j h1 ih =>
    rw [← Nat.add_assoc, stateAt_succ]
    exact (ih (by omega) fun k hk => hp k (by omega)).tick h1 (by omega) (hp j (by omega))

/-- `Reset` is sampled at one of the twenty edges that begin with `STOP`'s own, for every tick in
`STOP`. -/
def CutShort (s : Master) (inp : ℕ → Port) : Prop :=
  ∀ n, (stateAt Master.tick s inp n).state = .stop → ∃ k < 20, (inp (n + k)).reset = true

/-- A run that is always cut short is in `HALT`, in `STOP` or less than twenty ticks after a
`STOP`. -/
theorem CutShort.place (hs : s.state = .halt) (hcut : CutShort s inp) (n : ℕ) :
    (stateAt Master.tick s inp n).state = .halt ∨ (stateAt Master.tick s inp n).state = .stop ∨
      ∃ j < 20, OpenAt j (stateAt Master.tick s inp n) ∧ 1 ≤ j ∧ j ≤ n ∧
        (stateAt Master.tick s inp (n - j)).state = .stop ∧
        ∀ k < j, (inp (n - j + k)).reset = false := by
  induction n with
  | zero => exact Or.inl hs
  | succ n ih =>
    rw [stateAt_succ]
    -- a reset leads to `HALT`, from wherever it finds the run
    cases hr : (inp n).reset
    case true => simp [Master.tick, hr]
    rcases ih with hhalt | hstop | ⟨j, hj, hopen, h1, hjn, hstop, hp⟩
    · simp only [Master.tick, Master.nextState, hhalt, hr]
      split_ifs <;> simp_all
    -- the edge that executes `STOP` is the first of the twenty
    · refine Or.inr (Or.inr ⟨1, by omega, openAt_stop hstop hr, le_rfl, by omega, hstop, ?_⟩)
      intro k hk
      obtain rfl : k = 0 := by omega
      exact hr
    · -- the reset that cuts the transaction short is still ahead
      have hlt : j + 1 < 20 := by
        by_contra hge
        obtain ⟨k, hk, hreset⟩ := hcut (n - j) hstop
        rcases Nat.lt_or_ge k j with hkj | hkj
        · simp [hp k hkj] at hreset
        · rw [show n - j + k = n by omega, hr] at hreset
          exact absurd hreset (by decide)
      refine Or.inr (Or.inr ⟨j + 1, hlt, hopen.tick h1 hj hr, by omega, by omega, ?_, ?_⟩)
      · rwa [show n + 1 - (j + 1) = n - j by omega]
      · intro k hk
        rw [show n + 1 - (j + 1) + k = n - j + k by omega]
        rcases Nat.lt_or_ge k j with hkj | hkj
        · exact hp k hkj
        · rwa [show n - j + k = n by omega]

/-- **Which runs never drive the wire out of turn.** In every run from a reset, a tick that is not
the master's releases the wire exactly when it is spent in `HALT` or `STOP`, and so the whole run
never drives it out of turn exactly when every transaction is cut short by a reset before the ninth
bit of its first byte: at one of twenty edges, `STOP`'s own being the first. -/
theorem releases_bus_iff (s : Master) (hs : s.state = .halt) (inp : ℕ → Port) :
    (∀ n, (stateAt Master.tick s inp n).NotItsTurn →
      ((stateAt Master.tick s inp (n + 1)).sdiod = none ↔
        (stateAt Master.tick s inp n).state = .halt ∨
          (stateAt Master.tick s inp n).state = .stop)) ∧
      (ReleasesBus s inp ↔ CutShort s inp) := by
  have hreleased : ∀ n, (stateAt Master.tick s inp n).NotItsTurn →
      ((stateAt Master.tick s inp (n + 1)).sdiod = none ↔
        (stateAt Master.tick s inp n).state = .halt ∨
          (stateAt Master.tick s inp n).state = .stop) :=
    fun n hturn => released_iff (driven_stateAt hs inp n) hturn
  refine ⟨hreleased, fun hrel n hstop => ?_, fun hcut n hturn => (hreleased n hturn).mpr ?_⟩
  · -- a transaction that is not cut short drives the ninth bit
    by_contra hno
    simp only [not_exists, not_and, Bool.not_eq_true] at hno
    have hninth := (openAt_stateAt (j := 20) hstop (by omega) le_rfl
      fun k hk => hno k hk).ninthBit
    have hnone := hrel (n + 20) (Or.inl hninth)
    rw [hreleased (n + 20) (Or.inl hninth)] at hnone
    obtain ⟨hstate, -⟩ := hninth
    rcases hnone with h | h <;> simp [h] at hstate
  -- within twenty edges of `STOP` every tick is the master's own turn
  · rcases hcut.place hs n with h | h | ⟨j, hj, hopen, -⟩
    · exact Or.inl h
    · exact Or.inr h
    · exact absurd hturn (hopen.its_turn hj)

/-- `SCCB_Run` for one edge, and no reset after it. -/
def runOnce : ℕ → Port := fun n => ⟨false, n == 0, false⟩

/-- `SCCB_Run` for one edge, and a reset in the fifth bit of the transaction's first byte. -/
def resetInTime : ℕ → Port := fun n => ⟨n == 13, n == 0, false⟩

/-- That reset sends the master to `HALT` for good. -/
theorem halt_after_reset (n : ℕ) :
    (stateAt Master.tick powerUp resetInTime (14 + n)).state = .halt := by
  induction n with
  | zero => decide
  | succ n ih =>
    rw [← Nat.add_assoc, stateAt_succ]
    simp [Master.tick, Master.nextState, ih, resetInTime]

/-- A transaction that gets into `Phase1` and is cut short there. -/
theorem releases_bus_in_time :
    (stateAt Master.tick powerUp resetInTime 13).state = .phase1 ∧
      (stateAt Master.tick powerUp resetInTime 13).sdiod = some false ∧
      ReleasesBus powerUp resetInTime := by
  refine ⟨by decide, by decide, (releases_bus_iff powerUp rfl resetInTime).2.mpr fun n hstop => ?_⟩
  rcases Nat.lt_or_ge n 14 with hn | hn
  · -- the only tick in `STOP` is the second one
    have h1 : n = 1 := by
      interval_cases n <;> first | rfl | exact absurd hstop (by decide)
    exact h1 ▸ ⟨12, by decide, rfl⟩
  -- from the reset on the run stays in `HALT`
  · obtain ⟨m, rfl⟩ := Nat.exists_eq_add_of_le hn
    exact absurd hstop (by rw [halt_after_reset]; decide)

/-- In the first transaction after power-up the ninth bit of the write address is driven. -/
theorem ninth_bit_driven : ¬ ReleasesBus powerUp runOnce := by
  intro h
  have hninth : (stateAt Master.tick powerUp runOnce 21).NinthBit :=
    ⟨Or.inl (by decide), Or.inl (by decide)⟩
  exact absurd (h 21 (Or.inl hninth)) (by decide)

end Sccb
end VideoEncryption
