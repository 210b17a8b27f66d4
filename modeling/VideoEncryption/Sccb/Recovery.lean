import VideoEncryption.Sccb.Master

/-!
# Recovery by reset

`Reset` reaches the state register alone, and the other registers keep whatever an interrupted
transaction left in them. This file says that it does not matter: two masters with any registers
behave alike on the bus from the first tick in `HALT` on.

* `Agree` — what two masters have in common from then on, register by register: those that `HALT`
  loads at once, those that `STOP` clears from `PREP` on, and the data bit from the first bit on;
* `Agree.tick` — the ticks keep it; `agree_halt` — a tick in `HALT` establishes it;
* `reset_recovery` — **two runs from any two states agree on the bus**.
-/

namespace VideoEncryption
namespace Sccb

open Clocked

/-! ### Masters that agree -/

/-- The registers that `STOP` clears. -/
def Master.counters (s : Master) :
    BitVec 5 × Bool × Bool × Bool × Bool × BitVec 16 × BitVec 8 :=
  (s.stateCounter, s.prepComplete, s.camClk, s.prepSig1, s.prepSig2, s.garbage, s.garbage2)

/-- `STOP` has been executed, and `FIN` has not led back to it. -/
def Master.Busy (s : Master) : Prop := s.state ≠ .halt ∧ s.state ≠ .stop

/-- `curr_data` holds a bit of this transaction: the first bit of `Phase1` has been sent. -/
def Master.Latched (s : Master) : Prop :=
  s.Busy ∧ s.state ≠ .prep ∧ ¬ (s.state = .phase1 ∧ s.camClk = false ∧ s.stateCounter = 0)

/-- What two masters have in common. -/
structure Agree (s t : Master) : Prop where
  state : s.state = t.state
  sccbCounter : s.sccbCounter = t.sccbCounter
  sdioc : s.sdioc = t.sdioc
  sdiod : s.sdiod = t.sdiod
  ipAddressWrite : s.ipAddressWrite = t.ipAddressWrite
  ipAddressRead : s.ipAddressRead = t.ipAddressRead
  subAddress : s.subAddress = t.subAddress
  writeData : s.writeData = t.writeData
  counters : s.Busy → s.counters = t.counters
  cleared : s.state = .prep → s.stateCounter = 0 ∧ s.camClk = false
  currData : s.Latched → s.currData = t.currData

/-- Inputs that two runs have in common: `Reset`, and `SCCB_Run` where there is no reset. The
camera's level on the data wire is left free. -/
def SameRun (p q : Port) : Prop := p.reset = q.reset ∧ (p.reset = false → p.sccbRun = q.sccbRun)

variable {s t : Master} {p q : Port}

/-- `s` with other bits in `curr_data` and `Read_data`. -/
def Master.withData (s : Master) (c : Bool) (r : BitVec 8) : Master :=
  { s with currData := c, readData := r }

/-- Once `STOP` has been executed only the two data registers can differ. -/
theorem Agree.eq_withData (h : Agree s t) (hb : s.Busy) :
    t = s.withData t.currData t.readData := by
  obtain ⟨h1, h2, h3, h4, h5, h6, h7, h8, h9, -, -⟩ := h
  have h9 := h9 hb
  cases s
  cases t
  simp_all [Master.counters, Master.withData]

theorem agree_withData {c : Bool} {r : BitVec 8}
    (hclear : s.state = .prep → s.stateCounter = 0 ∧ s.camClk = false)
    (hc : s.Latched → s.currData = c) : Agree s (s.withData c r) :=
  ⟨rfl, rfl, rfl, rfl, rfl, rfl, rfl, rfl, fun _ => rfl, hclear, hc⟩

/-- The low half of a byte's first pulse loads `curr_data` without looking at it. -/
theorem sendByte_withData (byte : BitVec 8) {c : Bool} (r : BitVec 8)
    (hc : ¬ (s.camClk = false ∧ s.stateCounter = 0) → s.currData = c) :
    (s.withData c r).sendByte byte = (s.sendByte byte).withData (s.sendByte byte).currData r := by
  by_cases hfirst : s.camClk = false ∧ s.stateCounter = 0
  · obtain ⟨hclk, hzero⟩ := hfirst
    simp [Master.sendByte, Master.withData, hclk, hzero]
  · obtain rfl := hc hfirst
    by_cases hclk : s.camClk = false <;> simp [Master.sendByte, Master.withData, hclk]

/-- The routine of a state after `STOP` does not look at the two data registers before it has set
them. -/
theorem routine_withData (hb : s.Busy) {c : Bool} (r : BitVec 8)
    (hc : s.Latched → s.currData = c) :
    ∃ c' r', (s.withData c r).routine q = (s.routine p).withData c' r' ∧
      (s.state ≠ .prep → c' = (s.routine p).currData) := by
  obtain ⟨hhalt, hstop⟩ := hb
  unfold Master.routine
  rw [show (s.withData c r).state = s.state from rfl]
  cases hs : s.state
  case halt => exact absurd hs hhalt
  case stop => exact absurd hs hstop
  case prep =>
    refine ⟨c, r, ?_, fun h => absurd rfl h⟩
    by_cases hsig : s.prepSig1 = false <;> simp [Master.prepRoutine, Master.withData, hsig]
  case phase1 =>
    refine ⟨_, r, sendByte_withData _ r fun h => hc ⟨⟨hhalt, hstop⟩, ?_, ?_⟩, fun _ => rfl⟩
    · simp [hs]
    · simpa [hs] using h
  case phase2 | phase3 =>
    refine ⟨_, r, sendByte_withData _ r fun _ => hc ⟨⟨hhalt, hstop⟩, ?_, ?_⟩, fun _ => rfl⟩
    · simp [hs]
    · simp [hs]
  -- past the first bit `curr_data` has been set, and then it is the same for both
  all_goals
    obtain rfl : s.currData = c := hc ⟨⟨hhalt, hstop⟩, by simp [hs], by simp [hs]⟩
  case input =>
    refine ⟨_, r, ?_, fun _ => rfl⟩
    by_cases hclk : s.camClk = false <;> simp [Master.inputRoutine, Master.withData, hclk]
  case «break» => exact ⟨_, r, rfl, fun _ => rfl⟩
  -- `read_data` takes what the camera drives, which may differ
  case phase4 =>
    refine ⟨_, ((s.withData s.currData r).phase4Routine q).readData, ?_, fun _ => rfl⟩
    by_cases hclk : s.camClk = false <;> simp [Master.phase4Routine, Master.withData, hclk]
  case fin => exact ⟨_, r, rfl, fun _ => rfl⟩

theorem nextState_withData (hb : s.Busy) {c : Bool} {r : BitVec 8} :
    (s.withData c r).nextState q = s.nextState p := by
  obtain ⟨hhalt, -⟩ := hb
  unfold Master.nextState
  rw [show (s.withData c r).state = s.state from rfl]
  cases hs : s.state
  case halt => exact absurd hs hhalt
  all_goals rfl

/-! ### Ticks -/

/-- A tick in `HALT` makes any two masters agree. -/
theorem agree_halt (hs : s.state = .halt) (ht : t.state = .halt) (hpq : SameRun p q) :
    Agree (s.tick p) (t.tick q) := by
  obtain ⟨hreset, hrun⟩ := hpq
  -- `HALT` leads to itself or to `STOP`
  have hidle : ¬ (s.tick p).Busy := by
    simp only [Master.Busy, Master.tick, Master.nextState, hs]
    split_ifs <;> simp
  have hprep : (s.tick p).state ≠ .prep := by
    simp only [Master.tick, Master.nextState, hs]
    split_ifs <;> simp
  have hstate : (s.tick p).state = (t.tick q).state := by
    simp only [Master.tick, Master.nextState, hs, ht, ← hreset]
    cases hr : p.reset
    · rw [hrun hr]
    · rfl
  refine ⟨hstate, ?_, ?_, ?_, ?_, ?_, ?_, ?_, fun h => absurd h hidle, fun h => absurd h hprep,
    fun h => absurd h.1 hidle⟩ <;>
    simp only [Master.tick, Master.routine, Master.haltRoutine, hs, ht]

/-- A tick in `STOP` clears the counters of both. -/
theorem Agree.tick_stop (h : Agree s t) (hs : s.state = .stop) (hreset : p.reset = q.reset) :
    Agree (s.tick p) (t.tick q) := by
  have ht : t.state = .stop := h.state.symm.trans hs
  -- `STOP` leads to `PREP` or to `HALT`, where nothing is latched yet
  have hlatch : ¬ (s.tick p).Latched := by
    rintro ⟨⟨hhalt, -⟩, hprep, -⟩
    simp only [Master.tick, Master.nextState, hs] at hhalt hprep
    split_ifs at hhalt hprep
    · exact hhalt rfl
    · exact hprep rfl
  refine ⟨?_, ?_, ?_, ?_, ?_, ?_, ?_, ?_, fun _ => ?_, fun _ => ?_, fun hl => absurd hl hlatch⟩ <;>
    simp only [Master.tick, Master.routine, Master.nextState, Master.stopRoutine, Master.counters,
      hs, ht, hreset]
  · rw [h.sccbCounter]
  · exact h.ipAddressWrite
  · exact h.ipAddressRead
  · exact h.subAddress
  · exact h.writeData
  · exact ⟨trivial, trivial⟩

/-- Past `STOP` a tick that is not in `PREP` does not lead there. -/
theorem of_tick_prep (hb : s.Busy) (h : (s.tick p).state = .prep) : s.state = .prep := by
  obtain ⟨hhalt, hstop⟩ := hb
  simp only [Master.tick, Master.nextState] at h
  cases hs : s.state <;> simp only [hs] at h hhalt hstop <;> split_ifs at h <;> simp_all

/-- A tick in `PREP` keeps the bit counter and the half-clock clear. -/
theorem tick_prep (hs : s.state = .prep) (hclear : s.stateCounter = 0 ∧ s.camClk = false) :
    (s.tick p).stateCounter = 0 ∧ (s.tick p).camClk = false ∧ ¬ (s.tick p).Latched := by
  have hcounter : (s.tick p).stateCounter = 0 ∧ (s.tick p).camClk = false := by
    simp only [Master.tick, Master.routine, Master.prepRoutine, hs]
    split <;> exact hclear
  refine ⟨hcounter.1, hcounter.2, ?_⟩
  -- `PREP` leads to the first bit of `Phase1`
  rintro ⟨⟨hhalt, -⟩, hprep, hfirst⟩
  have hstate : (s.tick p).state = .halt ∨ (s.tick p).state = .prep ∨
      (s.tick p).state = .phase1 := by
    simp only [Master.tick, Master.nextState, hs]
    split_ifs <;> simp
  rcases hstate with h | h | h
  · exact hhalt h
  · exact hprep h
  · exact hfirst ⟨h, hcounter.2, hcounter.1⟩

/-- A tick after `STOP`. -/
theorem Agree.tick_busy (h : Agree s t) (hb : s.Busy) (hreset : p.reset = q.reset) :
    Agree (s.tick p) (t.tick q) := by
  have ht := h.eq_withData hb
  obtain ⟨c, r, hroutine, hdata⟩ := routine_withData (p := p) (q := q) hb t.readData h.currData
  rw [← ht] at hroutine
  -- the states do not look at the data registers at all
  have hnext : t.nextState q = s.nextState p := by
    rw [ht]
    exact nextState_withData hb
  have htick : t.tick q = (s.tick p).withData c r := by
    rw [Master.tick, hroutine, hnext, ← hreset]
    rfl
  rw [htick]
  by_cases hs : s.state = .prep
  · obtain ⟨hcounter, hclk, hlatch⟩ := tick_prep (p := p) hs (h.cleared hs)
    exact agree_withData (fun _ => ⟨hcounter, hclk⟩) fun hl => absurd hl hlatch
  · exact agree_withData (fun hp => absurd (of_tick_prep hb hp) hs) fun _ => (hdata hs).symm

/-- **Ticks** keep the agreement. -/
theorem Agree.tick (h : Agree s t) (hpq : SameRun p q) : Agree (s.tick p) (t.tick q) := by
  by_cases hhalt : s.state = .halt
  · exact agree_halt hhalt (h.state.symm.trans hhalt) hpq
  · by_cases hstop : s.state = .stop
    · exact h.tick_stop hstop hpq.1
    · exact h.tick_busy ⟨hhalt, hstop⟩ hpq.1

/-! ### Recovery -/

/-- What the rest of the chip and the camera see of the master. -/
def Master.outputs (s : Master) : Bool × Option Bool × BitVec 8 :=
  (s.sdioc, s.sdiod, s.sccbCounter)

/-- **Recovery by reset.** Two runs from any two states, with `Reset` sampled at the first edge and
the same `Reset` and `SCCB_Run` from then on: both execute `HALT` at the next edge at the latest,
and from any edge at which both execute it on they drive the same outputs, whatever the camera
does. -/
theorem reset_recovery (s t : Master) (inp inp' : ℕ → Port) (hfirst : (inp 0).reset = true)
    (hsame : ∀ n, SameRun (inp n) (inp' n)) :
    (stateAt Master.tick s inp 1).state = .halt ∧ (stateAt Master.tick t inp' 1).state = .halt ∧
      ∀ m, (stateAt Master.tick s inp m).state = .halt →
        (stateAt Master.tick t inp' m).state = .halt → ∀ n, m < n →
          (stateAt Master.tick s inp n).outputs = (stateAt Master.tick t inp' n).outputs := by
  -- the other run samples the same `Reset`
  have hfirst' : (inp' 0).reset = true := (hsame 0).1.symm.trans hfirst
  refine ⟨?_, ?_, fun m hs ht n hmn => ?_⟩
  · simp only [stateAt, Master.tick, hfirst, if_true]
  · simp only [stateAt, Master.tick, hfirst', if_true]
  · obtain ⟨k, rfl⟩ : ∃ k, n = m + 1 + k := ⟨n - (m + 1), by omega⟩
    -- the tick in `HALT` makes them agree, the ticks after it keep them so
    have hagree : Agree (stateAt Master.tick s inp (m + 1)) (stateAt Master.tick t inp' (m + 1)) :=
      agree_halt hs ht (hsame m)
    have hrun := stateAt_related (c := SameRun) (R := Agree) (fun _ _ _ _ h hpq => h.tick hpq)
      hagree (fun n => hsame (m + 1 + n)) k
    rw [← stateAt_add, ← stateAt_add] at hrun
    rw [Master.outputs, Master.outputs, hrun.sdioc, hrun.sdiod, hrun.sccbCounter]

/-- A master in the middle of a byte. -/
def interrupted : Master :=
  { powerUp with
    state := .input
    sccbCounter := 7
    stateCounter := 5
    sdiod := some true
    camClk := true
    currData := true
    garbage := 3
    garbage2 := 21
    writeData := 0x38 }

/-- One edge with `Reset`, then `SCCB_Run` held high. -/
def resetThenRun : ℕ → Port := fun n => ⟨n == 0, true, false⟩

/-- A master that was interrupted and one that was not, a thousand edges later. -/
theorem reset_recovery_interrupted :
    (stateAt Master.tick powerUp resetThenRun 1000).outputs
      = (stateAt Master.tick interrupted resetThenRun 1000).outputs :=
  (reset_recovery powerUp interrupted resetThenRun resetThenRun rfl
    fun _ => ⟨rfl, fun _ => rfl⟩).2.2 1 rfl rfl 1000 (by decide)

end Sccb
end VideoEncryption
