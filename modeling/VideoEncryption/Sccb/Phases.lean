import VideoEncryption.Clocked.Performs
import VideoEncryption.Clocked.Word
import VideoEncryption.Sccb.Master

/-!
# The phases of a transaction

What each phase puts on the bus and where it leaves the machine. All seven phases share one bit
counter and one half-clock flag, so every phase is stated between two states of the form `At`: both
are back at zero, the clock wire is high and the data wire is driven.

* `Shifts.bits` — the eight bits of a byte, by one lemma for `Phase1`, `Phase2`, `Phase3` and
  `INPUT`; `ninth_pulse` ends the first three, `input_phase` and `phase4` have ends of their own;
* `break_phase`, `fin_phase` — the two phases that count ticks instead of pulses;
* `stop_tick`, `prep_phase` — from the tick that executes `STOP` to `Phase1`;
* `reaches_stop`, `reaches_rest` — the phases composed: a transaction leads to the next `STOP` in
  140 ticks, and the one that finds the last entry of the table comes to rest in `FIN`.

The observation is `watch`: every bus event together with the state and the bit counter of the tick
it is seen at.
-/

namespace VideoEncryption
namespace Sccb

open Clocked

/-- No reset at this edge. -/
def NoReset (p : Port) : Prop := p.reset = false

/-- Between one `STOP` and the next. -/
def Underway (t : Master) : Prop := t.state ≠ .stop

theorem tick_of_noReset {p : Port} (hp : NoReset p) (t : Master) :
    t.tick p = { t.routine p with state := t.nextState p } := by
  have hr : p.reset = false := hp
  simp only [Master.tick, hr, Bool.false_eq_true, if_false]

/-- The registers that the shifting phases leave alone. -/
structure Held where
  sccbCounter : BitVec 8
  garbage : BitVec 16
  garbage2 : BitVec 8
  ipAddressWrite : BitVec 8
  ipAddressRead : BitVec 8
  subAddress : BitVec 8
  writeData : BitVec 8
deriving DecidableEq, Repr

/-- The held registers of a machine state. -/
def Master.held (s : Master) : Held where
  sccbCounter := s.sccbCounter
  garbage := s.garbage
  garbage2 := s.garbage2
  ipAddressWrite := s.ipAddressWrite
  ipAddressRead := s.ipAddressRead
  subAddress := s.subAddress
  writeData := s.writeData

/-- A bus event with the state and the bit counter of the tick it is seen at. -/
structure Sight where
  state : Fsm
  stateCounter : BitVec 5
  event : BusEvent
deriving DecidableEq, Repr

/-- The observation `observe`, with the tick it is made at. -/
def watch (s : Master) (p : Port) : List Sight :=
  (observe s p).map fun e => ⟨s.state, s.stateCounter, e⟩

/-- Before pulse `k` of the phase `st`, with level `b` on the data wire. -/
structure At (h : Held) (st : Fsm) (k : ℕ) (b : Bool) (t : Master) : Prop where
  state : t.state = st
  held : t.held = h
  stateCounter : t.stateCounter = BitVec.ofNat 5 k
  camClk : t.camClk = false
  sdioc : t.sdioc = true
  sdiod : t.sdiod = some b

variable {h : Held} {st next : Fsm} {k : ℕ} {b : Bool} {t : Master}

/-! ### Shifting out a byte -/

/-- The low half of a pulse that carries bit `i` of `byte`. -/
def Master.low (t : Master) (byte : BitVec 8) (i : ℕ) : Master :=
  { t with
    camClk := true
    sdiod := some (byte.getLsbD i)
    currData := byte.getLsbD i
    sdioc := false
    stateCounter := t.stateCounter + 1 }

/-- The high half of a pulse that carries a bit. -/
def Master.high (t : Master) : Master :=
  { t with
    camClk := false
    sdiod := some t.currData
    sdioc := true }

/-- The low half of a pulse that leaves the data wire alone. -/
def Master.lowHold (t : Master) (sc : BitVec 5) : Master :=
  { t with camClk := true, sdioc := false, stateCounter := sc }

/-- The low half of a pulse that drives `b`. -/
def Master.lowDrive (t : Master) (b : Bool) (sc : BitVec 5) : Master :=
  { t with camClk := true, sdiod := some b, currData := b, sdioc := false, stateCounter := sc }

/-- The first eight pulses of the phase `st` carry the bits of `byte`. -/
structure Shifts (st : Fsm) (byte : Held → BitVec 8) : Prop where
  underway : st ≠ .stop
  low : ∀ (t : Master) (p : Port), NoReset p → t.state = st → t.camClk = false →
    ∀ k < 8, t.stateCounter = BitVec.ofNat 5 k → t.tick p = t.low (byte t.held) (7 - k)
  high : ∀ (t : Master) (p : Port), NoReset p → t.state = st → t.camClk = true →
    ∀ k < 8, t.stateCounter = BitVec.ofNat 5 (k + 1) → t.tick p = t.high

theorem toNat_seven_sub (hk : k < 8) : (7#5 - BitVec.ofNat 5 k).toNat = 7 - k := by
  rw [ofNat_sub_ofNat (by omega) (by omega), toNat_ofNat_of_lt (by omega)]

theorem ofNat_lt_eight (hk : k < 8) : BitVec.ofNat 5 k < 8#5 :=
  (ofNat_lt (by omega) (by omega)).mpr hk

theorem ofNat_ne_nine (hk : k < 9) : BitVec.ofNat 5 k ≠ 9#5 :=
  fun h => absurd ((ofNat_inj (by omega) (by omega)).mp h) (by omega)

theorem ofNat_ne_ten (hk : k < 10) : BitVec.ofNat 5 k ≠ 10#5 :=
  fun h => absurd ((ofNat_inj (by omega) (by omega)).mp h) (by omega)

/-- The states that send a byte and one more pulse: `Phase1`, `Phase2` and `Phase3`. -/
structure SendsByte (st next : Fsm) (byte : Held → BitVec 8) : Prop where
  underway : st ≠ .stop
  routine : ∀ (t : Master) (p : Port), t.state = st → t.routine p = t.sendByte (byte t.held)
  nextState : ∀ (t : Master) (p : Port), t.state = st →
    t.nextState p = if t.stateCounter = 9 then next else st

theorem sendsByte_phase1 : SendsByte .phase1 .phase2 Held.ipAddressWrite where
  underway := by decide
  routine t p ht := by simp only [Master.routine, ht]; rfl
  nextState t p ht := by simp only [Master.nextState, ht]

theorem sendsByte_phase2 : SendsByte .phase2 .input Held.subAddress where
  underway := by decide
  routine t p ht := by simp only [Master.routine, ht]; rfl
  nextState t p ht := by simp only [Master.nextState, ht]

theorem sendsByte_phase3 : SendsByte .phase3 .phase4 Held.ipAddressRead where
  underway := by decide
  routine t p ht := by simp only [Master.routine, ht]; rfl
  nextState t p ht := by simp only [Master.nextState, ht]

theorem SendsByte.shifts {byte : Held → BitVec 8} (hst : SendsByte st next byte) :
    Shifts st byte where
  underway := hst.underway
  low t p hp ht hc k hk hsc := by
    -- the eight bits keep the counter below the ninth pulse
    have h9 := ofNat_ne_nine (show k < 9 by omega)
    simp only [tick_of_noReset hp, hst.routine t p ht, hst.nextState t p ht, Master.sendByte,
      Master.low, hc, hsc, BitVec.ofNat_eq_ofNat, ofNat_lt_eight hk, toNat_seven_sub hk, h9,
      if_true, if_false, Bool.not_false, ← ht]
  high t p hp ht hc k hk hsc := by
    have h9 := ofNat_ne_nine (show k + 1 < 9 by omega)
    simp only [tick_of_noReset hp, hst.routine t p ht, hst.nextState t p ht, Master.sendByte,
      Master.high, hc, hsc, BitVec.ofNat_eq_ofNat, h9, if_true, if_false, Bool.not_true, ne_eq,
      not_false_eq_true, ← ht, Bool.true_eq_false]

/-- `INPUT` counts its pulses to ten; its first eight are those of the other phases. -/
theorem shifts_input : Shifts .input Held.writeData where
  underway := by decide
  -- below the tenth one here
  low t p hp hst hc k hk hsc := by
    have h10 := ofNat_ne_ten (show k < 10 by omega)
    simp only [tick_of_noReset hp, Master.routine, Master.nextState, Master.inputRoutine,
      Master.low, hst, hc, hsc, BitVec.ofNat_eq_ofNat, ofNat_lt_eight hk, toNat_seven_sub hk, h10,
      if_true, if_false, Bool.not_false]
    rfl
  high t p hp hst hc k hk hsc := by
    have h9 := ofNat_ne_nine (show k + 1 < 9 by omega)
    have h10 := ofNat_ne_ten (show k + 1 < 10 by omega)
    simp only [tick_of_noReset hp, Master.routine, Master.nextState, Master.inputRoutine,
      Master.high, hst, hc, hsc, BitVec.ofNat_eq_ofNat, h9, h10, if_true, if_false, Bool.not_true,
      ne_eq, not_false_eq_true, Bool.true_eq_false]

/-! ### Pulses -/

theorem At.level (ht : At h st k b t) : t.level = b := by
  rw [Master.level, ht.sdiod, Option.getD_some]

/-- A low half that ends in `u` and a high half that drives `c`: one pulse is seen, at the high
half. -/
theorem pulse_of_halves {u : Master} {l : ℕ} {c : Bool} (ht : At h st k b t) (hst : st ≠ .stop)
    (hlow : ∀ p, NoReset p → t.tick p = u) (hu : u.sdioc = false) (hus : u.state = st)
    (hhigh : ∀ p, NoReset p → At h next l c (u.tick p)) :
    Performs Master.tick watch NoReset Underway 2 t [⟨st, u.stateCounter, .pulse c⟩]
      (At h next l c) := by
  -- the clock wire falls, which is no event
  have hfirst : Performs Master.tick watch NoReset Underway 1 t [] (· = u) := by
    refine .edge (by rwa [Underway, ht.state]) fun p hp => ⟨?_, hlow p hp⟩
    simp only [watch, observe, busEvents, hlow p hp, ht.sdioc, hu, List.map_nil]
  refine hfirst.trans (n := 1) ?_
  rintro v rfl
  -- and rises, with the level of the data wire after the edge
  refine .edge (by rwa [Underway, hus]) fun p hp => ⟨?_, hhigh p hp⟩
  simp only [watch, observe, busEvents, hu, hus, (hhigh p hp).sdioc, (hhigh p hp).level,
    List.map_cons, List.map_nil]

/-- One pulse of a byte. -/
theorem Shifts.pulse {byte : Held → BitVec 8} (hst : Shifts st byte) (hk : k < 8)
    (ht : At h st k b t) :
    Performs Master.tick watch NoReset Underway 2 t
      [⟨st, BitVec.ofNat 5 (k + 1), .pulse ((byte h).getLsbD (7 - k))⟩]
      (At h st (k + 1) ((byte h).getLsbD (7 - k))) := by
  have hsc : (t.low (byte h) (7 - k)).stateCounter = BitVec.ofNat 5 (k + 1) := by
    -- the bit goes out in the low half, and the clock rises with it in the high half
    rw [Master.low, ht.stateCounter, ofNat_succ]
  have hlow : ∀ p, NoReset p → t.tick p = t.low (byte h) (7 - k) := by
    intro p hp
    rw [hst.low t p hp ht.state ht.camClk k hk ht.stateCounter, ht.held]
  have hhigh : ∀ p, NoReset p →
      At h st (k + 1) ((byte h).getLsbD (7 - k)) ((t.low (byte h) (7 - k)).tick p) := by
    intro p hp
    rw [hst.high (t.low (byte h) (7 - k)) p hp ht.state rfl k hk hsc]
    exact ⟨ht.state, ht.held, hsc, rfl, rfl, rfl⟩
  have hpulse := pulse_of_halves ht hst.underway hlow rfl ht.state hhigh
  rwa [hsc] at hpulse

/-- What is seen of the eight bits of a byte in the phase `st`. -/
def bitSights (st : Fsm) (byte : BitVec 8) : List Sight :=
  (List.range 8).map fun k => ⟨st, BitVec.ofNat 5 (k + 1), .pulse (byte.getLsbD (7 - k))⟩

/-- **The eight bits of a byte**, most significant one first. -/
theorem Shifts.bits {byte : Held → BitVec 8} (hst : Shifts st byte) (ht : At h st 0 b t) :
    Performs Master.tick watch NoReset Underway 16 t (bitSights st (byte h))
      (At h st 8 ((byte h).getLsbD 0)) := by
  -- only the level after the last pulse is known by the loop's end, so the others are forgotten
  have hbody : ∀ k < 8, ∀ u, (∃ c, At h st k c u ∧ (k = 8 → c = (byte h).getLsbD 0)) →
      Performs Master.tick watch NoReset Underway 2 u
        [⟨st, BitVec.ofNat 5 (k + 1), .pulse ((byte h).getLsbD (7 - k))⟩]
        (fun v => ∃ c, At h st (k + 1) c v ∧ (k + 1 = 8 → c = (byte h).getLsbD 0)) := by
    rintro k hk u ⟨c, hu, -⟩
    refine (hst.pulse hk hu).mono fun v hv => ⟨_, hv, fun h8 => ?_⟩
    rw [show 7 - k = 0 by omega]
  have hloop := Performs.iterate 8 hbody ⟨b, ht, by omega⟩
  rw [bitSights, List.map_eq_flatMap]
  refine hloop.mono ?_
  rintro u ⟨c, hu, hc⟩
  exact hc rfl ▸ hu

/-- The ninth pulse repeats the level of the eighth and leaves the phase. -/
theorem SendsByte.ninth_pulse {byte : Held → BitVec 8} (hst : SendsByte st next byte)
    (ht : At h st 8 b t) :
    Performs Master.tick watch NoReset Underway 2 t [⟨st, 9, .pulse b⟩] (At h next 0 b) := by
  -- the ninth low half counts and leaves the data wire alone
  have hlow : ∀ p, NoReset p → t.tick p = t.lowHold 9 := by
    intro p hp
    simp [tick_of_noReset hp, hst.routine t p ht.state, hst.nextState t p ht.state,
      Master.sendByte, Master.lowHold, ht.camClk, ht.stateCounter, ht.state]
  -- the counter is 9 at the high half: it is cleared and the phase left at the same edge
  have hhigh : ∀ p, NoReset p → At h next 0 b ((t.lowHold 9).tick p) := by
    intro p hp
    rw [tick_of_noReset hp, hst.routine (t.lowHold 9) p ht.state,
      hst.nextState (t.lowHold 9) p ht.state]
    exact ⟨rfl, ht.held, rfl, rfl, rfl, ht.sdiod⟩
  exact pulse_of_halves ht hst.underway hlow rfl ht.state hhigh

/-- What is seen of a whole byte phase. -/
def byteSights (st : Fsm) (byte : BitVec 8) : List Sight :=
  bitSights st byte ++ [⟨st, 9, .pulse (byte.getLsbD 0)⟩]

/-- **A byte phase**: the eight bits and the ninth pulse. -/
theorem SendsByte.phase {byte : Held → BitVec 8} (hst : SendsByte st next byte)
    (ht : At h st 0 b t) :
    Performs Master.tick watch NoReset Underway 18 t (byteSights st (byte h))
      (At h next 0 ((byte h).getLsbD 0)) :=
  (hst.shifts.bits ht).trans (n := 2) fun _ hu => hst.ninth_pulse hu

/-! ### The value -/

/-- What is seen of `INPUT`: the byte, a ninth pulse with its last level and a tenth with 0. -/
def inputSights (byte : BitVec 8) : List Sight :=
  bitSights .input byte ++ [⟨.input, 9, .pulse (byte.getLsbD 0)⟩, ⟨.input, 10, .pulse false⟩]

theorem input_ninth_pulse (ht : At h .input 8 b t) :
    Performs Master.tick watch NoReset Underway 2 t [⟨.input, 9, .pulse b⟩] (At h .input 9 b) := by
  have hlow : ∀ p, NoReset p → t.tick p = t.lowHold 9 := by
    intro p hp
    simp [tick_of_noReset hp, Master.routine, Master.nextState, Master.inputRoutine,
      Master.lowHold, ht.camClk, ht.stateCounter, ht.state]
  -- `INPUT` goes on past the ninth pulse
  have hhigh : ∀ p, NoReset p → At h .input 9 b ((t.lowHold 9).tick p) := by
    intro p hp
    have hst : (t.lowHold 9).state = .input := ht.state
    simp only [tick_of_noReset hp, Master.routine, Master.nextState, hst]
    exact ⟨rfl, ht.held, rfl, rfl, rfl, ht.sdiod⟩
  exact pulse_of_halves ht (by decide) hlow rfl ht.state hhigh

theorem input_tenth_pulse (ht : At h .input 9 b t) :
    Performs Master.tick watch NoReset Underway 2 t [⟨.input, 10, .pulse false⟩]
      (At h .break 0 false) := by
  -- the tenth pulse is one of its own: the wire goes low before the STOP
  have hlow : ∀ p, NoReset p → t.tick p = t.lowDrive false 10 := by
    intro p hp
    simp [tick_of_noReset hp, Master.routine, Master.nextState, Master.inputRoutine,
      Master.lowDrive, ht.camClk, ht.stateCounter, ht.state]
  have hhigh : ∀ p, NoReset p → At h .break 0 false ((t.lowDrive false 10).tick p) := by
    intro p hp
    have hst : (t.lowDrive false 10).state = .input := ht.state
    simp only [tick_of_noReset hp, Master.routine, Master.nextState, hst]
    exact ⟨rfl, ht.held, rfl, rfl, rfl, rfl⟩
  exact pulse_of_halves ht (by decide) hlow rfl ht.state hhigh

/-- **`INPUT`**: the value and two more pulses. -/
theorem input_phase (ht : At h .input 0 b t) :
    Performs Master.tick watch NoReset Underway 20 t (inputSights h.writeData)
      (At h .break 0 false) :=
  (shifts_input.bits ht).trans (n := 4) fun _ hu =>
    (input_ninth_pulse hu).trans (n := 2) fun _ hv => input_tenth_pulse hv

/-! ### Reading the register back -/

/-- What is seen of `Phase4`: eight read pulses at the level `b` left by `Phase3`, then 1 and 0. -/
def readSights (b : Bool) : List Sight :=
  ((List.range 8).map fun k => ⟨.phase4, BitVec.ofNat 5 (k + 1), .pulse b⟩)
    ++ [⟨.phase4, 9, .pulse true⟩, ⟨.phase4, 10, .pulse false⟩]

/-- A read pulse leaves the data wire as it is. -/
theorem read_pulse (hk : k < 8) (ht : At h .phase4 k b t) :
    Performs Master.tick watch NoReset Underway 2 t [⟨.phase4, BitVec.ofNat 5 (k + 1), .pulse b⟩]
      (At h .phase4 (k + 1) b) := by
  -- the branch of the eight read bits counts and drives nothing
  have hlow : ∀ p, NoReset p → t.tick p = t.lowHold (BitVec.ofNat 5 (k + 1)) := by
    intro p hp
    have h10 := ofNat_ne_ten (show k < 10 by omega)
    simp [tick_of_noReset hp, Master.routine, Master.nextState, Master.phase4Routine,
      Master.lowHold, ht.camClk, ht.stateCounter, ht.state, ofNat_lt_eight hk, h10]
    exact ofNat_succ 5 k
  have hhigh : ∀ p, NoReset p →
      At h .phase4 (k + 1) b ((t.lowHold (BitVec.ofNat 5 (k + 1))).tick p) := by
    intro p hp
    have hst : (t.lowHold (BitVec.ofNat 5 (k + 1))).state = .phase4 := ht.state
    have hc : (t.lowHold (BitVec.ofNat 5 (k + 1))).camClk = true := rfl
    have h9 : (t.lowHold (BitVec.ofNat 5 (k + 1))).stateCounter ≠ 9 := ofNat_ne_nine (by omega)
    have h10 : (t.lowHold (BitVec.ofNat 5 (k + 1))).stateCounter ≠ 10 := ofNat_ne_ten (by omega)
    simp only [tick_of_noReset hp, Master.routine, Master.nextState, hst, hc, h9, h10,
      Master.phase4Routine, if_false, or_self, Bool.true_eq_false]
    exact ⟨rfl, ht.held, rfl, rfl, rfl, ht.sdiod⟩
  exact pulse_of_halves ht (by decide) hlow rfl ht.state hhigh

theorem phase4_ninth_pulse (ht : At h .phase4 8 b t) :
    Performs Master.tick watch NoReset Underway 2 t [⟨.phase4, 9, .pulse true⟩]
      (At h .phase4 9 true) := by
  -- after the bits that are read the master drives the wire high, and then low
  have hlow : ∀ p, NoReset p → t.tick p = t.lowDrive true 9 := by
    intro p hp
    simp [tick_of_noReset hp, Master.routine, Master.nextState, Master.phase4Routine,
      Master.lowDrive, ht.camClk, ht.stateCounter, ht.state]
  have hhigh : ∀ p, NoReset p → At h .phase4 9 true ((t.lowDrive true 9).tick p) := by
    intro p hp
    have hst : (t.lowDrive true 9).state = .phase4 := ht.state
    simp only [tick_of_noReset hp, Master.routine, Master.nextState, hst]
    exact ⟨rfl, ht.held, rfl, rfl, rfl, rfl⟩
  exact pulse_of_halves ht (by decide) hlow rfl ht.state hhigh

theorem phase4_tenth_pulse (ht : At h .phase4 9 b t) :
    Performs Master.tick watch NoReset Underway 2 t [⟨.phase4, 10, .pulse false⟩]
      (At h .fin 0 false) := by
  have hlow : ∀ p, NoReset p → t.tick p = t.lowDrive false 10 := by
    intro p hp
    simp [tick_of_noReset hp, Master.routine, Master.nextState, Master.phase4Routine,
      Master.lowDrive, ht.camClk, ht.stateCounter, ht.state]
  have hhigh : ∀ p, NoReset p → At h .fin 0 false ((t.lowDrive false 10).tick p) := by
    intro p hp
    have hst : (t.lowDrive false 10).state = .phase4 := ht.state
    simp only [tick_of_noReset hp, Master.routine, Master.nextState, hst]
    exact ⟨rfl, ht.held, rfl, rfl, rfl, rfl⟩
  exact pulse_of_halves ht (by decide) hlow rfl ht.state hhigh

/-- **`Phase4`**: the eight read pulses and the two that end the transaction. -/
theorem read_phase (ht : At h .phase4 0 b t) :
    Performs Master.tick watch NoReset Underway 20 t (readSights b) (At h .fin 0 false) := by
  have hloop := Performs.iterate 8 (fun k hk u hu => read_pulse hk hu) ht
  rw [readSights, List.map_eq_flatMap]
  exact hloop.trans (n := 4) fun _ hu =>
    (phase4_ninth_pulse hu).trans (n := 2) fun _ hv => phase4_tenth_pulse hv

/-! ### The break between the write and the read -/

/-- The level on the data wire before tick `k` of `BREAK`. -/
def breakLevel (k : ℕ) : Bool := decide (7 < k ∧ k < 13)

/-- The sight of tick `k` of `BREAK`. -/
def breakSight (k : ℕ) : List Sight :=
  if k = 7 then [⟨.break, 0, .stop⟩] else if k = 12 then [⟨.break, 0, .start⟩] else []

/-- Before tick `k` of `BREAK`; the twenty-first tick leaves it. -/
def InBreak (h : Held) (k : ℕ) : Master → Prop :=
  At { h with garbage2 := BitVec.ofNat 8 k } (if k = 21 then .phase3 else .break) 0 (breakLevel k)

theorem break_tick (hk : k < 21) (ht : InBreak h k t) :
    Performs Master.tick watch NoReset Underway 1 t (breakSight k) (InBreak h (k + 1)) := by
  have hst : t.state = .break := by rw [ht.state, if_neg (by omega)]
  have hg : t.garbage2 = BitVec.ofNat 8 k := congrArg Held.garbage2 ht.held
  -- the counter of the break decides the level after the tick and whether the tick is the last
  have hlevel : decide (6 < t.garbage2 ∧ t.garbage2 < 12) = breakLevel (k + 1) := by
    have h6 : (6#8 < BitVec.ofNat 8 k) ↔ 6 < k := ofNat_lt (by omega) (by omega)
    have h12 : (BitVec.ofNat 8 k < 12#8) ↔ k < 12 := ofNat_lt (by omega) (by omega)
    simp only [breakLevel, hg, BitVec.ofNat_eq_ofNat, h6, h12, decide_eq_decide]
    omega
  -- the twenty-first tick is the last
  have hnext : (if t.garbage2 = 20 then Fsm.phase3 else Fsm.break)
      = if k + 1 = 21 then .phase3 else .break := by
    have h20 : (BitVec.ofNat 8 k = 20#8) ↔ k = 20 := ofNat_inj (by omega) (by omega)
    simp only [hg, BitVec.ofNat_eq_ofNat, h20, Nat.reduceEqDiff]
  -- one tick of `BREAK` in terms of its counter
  have hnow : ∀ p, NoReset p → InBreak h (k + 1) (t.tick p) := by
    intro p hp
    have htick : t.tick p = { t.breakRoutine with state := t.nextState p } := by
      rw [tick_of_noReset hp, Master.routine, hst]
    rw [htick]
    refine ⟨?_, ?_, ht.stateCounter, ht.camClk, rfl, ?_⟩
    · simpa only [Master.nextState, hst] using hnext
    · have hheld := ht.held
      simp only [Master.held, Held.mk.injEq] at hheld
      simp only [Master.held, Master.breakRoutine, hheld, Held.mk.injEq, and_self, and_true,
        true_and]
      exact ofNat_succ 8 k
    · exact congrArg some hlevel
  refine .edge (by rw [Underway, hst]; decide) fun p hp => ⟨?_, hnow p hp⟩
  simp only [watch, observe, busEvents, ht.sdioc, (hnow p hp).sdioc, ht.level, (hnow p hp).level,
    hst, ht.stateCounter]
  -- the level rises at tick 7, a STOP, and falls at tick 12, a START
  rcases eq_or_ne k 7 with rfl | h7
  · rfl
  rcases eq_or_ne k 12 with rfl | h12
  · rfl
  -- at every other tick the level stays what it was
  have heq : breakLevel (k + 1) = breakLevel k := by
    simp only [breakLevel, decide_eq_decide]
    omega
  rw [breakSight, if_neg h7, if_neg h12, heq]
  cases breakLevel k <;> rfl

/-- **`BREAK`**: a STOP and a START. -/
theorem break_phase (hg : h.garbage2 = 0) (ht : At h .break 0 false t) :
    Performs Master.tick watch NoReset Underway 21 t [⟨.break, 0, .stop⟩, ⟨.break, 0, .start⟩]
      (At { h with garbage2 := 21 } .phase3 0 false) := by
  have hstart : InBreak h 0 t := by
    have hh : { h with garbage2 := BitVec.ofNat 8 0 } = h := by
      change { h with garbage2 := (0 : BitVec 8) } = h
      rw [← hg]
    unfold InBreak
    rw [hh]
    exact ht
  exact Performs.iterate 21 (fun k hk u hu => break_tick hk hu) hstart

/-! ### The pause and the next pair -/

/-- `FIN` loads the pair of the table for the current `SCCB_COUNTER`. -/
def Held.load (h : Held) : Held :=
  { h with
    subAddress := ((table h.sccbCounter).map Prod.fst).getD h.subAddress
    writeData := ((table h.sccbCounter).map Prod.snd).getD h.writeData }

/-- One tick of `FIN` on the held registers. -/
def Held.pause (h : Held) : Held :=
  { h.load with garbage := if h.sccbCounter ≠ 0x3b then h.garbage + 1 else h.garbage }

theorem fin_tick (ht : At h .fin 0 false t) :
    Performs Master.tick watch NoReset Underway 1 t []
      (At h.pause (if h.garbage = 20 then .stop else .fin) 0 false) := by
  have hst : t.state = .fin := ht.state
  -- one tick of `FIN`, which loads the next pair at its first tick and counts
  have hnow : ∀ p, NoReset p →
      At h.pause (if h.garbage = 20 then .stop else .fin) 0 false (t.tick p) := by
    intro p hp
    have htick : t.tick p = { t.finRoutine with state := t.nextState p } := by
      rw [tick_of_noReset hp, Master.routine, hst]
    rw [htick]
    refine ⟨?_, ?_, ht.stateCounter, ht.camClk, rfl, rfl⟩
    · simp only [Master.nextState, hst, ← ht.held]
      rfl
    · rw [← ht.held]
      rfl
  -- the wires stay, so nothing is seen
  refine .edge (by rw [Underway, hst]; decide) fun p hp => ⟨?_, hnow p hp⟩
  simp only [watch, observe, busEvents, ht.sdioc, (hnow p hp).sdioc, ht.level, (hnow p hp).level]
  rfl

/-- Loading the pair a second time changes nothing. -/
theorem Held.pause_load (hc : h.sccbCounter ≠ 0x3b) (g : BitVec 16) :
    Held.pause { h.load with garbage := g } = { h.load with garbage := g + 1 } := by
  have hc' : h.load.sccbCounter ≠ 0x3b := hc
  simp only [Held.pause, if_pos hc']
  simp only [Held.load]
  cases table h.sccbCounter <;> rfl

theorem Held.pause_iterate (hc : h.sccbCounter ≠ 0x3b) (hg : h.garbage = 0) (k : ℕ) :
    Held.pause^[k + 1] h = { h.load with garbage := BitVec.ofNat 16 (k + 1) } := by
  induction k with
  | zero =>
    rw [Nat.zero_add, Function.iterate_one, Held.pause, if_pos hc, hg]
    rfl
  | succ k ih => rw [Function.iterate_succ_apply', ih, pause_load hc, ofNat_succ]

/-- **`FIN`** after every entry but the last: the pair is loaded and the next transaction starts. -/
theorem fin_phase (hc : h.sccbCounter ≠ 0x3b) (hg : h.garbage = 0) (ht : At h .fin 0 false t) :
    Performs Master.tick watch NoReset Underway 21 t []
      (At { h.load with garbage := 21 } .stop 0 false) := by
  -- the delay counter counts the ticks, and the twenty-first finds it at 20
  have hgarbage : ∀ k, (Held.pause^[k] h).garbage = BitVec.ofNat 16 k := by
    rintro (_ | k)
    · exact hg
    · rw [Held.pause_iterate hc hg]
  -- ticks before the twenty-first stay in `FIN`
  have hbody : ∀ k < 21, ∀ u,
      At (Held.pause^[k] h) (if k = 21 then .stop else .fin) 0 false u →
      Performs Master.tick watch NoReset Underway 1 u []
        (At (Held.pause^[k + 1] h) (if k + 1 = 21 then .stop else .fin) 0 false) := by
    intro k hk u hu
    rw [if_neg (by omega)] at hu
    have h20 : (BitVec.ofNat 16 k = 20#16) ↔ k + 1 = 21 := by
      rw [ofNat_inj (by omega) (by omega)]
      omega
    have htick := fin_tick hu
    simp only [hgarbage k, BitVec.ofNat_eq_ofNat, h20] at htick
    rwa [Function.iterate_succ_apply']
  have hloop := Performs.iterate 21 hbody ht
  refine hloop.mono fun u hu => ?_
  rwa [Held.pause_iterate hc hg] at hu

/-- The last `FIN`: the delay counter stands still and the state is never left. -/
def AtRest (t : Master) : Prop :=
  ∃ h : Held, At h .fin 0 false t ∧ h.sccbCounter = 0x3b ∧ h.garbage = 0

/-- **`FIN`** at the last entry of the table. -/
theorem rest_tick (ht : AtRest t) : Performs Master.tick watch NoReset Underway 1 t [] AtRest := by
  obtain ⟨h, hat, hc, hg⟩ := ht
  -- the delay counter is 0 and not 20, and the last entry keeps it there
  have htick := fin_tick hat
  rw [hg, if_neg (by decide)] at htick
  refine htick.mono fun u hu => ⟨h.pause, hu, hc, ?_⟩
  simp only [Held.pause, hc, ne_eq, not_true, if_false, hg]

/-! ### From STOP to the first byte -/

/-- The held registers after a tick in `STOP`. -/
def Held.opened (h : Held) : Held :=
  { h with sccbCounter := h.sccbCounter + 1, garbage := 0, garbage2 := 0 }

/-- After a tick in `STOP`. -/
structure Opened (h : Held) (t : Master) : Prop where
  state : t.state = .prep
  held : t.held = h
  stateCounter : t.stateCounter = 0
  camClk : t.camClk = false
  sdioc : t.sdioc = true
  sdiod : t.sdiod = none
  prepSig1 : t.prepSig1 = false
  prepSig2 : t.prepSig2 = false

theorem stop_tick (ht : t.state = .stop) {p : Port} (hp : NoReset p) :
    Opened t.held.opened (t.tick p) := by
  have htick : t.tick p = { t.stopRoutine with state := .prep } := by
    simp only [tick_of_noReset hp, Master.routine, Master.nextState, ht]
  rw [htick]
  exact ⟨rfl, rfl, rfl, rfl, rfl, rfl, rfl, rfl⟩

/-- After the first tick of `PREP`. -/
def Master.prepHigh (t : Master) : Master :=
  { t with sdioc := true, sdiod := some true, prepSig1 := true }

/-- After the second tick of `PREP`. -/
def Master.prepLow (t : Master) : Master :=
  { t with sdioc := true, sdiod := some false, prepSig1 := true, prepSig2 := true }

/-- A tick whose outcome does not depend on the inputs. -/
theorem performs_tick {u : Master} (ht : Underway t) (hu : ∀ p, NoReset p → t.tick p = u) :
    Performs Master.tick watch NoReset Underway 1 t
      ((busEvents t u).map fun e => ⟨t.state, t.stateCounter, e⟩) (· = u) :=
  .edge ht fun p hp => ⟨by rw [watch, observe, hu p hp], hu p hp⟩

/-- **`PREP`**: the data wire is driven high and then low, a START. -/
theorem prep_phase (ht : Opened h t) :
    Performs Master.tick watch NoReset Underway 3 t [⟨.prep, 0, .start⟩]
      (At h .phase1 0 false) := by
  -- the third tick repeats the second one's assignments: the state lags `prep_sig2` by a tick
  have hfirst : ∀ p, NoReset p → t.tick p = t.prepHigh := by
    intro p hp
    simp only [tick_of_noReset hp, Master.routine, Master.nextState, Master.prepRoutine,
      Master.prepHigh, ht.state, ht.prepSig1, ht.prepSig2, if_true, if_false, Bool.false_eq_true]
  have hsecond : ∀ p, NoReset p → t.prepHigh.tick p = t.prepLow := by
    intro p hp
    simp only [tick_of_noReset hp, Master.routine, Master.nextState, Master.prepRoutine,
      Master.prepHigh, Master.prepLow, ht.state, ht.prepSig2, if_false, Bool.false_eq_true,
      Bool.true_eq_false]
  have hthird : ∀ p, NoReset p → t.prepLow.tick p = { t.prepLow with state := .phase1 } := by
    intro p hp
    simp only [tick_of_noReset hp, Master.routine, Master.nextState, Master.prepRoutine,
      Master.prepLow, ht.state, if_true, if_false, Bool.true_eq_false]
  have hprep : t.state ≠ .stop := by rw [ht.state]; decide
  -- the released wire reads as 1, so that driving it high is no event
  have hlevel : t.level = true := by rw [Master.level, ht.sdiod, Option.getD_none]
  -- the three ticks one by one: nothing, START, nothing
  have hhigh : Performs Master.tick watch NoReset Underway 1 t [] (· = t.prepHigh) := by
    have hsight := performs_tick hprep hfirst
    simp only [busEvents, ht.sdioc, hlevel] at hsight
    exact hsight
  have hlow : Performs Master.tick watch NoReset Underway 1 t.prepHigh [⟨.prep, 0, .start⟩]
      (· = t.prepLow) := by
    have hsight := performs_tick (t := t.prepHigh) hprep hsecond
    rw [show t.prepHigh.state = .prep from ht.state,
      show t.prepHigh.stateCounter = 0 from ht.stateCounter] at hsight
    exact hsight
  have hlast : Performs Master.tick watch NoReset Underway 1 t.prepLow []
      (At h .phase1 0 false) := by
    refine (performs_tick (t := t.prepLow) hprep hthird).mono ?_
    rintro u rfl
    exact ⟨rfl, ht.held, ht.stateCounter, ht.camClk, rfl, rfl⟩
  refine hhigh.trans (n := 2) ?_
  rintro u rfl
  refine hlow.trans (n := 1) ?_
  rintro u rfl
  exact hlast

/-! ### The whole transaction -/

/-- What is seen between the tick in `STOP` and `FIN`. -/
def transactionSights (h : Held) : List Sight :=
  [⟨.prep, 0, .start⟩] ++ byteSights .phase1 h.ipAddressWrite ++ byteSights .phase2 h.subAddress
    ++ inputSights h.writeData ++ [⟨.break, 0, .stop⟩, ⟨.break, 0, .start⟩]
    ++ byteSights .phase3 h.ipAddressRead ++ readSights (h.ipAddressRead.getLsbD 0)

/-- **From `PREP` to `FIN`**, 118 ticks. -/
theorem reaches_fin (hg2 : h.garbage2 = 0) (ht : Opened h t) :
    Performs Master.tick watch NoReset Underway 118 t (transactionSights h)
      (At { h with garbage2 := 21 } .fin 0 false) := by
  -- phase after phase, each from where the one before leaves the machine
  have hwrite := (((prep_phase ht).trans fun _ hu => sendsByte_phase1.phase hu).trans fun _ hu =>
    sendsByte_phase2.phase hu).trans fun _ hu => input_phase hu
  have hbreak := hwrite.trans fun _ hu => break_phase hg2 hu
  have hread := (hbreak.trans fun _ hu => sendsByte_phase3.phase hu).trans fun _ hu => read_phase hu
  exact hread

/-- **From `PREP` to the next `STOP`**, 139 ticks, with the next pair loaded. -/
theorem reaches_stop (hg2 : h.garbage2 = 0) (hg : h.garbage = 0) (hc : h.sccbCounter ≠ 0x3b)
    (ht : Opened h t) :
    Performs Master.tick watch NoReset Underway 139 t (transactionSights h)
      (At { h.load with garbage2 := 21, garbage := 21 } .stop 0 false) := by
  have hall := (reaches_fin hg2 ht).trans fun _ hu =>
    fin_phase (h := { h with garbage2 := 21 }) hc hg hu
  rwa [List.append_nil] at hall

/-- After the last entry of the table the machine comes to rest in `FIN`. -/
theorem reaches_rest (hg2 : h.garbage2 = 0) (hg : h.garbage = 0) (hc : h.sccbCounter = 0x3b)
    (ht : Opened h t) (n : ℕ) :
    Performs Master.tick watch NoReset Underway (118 + n) t (transactionSights h) AtRest := by
  have hall := (reaches_fin hg2 ht).trans fun u hu =>
    Performs.forever (fun _ => rest_tick) n ⟨_, hu, hc, hg⟩
  rwa [List.append_nil] at hall

end Sccb
end VideoEncryption
