import VideoEncryption.Clocked.Fair
import VideoEncryption.Sram.Effects
import VideoEncryption.Subkey.Refinement

/-!
# The chain of subkeys

`KEY_GEN` of `Image_mod.sv.bak` with the `subkeyGenerator` it uses: seven runs of the generator,
each on the subkey of the run before.

Three clocks are at work. The generator steps on `Clk`, the block that drives it on `VGA_Clk`, the
state register on `Cam_pclk`; a `Board` makes an edge of one of them at a time, in any fair order.
`Subkey_Reset` is asynchronous: while it is high the generator is in its reset state, and a `Board`
carries that.

* `runs_leadsTo` — one run: from `Subkey_Run` to the edge that sees `done`, on the generator's own
  clock (`FairlyLeadsTo.of_component`);
* `subkey_chain` — the whole visit.
-/

namespace VideoEncryption
namespace Sram

open Clocked
open Subkey (subkeyOf)

/-! ### The board -/

/-- The generator and its map modules in reset. -/
def generatorReset : Subkey.System := ⟨.reset, fun _ => .idle⟩

/-- The chip and its generator. -/
structure Board where
  chip : System
  module1 : Subkey.System
  held : chip.regs.subkeyReset = true → module1 = generatorReset

/-- The clocks. -/
inductive Clock
  | clk
  | vgaClk
  | camPclk
deriving DecidableEq, Repr

/-- An edge of one of the clocks, with the inputs sampled there. -/
inductive ClockEdge
  | clk (latency : Subkey.Map → ℕ)
  | vgaClk (i : Inputs)
  | camPclk (i : Inputs)

/-- The clock of an edge. -/
def ClockEdge.clock : ClockEdge → Clock
  | .clk _ => .clk
  | .vgaClk _ => .vgaClk
  | .camPclk _ => .camPclk

namespace Board

/-- The chip and the generator behind its `Subkey_Reset`. -/
def wire (chip : System) (g : Subkey.System) : Board where
  chip := chip
  module1 := if chip.regs.subkeyReset then generatorReset else g
  held := fun h => if_pos h

variable (b : Board)

/-- The inputs of `module1`. -/
def port (seed : BitVec 12) (latency : Subkey.Map → ℕ) : Subkey.Port where
  reset := b.chip.regs.subkeyReset
  run := b.chip.regs.subkeyRun
  seed := seed
  initialSubkey := b.chip.regs.subkeyInput
  latency := latency

/-- The inputs of the chip, with the outputs of `module1` among them. -/
def inputs (i : Inputs) : Inputs :=
  { i with
    subkeyDone := b.module1.gen.done
    subkeyOutput := b.module1.gen.subkey }

/-- One edge. -/
def edge (F : Subkey.Map → Subkey.Key → Subkey.Key) (seed : BitVec 12) : ClockEdge → Board
  | .clk latency => wire b.chip (Subkey.tick F b.module1 (b.port seed latency))
  | .vgaClk i =>
    wire { b.chip with
      regs := b.chip.dataPath (b.inputs i)
      raster := b.chip.scan i
      mem := b.chip.stored } b.module1
  | .camPclk i =>
    wire { b.chip with
      state := if i.reset then .sleep else b.chip.nextState i
      camera := b.chip.capture i } b.module1

end Board

/-- No reset, and `KEY_INPUT` is `keyInput`. -/
def Admitted (keyInput : BitVec 80) : ClockEdge → Prop
  | .clk _ => True
  | .vgaClk i | .camPclk i => i.reset = false ∧ i.keyInput = keyInput

variable {F : Subkey.Map → Subkey.Key → Subkey.Key} {seed : BitVec 12} {keyInput x : BitVec 80}
  {b : Board} {i : Inputs} {e : ClockEdge} {n : ℕ}

theorem camPclk_state (i : Inputs) :
    (b.edge F seed (.camPclk i)).chip.state = if i.reset then .sleep else b.chip.nextState i :=
  rfl

/-- Without a reset `Cam_pclk` takes the state on. -/
theorem camPclk_state_of_unreset (hi : i.reset = false) :
    (b.edge F seed (.camPclk i)).chip.state = b.chip.nextState i := by
  rw [camPclk_state, hi]
  rfl

/-! ### One edge in `KEY_GEN` -/

theorem wire_module1_of_low {chip : System} {g : Subkey.System}
    (h : chip.regs.subkeyReset = false) : (Board.wire chip g).module1 = g := by
  simp [Board.wire, h]

/-- `VGA_Clk` moves the micro-sequence on. -/
theorem edge_vgaClk_regs (hs : b.chip.state = .keyGen) (i : Inputs) :
    (b.edge F seed (.vgaClk i)).chip.regs = b.chip.regs.keyGenTick (b.inputs i) := by
  change b.chip.dataPath (b.inputs i) = _
  rw [System.dataPath, hs]

/-- `Cam_pclk` leaves `KEY_GEN` at `rev` 5 only. -/
theorem edge_camPclk_state (hs : b.chip.state = .keyGen) (hi : i.reset = false) :
    (b.edge F seed (.camPclk i)).chip.state = if b.chip.regs.rev = 5 then .hiatus else .keyGen := by
  rw [camPclk_state_of_unreset hi, System.nextState, hs]

/-- In `KEY_GEN`, with registers that satisfy `R`. -/
def InKeyGen (R : Regs → Prop) (b : Board) : Prop := b.chip.state = .keyGen ∧ R b.chip.regs

/-- The edges of the other clocks change neither the state nor the registers before `rev` 5. -/
theorem InKeyGen.stay {R : Regs → Prop} (hb : InKeyGen R b) (hrev : b.chip.regs.rev ≠ 5)
    (he : Admitted keyInput e) (hclock : e.clock ≠ .vgaClk) : InKeyGen R (b.edge F seed e) := by
  cases e with
  | clk l => exact hb
  | vgaClk i => exact absurd rfl hclock
  | camPclk i =>
    refine ⟨?_, hb.2⟩
    rw [edge_camPclk_state hb.1 he.1, if_neg hrev]

/-- **One step of the micro-sequence.** -/
theorem leadsTo_of_tick {R R' : Regs → Prop} (hrev : ∀ r, R r → r.rev ≠ 5)
    (hgo : ∀ r j, R r → j.keyInput = keyInput → R' (r.keyGenTick j)) :
    FairlyLeadsTo (Board.edge · F seed) ClockEdge.clock (Admitted keyInput)
      (fun b => b.chip.state = .keyGen) (InKeyGen R) (InKeyGen R') := by
  refine .of_kind .vgaClk (fun b hb => hb.1)
    (fun b e hb he hclock => hb.stay (hrev _ hb.2) he hclock) fun b e hb he hclock => ?_
  cases e with
  | clk l => cases hclock
  | camPclk i => cases hclock
  | vgaClk i =>
    refine ⟨hb.1, ?_⟩
    rw [edge_vgaClk_regs hb.1]
    exact hgo _ _ hb.2 he.2

/-! ### The micro-sequence -/

/-- At a value of `rev`, with `c` in `Key_counter` and the first `n` subkeys in place: subkey `k` is
the key input after `k` runs of `G`. -/
structure Stored (G : BitVec 80 → BitVec 80) (keyInput : BitVec 80) (rev : BitVec 6) (c n : ℕ)
    (r : Regs) : Prop where
  rev : r.rev = rev
  keyCounter : r.keyCounter = BitVec.ofNat 6 c
  subkey : ∀ k, 1 ≤ k → k ≤ n → r.subkey[k]? = some (G^[k] keyInput)

/-- The input of run `n + 1` chosen, the generator in reset. -/
structure Chosen (G : BitVec 80 → BitVec 80) (keyInput : BitVec 80) (n : ℕ) (r : Regs) : Prop
    extends Stored G keyInput 2 n n r where
  subkeyInput : r.subkeyInput = G^[n] keyInput
  subkeyReset : r.subkeyReset = true

/-- Run `n + 1` of the generator asked for. -/
structure Asked (G : BitVec 80 → BitVec 80) (keyInput : BitVec 80) (n : ℕ) (r : Regs) : Prop
    extends Stored G keyInput 3 (n + 1) n r where
  subkeyInput : r.subkeyInput = G^[n] keyInput
  subkeyRun : r.subkeyRun = true
  subkeyReset : r.subkeyReset = false

variable {G : BitVec 80 → BitVec 80} {r : Regs} {rev : BitVec 6} {c : ℕ}

/-- What `KEY_GEN` does from `rev` 3 on. -/
theorem keyGenTick_three (hr : r.rev = 3) : r.keyGenTick i =
    if i.subkeyDone then
      { r with
        subkey := r.subkey.setIfInBounds r.keyCounter.toNat i.subkeyOutput
        rev := 4 }
    else r := by
  simp [Regs.keyGenTick, hr]

theorem keyGenTick_four (hr : r.rev = 4) :
    r.keyGenTick i = { r with rev := if r.keyCounter = 7 then 5 else 1 } := by
  simp [Regs.keyGenTick, hr]

theorem keyGenTick_five (hr : r.rev = 5) : r.keyGenTick i = r := by
  simp [Regs.keyGenTick, hr]

/-- `rev` 0 clears `Key_counter`. -/
theorem stored_zero (hr : r.rev = 0) : Stored G keyInput 1 0 0 (r.keyGenTick i) := by
  rw [Regs.keyGenTick, if_pos hr]
  exact ⟨by simp [hr], rfl, fun k h1 h0 => absurd h1 (by omega)⟩

/-- `rev` 1 chooses the input. -/
theorem Stored.choose (hr : Stored G keyInput 1 n n r) (hn : n < 7) (hi : i.keyInput = keyInput) :
    Chosen G keyInput n (r.keyGenTick i) := by
  have hinput : (if r.keyCounter = 0 then i.keyInput else r.subkey[r.keyCounter.toNat]?.getD 0)
      = G^[n] keyInput := by
    have hzero : r.keyCounter = 0 ↔ n = 0 := by
      rw [hr.keyCounter]
      exact ofNat_inj (b := 0) (by omega) (by decide)
    rcases Nat.eq_zero_or_pos n with rfl | hpos
    · rw [if_pos (hzero.mpr rfl), hi, Function.iterate_zero_apply]
    · rw [if_neg (mt hzero.mp (by omega)), hr.keyCounter, toNat_ofNat_of_lt (by omega),
        hr.subkey n hpos le_rfl, Option.getD_some]
  rw [Regs.keyGenTick, if_neg (by simp [hr.rev]), if_pos hr.rev, hinput]
  exact ⟨⟨by simp [hr.rev], hr.keyCounter, hr.subkey⟩, rfl, rfl⟩

/-- `rev` 2 counts and asks. -/
theorem Chosen.ask (hr : Chosen G keyInput n r) : Asked G keyInput n (r.keyGenTick i) := by
  rw [Regs.keyGenTick, if_neg (by simp [hr.rev]), if_neg (by simp [hr.rev]), if_pos hr.rev]
  refine ⟨⟨by simp [hr.rev], ?_, hr.subkey⟩, hr.subkeyInput, rfl, rfl⟩
  rw [hr.keyCounter, ofNat_succ]

/-- `rev` 3 waits for `done`. -/
theorem Asked.wait (hr : Asked G keyInput n r) (hi : i.subkeyDone = false) :
    r.keyGenTick i = r := by
  rw [keyGenTick_three hr.rev, hi]
  rfl

/-- `rev` 3 stores what the generator has answered. -/
theorem Asked.store (hr : Asked G keyInput n r) (hn : n < 7) (hi : i.subkeyDone = true)
    (hout : i.subkeyOutput = G (G^[n] keyInput)) :
    Stored G keyInput 4 (n + 1) (n + 1) (r.keyGenTick i) := by
  rw [keyGenTick_three hr.rev, if_pos hi]
  refine ⟨rfl, hr.keyCounter, fun k h1 hk => ?_⟩
  change (r.subkey.setIfInBounds r.keyCounter.toNat i.subkeyOutput)[k]? = _
  rw [hr.keyCounter, toNat_ofNat_of_lt (by omega), Vector.getElem?_setIfInBounds, hout,
    ← Function.iterate_succ_apply' G n keyInput]
  by_cases hlast : n + 1 = k
  · rw [if_pos hlast, if_pos (by omega), ← hlast]
  · rw [if_neg hlast]
    exact hr.subkey k h1 (by omega)

/-- `rev` 4 goes on to the next run, or ends the sequence. -/
theorem Stored.next (hr : Stored G keyInput 4 c n r) (hc : c < 8) :
    Stored G keyInput (if c = 7 then 5 else 1) c n (r.keyGenTick i) := by
  have hlast : r.keyCounter = 7 ↔ c = 7 := by
    rw [hr.keyCounter]
    exact ofNat_inj (b := 7) (by omega) (by decide)
  rw [keyGenTick_four hr.rev]
  exact ⟨by simp only [hlast], hr.keyCounter, hr.subkey⟩

/-! ### One run of the generator -/

/-- The inputs of a run. -/
structure Requested (seed : BitVec 12) (x : BitVec 80) (_ : Subkey.System) (p : Subkey.Port) :
    Prop where
  reset : p.reset = false
  run : p.run = true
  seed : p.seed = seed
  initialSubkey : p.initialSubkey = x

/-- **A run of the generator** on its own clock. -/
theorem generator_leadsTo : LeadsTo (Subkey.tick F) (Requested seed x) Subkey.Working
    Subkey.Waiting (Subkey.Finished (subkeyOf F seed x)) := by
  refine .step_trans (Q := Subkey.Deciding seed 0 x)
    (fun g hg => Subkey.working_of_state (by rw [hg.state]; decide)) (fun g p hg hp => ?_)
    (Subkey.leadsTo_finished.mono_ok fun _ _ hp => hp.reset)
  have hstart := hg.starts (F := F) hp.reset hp.run
  rwa [hp.seed, hp.initialSubkey] at hstart

/-- In `KEY_GEN` after run `n + 1` was asked for. -/
abbrev Running (G : BitVec 80 → BitVec 80) (keyInput : BitVec 80) (n : ℕ) : Board → Prop :=
  InKeyGen (Asked G keyInput n)

/-- While `done` is low, only the generator moves. -/
theorem Running.stay (hb : Running G keyInput n b) (hdone : Subkey.Working b.module1)
    (he : Admitted keyInput e) (hclock : e.clock ≠ .clk) :
    Running G keyInput n (b.edge F seed e) ∧ (b.edge F seed e).module1 = b.module1 := by
  -- the reset of the generator is low, so its registers stand
  have hlow := hb.2.subkeyReset
  cases e with
  | clk l => exact absurd rfl hclock
  | camPclk i =>
    exact ⟨InKeyGen.stay hb (by simp [hb.2.rev]) he (by simp [ClockEdge.clock]),
      wire_module1_of_low hlow⟩
  | vgaClk i =>
    have hregs : (b.edge F seed (.vgaClk i)).chip.regs = b.chip.regs := by
      rw [edge_vgaClk_regs hb.1]
      exact hb.2.wait hdone
    refine ⟨⟨hb.1, by rw [hregs]; exact hb.2⟩, wire_module1_of_low ?_⟩
    exact (congrArg Regs.subkeyReset hregs).trans hlow

/-- **One run**: the generator answers. -/
theorem runs_leadsTo (n : ℕ) :
    FairlyLeadsTo (Board.edge · F seed) ClockEdge.clock (Admitted keyInput)
      (fun b => b.chip.state = .keyGen)
      (fun b => Running G keyInput n b ∧ Subkey.Waiting b.module1)
      (fun b => Running G keyInput n b ∧
        Subkey.Finished (subkeyOf F seed (G^[n] keyInput)) b.module1) := by
  -- the generator is a component of its own, driven by `clk`
  refine .of_component .clk (fun _ => ⟨⟨false, true, seed, G^[n] keyInput, fun _ => 0⟩, rfl, rfl,
    rfl, rfl⟩) generator_leadsTo (fun b hb => hb.1) (fun b e hb hdone he hclock => ?_)
    fun b e hb hdone he hclock => hb.stay hdone he hclock
  cases e with
  | vgaClk i => cases hclock
  | camPclk i => cases hclock
  | clk l =>
    exact ⟨hb, b.port seed l, ⟨hb.2.subkeyReset, hb.2.subkeyRun, rfl, hb.2.subkeyInput⟩,
      wire_module1_of_low hb.2.subkeyReset⟩

/-- The answer is taken at the next edge of `VGA_Clk`. -/
theorem Running.store_leadsTo (hn : n < 7) :
    FairlyLeadsTo (Board.edge · F seed) ClockEdge.clock (Admitted keyInput)
      (fun b => b.chip.state = .keyGen)
      (fun b => Running G keyInput n b ∧ Subkey.Finished (G (G^[n] keyInput)) b.module1)
      (InKeyGen (Stored G keyInput 4 (n + 1) (n + 1))) := by
  refine .of_kind .vgaClk (fun b hb => hb.1.1) (fun b e hb he hclock => ?_)
    fun b e hb he hclock => ?_
  -- until then neither `Cam_pclk` nor `clk` takes the answer away
  · refine ⟨InKeyGen.stay hb.1 (by simp [hb.1.2.rev]) he hclock, ?_⟩
    have hlow := hb.1.2.subkeyReset
    cases e with
    | vgaClk i => exact absurd rfl hclock
    | camPclk i =>
      have hsame : (b.edge F seed (.camPclk i)).module1 = b.module1 := wire_module1_of_low hlow
      rw [hsame]
      exact hb.2
    | clk l =>
      have htick : (b.edge F seed (.clk l)).module1 = Subkey.tick F b.module1 (b.port seed l) :=
        wire_module1_of_low hlow
      rw [htick]
      exact hb.2.stays hlow
  -- `VGA_Clk` finds `done` high and stores it
  · cases e with
    | clk l => cases hclock
    | camPclk i => cases hclock
    | vgaClk i =>
      refine ⟨hb.1.1, ?_⟩
      rw [edge_vgaClk_regs hb.1.1]
      exact hb.1.2.store hn (decide_eq_true hb.2.state) hb.2.currentKey

/-- The generator has been reset when it is asked. -/
theorem Chosen.ask_leadsTo (n : ℕ) :
    FairlyLeadsTo (Board.edge · F seed) ClockEdge.clock (Admitted keyInput)
      (fun b => b.chip.state = .keyGen) (InKeyGen (Chosen G keyInput n))
      (fun b => Running G keyInput n b ∧ Subkey.Waiting b.module1) := by
  refine .of_kind .vgaClk (fun b hb => hb.1)
    (fun b e hb he hclock => hb.stay (by simp [hb.2.rev]) he hclock) fun b e hb he hclock => ?_
  -- `VGA_Clk` raises the run while the generator rests
  cases e with
  | clk l => cases hclock
  | camPclk i => cases hclock
  | vgaClk i =>
    have hasked : Asked G keyInput n (b.edge F seed (.vgaClk i)).chip.regs := by
      rw [edge_vgaClk_regs hb.1]
      exact hb.2.ask
    refine ⟨⟨hb.1, hasked⟩, ?_⟩
    have hsame : (b.edge F seed (.vgaClk i)).module1 = b.module1 :=
      wire_module1_of_low hasked.subkeyReset
    rw [hsame, b.held hb.2.subkeyReset]
    exact ⟨rfl, fun _ => rfl⟩

/-! ### The visit -/

/-- With `n` subkeys in place: at the start of the next run, or at the end. -/
def Chained (G : BitVec 80 → BitVec 80) (keyInput : BitVec 80) (n : ℕ) : Board → Prop :=
  InKeyGen (Stored G keyInput (if n = 7 then 5 else 1) n n)

/-- **One subkey** more. -/
theorem Chained.leadsTo (hn : n < 7) :
    FairlyLeadsTo (Board.edge · F seed) ClockEdge.clock (Admitted keyInput)
      (fun b => b.chip.state = .keyGen) (Chained (subkeyOf F seed) keyInput n)
      (Chained (subkeyOf F seed) keyInput (n + 1)) := by
  -- a tick chooses the input, and then the generator is asked
  have hchoose : FairlyLeadsTo (Board.edge · F seed) ClockEdge.clock (Admitted keyInput)
      (fun b => b.chip.state = .keyGen) (Chained (subkeyOf F seed) keyInput n)
      (InKeyGen (Chosen (subkeyOf F seed) keyInput n)) := by
    rw [Chained, if_neg (by omega)]
    exact leadsTo_of_tick (fun r hr => by simp [hr.rev]) fun r j hr hj => hr.choose hn hj
  -- the answer is stored and the next subkey is up
  have hnext : FairlyLeadsTo (Board.edge · F seed) ClockEdge.clock (Admitted keyInput)
      (fun b => b.chip.state = .keyGen)
      (InKeyGen (Stored (subkeyOf F seed) keyInput 4 (n + 1) (n + 1)))
      (Chained (subkeyOf F seed) keyInput (n + 1)) :=
    leadsTo_of_tick (fun r hr => by simp [hr.rev]) fun r j hr _ => hr.next (by omega)
  exact hchoose.trans ((Chosen.ask_leadsTo n).trans ((runs_leadsTo n).trans
    ((Running.store_leadsTo hn).trans hnext)))

/-- **The chain of subkeys.** A visit to `KEY_GEN` that is entered with `rev` 0 ends with `rev` 5,
and subkey `k` is the key input after `k` runs of the generator, whatever the subkeys and the
generator held before, however long the maps take and in whatever order the three clocks tick. -/
theorem subkey_chain (F : Subkey.Map → Subkey.Key → Subkey.Key) (seed : BitVec 12)
    (keyInput : BitVec 80) :
    FairlyLeadsTo (Board.edge · F seed) ClockEdge.clock (Admitted keyInput)
      (fun b => b.chip.state = .keyGen) (fun b => b.chip.state = .keyGen ∧ b.chip.regs.rev = 0)
      fun b => b.chip.state = .hiatus ∧ b.chip.regs.rev = 5 ∧
        ∀ k, 1 ≤ k → k ≤ 7 →
          b.chip.regs.subkey[k]? = some ((subkeyOf F seed)^[k] keyInput) := by
  -- the first tick clears the counter
  have hclear : FairlyLeadsTo (Board.edge · F seed) ClockEdge.clock (Admitted keyInput)
      (fun b => b.chip.state = .keyGen) (InKeyGen fun r => r.rev = 0)
      (Chained (subkeyOf F seed) keyInput 0) :=
    leadsTo_of_tick (fun r hr => by simp [hr]) fun r j hr _ => stored_zero hr
  -- the seven subkeys in turn
  refine hclear.trans ((FairlyLeadsTo.loop (L := Chained (subkeyOf F seed) keyInput)
    fun n hn => Chained.leadsTo hn).trans ?_)
  -- `Cam_pclk` sees `rev` 5, and no other clock changes anything then
  refine .of_kind .camPclk (fun b hb => hb.1) (fun b e hb he hclock => ?_)
    fun b e hb he hclock => ?_
  · cases e with
    | camPclk i => exact absurd rfl hclock
    | clk l => exact hb
    | vgaClk i =>
      refine ⟨hb.1, ?_⟩
      rw [edge_vgaClk_regs hb.1, keyGenTick_five hb.2.rev]
      exact hb.2
  · cases e with
    | clk l => cases hclock
    | vgaClk i => cases hclock
    | camPclk i =>
      refine ⟨?_, hb.2.rev, hb.2.subkey⟩
      rw [edge_camPclk_state hb.1 he.1]
      exact if_pos hb.2.rev

/-- A board whose generator still holds the answer of an earlier run. -/
def staleBoard : Board where
  chip := entering .keyGen fun _ => 0
  module1 := ⟨{ Subkey.Generator.reset with state := .hold, currentKey := 0x55 }, fun _ => .idle⟩
  held := fun h => absurd h (by decide)

/-- Two edges of `Clk`, one of `VGA_Clk` and one of `Cam_pclk` in turn. -/
def clocksInTurn (n : ℕ) : ClockEdge :=
  if n % 4 = 2 then .vgaClk (inTurn 0)
  else if n % 4 = 3 then .camPclk (inTurn 0)
  else .clk fun _ => n

theorem fair_clocksInTurn : Fair ClockEdge.clock (Admitted 0) clocksInTurn where
  ok n := by
    unfold clocksInTurn
    split_ifs
    exacts [⟨rfl, rfl⟩, ⟨rfl, rfl⟩, trivial]
  often a n := by
    -- the next edge of the clock's own turn
    have hturn : ∀ t < 4, ∃ k, (n + k) % 4 = t := fun t ht => ⟨t + 4 - n % 4, by omega⟩
    cases a with
    | clk =>
      obtain ⟨k, hk⟩ := hturn 0 (by decide)
      exact ⟨k, by simp [clocksInTurn, hk, ClockEdge.clock]⟩
    | vgaClk =>
      obtain ⟨k, hk⟩ := hturn 2 (by decide)
      exact ⟨k, by simp [clocksInTurn, hk, ClockEdge.clock]⟩
    | camPclk =>
      obtain ⟨k, hk⟩ := hturn 3 (by decide)
      exact ⟨k, by simp [clocksInTurn, hk, ClockEdge.clock]⟩

/-- The stale answer is not taken for a subkey. -/
theorem subkey_chain_stale : ∃ n,
    (stateAt (Board.edge · (fun _ k => k + 1) 0x123) staleBoard clocksInTurn n).chip.state
        = .hiatus ∧
      (stateAt (Board.edge · (fun _ k => k + 1) 0x123) staleBoard
        clocksInTurn n).chip.regs.subkey[7]?
          = some ((subkeyOf (fun _ k => k + 1) 0x123)^[7] 0) := by
  obtain ⟨n, ⟨hstate, -, hsubkey⟩, -⟩ := subkey_chain (fun _ k => k + 1) 0x123 0 staleBoard
    ⟨rfl, rfl⟩ clocksInTurn fair_clocksInTurn
  exact ⟨n, hstate, hsubkey 7 (by decide) le_rfl⟩

end Sram
end VideoEncryption
