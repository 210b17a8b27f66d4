import VideoEncryption.Clocked.Async
import VideoEncryption.Sram.Subkeys

/-!
# Encryption and decryption on the clocks of the board

The state register of `Image_Input` is on `Cam_pclk`, and the block that drives the SRAM on
`VGA_Clk`. The chains of phases were followed on one clock; here they run on the board, whose clocks
interleave in any order that has an edge of `VGA_Clk` between two edges of `Cam_pclk`.

* `System.mode` — a phase works on `VGA_Clk` alone until its `block_counter` is at the end, and then
  it waits for `Cam_pclk`, with a data path that rests (`dataPath_of_leaves`); an interval is a tick
  of `VGA_Clk` and then one of `Cam_pclk`;
* `decouples` — so the two clocks do what one clock does;
* `three_clock_round_trip` — **decryption undoes encryption on the board**.
-/

namespace VideoEncryption
namespace Sram

open Clocked

variable {key : BitVec 80} {s t : System} {i j : Inputs}

/-! ### What the data path depends on -/

/-- The same state, the same registers, and the same contents of the SRAM at the end of the tick. -/
structure SameCore (t s : System) : Prop where
  state : t.state = s.state
  regs : t.regs = s.regs
  stored : t.stored = s.stored

/-- What the bus carries depends on what the SRAM holds at the end of the tick. -/
theorem Pins.bus_congr {p : Pins} {m m' : Memory} (h : p.store m = p.store m') (f : BitVec 16) :
    p.bus m f = p.bus m' f := by
  cases hwe : p.weN with
  | true =>
    -- nothing is stored, so the SRAM held the same before the tick
    rw [Pins.store_of_weN hwe, Pins.store_of_weN hwe] at h
    rw [h]
  | false =>
    -- while it stores, the SRAM is off the bus
    simp [Pins.bus, Pins.sram, hwe]

theorem SameCore.dq (h : SameCore t s) (hf : i.floating = j.floating) : t.dq i = s.dq j := by
  have hstored : s.regs.pins.store t.mem = s.regs.pins.store s.mem := by
    rw [← h.regs]
    exact h.stored.trans (by rw [System.stored, h.regs])
  rw [System.dq, System.dq, h.regs, hf]
  exact Pins.bus_congr hstored _

/-- The two chains. -/
def InChains (s : System) : Prop := s.state ∈ encryptChain ++ decryptChain

/-- In the chains the data path sees nothing but the registers, the bus and the key. -/
theorem SameCore.dataPath (h : SameCore t s) (hs : InChains s) (hf : i.floating = j.floating)
    (hkey : t.key i = s.key j) : t.dataPath i = s.dataPath j := by
  have hdq := h.dq hf
  have hstate := h.state
  rw [InChains] at hs
  unfold System.dataPath
  rw [hstate, h.regs, hkey, hdq]
  split <;> simp_all [encryptChain, decryptChain]

theorem InChains.not_rest (h : InChains s) : s.state ≠ .hiatus ∧ s.state ≠ .display := by
  constructor <;> intro hs <;> rw [InChains, hs] at h <;> exact absurd h (by decide)

/-- The two things that can be done to the picture. -/
inductive Op
  | encrypt
  | decrypt
deriving DecidableEq, Repr

namespace Op

/-- What is done. -/
def cipher (key : BitVec 80) : Op → Frame → Frame
  | .encrypt => Sram.encrypt key
  | .decrypt => Sram.decrypt key

/-- The states that do it. -/
def chain : Op → List Fsm
  | .encrypt => encryptChain
  | .decrypt => decryptChain

/-- The first of them. -/
def first : Op → Fsm
  | .encrypt => .encryptHor
  | .decrypt => .decryptXor

/-- **Each of the chains** refines its cipher. -/
theorem leadsTo (op : Op) (key : BitVec 80) (A : Frame) :
    LeadsTo System.tick (Held key) (InChain op.chain) (Entered op.first A)
      (Left .hiatus (op.cipher key A)) := by
  cases op with
  | encrypt => exact encryption_leadsTo key A
  | decrypt => exact decryption_leadsTo key A

theorem inChains {op : Op} (h : InChain op.chain s) : InChains s := by
  cases op with
  | encrypt => exact List.mem_append_left _ h
  | decrypt => exact List.mem_append_right _ h

end Op

/-! ### The modes -/

/-- A phase works until its block counter is at the end, and an interval passes at once. -/
def System.mode (s : System) : Mode :=
  match s.state with
  | .encryptHor | .decryptHor => if s.regs.blockCounter = 60 then .leaves else .works
  | .encryptVer | .decryptVer => if s.regs.blockCounter = 80 then .leaves else .works
  | .encryptMix | .decryptMix | .encryptXor | .decryptXor =>
    if s.regs.blockCounter = 100 then .leaves else .works
  | _ => .passes

/-- The inputs do not reach the transitions of the chains. -/
theorem nextState_congr (hs : InChains s) (ht : t.state = s.state) (hr : t.regs = s.regs) :
    t.nextState i = s.nextState j := by
  rw [InChains] at hs
  unfold System.nextState
  rw [ht, hr]
  split <;> simp_all [encryptChain, decryptChain]

theorem nextState_of_works (hmode : s.mode = .works) : s.nextState i = s.state := by
  unfold System.mode at hmode
  unfold System.nextState
  split at hmode <;> simp_all

/-- What passes is an interval. -/
theorem interval_of_passes (hs : InChains s) (hmode : s.mode = .passes) :
    ∃ nxt, afterInterval s.state = some nxt := by
  rw [InChains] at hs
  unfold System.mode at hmode
  cases hst : s.state <;> simp only [hst] at hs hmode <;>
    first
    | exact ⟨_, rfl⟩
    | exact absurd hs (by decide)
    | split_ifs at hmode

theorem dataPath_of_interval {nxt : Fsm} (h : afterInterval s.state = some nxt) :
    s.dataPath i = s.regs.interval := by
  unfold System.dataPath
  cases hst : s.state <;> rw [hst] at h <;> cases h

theorem nextState_of_interval {nxt : Fsm} (h : afterInterval s.state = some nxt) :
    s.nextState i = nxt := by
  unfold System.nextState
  cases hst : s.state <;> rw [hst] at h <;> cases h
  all_goals rfl

/-- At the end of the last phases the micro-sequence stands still. -/
structure AtEnd (s : System) : Prop where
  mix : s.state = .encryptMix ∨ s.state = .decryptMix → s.regs.blockCounter = 100 →
    s.regs.rev = 8 ∧ (s.regs.columnCounter = 240 ∨ s.regs.columnCounter = 480) ∧
      s.regs.mixEnable = s.regs
  xor : s.state = .encryptXor ∨ s.state = .decryptXor → s.regs.blockCounter = 100 →
    s.regs.rev = 11 ∧ s.regs.rowCounter = 640

/-- `block_counter` through the quadrant shift phase. -/
theorem mixTick_blockCounter (r : Regs) (dq : BitVec 16) : (r.mixTick key dq).blockCounter =
    if r.rev = 0 then 0
    else if r.rev = 8 ∧ (r.columnCounter = 240 ∨ r.columnCounter = 480) then 100
    else r.blockCounter := by
  simp only [Regs.mixTick, Regs.mixAdvance, Regs.mixEnable, apply_ite Regs.blockCounter, ite_self]
  by_cases h8 : r.rev = 8
  · simp [h8]
  · simp only [h8, false_and, if_false, ite_self]

theorem maskTick_blockCounter (r : Regs) (p : MaskPass) (dq : BitVec 16) :
    (r.maskTick p key dq).blockCounter =
      if r.rev = p.base ∨ r.rev = p.base + 1 ∨ r.rev = p.base + 2 ∨ r.rev = p.base + 3 then
        r.blockCounter
      else if r.line p.axis = p.lines then (p.finish r).blockCounter
      else r.blockCounter := by
  simp only [Regs.maskTick, Regs.maskAdvance, Regs.goTo, apply_ite Regs.blockCounter, ite_self]
  split_ifs <;> first | rfl | (exfalso; tauto)

/-- `block_counter` through the XOR phase. -/
theorem xorTick_blockCounter (r : Regs) (dq : BitVec 16) : (r.xorTick key dq).blockCounter =
    if r.rev = 0 then 0
    else if r.rev = 11 ∧ r.rowCounter = 640 then 100
    else r.blockCounter := by
  have hrow : (rowPass.finish r).blockCounter = r.blockCounter := rfl
  have hcolumn : (columnPass.finish r).blockCounter = 100 := rfl
  -- only the passes touch the block counter, and only at their last line
  simp only [Regs.xorTick, apply_ite Regs.blockCounter, maskTick_blockCounter, hrow, hcolumn,
    ite_self]
  by_cases h11 : r.rev = 11
  · simp [h11, columnPass, Regs.line]
    rfl
  · -- the other values of `rev` up to 11 belong to the pass
    have hpass : ¬ r.rev ≤ 5 → r.rev ≠ 6 → r.rev ≤ 11 →
        r.rev = columnPass.base ∨ r.rev = columnPass.base + 1 ∨
          r.rev = columnPass.base + 2 ∨ r.rev = columnPass.base + 3 := by
      simp only [columnPass]
      bv_omega
    simp only [h11, false_and, if_false]
    split_ifs with h0 h5 h6 hle hc <;> first | rfl | exact absurd (hpass h5 h6 hle) hc

theorem setBlockCounter_self {r : Regs} (h : r.blockCounter = 100) :
    { r with blockCounter := 100 } = r := by
  rw [← h]

theorem mixTick_of_end {r : Regs} (hrev : r.rev = 8)
    (hcol : r.columnCounter = 240 ∨ r.columnCounter = 480) (dq : BitVec 16) :
    r.mixTick key dq = { r.mixEnable with blockCounter := 100 } := by
  simp only [Regs.mixTick, hrev, if_pos hcol]
  rfl

theorem xorTick_of_end {r : Regs} (hrev : r.rev = 11) (hrow : r.rowCounter = 640)
    (dq : BitVec 16) : r.xorTick key dq = { r with blockCounter := 100 } := by
  simp only [Regs.xorTick, Regs.maskTick, columnPass, Regs.line, hrev, hrow]
  rfl

/-- At the end of a phase the data path rests. -/
theorem dataPath_of_leaves (hmode : s.mode = .leaves) (hend : AtEnd s) :
    s.dataPath i = s.regs := by
  -- in each phase the guard of the block counter holds
  have hmix : s.state = .encryptMix ∨ s.state = .decryptMix → s.regs.blockCounter = 100 →
      ∀ dq, s.regs.mixTick (s.key i) dq = s.regs := by
    intro hst hblock dq
    obtain ⟨hrev, hcol, henable⟩ := hend.mix hst hblock
    rw [mixTick_of_end hrev hcol, henable, setBlockCounter_self hblock]
  have hxor : s.state = .encryptXor ∨ s.state = .decryptXor → s.regs.blockCounter = 100 →
      ∀ dq, s.regs.xorTick (s.key i) dq = s.regs := by
    intro hst hblock dq
    obtain ⟨hrev, hrow⟩ := hend.xor hst hblock
    rw [xorTick_of_end hrev hrow, setBlockCounter_self hblock]
  have hshift : ∀ p : ShiftPhase, s.regs.blockCounter = p.blocks →
      ∀ dq, s.regs.shiftTick p (s.key i) dq = s.regs := by
    intro p hblock dq
    rw [Regs.shiftTick, if_neg (by rw [hblock]; exact BitVec.lt_irrefl _)]
  unfold System.mode at hmode
  unfold System.dataPath
  -- the other states have no end of a phase to rest at
  cases hst : s.state <;> simp only [hst, reduceCtorEq] at hmode <;> split_ifs at hmode with hblock
  · exact hshift _ hblock _
  · exact hshift _ hblock _
  · exact hmix (by simp [hst]) hblock _
  · exact hxor (by simp [hst]) hblock _
  · exact hshift _ hblock _
  · exact hshift _ hblock _
  · exact hmix (by simp [hst]) hblock _
  · exact hxor (by simp [hst]) hblock _

theorem atEnd_of_works (hmode : s.mode = .works) (ht : t.state = s.state)
    (hr : t.regs = s.dataPath i) : AtEnd t := by
  constructor <;> rw [ht, hr]
  -- the mixing counts a block only with its last column
  · intro hst hblock
    have hne : s.regs.blockCounter ≠ 100 := by
      rcases hst with hst | hst <;> simpa [System.mode, hst] using hmode
    have hdp : s.dataPath i = s.regs.mixTick (s.key i) (s.dq i) := by
      rcases hst with hst | hst <;> rw [System.dataPath, hst]
    rw [hdp] at hblock ⊢
    -- the block counter has moved, so this was its last column
    rw [mixTick_blockCounter] at hblock
    split_ifs at hblock with h0 hend
    · exact absurd hblock (by decide)
    · rw [mixTick_of_end hend.1 hend.2]
      exact ⟨hend.1, hend.2, rfl⟩
    · exact absurd hblock hne
  -- the XOR phase likewise, with its last row
  · intro hst hblock
    have hne : s.regs.blockCounter ≠ 100 := by
      rcases hst with hst | hst <;> simpa [System.mode, hst] using hmode
    have hdp : s.dataPath i = s.regs.xorTick (s.key i) (s.dq i) := by
      rcases hst with hst | hst <;> rw [System.dataPath, hst]
    rw [hdp] at hblock ⊢
    -- this was the last row of the column pass
    rw [xorTick_blockCounter] at hblock
    split_ifs at hblock with h0 hend
    · exact absurd hblock (by decide)
    · rw [xorTick_of_end hend.1 hend.2]
      exact hend
    · exact absurd hblock hne

theorem atEnd_of_leaves (hmode : s.mode = .leaves) (ht : t.state = s.nextState i) : AtEnd t := by
  unfold System.mode at hmode
  constructor <;> rw [ht, System.nextState] <;> split at hmode <;> simp_all

theorem atEnd_of_block_zero (h : t.regs.blockCounter = 0) : AtEnd t where
  mix := fun _ hblock => absurd (h ▸ hblock) (by decide)
  xor := fun _ hblock => absurd (h ▸ hblock) (by decide)

/-! ### The edges of the board -/

section Decouples

variable {F : Subkey.Map → Subkey.Key → Subkey.Key} {seed : BitVec 12} {b : Board} {e : ClockEdge}

/-- No reset at this edge, and `KEY` is `key` there. -/
def HeldEdge (key : BitVec 80) (b : Board) : ClockEdge → Prop
  | .clk _ => True
  | .vgaClk i | .camPclk i => Held key b.chip i

/-- At a first edge of `Cam_pclk` the key is held. -/
theorem held_of_first {inp : ℕ → ClockEdge}
    (h : ∀ n, HeldEdge key (stateAt (Board.edge · F seed) b inp n) (inp n))
    (hfirst : inp 0 = .camPclk i) : Held key b.chip i := by
  have hheld := h 0
  rwa [hfirst] at hheld

/-- An edge of the one-clock machine with the same key, that does not ask for subkeys. -/
def Steady (key : BitVec 80) (s : System) (i : Inputs) : Prop :=
  Held key s i ∧ ¬ (i.sw1 = false ∧ i.sw2 = false)

/-- The board stands for the state `s` of the one-clock machine. -/
def Matches (b : Board) (s : System) : Prop := SameCore b.chip s ∧ AtEnd s

/-- `VGA_Clk` has passed the interval that `s` is in, `Cam_pclk` has not. -/
structure Halfway (b : Board) (s : System) : Prop where
  state : b.chip.state = s.state
  regs : b.chip.regs = s.regs.interval
  stored : b.chip.stored = s.stored

/-- Pins that stay as they are store nothing new. -/
theorem stored_of_pins_eq {r : Regs} (h : r.pins = s.regs.pins) (ht : t.regs = r)
    (hm : t.mem = s.stored) : t.stored = s.stored := by
  rw [System.stored, ht, h, hm, System.stored, Pins.store_store]

theorem passes_congr (ht : t.state = s.state) : t.mode = .passes ↔ s.mode = .passes := by
  unfold System.mode
  rw [ht]
  split <;> first | rfl | (split_ifs <;> simp)

/-- The inputs of the one-clock machine at an edge of the board. -/
def Board.asked (b : Board) (i : Inputs) : Inputs := { b.inputs i with sw1 := true }

theorem steady_of_held (hheld : Held key b.chip i) (hkey : s.regs.subkey = b.chip.regs.subkey) :
    Steady key s (b.asked i) := by
  refine ⟨⟨hheld.1, ?_⟩, fun h => Bool.noConfusion h.1⟩
  rw [← hheld.2]
  simp only [System.key, Regs.key, hkey, Board.asked, Board.inputs]

/-- The data paths agree at an edge of `VGA_Clk`. -/
theorem SameCore.dataPath_inputs (h : SameCore b.chip s) (hs : InChains s) :
    b.chip.dataPath (b.inputs i) = s.dataPath (b.asked i) := by
  refine h.dataPath hs rfl ?_
  rw [System.key, System.key, h.regs]
  rfl

theorem SameCore.of_regs {t' s' : System} (h : SameCore t s) (hst : t'.state = s'.state)
    (hr : t'.regs = s'.regs) (ht : t'.mem = t.stored) (hs : s'.mem = s.stored) :
    SameCore t' s' where
  state := hst
  regs := hr
  stored := by rw [System.stored, hr, ht, h.stored, ← hs, System.stored]

theorem works_go (hs : InChains s) (hmode : s.mode = .works) (h : Matches b s)
    (hheld : Held key b.chip i) : ∃ j, Steady key s j ∧ (s.tick j).mode ≠ .passes ∧
      Matches (b.edge F seed (.vgaClk i)) (s.tick j) := by
  obtain ⟨hcore, -⟩ := h
  have hsteady : Steady key s (b.asked i) :=
    steady_of_held hheld (by rw [hcore.regs])
  have hstate : (s.tick (b.asked i)).state = s.state := by
    rw [System.tick, hsteady.1.1, nextState_of_works hmode]
    rfl
  refine ⟨_, hsteady, ?_, ?_, atEnd_of_works hmode hstate rfl⟩
  · rw [Ne, passes_congr hstate, hmode]
    exact Mode.noConfusion
  · exact hcore.of_regs (hcore.state.trans hstate.symm) (hcore.dataPath_inputs hs) rfl rfl

theorem works_still (hs : InChains s) (hmode : s.mode = .works) (h : Matches b s)
    (hheld : HeldEdge key b e) (he : e.clock ≠ .vgaClk) : Matches (b.edge F seed e) s := by
  obtain ⟨hcore, hend⟩ := h
  cases e with
  | clk l => exact ⟨hcore, hend⟩
  | vgaClk i => exact absurd rfl he
  | camPclk i =>
    refine ⟨⟨?_, hcore.regs, hcore.stored⟩, hend⟩
    rw [camPclk_state_of_unreset hheld.1, nextState_congr (j := i) hs hcore.state hcore.regs,
      nextState_of_works hmode]

theorem leaves_go (hs : InChains s) (hmode : s.mode = .leaves) (h : Matches b s)
    (hheld : Held key b.chip i) : ∃ j, Steady key s j ∧
      Matches (b.edge F seed (.camPclk i)) (s.tick j) := by
  obtain ⟨hcore, hend⟩ := h
  have hsteady : Steady key s (b.asked i) :=
    steady_of_held hheld (by rw [hcore.regs])
  -- `VGA_Clk` has nothing left to do when `Cam_pclk` leaves the phase
  have hrest : s.dataPath (b.asked i) = s.regs := dataPath_of_leaves hmode hend
  have hstate : (s.tick (b.asked i)).state
      = s.nextState (b.asked i) := by
    rw [System.tick, hsteady.1.1]
    rfl
  refine ⟨_, hsteady, ⟨?_, ?_, ?_⟩, atEnd_of_leaves hmode hstate⟩
  -- the state is that of `nextState`, which the pins do not enter
  · rw [hstate, camPclk_state_of_unreset hheld.1]
    exact nextState_congr hs hcore.state hcore.regs
  · exact hcore.regs.trans hrest.symm
  · exact hcore.stored.trans (stored_of_pins_eq (congrArg Regs.pins hrest) rfl rfl).symm

theorem leaves_still (hs : InChains s) (hmode : s.mode = .leaves) (h : Matches b s)
    (he : e.clock ≠ .camPclk) : Matches (b.edge F seed e) s := by
  obtain ⟨hcore, hend⟩ := h
  cases e with
  | clk l => exact ⟨hcore, hend⟩
  | camPclk i => exact absurd rfl he
  | vgaClk i =>
    have hrest : b.chip.dataPath (b.inputs i) = b.chip.regs := by
      rw [hcore.dataPath_inputs hs, dataPath_of_leaves hmode hend, hcore.regs]
    refine ⟨⟨hcore.state, hrest.trans hcore.regs, ?_⟩, hend⟩
    exact (stored_of_pins_eq (congrArg Regs.pins hrest) rfl rfl).trans hcore.stored

theorem passes_half (hs : InChains s) (hmode : s.mode = .passes) (h : Matches b s) :
    Halfway (b.edge F seed (.vgaClk i)) s := by
  obtain ⟨hcore, -⟩ := h
  obtain ⟨nxt, hnxt⟩ := interval_of_passes hs hmode
  have hregs : b.chip.dataPath (b.inputs i) = s.regs.interval := by
    rw [hcore.dataPath_inputs hs, dataPath_of_interval hnxt]
  refine ⟨hcore.state, hregs, ?_⟩
  have hpins : (b.chip.dataPath (b.inputs i)).pins = b.chip.regs.pins := by
    rw [hregs, hcore.regs]
    rfl
  exact (stored_of_pins_eq hpins rfl rfl).trans hcore.stored

theorem half_go (hs : InChains s) (hmode : s.mode = .passes) (h : Halfway b s)
    (hheld : Held key b.chip i) : ∃ j, Steady key s j ∧
      Matches (b.edge F seed (.camPclk i)) (s.tick j) := by
  obtain ⟨nxt, hnxt⟩ := interval_of_passes hs hmode
  have hsteady : Steady key s (b.asked i) :=
    steady_of_held hheld (by rw [h.regs]; rfl)
  -- an interval takes a tick and then the state moves
  have hregs : s.dataPath (b.asked i) = s.regs.interval :=
    dataPath_of_interval hnxt
  refine ⟨_, hsteady, ⟨?_, ?_, ?_⟩, atEnd_of_block_zero ?_⟩
  · rw [camPclk_state_of_unreset hheld.1,
      nextState_of_interval (h.state ▸ hnxt : afterInterval b.chip.state = some nxt),
      System.tick, hsteady.1.1, nextState_of_interval hnxt]
    rfl
  · exact h.regs.trans hregs.symm
  · exact h.stored.trans (stored_of_pins_eq (r := s.regs.interval) rfl hregs rfl).symm
  · rw [tick_regs, hregs]
    rfl

theorem half_still (hs : InChains s) (hmode : s.mode = .passes) (h : Halfway b s)
    (he : e.clock ≠ .camPclk) : Halfway (b.edge F seed e) s := by
  cases e with
  | clk l => exact ⟨h.state, h.regs, h.stored⟩
  | camPclk i => exact absurd rfl he
  | vgaClk i =>
    obtain ⟨nxt, hnxt⟩ := interval_of_passes hs hmode
    have hregs : b.chip.dataPath (b.inputs i) = s.regs.interval := by
      rw [dataPath_of_interval (by rw [h.state, hnxt]), h.regs]
      rfl
    refine ⟨h.state, hregs, ?_⟩
    exact (stored_of_pins_eq ((congrArg Regs.pins hregs).trans (congrArg Regs.pins h.regs).symm)
      rfl rfl).trans h.stored

variable (F seed) in
/-- **The clocks of the board decouple.** -/
theorem decouples {W : System → Prop} (hW : ∀ s, W s → InChains s) :
    Decouples System.tick (Steady key) W (Board.edge · F seed) (HeldEdge key) ClockEdge.clock
      .camPclk .vgaClk System.mode Matches Halfway where
  -- while a phase works only `VGA_Clk` drives it
  works_go b s e hs hmode h hheld he := by
    cases e with
    | vgaClk i => exact works_go (hW s hs) hmode h hheld
    | clk l => cases he
    | camPclk i => cases he
  works_still b s e hs hmode h hheld he := works_still (hW s hs) hmode h hheld he
  -- at its end only `Cam_pclk` does
  leaves_go b s e hs hmode h hheld he := by
    cases e with
    | camPclk i => exact leaves_go (hW s hs) hmode h hheld
    | clk l => cases he
    | vgaClk i => cases he
  leaves_still b s e hs hmode h _ he := leaves_still (hW s hs) hmode h he
  -- an interval needs both, first `VGA_Clk` and then `Cam_pclk`
  passes_half b s e hs hmode h _ he := by
    cases e with
    | vgaClk i => exact passes_half (hW s hs) hmode h
    | clk l => cases he
    | camPclk i => cases he
  passes_still b s e hs hmode h _ hd hc := by
    cases e with
    | clk l => exact h
    | vgaClk i => exact absurd rfl hd
    | camPclk i => exact absurd rfl hc
  half_go b s e hs hmode h hheld he := by
    cases e with
    | camPclk i => exact half_go (hW s hs) hmode h hheld
    | clk l => cases he
    | vgaClk i => cases he
  half_still b s e hs hmode h _ he := half_still (hW s hs) hmode h he

/-! ### The chains on the board -/

theorem SameCore.frame (h : SameCore t s) : t.frame = s.frame := by
  funext px
  exact congrFun h.stored _

variable (F seed) in
/-- Only `Cam_pclk` changes the state. -/
theorem clock_of_state_ne (h : (b.edge F seed e).chip.state ≠ b.chip.state) :
    e.clock = .camPclk := by
  cases e with
  | clk l => exact absurd rfl h
  | vgaClk i => exact absurd rfl h
  | camPclk i => rfl

/-- What the one-clock machine leads to is inevitable while no subkeys are asked for. -/
theorem inevitable_of_leadsTo {W P Q : System → Prop}
    (h : LeadsTo System.tick (Held key) W P Q) (hs : P s) (hne : s.state ≠ .keyGen)
    (hkey : ∃ i, Held key s i) : Inevitable System.tick (Steady key) W Q s := by
  refine (h.mono_ok fun _ _ h => h.1).inevitable_within
    (I := fun s => s.state ≠ .keyGen ∧ ∃ i, Held key s i) ?_ ?_ hs ⟨hne, hkey⟩
  · rintro s i ⟨hs, -⟩ ⟨⟨hreset, hi⟩, hsw⟩
    refine ⟨?_, i, hreset, ?_⟩
    · rw [System.tick, hreset]
      exact nextState_ne_keyGen hs hsw
    · rw [← hi, System.key, System.key, Regs.key, Regs.key, tick_regs, dataPath_subkey hs]
  · rintro s ⟨-, i, hreset, hi⟩
    exact ⟨{ i with sw1 := true }, ⟨hreset, hi⟩, fun h => Bool.noConfusion h.1⟩

/-- **A chain on the board** ends, and leaves what the chain leads to. -/
theorem chain_reaches {op : Op} {P : System → Prop} {B : Frame} (inp : ℕ → ClockEdge)
    (hchain : LeadsTo System.tick (Held key) (InChain op.chain) P (Left .hiatus B))
    (hb : P b.chip) (hend : AtEnd b.chip) (hmode : b.chip.mode ≠ .passes)
    (hkey : ∃ i, Held key b.chip i)
    (hheld : ∀ n, HeldEdge key (stateAt (Board.edge · F seed) b inp n) (inp n))
    (hclocks : Interleaves ClockEdge.clock .camPclk .vgaClk inp) :
    ∃ n, Left .hiatus B (stateAt (Board.edge · F seed) b inp n).chip ∧
      ∀ m < n, InChain op.chain (stateAt (Board.edge · F seed) b inp m).chip := by
  -- a chain is asked for in `DISPLAY`, never in `KEY_GEN`
  have hne : b.chip.state ≠ .keyGen := by
    intro h
    rw [System.mode, h] at hmode
    exact hmode rfl
  -- the decoupled run ends as the system's own run does
  obtain ⟨n, ⟨s, hleft, hmatch⟩, hbefore⟩ := (decouples F seed fun s hs => Op.inChains hs).reaches
    (inevitable_of_leadsTo hchain hb hne hkey) b inp ⟨⟨rfl, rfl, rfl⟩, hend⟩ hclocks hheld
    fun hpasses => absurd hpasses hmode
  refine ⟨n, ⟨hmatch.1.state.trans hleft.state, hmatch.1.frame.trans hleft.frame⟩, fun m hm => ?_⟩
  obtain ⟨s, hs, hm | hm⟩ := hbefore m hm
  · exact inChain_of_mem hs _ hm.1.state
  · exact inChain_of_mem hs _ hm.state

/-- A chain that is requested in `DISPLAY` runs to `HIATUS`, which it enters at an edge of
`Cam_pclk`. -/
theorem board_from_display {op : Op} {P : System → Prop} {B : Frame} (inp : ℕ → ClockEdge)
    (hchain : LeadsTo System.tick (Held key) (InChain op.chain) P (Left .hiatus B))
    (hs : b.chip.state = .display) (hP : P (b.edge F seed (.camPclk i)).chip)
    (hend : AtEnd (b.edge F seed (.camPclk i)).chip)
    (hmode : (b.edge F seed (.camPclk i)).chip.mode ≠ .passes)
    (hheld : ∀ n, HeldEdge key (stateAt (Board.edge · F seed) b inp n) (inp n))
    (hclocks : Interleaves ClockEdge.clock .camPclk .vgaClk inp) (hfirst : inp 0 = .camPclk i) :
    ∃ n, Left .hiatus B (stateAt (Board.edge · F seed) b inp (n + 1)).chip ∧
      (inp n).clock = .camPclk ∧
      ∀ m, 0 < m → m ≤ n → InChain op.chain (stateAt (Board.edge · F seed) b inp m).chip := by
  have hheld₀ := held_of_first hheld hfirst
  -- the chain, from the edge on that sees the request
  rw [← hfirst] at hP hend hmode
  have hkey : ∃ i, Held key (b.edge F seed (inp 0)).chip i := ⟨i, by rw [hfirst]; exact hheld₀⟩
  obtain ⟨n, hleft, hbefore⟩ := chain_reaches (fun n => inp (n + 1)) hchain hP hend hmode hkey
    (fun n => by rw [← stateAt_succ']; exact hheld (n + 1))
    (by simpa only [Nat.add_comm 1] using hclocks.drop 1)
  have hin : ∀ m, 0 < m → m ≤ n →
      InChain op.chain (stateAt (Board.edge · F seed) b inp m).chip := by
    intro m hm hmn
    obtain ⟨k, rfl⟩ := Nat.exists_eq_add_of_lt hm
    rw [Nat.zero_add, stateAt_succ']
    exact hbefore k (by omega)
  rw [← stateAt_succ'] at hleft
  -- only `Cam_pclk` moves the state, and it has just moved
  have hnot : (stateAt (Board.edge · F seed) b inp n).chip.state ≠ .hiatus := by
    intro hst
    rcases Nat.eq_zero_or_pos n with rfl | hpos
    · exact absurd (hs.symm.trans hst) (by decide)
    · exact (Op.inChains (hin n hpos le_rfl)).not_rest.1 hst
  have hchanged : (stateAt (Board.edge · F seed) b inp (n + 1)).chip.state
      ≠ (stateAt (Board.edge · F seed) b inp n).chip.state := by
    rw [hleft.state]
    exact hnot.symm
  exact ⟨n, hleft, clock_of_state_ne F seed hchanged, hin⟩

/-- The edge that sees a request moves the board into the chain, with the counters cleared. -/
theorem entered_of_request {st : Fsm} {A : Frame} (hb : Entered .display A b.chip)
    (hreset : i.reset = false) (hst : b.chip.nextState i = st) :
    Entered st A (b.edge F seed (.camPclk i)).chip := by
  refine ⟨?_, hb.rev, hb.block, hb.row, hb.column, hb.frame⟩
  rw [camPclk_state_of_unreset hreset, hst]

/-- **A chain asked for with cleared counters** refines its cipher. -/
theorem op_reaches {op : Op} {A : Frame} (inp : ℕ → ClockEdge) (hb : Entered .display A b.chip)
    (hst : b.chip.nextState i = op.first)
    (hheld : ∀ n, HeldEdge key (stateAt (Board.edge · F seed) b inp n) (inp n))
    (hclocks : Interleaves ClockEdge.clock .camPclk .vgaClk inp) (hfirst : inp 0 = .camPclk i) :
    ∃ n, Left .hiatus (op.cipher key A) (stateAt (Board.edge · F seed) b inp (n + 1)).chip ∧
      (inp n).clock = .camPclk ∧
      ∀ m, 0 < m → m ≤ n → InChain op.chain (stateAt (Board.edge · F seed) b inp m).chip := by
  have hheld₀ := held_of_first hheld hfirst
  -- the request enters the first phase with the counters cleared
  have hentered : Entered op.first A (b.edge F seed (.camPclk i)).chip :=
    entered_of_request hb hheld₀.1 hst
  refine board_from_display inp (op.leadsTo key A) hb.state hentered
    (atEnd_of_block_zero hentered.block) ?_ hheld hclocks hfirst
  cases op <;> simp [System.mode, hentered.state, hentered.block, Op.first]

/-! ### Between the chains -/

/-- Between two chains, with the frame `A`. `seen` tells whether `VGA_Clk` has ticked since; that
clears the counters. -/
structure Quiet (A : Frame) (seen : Prop) (b : Board) : Prop where
  frame : b.chip.frame = A
  cleared : seen → Entered b.chip.state A b.chip
  display : b.chip.state = .display → seen

variable (F seed) in
theorem Quiet.edge {A : Frame} {seen : Prop} (h : Quiet A seen b)
    (hst : b.chip.state = .hiatus ∨ b.chip.state = .display)
    (hcam : e.clock = .camPclk → seen) :
    Quiet A (seen ∨ e.clock = .vgaClk) (b.edge F seed e) := by
  -- the map clocks and `Cam_pclk` leave what is cleared, a tick of `VGA_Clk` clears it
  cases e with
  | clk l =>
    have hseen : (seen ∨ (ClockEdge.clk l).clock = .vgaClk) ↔ seen := by simp [ClockEdge.clock]
    rw [hseen]
    exact ⟨h.frame, h.cleared, h.display⟩
  | camPclk i =>
    have hc := h.cleared (hcam rfl)
    exact ⟨h.frame, fun _ => ⟨rfl, hc.rev, hc.block, hc.row, hc.column, hc.frame⟩,
      fun _ => .inl (hcam rfl)⟩
  | vgaClk i =>
    have hentered : Entered b.chip.state A (b.edge F seed (.vgaClk i)).chip := by
      -- `HIATUS` clears the counters, `DISPLAY` leaves them cleared
      rcases hst with hst | hst
      · have ht := (⟨hst, h.frame⟩ : Left .hiatus A b.chip).hiatus_tick (i := b.inputs i) rfl
        exact ⟨rfl, ht.rev, ht.block, ht.row, ht.column, ht.frame⟩
      · have hc := h.cleared (h.display hst)
        rw [hst] at hc
        have ht := hc.display_tick (i := b.inputs i) rfl
        exact ⟨rfl, ht.rev, ht.block, ht.row, ht.column, ht.frame⟩
    exact ⟨hentered.frame, fun _ => hentered, fun _ => .inr rfl⟩

/-- **The stay between two chains.** -/
theorem quiet_stateAt {A : Frame} {inp : ℕ → ClockEdge} {n₁ n₂ : ℕ} (hn : n₁ + 1 ≤ n₂)
    (hleft : Left .hiatus A (stateAt (Board.edge · F seed) b inp (n₁ + 1)).chip)
    (harrival : (inp n₁).clock = .camPclk)
    (hclocks : Interleaves ClockEdge.clock .camPclk .vgaClk inp)
    (hrest : ∀ m, n₁ < m → m ≤ n₂ →
      (stateAt (Board.edge · F seed) b inp m).chip.state = .hiatus ∨
        (stateAt (Board.edge · F seed) b inp m).chip.state = .display) :
    Quiet A (∃ k, n₁ < k ∧ k < n₂ ∧ (inp k).clock = .vgaClk)
      (stateAt (Board.edge · F seed) b inp n₂) := by
  -- edge by edge from the arrival in `HIATUS`
  induction n₂, hn using Nat.le_induction with
  | base =>
    refine ⟨hleft.frame, fun ⟨k, _, _, _⟩ => by omega, fun h => ?_⟩
    rw [hleft.state] at h
    cases h
  | succ n hn ih =>
    have hedge := (ih fun m hm hmn => hrest m hm (by omega)).edge F seed
      (hrest n (by omega) (by omega)) fun hcam => hclocks.between n₁ n hn harrival hcam
    rw [stateAt_succ]
    convert hedge using 1
    -- a tick seen so far is one before, or the last edge
    constructor
    · rintro ⟨k, hk, hkn, hvga⟩
      rcases Nat.lt_succ_iff_lt_or_eq.mp hkn with hlt | rfl
      exacts [.inl ⟨k, hk, hlt, hvga⟩, .inr hvga]
    · rintro (⟨k, hk, hkn, hvga⟩ | hvga)
      exacts [⟨k, hk, by omega, hvga⟩, ⟨n, hn, Nat.lt_succ_self n, hvga⟩]

/-- **A chain asked for after another one**, or after a visit to `KEY_GEN`. -/
theorem op_after_rest {op : Op} {A : Frame} {inp : ℕ → ClockEdge} {n₁ n₂ : ℕ} (hn : n₁ < n₂)
    (hleft : Left .hiatus A (stateAt (Board.edge · F seed) b inp (n₁ + 1)).chip)
    (harrival : (inp n₁).clock = .camPclk)
    (hclocks : Interleaves ClockEdge.clock .camPclk .vgaClk inp)
    (hrest : ∀ m, n₁ < m → m ≤ n₂ →
      (stateAt (Board.edge · F seed) b inp m).chip.state = .hiatus ∨
        (stateAt (Board.edge · F seed) b inp m).chip.state = .display)
    (hdisplay : (stateAt (Board.edge · F seed) b inp n₂).chip.state = .display)
    (hn₂ : inp n₂ = .camPclk j)
    (hst : (stateAt (Board.edge · F seed) b inp n₂).chip.nextState j = op.first)
    (hheld : ∀ n, HeldEdge key (stateAt (Board.edge · F seed) b inp (n₂ + n)) (inp (n₂ + n))) :
    ∃ n, n₂ ≤ n ∧
      Left .hiatus (op.cipher key A) (stateAt (Board.edge · F seed) b inp (n + 1)).chip ∧
      (inp n).clock = .camPclk ∧
      ∀ m, n₂ < m → m ≤ n → InChain op.chain (stateAt (Board.edge · F seed) b inp m).chip := by
  -- the counters are cleared by then
  have hquiet := quiet_stateAt hn hleft harrival hclocks hrest
  have hready := hquiet.cleared (hquiet.display hdisplay)
  rw [hdisplay] at hready
  -- the chain, from the request on
  obtain ⟨k, hleft₂, hlast, hchain⟩ := op_reaches (fun k => inp (n₂ + k)) hready hst
    (fun k => by rw [← stateAt_add]; exact hheld k) (hclocks.drop n₂) hn₂
  rw [← stateAt_add] at hleft₂
  refine ⟨n₂ + k, Nat.le_add_right _ _, hleft₂, hlast, fun m hm hmk => ?_⟩
  obtain ⟨l, rfl⟩ := Nat.exists_eq_add_of_le hm.le
  rw [stateAt_add]
  exact hchain l (by omega) (by omega)

/-- What the switches ask for. -/
theorem nextState_of_encryptRequest (hs : s.state = .display) (hi : EncryptRequest i) :
    s.nextState i = Op.encrypt.first :=
  hi.nextState hs

theorem nextState_of_decryptRequest (hs : s.state = .display) (hi : DecryptRequest i) :
    s.nextState i = Op.decrypt.first :=
  hi.nextState hs

/-- **The round trip on the board.** From `DISPLAY` with cleared counters, the encryption that an
edge of `Cam_pclk` requests ends in `HIATUS` with the encrypted frame; and the decryption that a
later one requests, after any stay in `HIATUS` and `DISPLAY`, ends in `HIATUS` with the frame that
was there at first. The three clocks interleave in any order that has an edge of `VGA_Clk` between
two edges of `Cam_pclk`. -/
theorem three_clock_round_trip (F : Subkey.Map → Subkey.Key → Subkey.Key) (seed : BitVec 12)
    (key : BitVec 80) (b : Board) (inp : ℕ → ClockEdge)
    (hheld : ∀ n, HeldEdge key (stateAt (Board.edge · F seed) b inp n) (inp n))
    (hclocks : Interleaves ClockEdge.clock .camPclk .vgaClk inp)
    (hstart : Entered .display b.chip.frame b.chip) (hfirst : inp 0 = .camPclk i)
    (hrequest : EncryptRequest i) :
    ∃ n₁, (stateAt (Board.edge · F seed) b inp n₁).chip.state = .hiatus ∧
      (stateAt (Board.edge · F seed) b inp n₁).chip.frame = encrypt key b.chip.frame ∧
      (∀ m, 0 < m → m < n₁ →
        InChain encryptChain (stateAt (Board.edge · F seed) b inp m).chip) ∧
      ∀ n₂ j, n₁ < n₂ →
        (∀ m, n₁ ≤ m → m ≤ n₂ →
          (stateAt (Board.edge · F seed) b inp m).chip.state = .hiatus ∨
            (stateAt (Board.edge · F seed) b inp m).chip.state = .display) →
        (stateAt (Board.edge · F seed) b inp n₂).chip.state = .display →
        inp n₂ = .camPclk j → DecryptRequest j →
        ∃ n₃, n₂ < n₃ ∧ (stateAt (Board.edge · F seed) b inp n₃).chip.state = .hiatus ∧
          (∀ m, n₂ < m → m < n₃ →
            InChain decryptChain (stateAt (Board.edge · F seed) b inp m).chip) ∧
          (stateAt (Board.edge · F seed) b inp n₃).chip.frame = b.chip.frame := by
  -- the encryption, and then any stay
  obtain ⟨n, hleft, harrival, hchain⟩ := op_reaches inp hstart
    (nextState_of_encryptRequest hstart.state hrequest) hheld hclocks hfirst
  refine ⟨n + 1, hleft.state, hleft.frame, fun m hm hmn => hchain m hm (by omega),
    fun n₂ j hn hrest hdisplay hn₂ hrequest₂ => ?_⟩
  -- the decryption on the encrypted frame
  obtain ⟨k, hk, hleft₂, -, hchain₂⟩ := op_after_rest (by omega) hleft harrival hclocks
    (fun m hm => hrest m hm) hdisplay hn₂ (nextState_of_decryptRequest hdisplay hrequest₂)
    fun k => hheld (n₂ + k)
  exact ⟨k + 1, by omega, hleft₂.state, fun m hm hmk => hchain₂ m hm (by omega),
    hleft₂.frame.trans (decrypt_encrypt key b.chip.frame)⟩

/-- The switches and the button that start the generation of subkeys. -/
def KeyRequest (i : Inputs) : Prop := i.run = true ∧ i.sw1 = false ∧ i.sw2 = false

/-- `KEY_GEN` is entered with the button only. -/
theorem nextState_ne_keyGen_of_not (hs : s.state ≠ .keyGen) (hi : ¬ KeyRequest i) :
    s.nextState i ≠ .keyGen := by
  unfold KeyRequest at hi
  unfold System.nextState
  repeat' split
  all_goals simp_all

/-- No reset, no request for subkeys, and the switches of `KEY` as in `i₀`. -/
def SameSwitches (i₀ : Inputs) : ClockEdge → Prop
  | .clk _ => True
  | .vgaClk i | .camPclk i => i.reset = false ∧ ¬ KeyRequest i ∧
      i.sw14 = i₀.sw14 ∧ i.sw15 = i₀.sw15 ∧ i.sw16 = i₀.sw16 ∧ i.sw17 = i₀.sw17

/-- `KEY` stays while its switches stay and no subkeys are generated. -/
theorem heldEdge_stateAt {i₀ : Inputs} {inp : ℕ → ClockEdge} (hs : b.chip.state ≠ .keyGen)
    (hinp : ∀ n, SameSwitches i₀ (inp n)) (n : ℕ) :
    HeldEdge (b.chip.key i₀) (stateAt (Board.edge · F seed) b inp n) (inp n) := by
  -- the subkeys move in `KEY_GEN` only
  have hsame : SameSubkeys b.chip (stateAt (Board.edge · F seed) b inp n).chip := by
    refine stateAt_invariant (c := fun _ e => SameSwitches i₀ e)
      (I := fun b' : Board => SameSubkeys b.chip b'.chip) (fun b' e h he => ?_) ⟨hs, rfl⟩ hinp n
    cases e with
    | clk l => exact h
    | vgaClk i => exact ⟨h.state, (dataPath_subkey h.state).trans h.subkey⟩
    | camPclk i =>
      refine ⟨?_, h.subkey⟩
      rw [camPclk_state_of_unreset he.1]
      exact nextState_ne_keyGen_of_not h.state he.2.1
  have hkey := hsame.subkey
  have hedge := hinp n
  generalize stateAt (Board.edge · F seed) b inp n = b' at hkey
  generalize inp n = e at hedge
  -- with them and the switches the key is settled
  cases e with
  | clk l => trivial
  | vgaClk i | camPclk i =>
    obtain ⟨hreset, -, h14, h15, h16, h17⟩ := hedge
    refine ⟨hreset, ?_⟩
    simp only [System.key, Regs.key, hkey, h14, h15, h16, h17]

/-- The machine of `displaying` on the board. -/
def displayingBoard : Board := ⟨displaying, generatorReset, fun _ => rfl⟩

/-- An edge of `Cam_pclk`, one of `VGA_Clk` and one of `Clk` in turn; the switches change with
`Cam_pclk`. -/
def threeInTurn (n : ℕ) : ClockEdge :=
  if n % 3 = 0 then .camPclk (inTurn (n / 3))
  else if n % 3 = 1 then .vgaClk (inTurn 0)
  else .clk fun _ => 0

theorem interleaves_of_mod {inp : ℕ → ClockEdge}
    (hcam : ∀ n, (inp n).clock = .camPclk ↔ n % 3 = 0)
    (hvga : ∀ n, n % 3 = 1 → (inp n).clock = .vgaClk) :
    Interleaves ClockEdge.clock .camPclk .vgaClk inp := by
  refine ⟨fun n => ⟨(3 - n % 3) % 3, (hcam _).mpr (by omega)⟩,
    fun n => ⟨(4 - n % 3) % 3, hvga _ (by omega)⟩, fun n m hnm hn hm => ?_⟩
  rw [hcam] at hn hm
  exact ⟨n + 1, by omega, by omega, hvga _ (by omega)⟩

theorem interleaves_threeInTurn : Interleaves ClockEdge.clock .camPclk .vgaClk threeInTurn := by
  refine interleaves_of_mod (fun n => ?_) fun n h => by simp [threeInTurn, h, ClockEdge.clock]
  unfold threeInTurn
  split_ifs with h0 h1 <;> simp [ClockEdge.clock, h0]

theorem sameSwitches_threeInTurn (n : ℕ) : SameSwitches (inTurn 0) (threeInTurn n) := by
  unfold threeInTurn
  split_ifs
  · refine ⟨rfl, fun h => ?_, rfl, rfl, rfl, rfl⟩
    simp [KeyRequest, inTurn] at h
    omega
  · exact ⟨rfl, fun h => absurd h.2.1 (by decide), rfl, rfl, rfl, rfl⟩
  · trivial

/-- `HIATUS` is left for `DISPLAY` at the next odd edge of `Cam_pclk`. -/
theorem hiatus_threeInTurn {m : ℕ} (h : b.chip.state = .hiatus) :
    (b.edge F seed (threeInTurn m)).chip.state = if m % 6 = 3 then .display else .hiatus := by
  unfold threeInTurn
  -- `HIATUS` waits for a high button, which comes with every other `Cam_pclk`
  split_ifs with h0 h6 h6
  · change b.chip.nextState (inTurn (m / 3)) = .display
    have hodd : m / 3 % 2 = 1 := by omega
    have hpos : m / 3 ≠ 0 := by omega
    rw [System.nextState, h]
    simp [inTurn, hodd, hpos]
  · change b.chip.nextState (inTurn (m / 3)) = .hiatus
    have heven : m / 3 % 2 = 0 := by omega
    rw [System.nextState, h]
    simp [inTurn, heven]
  all_goals first | exact h | omega

theorem state_threeInTurn_of_ne {m : ℕ} (h : m % 3 ≠ 0) :
    (b.edge F seed (threeInTurn m)).chip.state = b.chip.state := by
  rw [threeInTurn, if_neg h]
  split <;> rfl

/-- From `HIATUS` to the next request of the decryption. -/
theorem display_threeInTurn {n : ℕ}
    (h : (stateAt (Board.edge · F seed) displayingBoard threeInTurn n).chip.state = .hiatus) :
    ∃ k, n < 6 * k ∧ (stateAt (Board.edge · F seed) displayingBoard threeInTurn (6 * k)).chip.state
        = .display ∧ ∀ m, n ≤ m → m ≤ 6 * k →
      (stateAt (Board.edge · F seed) displayingBoard threeInTurn m).chip.state = .hiatus ∨
        (stateAt (Board.edge · F seed) displayingBoard threeInTurn m).chip.state = .display := by
  obtain ⟨k, hk⟩ : ∃ k, n + 3 ≤ 6 * k ∧ 6 * k < n + 9 := ⟨(n + 8) / 6, by omega, by omega⟩
  -- until then the chip waits
  have hwait : ∀ m, n ≤ m → m + 3 ≤ 6 * k →
      (stateAt (Board.edge · F seed) displayingBoard threeInTurn m).chip.state = .hiatus := by
    intro m hm
    induction m, hm using Nat.le_induction with
    | base => exact fun _ => h
    | succ m hm ih =>
      intro hmk
      rw [stateAt_succ, hiatus_threeInTurn (ih (by omega)), if_neg (by omega)]
  -- and from then on it displays, for `Cam_pclk` is not among the next edges
  have hthere : ∀ j, j < 3 → (stateAt (Board.edge · F seed) displayingBoard threeInTurn
      (6 * k - 2 + j)).chip.state = .display := by
    intro j hj
    induction j with
    | zero =>
      have hlast := hwait (6 * k - 3) (by omega) (by omega)
      rw [show 6 * k - 2 + 0 = 6 * k - 3 + 1 by omega, stateAt_succ, hiatus_threeInTurn hlast,
        if_pos (by omega)]
    | succ j ih =>
      rw [← Nat.add_assoc, stateAt_succ, state_threeInTurn_of_ne (by omega)]
      exact ih (by omega)
  refine ⟨k, by omega, ?_, fun m hm hmk => ?_⟩
  · have hlast := hthere 2 (by decide)
    rwa [show 6 * k - 2 + 2 = 6 * k by omega] at hlast
  · rcases Nat.lt_or_ge m (6 * k - 2) with hlt | hge
    · exact .inl (hwait m hm (by omega))
    · obtain ⟨j, rfl⟩ := Nat.exists_eq_add_of_le hge
      exact .inr (hthere j (by omega))

/-- Both chains, with the three clocks in turn. -/
theorem three_clock_round_trip_in_turn : ∃ n₁ n₂ n₃, n₁ < n₂ ∧ n₂ < n₃ ∧
    (stateAt (Board.edge · (fun _ k => k) 0) displayingBoard threeInTurn n₁).chip.frame
      = encrypt (displaying.key (inTurn 0)) displaying.frame ∧
    (stateAt (Board.edge · (fun _ k => k) 0) displayingBoard threeInTurn n₂).chip.state
      = .display ∧
    (stateAt (Board.edge · (fun _ k => k) 0) displayingBoard threeInTurn n₃).chip.frame
      = displaying.frame := by
  obtain ⟨n₁, hhiatus, hframe, -, hdecrypt⟩ := three_clock_round_trip (fun _ k => k) 0
    (displaying.key (inTurn 0)) displayingBoard threeInTurn
    (heldEdge_stateAt (fun h => Fsm.noConfusion h) sameSwitches_threeInTurn)
    interleaves_threeInTurn ⟨rfl, rfl, rfl, rfl, rfl, rfl⟩ rfl ⟨rfl, rfl, rfl⟩
  obtain ⟨k, hk, hdisplay, hrest⟩ := display_threeInTurn hhiatus
  have hedge : threeInTurn (6 * k) = .camPclk (inTurn (2 * k)) := by
    rw [threeInTurn, if_pos (by omega), show 6 * k / 3 = 2 * k by omega]
  obtain ⟨n₃, hn, -, -, hback⟩ := hdecrypt (6 * k) (inTurn (2 * k)) hk hrest hdisplay hedge (by
    have hpos : k ≠ 0 := by omega
    simp [DecryptRequest, inTurn, hpos])
  exact ⟨n₁, 6 * k, n₃, hk, hn, hframe, hdisplay, hback⟩

end Decouples

end Sram
end VideoEncryption
