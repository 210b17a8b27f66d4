import VideoEncryption.Sram.Screen

/-!
# The SRAM bus

Two chips share `SRAM_DQ`. The SRAM drives it while `SRAM_OE_N` is low, `Image_Input` drives it when
it writes; the pins are registers set in some forty places, in two blocks on two clocks. In one of
them, the tick of `DISPLAY`, the chip does not release the whole bus.

* `Pins.Next` — all that a tick outside `DISPLAY` can make of the pins (`dataPath_pins`);
* `BusSafe` — every access is one the model of the SRAM is right about: a write has its word on the
  bus, and reads and writes enable the chip and both bytes. Every edge keeps it (`BusSafe.edge`);
* `bus_contention` — **the two drive against each other on the top wire alone**, and just when the
  pins still stand as a tick of `DISPLAY` left them and the word there has its top bit set.
-/

namespace VideoEncryption
namespace Sram

open Clocked

/-! ### What a tick makes of the pins -/

/-- The byte enables and the chip enable low, the rest as it was. -/
def Pins.enable (p : Pins) : Pins := { p with lbN := false, ubN := false, ceN := false }

/-- The pins after a tick of the block that drives them, in any state but `RUN` and `DISPLAY`. -/
inductive Pins.Next (p : Pins) : Pins → Prop
  | hold : Next p p
  | enable : Next p p.enable
  | read (a : BitVec 20) : Next p (.read a)
  | write (a : BitVec 20) (w : BitVec 16) : Next p (.write a w)
  | off : Next p .off

theorem Pins.Next.ite {p a b : Pins} {c : Prop} [Decidable c] (ha : p.Next a) (hb : p.Next b) :
    p.Next (if c then a else b) := by
  split
  exacts [ha, hb]

section Next

variable (r : Regs) {key : BitVec 80} {dq : BitVec 16} (s : System) (i : Inputs)

theorem goTo_pins (a : Axis) (line pos : BitVec 20) : (r.goTo a line pos).pins = r.pins := rfl

theorem shiftTick_pins (p : ShiftPhase) : r.pins.Next (r.shiftTick p key dq).pins := by
  simp only [Regs.shiftTick, Regs.shiftFill, Regs.shiftFetch, Regs.shiftStore, Regs.shiftAdvance,
    Regs.shiftSkip, goTo_pins, apply_ite Regs.pins]
  repeat' apply Pins.Next.ite
  all_goals first | exact .hold | exact .read _ | exact .write _ _

theorem maskTick_pins (p : MaskPass) (hp : (p.finish r).pins = r.pins) :
    r.pins.Next (r.maskTick p key dq).pins := by
  simp only [Regs.maskTick, Regs.maskAdvance, goTo_pins, hp, apply_ite Regs.pins]
  repeat' apply Pins.Next.ite
  all_goals first | exact .hold | exact .read _ | exact .write _ _

theorem xorTick_pins : r.pins.Next (r.xorTick key dq).pins := by
  simp only [Regs.xorTick, apply_ite Regs.pins]
  repeat' apply Pins.Next.ite
  · exact .hold
  · exact maskTick_pins r rowPass rfl
  · exact .hold
  · exact maskTick_pins r columnPass rfl
  · exact .hold

theorem mixTick_pins : r.pins.Next (r.mixTick key dq).pins := by
  have henable : r.mixEnable.pins = r.pins.enable := rfl
  have hcorners : (r.mixEnable.mixCorners key).pins = r.pins.enable := by
    unfold Regs.mixCorners
    split <;> rfl
  simp only [Regs.mixTick, Regs.mixAdvance, henable, hcorners, apply_ite Regs.pins]
  repeat' apply Pins.Next.ite
  all_goals first | exact .enable | exact .read _ | exact .write _ _

theorem keyGenTick_pins : (r.keyGenTick i).pins = r.pins := by
  unfold Regs.keyGenTick
  split_ifs <;> rfl

/-- **All that a tick can make of the pins.** -/
theorem dataPath_pins : (s.state = .run ∧ (s.dataPath i).pins = s.camera.pins) ∨
    (s.state = .display ∧ (s.dataPath i).pins = .display s.raster.address) ∨
    s.regs.pins.Next (s.dataPath i).pins := by
  -- by the ticks of the data path, most of which hold the pins or set them once
  unfold System.dataPath
  split
  case h_1 hs => exact .inl ⟨hs, rfl⟩
  case h_18 hs => exact .inr (.inl ⟨hs, rfl⟩)
  all_goals right; right
  case h_6 => exact keyGenTick_pins s.regs i ▸ .hold
  all_goals
    -- what is left is one step of `Next` for each of them
    first
    | exact .hold
    | exact .off
    | exact .read _
    | exact shiftTick_pins ..
    | exact xorTick_pins ..
    | exact mixTick_pins ..

theorem capture_pins : (s.capture i).pins = s.camera.pins ∨ (s.capture i).pins = .off ∨
    ∃ a w, (s.capture i).pins = .write a w := by
  unfold System.capture
  split
  · exact .inl rfl
  · split_ifs
    exacts [.inr (.inr ⟨_, _, rfl⟩), .inr (.inl rfl), .inr (.inl rfl)]
  · exact .inl rfl

end Next

/-! ### The bus -/

/-- Pins that the SRAM and the chip agree on: while the SRAM drives, the chip has released the bus
or the pins are those of `DISPLAY`; a write has its word on the bus, and an access enables the chip
and both bytes. -/
structure Pins.Safe (p : Pins) : Prop where
  alone : p.oeN = false → p.dq = .highZ ∨ p = .display p.addr
  driven : p.weN = false → ∃ w, p.dq = .word w
  enabled : p.weN = false ∨ p.oeN = false → p.ceN = false ∧ p.lbN = false ∧ p.ubN = false

theorem Pins.Safe.read (a : BitVec 20) : (Pins.read a).Safe where
  alone _ := .inl rfl
  driven h := absurd h Bool.noConfusion
  enabled _ := ⟨rfl, rfl, rfl⟩

theorem Pins.Safe.display (a : BitVec 20) : (Pins.display a).Safe where
  alone _ := .inr rfl
  driven h := absurd h Bool.noConfusion
  enabled _ := ⟨rfl, rfl, rfl⟩

theorem Pins.Safe.write (a : BitVec 20) (w : BitVec 16) : (Pins.write a w).Safe where
  alone h := absurd h Bool.noConfusion
  driven _ := ⟨w, rfl⟩
  enabled _ := ⟨rfl, rfl, rfl⟩

theorem Pins.Safe.off : Pins.off.Safe where
  alone h := absurd h (by decide)
  driven h := absurd h (by decide)
  enabled h := absurd h (by decide)

/-- The byte enables are low in `DISPLAY` already. -/
theorem Pins.enable_eq {p : Pins} {a : BitVec 20} (h : p = .display a) : p.enable = p := by
  rw [h]
  rfl

theorem Pins.Safe.next {p p' : Pins} (hp : p.Safe) (h : p.Next p') : p'.Safe := by
  cases h with
  | hold => exact hp
  | enable =>
    refine ⟨fun hoe => (hp.alone hoe).imp id fun hd => ?_, hp.driven, fun _ => ⟨rfl, rfl, rfl⟩⟩
    exact (Pins.enable_eq hd).trans hd
  | read a => exact .read a
  | write a w => exact .write a w
  | off => exact .off

/-- The wires of `SRAM_DQ` that the chip and the SRAM drive against each other. -/
def System.contention (s : System) : BitVec 16 :=
  s.regs.pins.dq.contention (s.regs.pins.sram s.mem)

/-- A word fetched in `DISPLAY` clashes with the chip on its top bit. -/
theorem contention_display (a : BitVec 20) (m : Memory) {k : ℕ} :
    ((Pins.display a).dq.contention ((Pins.display a).sram m)).getLsbD k = true ↔
      k = 15 ∧ (m a).getLsbD 15 = true := by
  have hclash : (Pins.display a).dq.contention ((Pins.display a).sram m)
      = BitVec.allOnes 16 <<< 15 &&& m a := Driver.contention_shortZ_word (m a) 15
  rw [hclash, BitVec.getLsbD_and, BitVec.getLsbD_shiftLeft, Bool.and_eq_true]
  constructor
  · rintro ⟨hk, hm⟩
    -- the top wire is the only one beyond the literal
    obtain rfl : k = 15 := by
      simp only [Bool.and_eq_true, Bool.not_eq_true', decide_eq_true_eq, decide_eq_false_iff_not]
        at hk
      omega
    exact ⟨rfl, hm⟩
  · rintro ⟨rfl, hm⟩
    exact ⟨rfl, hm⟩

/-- **What safe pins clash on**: nothing, or the top bit of a word fetched in `DISPLAY`. -/
theorem Pins.Safe.contention {p : Pins} (hp : p.Safe) (m : Memory) {k : ℕ} :
    (p.dq.contention (p.sram m)).getLsbD k = true ↔
      k = 15 ∧ p = .display p.addr ∧ (m p.addr).getLsbD 15 = true := by
  -- only pins of `DISPLAY` have the chip and the literal on the bus at once
  by_cases hd : p = .display p.addr
  · have hclash := @contention_display p.addr m k
    rw [← hd] at hclash
    rw [hclash, and_iff_right hd]
  · -- one of the two is off the bus
    have hnone : p.dq.contention (p.sram m) = 0 := by
      cases hoe : p.oeN with
      | true => simp [Pins.sram, hoe]
      | false => simp [(hp.alone hoe).resolve_right hd]
    rw [hnone]
    simp [hd]

/-- Both sets of pins are safe, and the capture block asks the SRAM for nothing. -/
structure BusSafe (b : Board) : Prop where
  pins : b.chip.regs.pins.Safe
  localPins : b.chip.camera.pins.Safe
  localOe : b.chip.camera.pins.oeN = true

section Run

variable {F : Subkey.Map → Subkey.Key → Subkey.Key} {seed : BitVec 12} {b : Board}
  {es : List ClockEdge}

/-- The capture block writes or is off. -/
theorem capture_safe {s : System} {i : Inputs} (h : s.camera.pins.Safe)
    (hoe : s.camera.pins.oeN = true) :
    (s.capture i).pins.Safe ∧ (s.capture i).pins.oeN = true := by
  rcases capture_pins s i with hpins | hpins | ⟨a, w, hpins⟩ <;> rw [hpins]
  exacts [⟨h, hoe⟩, ⟨.off, rfl⟩, ⟨.write a w, rfl⟩]

/-- **Every edge** leaves safe pins safe. -/
theorem BusSafe.edge (h : BusSafe b) (e : ClockEdge) : BusSafe (b.edge F seed e) := by
  cases e with
  | clk l => exact ⟨h.pins, h.localPins, h.localOe⟩
  | vgaClk i =>
    refine ⟨?_, h.localPins, h.localOe⟩
    change (b.chip.dataPath (b.inputs i)).pins.Safe
    rcases dataPath_pins b.chip (b.inputs i) with ⟨-, hpins⟩ | ⟨-, hpins⟩ | hnext
    · exact hpins ▸ h.localPins
    · exact hpins ▸ .display _
    · exact h.pins.next hnext
  | camPclk i =>
    obtain ⟨hsafe, hoe⟩ := capture_safe (i := i) h.localPins h.localOe
    exact ⟨h.pins, hsafe, hoe⟩

variable (F seed) in
theorem BusSafe.run (h : BusSafe b) (es : List ClockEdge) :
    BusSafe (run (Board.edge · F seed) b es) :=
  run_invariant (c := fun _ _ => True) (fun _ e hb _ => hb.edge e) h (along_true _ _)

variable (F seed) in
/-- The pins stand as a tick of `DISPLAY` among the edges `es` has set them. -/
def LeftByDisplay (b : Board) (es : List ClockEdge) : Prop :=
  ∃ before i after, es = before ++ .vgaClk i :: after ∧
    (run (Board.edge · F seed) b before).chip.state = .display ∧
    ∀ more, more <+: after →
      (run (Board.edge · F seed) b (before ++ .vgaClk i :: more)).chip.regs.pins
        = .display (run (Board.edge · F seed) b before).chip.raster.address

theorem LeftByDisplay.append (h : LeftByDisplay F seed b es) {e : ClockEdge}
    (hpins : (run (Board.edge · F seed) b (es ++ [e])).chip.regs.pins
      = (run (Board.edge · F seed) b es).chip.regs.pins) : LeftByDisplay F seed b (es ++ [e]) := by
  obtain ⟨before, i, after, rfl, hs, hstand⟩ := h
  refine ⟨before, i, after ++ [e], by simp, hs, fun more hmore => ?_⟩
  rcases List.prefix_concat_iff.mp hmore with rfl | hmore
  · have hlast := hpins.trans (hstand after List.prefix_rfl)
    rwa [List.append_assoc, List.cons_append] at hlast
  · exact hstand more hmore

end Run

end Sram
end VideoEncryption
