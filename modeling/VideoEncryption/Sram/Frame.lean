import VideoEncryption.Clocked.Sweep
import VideoEncryption.Sram.Cipher

/-!
# The frame in the SRAM

How one tick of the chip acts on the frame it keeps in the SRAM. A `view` reads the SRAM as a family
of words along a bijection of its indices with the pixels; a tick with the write enable high or with
the pins of the tick before leaves every view alone (`view_tick_of_weN`, `view_tick_of_hold`), a
tick with write pins updates it at one index (`view_tick_of_write`), and in the tick after a read
the bus carries the word (`dq_of_read`).

`Drives` says what a state computes and where it goes: all that the proofs about the phases use of
the machine.
-/

namespace VideoEncryption
namespace Sram

open Clocked

/-! ### Addresses -/

/-- The address of a pixel. -/
def pixelAddr (px : Pixel) : BitVec 20 := BitVec.ofNat 20 (640 * px.1 + px.2)

theorem pixelAddr_injective : Function.Injective pixelAddr := by
  rintro ⟨y, x⟩ ⟨y', x'⟩ h
  -- the 307200 addresses fit twenty bits, so the words are equal as numbers
  have hlt : ∀ (y : Fin 480) (x : Fin 640), 640 * (y : ℕ) + x < 2 ^ 20 := by
    intro y x
    omega
  have heq := (ofNat_inj (hlt y x) (hlt y' x')).mp h
  rw [Prod.mk.injEq, Fin.ext_iff, Fin.ext_iff]
  omega

/-! ### Pins -/

theorem Pins.store_of_weN {p : Pins} (h : p.weN = true) (m : Memory) : p.store m = m := if_pos h

@[simp] theorem Pins.store_read (a : BitVec 20) (m : Memory) : (Pins.read a).store m = m := rfl

@[simp] theorem Pins.store_write (a : BitVec 20) (w : BitVec 16) (m : Memory) :
    (Pins.write a w).store m = Function.update m a w :=
  congrArg (Function.update m a) (Driver.resolve_word_highZ w (m a))

@[simp] theorem Pins.bus_read (a : BitVec 20) (m : Memory) (f : BitVec 16) :
    (Pins.read a).bus m f = m a :=
  Driver.resolve_highZ_word (m a) f

/-- Address, data and write enable are all that a store depends on. -/
theorem Pins.store_congr {p p' : Pins} (ha : p.addr = p'.addr) (hd : p.dq = p'.dq)
    (hw : p.weN = p'.weN) (m : Memory) : p.store m = p'.store m := by
  unfold Pins.store
  rw [ha, hd, hw]

/-- Pins that stay as they are store the same word again. -/
theorem Pins.store_store (p : Pins) (m : Memory) : p.store (p.store m) = p.store m := by
  unfold Pins.store
  cases p.weN with
  | true => rfl
  | false =>
    -- the wires without a driver find what they left
    simp only [Bool.false_eq_true, if_false, Function.update_self, Function.update_idem,
      Driver.resolve_highZ_idem]

/-! ### Views of the SRAM -/

variable {ι : Type*} {e : ι ≃ Pixel} {s : System} {i : Inputs}

/-- The SRAM at the end of the tick, read along `e`. -/
def System.view (s : System) (e : ι ≃ Pixel) : ι → BitVec 16 :=
  fun j => s.stored (pixelAddr (e j))

/-- The frame in the SRAM. -/
def System.frame (s : System) : Frame := s.view (.refl _)

theorem view_eq_frame_comp (s : System) (e : ι ≃ Pixel) : s.view e = s.frame ∘ e := rfl

theorem frame_eq_view_comp (s : System) (e : ι ≃ Pixel) : s.frame = s.view e ∘ e.symm := by
  funext px
  simp [System.frame, System.view]

@[simp] theorem tick_regs (s : System) (i : Inputs) : (s.tick i).regs = s.dataPath i := rfl

theorem stored_tick (s : System) (i : Inputs) :
    (s.tick i).stored = (s.dataPath i).pins.store s.stored := rfl

theorem view_tick_of_weN (h : (s.dataPath i).pins.weN = true) :
    (s.tick i).view e = s.view e := by
  funext j
  rw [System.view, stored_tick, Pins.store_of_weN h]
  rfl

theorem view_tick_of_read {a : BitVec 20} (h : (s.dataPath i).pins = .read a) :
    (s.tick i).view e = s.view e :=
  view_tick_of_weN (by rw [h]; rfl)

theorem view_tick_of_hold (ha : (s.dataPath i).pins.addr = s.regs.pins.addr)
    (hd : (s.dataPath i).pins.dq = s.regs.pins.dq)
    (hw : (s.dataPath i).pins.weN = s.regs.pins.weN) : (s.tick i).view e = s.view e := by
  funext j
  rw [System.view, stored_tick, Pins.store_congr ha hd hw, System.stored, Pins.store_store]
  rfl

theorem view_tick_of_pins_eq (h : (s.dataPath i).pins = s.regs.pins) :
    (s.tick i).view e = s.view e :=
  view_tick_of_hold (by rw [h]) (by rw [h]) (by rw [h])

theorem view_tick_of_write [DecidableEq ι] {j : ι} {w : BitVec 16}
    (h : (s.dataPath i).pins = .write (pixelAddr (e j)) w) :
    (s.tick i).view e = Function.update (s.view e) j w := by
  funext k
  rw [System.view, stored_tick, h, Pins.store_write]
  by_cases hk : k = j
  · subst hk
    rw [Function.update_self, Function.update_self]
  · rw [Function.update_of_ne hk, Function.update_of_ne]
    · rfl
    · -- different indices are different words of the SRAM
      exact fun hkj => hk (e.injective (pixelAddr_injective hkj))

theorem dq_of_read {j : ι} (h : s.regs.pins = .read (pixelAddr (e j))) : s.dq i = s.view e j := by
  rw [System.dq, System.view, System.stored, h, Pins.bus_read, Pins.store_read]

/-! ### What a state computes -/

/-- No reset at this edge, and `KEY` is `key`. -/
def Held (key : BitVec 80) (s : System) (i : Inputs) : Prop := i.reset = false ∧ s.key i = key

section Subkey

variable (r : Regs) (key : BitVec 80) (dq : BitVec 16)

theorem shiftTick_subkey (p : ShiftPhase) : (r.shiftTick p key dq).subkey = r.subkey := by
  simp only [Regs.shiftTick, Regs.shiftFill, Regs.shiftFetch, Regs.shiftStore, Regs.shiftAdvance,
    Regs.shiftSkip, Regs.goTo, apply_ite Regs.subkey, ite_self]

theorem maskTick_subkey (p : MaskPass) (h : (p.finish r).subkey = r.subkey) :
    (r.maskTick p key dq).subkey = r.subkey := by
  simp only [Regs.maskTick, Regs.maskAdvance, Regs.goTo, apply_ite Regs.subkey, h, ite_self]

theorem xorTick_subkey : (r.xorTick key dq).subkey = r.subkey := by
  simp only [Regs.xorTick, apply_ite Regs.subkey, maskTick_subkey r key dq rowPass rfl,
    maskTick_subkey r key dq columnPass rfl, ite_self]

theorem mixCorners_subkey : (r.mixCorners key).subkey = r.subkey := by
  unfold Regs.mixCorners
  split <;> rfl

theorem mixTick_subkey : (r.mixTick key dq).subkey = r.subkey := by
  simp only [Regs.mixTick, Regs.mixAdvance, Regs.mixEnable, mixCorners_subkey,
    apply_ite Regs.subkey, ite_self]

end Subkey

/-- The subkeys change in `KEY_GEN` alone. -/
theorem dataPath_subkey (h : s.state ≠ .keyGen) : (s.dataPath i).subkey = s.regs.subkey := by
  unfold System.dataPath
  split
  case h_6 hst => exact absurd hst h
  all_goals
    first
    | rfl
    | exact shiftTick_subkey ..
    | exact xorTick_subkey ..
    | exact mixTick_subkey ..

/-- `KEY_GEN` is entered on request only. -/
theorem nextState_ne_keyGen (h : s.state ≠ .keyGen) (hreq : ¬ (i.sw1 = false ∧ i.sw2 = false)) :
    s.nextState i ≠ .keyGen := by
  unfold System.nextState
  repeat' split
  all_goals simp_all

/-- In the state `st` the block that drives the SRAM computes `f` out of the word on the bus, and
`exit` is the state that follows. -/
structure Drives (key : BitVec 80) (st : Fsm) (f : BitVec 16 → Regs → Regs) (exit : Regs → Fsm) :
    Prop where
  regs : ∀ s i, s.state = st → Held key s i → s.dataPath i = f (s.dq i) s.regs
  state : ∀ s i, s.state = st → Held key s i → (s.tick i).state = exit s.regs

/-- The machine enters `st` with cleared counters and the frame `F`. -/
structure Entered (st : Fsm) (F : Frame) (s : System) : Prop where
  state : s.state = st
  rev : s.regs.rev = 0
  block : s.regs.blockCounter = 0
  row : s.regs.rowCounter = 0
  column : s.regs.columnCounter = 0
  frame : s.frame = F

/-- The machine has just left a phase for `st`, with the frame `F`. -/
structure Left (st : Fsm) (F : Frame) (s : System) : Prop where
  state : s.state = st
  frame : s.frame = F

variable {key : BitVec 80} {st nxt : Fsm} {W : System → Prop}

/-- An interval clears the counters and leaves the frame alone. -/
theorem interval_leadsTo (h : Drives key st (fun _ r => r.interval) (fun _ => nxt))
    (hW : ∀ s : System, s.state = st → W s) (F : Frame) :
    LeadsTo System.tick (Held key) W (Left st F) (Entered nxt F) := by
  refine .of_step (fun s hs => hW s hs.state) fun s i hs hheld => ?_
  -- the pins stay as the phase left them, so the last word is written once more
  have hregs := h.regs s i hs.state hheld
  have hframe : (s.tick i).frame = s.frame := view_tick_of_pins_eq (by rw [hregs]; rfl)
  refine ⟨h.state s i hs.state hheld, ?_, ?_, ?_, ?_, hframe.trans hs.frame⟩ <;>
    · show _ = _
      simp only [System.tick, hregs, Regs.interval]

end Sram
end VideoEncryption
