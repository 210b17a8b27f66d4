import VideoEncryption.Sram.Shift

/-!
# The XOR phase

`ENCRYPT_XOR` and `DECRYPT_XOR` run the same two passes over the frame, one along the rows and one
along the columns; each reads a word, masks it with the key word its position selects and writes it
back. `MaskPass.Fits` is what the proof asks of a pass, `pass_leadsTo` is one pass and `xor_leadsTo`
the whole phase.
-/

namespace VideoEncryption
namespace Sram

open Clocked

variable {L N : ℕ} {key : BitVec 80} {st nxt : Fsm} {p : MaskPass} {e : Layout L N}
  {G : Fin L × Fin N → BitVec 16} {W : System → Prop} {s : System} {i : Inputs}

/-- The words after a pass. -/
def maskedWords (key : BitVec 80) (G : Fin L × Fin N → BitVec 16) : Fin L × Fin N → BitVec 16 :=
  fun j => G j ^^^ keyWord key (BitVec.ofNat 2 j.2)

/-- The bounds and the addresses of a pass are those of the layout `e`, and the phase runs it. -/
structure MaskPass.Fits (p : MaskPass) (e : Layout L N) : Prop where
  line_lt : L < 2 ^ 20
  pos_lt : N < 2 ^ 20
  lines_pos : 0 < L
  line_pos : 0 < N
  last : p.last = BitVec.ofNat 20 (N - 1)
  lines : p.lines = BitVec.ofNat 20 L
  address : ∀ (r : Regs) (l : Fin L) (q : Fin N), r.line p.axis = BitVec.ofNat 20 l →
    r.pos p.axis = BitVec.ofNat 20 q → r.wordAddr = pixelAddr (e (l, q))
  runs : ∀ (r : Regs) (key : BitVec 80) (dq : BitVec 16),
    r.rev = p.base ∨ r.rev = p.base + 1 ∨ r.rev = p.base + 2 ∨ r.rev = p.base + 3 ∨
      r.rev = p.base + 4 → r.xorTick key dq = r.maskTick p key dq

/-- In the course of a pass, at position `q` of line `l`; `k` words of the line are written. -/
structure Masking (p : MaskPass) (st : Fsm) (e : Layout L N) (key : BitVec 80)
    (G : Fin L × Fin N → BitVec 16) (rev : BitVec 6) (l q k : ℕ) (s : System) : Prop where
  state : s.state = st
  rev : s.regs.rev = rev
  block : s.regs.blockCounter = 0
  line : s.regs.line p.axis = BitVec.ofNat 20 l
  pos : s.regs.pos p.axis = BitVec.ofNat 20 q
  view : s.view e = swept scanRank G (maskedWords key G) (N * l + k)

/-- The state `st` is the XOR phase. -/
abbrev DrivesXor (key : BitVec 80) (st nxt : Fsm) : Prop :=
  Drives key st (fun dq r => r.xorTick key dq)
    (fun r => if r.blockCounter = 100 then nxt else st)

/-! ### The ticks of a pass -/

section Ticks

variable (b : BitVec 6) (r : Regs) (dq : BitVec 16)

theorem maskTick_write (h : r.rev = p.base + 2) : r.maskTick p key dq
    = { r with
        pins := .write r.wordAddr
          (r.tempStorage2 ^^^ keyWord key ((r.pos p.axis).extractLsb' 0 2))
        rev := p.base + 3 } := by
  have hearlier : ∀ b : BitVec 6, ¬ (b + 2 = b ∨ b + 2 = b + 1) := by decide
  have hnext : ∀ b : BitVec 6, b + 2 + 1 = b + 3 := by decide
  rw [Regs.maskTick, h, if_neg (hearlier _), if_pos rfl, hnext]

theorem maskTick_advance (h : r.rev = p.base + 3) : r.maskTick p key dq = r.maskAdvance p := by
  have hearlier : ∀ b : BitVec 6, ¬ (b + 3 = b ∨ b + 3 = b + 1) ∧ b + 3 ≠ b + 2 := by decide
  rw [Regs.maskTick, h, if_neg (hearlier _).1, if_neg (hearlier _).2, if_pos rfl]

theorem maskTick_turn (h : r.rev = p.base + 4) : r.maskTick p key dq
    = if r.line p.axis = p.lines then p.finish r else { r with rev := p.base } := by
  have hearlier : ∀ b : BitVec 6,
      ¬ (b + 4 = b ∨ b + 4 = b + 1) ∧ b + 4 ≠ b + 2 ∧ b + 4 ≠ b + 3 := by
    decide
  rw [Regs.maskTick, h, if_neg (hearlier _).1, if_neg (hearlier _).2.1, if_neg (hearlier _).2.2]

end Ticks

variable {rev : BitVec 6} {l q k : ℕ}

theorem Masking.state_tick (hd : DrivesXor key st nxt) (hs : Masking p st e key G rev l q k s)
    (hheld : Held key s i) : (s.tick i).state = st := by
  rw [hd.state s i hs.state hheld, hs.block]
  rfl

/-- A tick that leaves the counters alone. -/
theorem Masking.keep {rev' : BitVec 6} {k' : ℕ} {pins : Pins} {t : BitVec 16}
    (hd : DrivesXor key st nxt) (hs : Masking p st e key G rev l q k s) (hheld : Held key s i)
    (hdp : s.dataPath i = { s.regs with pins := pins, tempStorage2 := t, rev := rev' })
    (hview : (s.tick i).view e = swept scanRank G (maskedWords key G) (N * l + k')) :
    Masking p st e key G rev' l q k' (s.tick i) := by
  refine ⟨hs.state_tick hd hheld, ?_, ?_, ?_, ?_, hview⟩ <;> rw [tick_regs, hdp]
  · exact hs.block
  · exact hs.line
  · exact hs.pos

/-- A tick of a read. -/
theorem Masking.read (hp : p.Fits e) (hd : DrivesXor key st nxt) {l : Fin L} {q : Fin N}
    (hs : Masking p st e key G rev l q k s) (hrev : rev = p.base ∨ rev = p.base + 1)
    (hheld : Held key s i) :
    Masking p st e key G (rev + 1) l q k (s.tick i)
      ∧ (s.tick i).regs.pins = .read (pixelAddr (e (l, q)))
      ∧ (s.tick i).regs.tempStorage2 = s.dq i := by
  have hdp : s.dataPath i = { s.regs with
      pins := .read (pixelAddr (e (l, q))), tempStorage2 := s.dq i, rev := rev + 1 } := by
    -- the first two values of `rev` of a pass only read
    rw [hd.regs s i hs.state hheld, hp.runs, Regs.maskTick, hs.rev, if_pos hrev,
      hp.address s.regs l q hs.line hs.pos]
    rw [hs.rev]
    exact hrev.imp_right .inl
  refine ⟨hs.keep hd hheld hdp ?_, ?_, ?_⟩
  · rw [view_tick_of_read (by rw [hdp]), hs.view]
  · rw [tick_regs, hdp]
  · rw [tick_regs, hdp]

/-- **One word is masked.** -/
theorem Masking.write (hp : p.Fits e) (hd : DrivesXor key st nxt)
    (hW : ∀ s : System, s.state = st → W s) {l : Fin L} {q : Fin N} :
    LeadsTo System.tick (Held key) W (Masking p st e key G p.base l q q)
      (Masking p st e key G (p.base + 3) l q (q + 1)) := by
  refine .step_trans (Q := fun s => Masking p st e key G (p.base + 1) l q q s ∧
      s.regs.pins = .read (pixelAddr (e (l, q)))) (fun s hs => hW s hs.state) ?_
    (.step_trans (Q := fun s => Masking p st e key G (p.base + 2) l q q s ∧
      s.regs.tempStorage2 = G (l, q)) (fun s hs => hW s hs.1.state) ?_
      (.of_step (fun s hs => hW s hs.1.state) ?_))
  -- the first read sets the address
  -- `rev` counts the three steps: two reads, and a write
  · intro s i hs hheld
    obtain ⟨hm, hpins, -⟩ := hs.read hp hd (.inl rfl) hheld
    exact ⟨hm, hpins⟩
  -- the second one takes the word, which the pass has not come to yet
  · rintro s i ⟨hs, hpins⟩ hheld
    obtain ⟨hm, -, htemp⟩ := hs.read hp hd (.inr rfl) hheld
    have hnext : ∀ b : BitVec 6, b + 1 + 1 = b + 2 := by decide
    rw [hnext] at hm
    refine ⟨hm, ?_⟩
    calc (s.tick i).regs.tempStorage2 = s.dq i := htemp
      _ = s.view e (l, q) := dq_of_read hpins
      _ = G (l, q) := by
        rw [hs.view, swept_of_le]
        exact le_rfl
  -- the write puts the masked word in its place
  · rintro s i ⟨hs, htemp⟩ hheld
    -- the word of the key goes by the position in the line
    have hsel : (s.regs.pos p.axis).extractLsb' 0 2 = BitVec.ofNat 2 (q : ℕ) := by
      rw [hs.pos]
      apply BitVec.eq_of_toNat_eq
      simp only [BitVec.extractLsb'_toNat, BitVec.toNat_ofNat, Nat.shiftRight_zero]
      omega
    have hword : s.regs.tempStorage2 ^^^ keyWord key ((s.regs.pos p.axis).extractLsb' 0 2)
        = maskedWords key G (l, q) := by
      calc s.regs.tempStorage2 ^^^ keyWord key ((s.regs.pos p.axis).extractLsb' 0 2)
          = G (l, q) ^^^ keyWord key (BitVec.ofNat 2 (q : ℕ)) := by rw [htemp, hsel]
        _ = maskedWords key G (l, q) := rfl
    -- the pass does all of this in its third step
    have hdp : s.dataPath i = { s.regs with
        pins := .write (pixelAddr (e (l, q))) (maskedWords key G (l, q)),
        tempStorage2 := s.regs.tempStorage2, rev := p.base + 3 } := by
      rw [hd.regs s i hs.state hheld, hp.runs _ _ _ (by simp [hs.rev]),
        maskTick_write _ _ hs.rev, hp.address s.regs l q hs.line hs.pos, hword]
    refine hs.keep hd hheld hdp ?_
    rw [view_tick_of_write (by rw [hdp]), hs.view]
    exact swept_write_of_injective (k := N * l + q) scanRank_injective rfl

/-- On to the next position of the line. -/
theorem Masking.advance (hp : p.Fits e) (hd : DrivesXor key st nxt)
    (hW : ∀ s : System, s.state = st → W s) (hq : q + 1 < N) :
    LeadsTo System.tick (Held key) W (Masking p st e key G (p.base + 3) l q k)
      (Masking p st e key G (p.base + 4) l (q + 1) k) := by
  have hlt := hp.pos_lt
  refine .of_step (fun s hs => hW s hs.state) fun s i hs hheld => ?_
  -- there is a position left in the line
  have hmore : s.regs.pos p.axis ≠ p.last := by
    rw [hs.pos, hp.last]
    exact mt (ofNat_inj (by omega) (by omega)).mp (by omega)
  have hnext : ∀ b : BitVec 6, b + 3 + 1 = b + 4 := by decide
  have hdp : s.dataPath i = { s.regs with rev := p.base + 4 }.goTo p.axis (s.regs.line p.axis)
      (s.regs.pos p.axis + 1) := by
    rw [hd.regs s i hs.state hheld, hp.runs _ _ _ (by simp [hs.rev]), maskTick_advance _ _ hs.rev,
      Regs.maskAdvance, if_neg hmore, hs.rev, hnext]
  -- the registers one by one: the position moves, the line stays
  refine ⟨hs.state_tick hd hheld, ?_, ?_, ?_, ?_, ?_⟩
  · rw [tick_regs, hdp]
    rfl
  · rw [tick_regs, hdp]
    exact hs.block
  · rw [tick_regs, hdp, Regs.line_goTo, hs.line]
  · rw [tick_regs, hdp, Regs.pos_goTo, hs.pos, ofNat_succ]
  · rw [view_tick_of_pins_eq (by rw [hdp]; rfl), hs.view]

/-- On to the next line. -/
theorem Masking.nextLine (hp : p.Fits e) (hd : DrivesXor key st nxt)
    (hW : ∀ s : System, s.state = st → W s) :
    LeadsTo System.tick (Held key) W (Masking p st e key G (p.base + 3) l (N - 1) N)
      (Masking p st e key G (p.base + 4) (l + 1) 0 0) := by
  refine .of_step (fun s hs => hW s hs.state) fun s i hs hheld => ?_
  -- the line is at its end
  have hlast : s.regs.pos p.axis = p.last := by rw [hs.pos, hp.last]
  have hnext : ∀ b : BitVec 6, b + 3 + 1 = b + 4 := by decide
  have hdp : s.dataPath i = { s.regs with rev := p.base + 4 }.goTo p.axis
      (s.regs.line p.axis + 1) 0 := by
    rw [hd.regs s i hs.state hheld, hp.runs _ _ _ (by simp [hs.rev]), maskTick_advance _ _ hs.rev,
      Regs.maskAdvance, if_pos hlast, hs.rev, hnext]
  -- the line moves and the position is back at its start
  refine ⟨hs.state_tick hd hheld, ?_, ?_, ?_, ?_, ?_⟩
  · rw [tick_regs, hdp]
    rfl
  · rw [tick_regs, hdp]
    exact hs.block
  · rw [tick_regs, hdp, Regs.line_goTo, hs.line, ofNat_succ]
  · rw [tick_regs, hdp, Regs.pos_goTo]
    rfl
  · rw [view_tick_of_pins_eq (by rw [hdp]; rfl), hs.view, Nat.mul_succ]
    rfl

/-- Back to the first value of `rev` while there are lines left. -/
theorem Masking.turn (hp : p.Fits e) (hd : DrivesXor key st nxt)
    (hW : ∀ s : System, s.state = st → W s) (hl : l < L) :
    LeadsTo System.tick (Held key) W (Masking p st e key G (p.base + 4) l q k)
      (Masking p st e key G p.base l q k) := by
  have hlt := hp.line_lt
  refine .of_step (fun s hs => hW s hs.state) fun s i hs hheld => ?_
  -- there is a line left
  have hmore : s.regs.line p.axis ≠ p.lines := by
    rw [hs.line, hp.lines]
    exact mt (ofNat_inj (by omega) hlt).mp (by omega)
  have hdp : s.dataPath i = { s.regs with
      pins := s.regs.pins, tempStorage2 := s.regs.tempStorage2, rev := p.base } := by
    rw [hd.regs s i hs.state hheld, hp.runs _ _ _ (by simp [hs.rev]), maskTick_turn _ _ hs.rev,
      if_neg hmore]
  refine hs.keep hd hheld hdp ?_
  rw [view_tick_of_pins_eq (by rw [hdp]), hs.view]

/-- **One line** is masked. -/
theorem Masking.line_leadsTo (hp : p.Fits e) (hd : DrivesXor key st nxt)
    (hW : ∀ s : System, s.state = st → W s) (hl : l < L) :
    LeadsTo System.tick (Held key) W (Masking p st e key G p.base l 0 0)
      (Masking p st e key G (p.base + 4) (l + 1) 0 0) := by
  have hN := hp.line_pos
  -- every position but the last leads to the next one of the line
  have hloop : LeadsTo System.tick (Held key) W (Masking p st e key G p.base l 0 0)
      (Masking p st e key G p.base l (N - 1) (N - 1)) :=
    .loop (L := fun q => Masking p st e key G p.base l q q) (Nat.zero_le (N - 1)) fun q _ hq =>
      (Masking.write (l := ⟨l, hl⟩) (q := ⟨q, by omega⟩) hp hd hW).trans
        ((Masking.advance hp hd hW (by simp only; omega)).trans (Masking.turn hp hd hW hl))
  -- the last position leads to the next line
  have hlast := Masking.write (l := ⟨l, hl⟩) (q := ⟨N - 1, by omega⟩) (G := G) hp hd hW
  simp only [Nat.sub_add_cancel hN] at hlast
  exact hloop.trans (hlast.trans (Masking.nextLine hp hd hW))

/-- **A pass** masks every line. -/
theorem pass_leadsTo (hp : p.Fits e) (hd : DrivesXor key st nxt)
    (hW : ∀ s : System, s.state = st → W s) :
    LeadsTo System.tick (Held key) W (Masking p st e key G p.base 0 0 0)
      (Masking p st e key G (p.base + 4) L 0 0) := by
  have hL := hp.lines_pos
  have hloop : LeadsTo System.tick (Held key) W (Masking p st e key G p.base 0 0 0)
      (Masking p st e key G p.base (L - 1) 0 0) :=
    .loop (L := fun l => Masking p st e key G p.base l 0 0) (Nat.zero_le (L - 1)) fun l _ hl =>
      (Masking.line_leadsTo hp hd hW (by omega)).trans (Masking.turn hp hd hW (by omega))
  have hlast := Masking.line_leadsTo (l := L - 1) (G := G) hp hd hW (by omega)
  rw [Nat.sub_add_cancel hL] at hlast
  exact hloop.trans hlast

/-- The frame after a pass. -/
theorem Masking.frame_eq {F : Frame} (hs : Masking p st e key (F ∘ e) rev L q k s) :
    s.frame = maskLines key e F := by
  rw [frame_eq_view_comp s e, hs.view, swept_eq_new]
  · funext px
    simp [maskedWords, maskLines]
  · intro j hge
    have hj := (scanRank_lt_iff j L).mpr j.1.isLt
    omega

/-- The tick after the last line of a pass. -/
theorem Masking.finish (hp : p.Fits e) (hd : DrivesXor key st nxt)
    (hs : Masking p st e key G (p.base + 4) L q k s) (hheld : Held key s i) :
    s.dataPath i = p.finish s.regs := by
  rw [hd.regs s i hs.state hheld, hp.runs _ _ _ (by simp [hs.rev]), maskTick_turn _ _ hs.rev,
    if_pos (by rw [hs.line, hp.lines])]

/-! ### The phase -/

theorem rowPass_fits : rowPass.Fits rowLayout where
  line_lt := by decide
  pos_lt := by decide
  lines_pos := by decide
  line_pos := by decide
  last := rfl
  lines := rfl
  -- the address goes along the rows, 640 words each
  address := by
    intro r l q hl hq
    rw [Regs.wordAddr, show r.columnCounter = _ from hl, show r.rowCounter = _ from hq]
    rw [pixelAddr, BitVec.ofNat_add, BitVec.ofNat_mul]
    rfl
  runs := by
    intro r key dq h
    rcases h with h | h | h | h | h <;> rw [Regs.xorTick, h] <;> rfl

theorem columnPass_fits : columnPass.Fits columnLayout where
  line_lt := by decide
  pos_lt := by decide
  lines_pos := by decide
  line_pos := by decide
  last := rfl
  lines := rfl
  -- the address goes along the columns
  address := by
    intro r l q hl hq
    rw [Regs.wordAddr, show r.rowCounter = _ from hl, show r.columnCounter = _ from hq]
    rw [pixelAddr, BitVec.ofNat_add, BitVec.ofNat_mul]
    rfl
  runs := by
    intro r key dq h
    rcases h with h | h | h | h | h <;> rw [Regs.xorTick, h] <;> rfl

/-- Between the two passes. -/
structure Between (st : Fsm) (F : Frame) (s : System) : Prop where
  state : s.state = st
  rev : s.regs.rev = 6
  block : s.regs.blockCounter = 0
  frame : s.frame = F

/-- After the second pass. -/
structure Masked (st : Fsm) (F : Frame) (s : System) : Prop where
  state : s.state = st
  rev : s.regs.rev = 11
  row : s.regs.rowCounter = 640
  block : s.regs.blockCounter = 100
  frame : s.frame = F

/-- The phase starts with the pass along the rows. -/
theorem rowPass_starts (hd : DrivesXor key st nxt) (hW : ∀ s : System, s.state = st → W s)
    (F : Frame) :
    LeadsTo System.tick (Held key) W (Entered st F)
      (Masking rowPass st rowLayout key (F ∘ rowLayout) 1 0 0 0) := by
  refine .of_step (fun s hs => hW s hs.state) fun s i hs hheld => ?_
  have hdp : s.dataPath i = { s.regs with blockCounter := 0, rev := 1 } := by
    rw [hd.regs s i hs.state hheld, Regs.xorTick, if_pos hs.rev]
  -- nothing of the frame is masked yet
  refine ⟨?_, ?_, ?_, ?_, ?_, ?_⟩
  · rw [hd.state s i hs.state hheld, hs.block]
    rfl
  · rw [tick_regs, hdp]
  · rw [tick_regs, hdp]
  · rw [tick_regs, hdp]
    exact hs.column
  · rw [tick_regs, hdp]
    exact hs.row
  · rw [view_tick_of_pins_eq (by rw [hdp]), view_eq_frame_comp, hs.frame]
    exact swept_zero.symm

/-- The pass along the rows ends with the counters to be cleared. -/
theorem rowPass_ends (hd : DrivesXor key st nxt) (hW : ∀ s : System, s.state = st → W s)
    (F : Frame) :
    LeadsTo System.tick (Held key) W
      (Masking rowPass st rowLayout key (F ∘ rowLayout) (rowPass.base + 4) 480 0 0)
      (Between st (maskLines key rowLayout F)) := by
  refine .of_step (fun s hs => hW s hs.state) fun s i hs hheld => ?_
  have hdp := hs.finish rowPass_fits hd hheld
  have hframe : (s.tick i).frame = s.frame := view_tick_of_pins_eq (by rw [hdp]; rfl)
  refine ⟨hs.state_tick hd hheld, ?_, ?_, hframe.trans hs.frame_eq⟩ <;> rw [tick_regs, hdp]
  · rfl
  · exact hs.block

/-- The pass along the columns starts with the frame that the rows have left. -/
theorem columnPass_starts (hd : DrivesXor key st nxt) (hW : ∀ s : System, s.state = st → W s)
    (F : Frame) :
    LeadsTo System.tick (Held key) W (Between st F)
      (Masking columnPass st columnLayout key (F ∘ columnLayout) 7 0 0 0) := by
  refine .of_step (fun s hs => hW s hs.state) fun s i hs hheld => ?_
  have hdp : s.dataPath i = { s.regs with columnCounter := 0, rowCounter := 0, rev := 7 } := by
    rw [hd.regs s i hs.state hheld, Regs.xorTick, hs.rev]
    rfl
  -- the row pass is over, and the columns start from its frame
  refine ⟨?_, ?_, ?_, ?_, ?_, ?_⟩
  · rw [hd.state s i hs.state hheld, hs.block]
    rfl
  · rw [tick_regs, hdp]
  · rw [tick_regs, hdp]
    exact hs.block
  · rw [tick_regs, hdp]
    rfl
  · rw [tick_regs, hdp]
    rfl
  · rw [view_tick_of_pins_eq (by rw [hdp]), view_eq_frame_comp, hs.frame]
    exact swept_zero.symm

/-- The pass along the columns ends with the block counter that leaves the phase. -/
theorem columnPass_ends (hd : DrivesXor key st nxt) (hW : ∀ s : System, s.state = st → W s)
    (F : Frame) :
    LeadsTo System.tick (Held key) W
      (Masking columnPass st columnLayout key (F ∘ columnLayout) (columnPass.base + 4) 640 0 0)
      (Masked st (maskLines key columnLayout F)) := by
  refine .of_step (fun s hs => hW s hs.state) fun s i hs hheld => ?_
  have hdp := hs.finish columnPass_fits hd hheld
  have hframe : (s.tick i).frame = s.frame := view_tick_of_pins_eq (by rw [hdp]; rfl)
  refine ⟨hs.state_tick hd hheld, ?_, ?_, ?_, hframe.trans hs.frame_eq⟩ <;> rw [tick_regs, hdp]
  · exact hs.rev
  · exact hs.line
  · rfl

/-- The tick that leaves the phase: the last tick of the second pass once more. -/
theorem Masked.leaves (hd : DrivesXor key st nxt) (hW : ∀ s : System, s.state = st → W s)
    (F : Frame) : LeadsTo System.tick (Held key) W (Masked st F) (Left nxt F) := by
  refine .of_step (fun s hs => hW s hs.state) fun s i hs hheld => ?_
  have hdp : s.dataPath i = { s.regs with blockCounter := 100 } := by
    rw [hd.regs s i hs.state hheld, Regs.xorTick, hs.rev]
    exact (maskTick_turn _ _ hs.rev).trans (if_pos hs.row)
  have hframe : (s.tick i).frame = s.frame := view_tick_of_pins_eq (by rw [hdp])
  refine ⟨?_, hframe.trans hs.frame⟩
  rw [hd.state s i hs.state hheld, hs.block]
  rfl

/-- **The XOR phase**, entered with cleared counters, leaves with the frame masked. -/
theorem xor_leadsTo (hd : DrivesXor key st nxt) (hW : ∀ s : System, s.state = st → W s)
    (F : Frame) :
    LeadsTo System.tick (Held key) W (Entered st F) (Left nxt (mask key F)) := by
  have hrows := (rowPass_starts hd hW F).trans
    ((pass_leadsTo rowPass_fits hd hW).trans (rowPass_ends hd hW F))
  have hcolumns := (columnPass_starts hd hW (maskLines key rowLayout F)).trans
    ((pass_leadsTo columnPass_fits hd hW).trans (columnPass_ends hd hW _))
  exact hrows.trans (hcolumns.trans (Masked.leaves hd hW _))

end Sram
end VideoEncryption
