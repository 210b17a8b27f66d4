import VideoEncryption.Sram.Frame

/-!
# The shifting phases

One proof for `ENCRYPT_HOR`, `ENCRYPT_VER`, `DECRYPT_VER` and `DECRYPT_HOR`: `ShiftPhase.Fits` is
what it asks of the addresses and the bounds of a phase, read along a layout of the frame as lines.

A line that is shifted is rewritten from its first word on. Its first eight words go to the side
buffer (`Filling`), then every word is replaced by the one eight places ahead, which the sweep has
not reached yet, and the last eight by the side buffer (`Moving`). `block_leadsTo` is one block,
skipped or shifted line by line, and `shift_leadsTo` the whole phase.
-/

namespace VideoEncryption
namespace Sram

open Clocked

/-! ### Counters -/

section Counters

variable (r : Regs) (a : Axis) (l q : BitVec 20)

@[simp] theorem Regs.line_goTo : (r.goTo a l q).line a = l := by cases a <;> rfl

@[simp] theorem Regs.pos_goTo : (r.goTo a l q).pos a = q := by cases a <;> rfl

end Counters

variable {L N B : ℕ} {key : BitVec 80} {st nxt : Fsm} {p : ShiftPhase} {e : Layout L N}
  {G : Fin L × Fin N → BitVec 16} {W : System → Prop} {s : System} {i : Inputs}

/-- When the scan along the lines comes to a word. -/
def scanRank (j : Fin L × Fin N) : ℕ := N * j.1 + j.2

theorem scanRank_lt_iff (j : Fin L × Fin N) (l : ℕ) : scanRank j < N * l ↔ (j.1 : ℕ) < l := by
  have hN : 0 < N := by have := j.2.isLt; omega
  have hdiv : scanRank j / N = j.1 := by
    rw [scanRank, Nat.mul_add_div hN, Nat.div_eq_of_lt j.2.isLt, Nat.add_zero]
  rw [← hdiv, Nat.div_lt_iff_lt_mul hN, Nat.mul_comm]

theorem scanRank_injective : Function.Injective (scanRank : Fin L × Fin N → ℕ) := by
  rintro ⟨l, q⟩ ⟨l', q'⟩ h
  -- each line lies below the next one in the scan
  -- the line tells how much of the scan is behind, and the rest is the place in it
  have hl : l = l' := by
    apply Fin.ext
    have h₁ := (scanRank_lt_iff (l, q) (l' + 1)).mp
      (h ▸ (scanRank_lt_iff (l', q') (l' + 1)).mpr (Nat.lt_succ_self _))
    have h₂ := (scanRank_lt_iff (l', q') (l + 1)).mp
      (h ▸ (scanRank_lt_iff (l, q) (l + 1)).mpr (Nat.lt_succ_self _))
    simp only at h₁ h₂
    omega
  subst hl
  rw [Prod.mk.injEq, Fin.ext_iff (a := q)]
  exact ⟨rfl, Nat.add_left_cancel h⟩

/-! ### What a phase is asked for -/

/-- The bounds and the addresses of a shifting phase are those of the layout `e`. -/
structure ShiftPhase.Fits (p : ShiftPhase) (B : ℕ) (e : Layout L N) : Prop where
  lines : L = 8 * B
  line_lt : L < 2 ^ 20
  eight_lt : 8 < N
  pos_lt : N < 2 ^ 20
  blocks : p.blocks = BitVec.ofNat 20 B
  last : p.last = BitVec.ofNat 20 (N - 1)
  tail : p.tail = BitVec.ofNat 20 (N - 8)
  address : ∀ l q, p.address (BitVec.ofNat 20 (l : Fin L)) (BitVec.ofNat 20 (q : Fin N))
    = pixelAddr (e (l, q))
  ahead : ∀ l (q q' : Fin N), (q' : ℕ) = q + 8 →
    p.ahead (BitVec.ofNat 20 (l : Fin L)) (BitVec.ofNat 20 q) = pixelAddr (e (l, q'))

/-- In the phase `st`, at a value of `rev`, in block `b` and at position `q` of line `l`. -/
structure ShiftPhase.At (p : ShiftPhase) (st : Fsm) (rev : BitVec 6) (b l q : ℕ) (s : System) :
    Prop where
  state : s.state = st
  rev : s.regs.rev = rev
  block : s.regs.blockCounter = BitVec.ofNat 20 b
  line : s.regs.line p.axis = BitVec.ofNat 20 l
  pos : s.regs.pos p.axis = BitVec.ofNat 20 q

/-- The side buffer holds the first `k` words of a line. -/
def Buffered (G : Fin L × Fin N → BitVec 16) (l : Fin L) (k : ℕ) (s : System) : Prop :=
  ∀ q : Fin N, (q : ℕ) < k → s.regs.tempStorage[(q : ℕ)]? = some (G (l, q))

/-- Place `q` of the buffer takes the next word, the places below it stay. -/
theorem Buffered.push {q : ℕ} {l : Fin L} {s' : System} (hbuffer : Buffered G l q s)
    (hq : q < 8) (hqN : q < N)
    (hts : s'.regs.tempStorage = s.regs.tempStorage.setIfInBounds q (G (l, ⟨q, hqN⟩))) :
    Buffered G l (q + 1) s' := by
  intro q' hq'
  rw [hts, Vector.getElem?_setIfInBounds]
  by_cases hqq : q = q'
  · rw [if_pos hqq, if_pos (by omega)]
    simp [hqq]
  · rw [if_neg hqq]
    exact hbuffer q' (by omega)

/-- The state `st` is the shifting phase `p`. -/
abbrev ShiftPhase.Drives (p : ShiftPhase) (key : BitVec 80) (st nxt : Fsm) : Prop :=
  Sram.Drives key st (fun dq r => r.shiftTick p key dq)
    (fun r => if r.blockCounter = p.blocks then nxt else st)

section Ticks

variable {rev : BitVec 6} {b q : ℕ} {l : ℕ}

theorem ShiftPhase.At.state_tick (hp : p.Fits B e) (hd : p.Drives key st nxt)
    (hs : p.At st rev b l q s) (hb : b < B) (hheld : Held key s i) : (s.tick i).state = st := by
  have hlt := hp.line_lt
  have hlines := hp.lines
  rw [hd.state s i hs.state hheld, hs.block, hp.blocks,
    if_neg (mt (ofNat_inj (by omega) (by omega)).mp (by omega))]

/-- What the data path computes while the block is shifted. -/
theorem ShiftPhase.At.active (hp : p.Fits B e) (hs : p.At st rev b l q s) (hb : b < B)
    (hk : key.getLsbD b = true) :
    s.regs.blockCounter < p.blocks ∧ key.getLsbD s.regs.blockCounter.toNat = true := by
  have hlt := hp.line_lt
  have hlines := hp.lines
  rw [hs.block, hp.blocks, ofNat_lt (by omega) (by omega), toNat_ofNat_of_lt (by omega)]
  exact ⟨hb, hk⟩

/-- A tick that moves a word leaves the counters and the side buffer alone. -/
theorem ShiftPhase.At.keep {rev' : BitVec 6} {pins : Pins} {t : BitVec 16} (hp : p.Fits B e)
    (hd : p.Drives key st nxt) (hs : p.At st rev b l q s) (hb : b < B) (hheld : Held key s i)
    (hdp : s.dataPath i = { s.regs with pins := pins, tempStorage2 := t, rev := rev' }) :
    p.At st rev' b l q (s.tick i) ∧ (s.tick i).regs.tempStorage = s.regs.tempStorage := by
  have hstate := hs.state_tick hp hd hb hheld
  refine ⟨⟨hstate, ?_, ?_, ?_, ?_⟩, ?_⟩ <;> rw [tick_regs, hdp]
  · exact hs.block
  · exact hs.line
  · exact hs.pos

end Ticks

/-! ### One line -/

section Line

variable [NeZero N]

/-- The words after the phase. -/
def shiftedWords (key : BitVec 80) (B : ℕ) (G : Fin L × Fin N → BitVec 16) :
    Fin L × Fin N → BitVec 16 :=
  G ∘ linePerm fun l => Shifted key B l

theorem shiftedWords_of_pos {l : Fin L} (q : Fin N) (h : Shifted key B l) :
    shiftedWords key B G (l, q) = G (l, q + 8) := by
  rw [shiftedWords, Function.comp, linePerm_apply_of_pos q h]

theorem shiftedWords_of_neg {l : Fin L} (q : Fin N) (h : ¬ Shifted key B l) :
    shiftedWords key B G (l, q) = G (l, q) := by
  rw [shiftedWords, Function.comp, linePerm_apply_of_neg q h]

theorem val_add_eight (hN : 8 < N) (q : Fin N) : ((q + 8 : Fin N) : ℕ) = (q + 8) % N := by
  have height : ((8 : Fin N) : ℕ) = 8 := Nat.mod_eq_of_lt hN
  rw [Fin.val_add, height]

/-- In the course of filling the side buffer from line `l`. -/
structure Filling (p : ShiftPhase) (st : Fsm) (e : Layout L N) (key : BitVec 80) (B : ℕ)
    (G : Fin L × Fin N → BitVec 16) (b : ℕ) (l : Fin L) (q : ℕ) (s : System) : Prop where
  ctrl : p.At st (if q < 8 then 0 else 2) b l (if q < 8 then q else 0) s
  view : s.view e = swept scanRank G (shiftedWords key B G) (N * l)
  buffer : Buffered G l q s

/-- In the course of moving the words of line `l`, at one of the values 2 to 5 of `rev`; `k` words
of the line are written. -/
structure Moving (p : ShiftPhase) (st : Fsm) (e : Layout L N) (key : BitVec 80) (B : ℕ)
    (G : Fin L × Fin N → BitVec 16) (rev : BitVec 6) (b : ℕ) (l : Fin L) (q k : ℕ) (s : System) :
    Prop where
  ctrl : p.At st rev b l q s
  view : s.view e = swept scanRank G (shiftedWords key B G) (N * l + k)
  buffer : Buffered G l 8 s

variable {b q : ℕ} {l : Fin L}

/-- One word goes to the side buffer. -/
theorem Filling.leadsTo (hp : p.Fits B e) (hd : p.Drives key st nxt)
    (hW : ∀ s : System, s.state = st → W s) (hb : b < B) (hk : key.getLsbD b = true) (hq : q < 8) :
    LeadsTo System.tick (Held key) W (Filling p st e key B G b l q)
      (Filling p st e key B G b l (q + 1)) := by
  have hqN : q < N := hq.trans hp.eight_lt
  have hpos := hp.pos_lt
  -- `rev` counts the two steps: the address, and the word
  refine .step_trans (Q := fun s => p.At st 1 b l q s ∧
      s.view e = swept scanRank G (shiftedWords key B G) (N * l) ∧ Buffered G l q s ∧
      s.regs.pins = .read (pixelAddr (e (l, ⟨q, hqN⟩)))) (fun s hs => hW s hs.ctrl.state) ?_
    (.of_step (fun s hs => hW s hs.1.state) ?_)
  -- `rev` 0: set the address
  · intro s i hs hheld
    have hat := hs.ctrl
    rw [if_pos hq, if_pos hq] at hat
    obtain ⟨hlt, hbit⟩ := hat.active hp hb hk
    have hdp : s.dataPath i = { s.regs with
        pins := .read (pixelAddr (e (l, ⟨q, hqN⟩))), tempStorage2 := s.regs.tempStorage2,
        rev := 1 } := by
      rw [hd.regs s i hat.state hheld, ← hp.address, ← hat.line, ← hat.pos]
      simp [Regs.shiftTick, hlt, hbit, hat.rev]
    obtain ⟨hat', hbuffer⟩ := hat.keep hp hd hb hheld hdp
    refine ⟨hat', ?_, ?_, ?_⟩
    · rw [view_tick_of_read (by rw [hdp]), hs.view]
    · rw [Buffered, hbuffer]
      exact hs.buffer
    · rw [tick_regs, hdp]
  -- `rev` 1: take the word
  · rintro s i ⟨hat, hview, hbuffer, hpins⟩ hheld
    obtain ⟨hlt, hbit⟩ := hat.active hp hb hk
    have hdq : s.dq i = G (l, ⟨q, hqN⟩) := by
      calc s.dq i = s.view e (l, ⟨q, hqN⟩) := dq_of_read hpins
        _ = G (l, ⟨q, hqN⟩) := by
          rw [hview, swept_of_le]
          exact Nat.le_add_right _ _
    have hdp : s.dataPath i = s.regs.shiftFill p (G (l, ⟨q, hqN⟩)) := by
      rw [hd.regs s i hat.state hheld, hdq]
      simp [Regs.shiftTick, hlt, hbit, hat.rev]
    -- the eighth word ends the filling
    have hseven : s.regs.pos p.axis = 7 ↔ ¬ q + 1 < 8 := by
      rw [hat.pos]
      exact (ofNat_inj (b := 7) (by omega) (by omega)).trans (by omega)
    refine ⟨⟨hat.state_tick hp hd hb hheld, ?_, ?_, ?_, ?_⟩, ?_, ?_⟩
    · -- the eighth word goes on to the moving, at the first position again
      rw [tick_regs, hdp]
      show (if s.regs.pos p.axis = 7 then (2 : BitVec 6) else 0) = _
      simp only [hseven, ite_not]
    · rw [tick_regs, hdp]
      exact hat.block
    · rw [tick_regs, hdp, Regs.shiftFill, Regs.line_goTo, hat.line]
    · rw [tick_regs, hdp, Regs.shiftFill, Regs.pos_goTo]
      simp only [hseven, ite_not]
      split
      · rw [hat.pos, ofNat_succ]
      · rfl
    · rw [view_tick_of_read (by rw [hdp]; rfl), hview]
    · have hplace : (s.regs.pos p.axis).toNat = q := by
        rw [hat.pos, toNat_ofNat_of_lt (by omega)]
      refine hbuffer.push hq hqN ?_
      rw [tick_regs, hdp]
      show s.regs.tempStorage.setIfInBounds (s.regs.pos p.axis).toNat _ = _
      rw [hplace]

/-- A tick that moves a word and leaves the SRAM alone. -/
theorem Moving.keep {rev rev' : BitVec 6} {k : ℕ} {pins : Pins} {t : BitVec 16} (hp : p.Fits B e)
    (hd : p.Drives key st nxt) (hs : Moving p st e key B G rev b l q k s) (hb : b < B)
    (hheld : Held key s i)
    (hdp : s.dataPath i = { s.regs with pins := pins, tempStorage2 := t, rev := rev' })
    (hview : (s.tick i).view e = s.view e) : Moving p st e key B G rev' b l q k (s.tick i) := by
  obtain ⟨hat, hbuffer⟩ := hs.ctrl.keep hp hd hb hheld hdp
  refine ⟨hat, hview.trans hs.view, ?_⟩
  rw [Buffered, hbuffer]
  exact hs.buffer

/-- The word eight places ahead is still the old one when it is fetched. -/
theorem Moving.word_ahead {rev : BitVec 6} (hp : p.Fits B e)
    (hs : Moving p st e key B G rev b l q q s) (hl : Shifted key B l) (hq : q < N)
    (hahead : q + 8 < N)
    (hpins : s.regs.pins = .read (p.ahead (BitVec.ofNat 20 l) (BitVec.ofNat 20 q))) :
    s.dq i = shiftedWords key B G (l, ⟨q, hq⟩) := by
  have hval : (⟨q, hq⟩ : Fin N) + 8 = ⟨q + 8, hahead⟩ :=
    Fin.ext ((val_add_eight hp.eight_lt _).trans (Nat.mod_eq_of_lt hahead))
  -- its place in the scan is still ahead
  have hlater : N * l + q ≤ scanRank (l, (⟨q + 8, hahead⟩ : Fin N)) := by
    simp only [scanRank]
    omega
  rw [hp.ahead l ⟨q, hq⟩ ⟨q + 8, hahead⟩ rfl] at hpins
  -- the word eight places ahead is the one that comes here
  calc s.dq i = s.view e (l, ⟨q + 8, hahead⟩) := dq_of_read hpins
    _ = G (l, ⟨q + 8, hahead⟩) := by rw [hs.view, swept_of_le hlater]
    _ = shiftedWords key B G (l, ⟨q, hq⟩) := by rw [shiftedWords_of_pos _ hl, hval]

/-- The word that is written: the one fetched, or at the end of the line one of the side buffer. -/
theorem Moving.word_eq {rev : BitVec 6} {k : ℕ} (hp : p.Fits B e)
    (hs : Moving p st e key B G rev b l q k s) (hl : Shifted key B l) (hq : q < N)
    (htemp : q + 8 < N → s.regs.tempStorage2 = shiftedWords key B G (l, ⟨q, hq⟩)) :
    (if s.regs.pos p.axis < p.tail then s.regs.tempStorage2
      else s.regs.tempStorage[(s.regs.pos p.axis - p.tail).toNat]?.getD 0)
        = shiftedWords key B G (l, ⟨q, hq⟩) := by
  have hpos := hp.pos_lt
  have height := hp.eight_lt
  -- whether the line goes on for eight places more
  rw [hs.ctrl.pos, hp.tail]
  by_cases hahead : q + 8 < N
  · rw [if_pos ((ofNat_lt (by omega) (by omega)).mpr (by omega)), htemp hahead]
  · -- the first eight words of the line come last
    have hback : q - (N - 8) < N := by omega
    have hval : (⟨q, hq⟩ : Fin N) + 8 = ⟨q - (N - 8), hback⟩ := by
      refine Fin.ext ((val_add_eight height _).trans ?_)
      show (q + 8) % N = q - (N - 8)
      rw [show q + 8 = q - (N - 8) + N by omega, Nat.add_mod_right, Nat.mod_eq_of_lt hback]
    rw [if_neg (mt (ofNat_lt (by omega) (by omega)).mp (by omega)),
      ofNat_sub_ofNat (by omega) (by omega), toNat_ofNat_of_lt (by omega),
      hs.buffer ⟨q - (N - 8), hback⟩ (by simp; omega), shiftedWords_of_pos _ hl, hval]
    rfl

/-- **One word is moved**: fetched from eight places ahead or taken from the side buffer, and
written. -/
theorem Moving.write (hp : p.Fits B e) (hd : p.Drives key st nxt)
    (hW : ∀ s : System, s.state = st → W s) (hb : b < B) (hk : key.getLsbD b = true)
    (hl : Shifted key B l) (hq : q < N) :
    LeadsTo System.tick (Held key) W (Moving p st e key B G 2 b l q q)
      (Moving p st e key B G 5 b l q (q + 1)) := by
  -- `rev` counts the three steps: the address, the word, and the write
  refine .step_trans (Q := fun s => Moving p st e key B G 3 b l q q s ∧
      s.regs.pins = .read (p.ahead (BitVec.ofNat 20 l) (BitVec.ofNat 20 q)))
    (fun s hs => hW s hs.ctrl.state) ?_
    (.step_trans (Q := fun s => Moving p st e key B G 4 b l q q s ∧
        (q + 8 < N → s.regs.tempStorage2 = shiftedWords key B G (l, ⟨q, hq⟩)))
      (fun s hs => hW s hs.1.ctrl.state) ?_ (.of_step (fun s hs => hW s hs.1.ctrl.state) ?_))
  -- `rev` 2: set the address of the word ahead
  · intro s i hs hheld
    obtain ⟨hlt, hbit⟩ := hs.ctrl.active hp hb hk
    have hdp : s.dataPath i = { s.regs with
        pins := .read (p.ahead (BitVec.ofNat 20 l) (BitVec.ofNat 20 q)), tempStorage2 := s.dq i,
        rev := 3 } := by
      rw [hd.regs s i hs.ctrl.state hheld, ← hs.ctrl.line, ← hs.ctrl.pos]
      simp [Regs.shiftTick, Regs.shiftFetch, hlt, hbit, hs.ctrl.rev]
    exact ⟨hs.keep hp hd hb hheld hdp (view_tick_of_read (by rw [hdp])), by rw [tick_regs, hdp]⟩
  -- `rev` 3: take it
  · rintro s i ⟨hs, hpins⟩ hheld
    obtain ⟨hlt, hbit⟩ := hs.ctrl.active hp hb hk
    have hdp : s.dataPath i = { s.regs with
        pins := .read (p.ahead (BitVec.ofNat 20 l) (BitVec.ofNat 20 q)), tempStorage2 := s.dq i,
        rev := 4 } := by
      rw [hd.regs s i hs.ctrl.state hheld, ← hs.ctrl.line, ← hs.ctrl.pos]
      simp [Regs.shiftTick, Regs.shiftFetch, hlt, hbit, hs.ctrl.rev]
    refine ⟨hs.keep hp hd hb hheld hdp (view_tick_of_read (by rw [hdp])), fun hahead => ?_⟩
    rw [tick_regs, hdp, hs.word_ahead hp hl hq hahead hpins]
  -- `rev` 4: write
  · rintro s i ⟨hs, htemp⟩ hheld
    obtain ⟨hlt, hbit⟩ := hs.ctrl.active hp hb hk
    have hdp : s.dataPath i = { s.regs with
        pins := .write (pixelAddr (e (l, ⟨q, hq⟩))) (shiftedWords key B G (l, ⟨q, hq⟩)),
        tempStorage2 := s.regs.tempStorage2, rev := 5 } := by
      rw [hd.regs s i hs.ctrl.state hheld, ← hp.address, ← hs.ctrl.line, ← hs.ctrl.pos,
        ← hs.word_eq hp hl hq htemp]
      simp [Regs.shiftTick, Regs.shiftStore, hlt, hbit, hs.ctrl.rev]
    obtain ⟨hat, hbuffer⟩ := hs.ctrl.keep hp hd hb hheld hdp
    refine ⟨hat, ?_, ?_⟩
    · rw [view_tick_of_write (by rw [hdp]), hs.view]
      exact swept_write_of_injective (k := N * l + q) scanRank_injective rfl
    · rw [Buffered, hbuffer]
      exact hs.buffer

/-- At the first word of line `l`, all lines before being done. -/
structure LineStart (p : ShiftPhase) (st : Fsm) (e : Layout L N) (key : BitVec 80) (B : ℕ)
    (G : Fin L × Fin N → BitVec 16) (b l : ℕ) (s : System) : Prop where
  ctrl : p.At st 0 b l 0 s
  view : s.view e = swept scanRank G (shiftedWords key B G) (N * l)

/-- On to the next word of the line. -/
theorem Moving.advance (hp : p.Fits B e) (hd : p.Drives key st nxt)
    (hW : ∀ s : System, s.state = st → W s) (hb : b < B) (hk : key.getLsbD b = true)
    (hq : q + 1 < N) :
    LeadsTo System.tick (Held key) W (Moving p st e key B G 5 b l q (q + 1))
      (Moving p st e key B G 2 b l (q + 1) (q + 1)) := by
  have hpos := hp.pos_lt
  refine .of_step (fun s hs => hW s hs.ctrl.state) fun s i hs hheld => ?_
  obtain ⟨hlt, hbit⟩ := hs.ctrl.active hp hb hk
  -- there is a place left in the line
  have hnot : s.regs.pos p.axis ≠ p.last := by
    rw [hs.ctrl.pos, hp.last]
    exact mt (ofNat_inj (by omega) (by omega)).mp (by omega)
  have hdp : s.dataPath i = { s.regs with rev := 2 }.goTo p.axis (s.regs.line p.axis)
      (s.regs.pos p.axis + 1) := by
    rw [hd.regs s i hs.ctrl.state hheld]
    simp [Regs.shiftTick, hlt, hbit, hs.ctrl.rev, Regs.shiftAdvance, hnot]
  -- the registers one by one: the position moves, the line stays
  refine ⟨⟨hs.ctrl.state_tick hp hd hb hheld, ?_, ?_, ?_, ?_⟩, ?_, ?_⟩
  · rw [tick_regs, hdp]
    rfl
  · rw [tick_regs, hdp]
    exact hs.ctrl.block
  · rw [tick_regs, hdp, Regs.line_goTo, hs.ctrl.line]
  · rw [tick_regs, hdp, Regs.pos_goTo, hs.ctrl.pos, ofNat_succ]
  · rw [view_tick_of_pins_eq (by rw [hdp]; rfl), hs.view]
  · rw [Buffered, tick_regs, hdp]
    exact hs.buffer

/-- On to the next line, and to the next block when the incremented line counter has come to the
last line of this one. -/
theorem Moving.finish (hp : p.Fits B e) (hd : p.Drives key st nxt)
    (hW : ∀ s : System, s.state = st → W s) (hb : b < B) (hk : key.getLsbD b = true) :
    LeadsTo System.tick (Held key) W (Moving p st e key B G 5 b l (N - 1) N)
      (LineStart p st e key B G (if (l : ℕ) + 1 = 8 * b + 7 then b + 1 else b) (l + 1)) := by
  have hlt20 := hp.line_lt
  have hlines := hp.lines
  have hl := l.isLt
  refine .of_step (fun s hs => hW s hs.ctrl.state) fun s i hs hheld => ?_
  obtain ⟨hlt, hbit⟩ := hs.ctrl.active hp hb hk
  -- the line is at its end
  have hlast : s.regs.pos p.axis = p.last := by rw [hs.ctrl.pos, hp.last]
  have hdp : s.dataPath i = s.regs.shiftAdvance p := by
    rw [hd.regs s i hs.ctrl.state hheld]
    simp [Regs.shiftTick, hlt, hbit, hs.ctrl.rev]
  rw [Regs.shiftAdvance, if_pos hlast, hs.ctrl.line, hs.ctrl.block, ofNat_succ, ofNat_succ,
    toNat_ofNat_of_lt (by omega), toNat_ofNat_of_lt (by omega)] at hdp
  -- the line moves, and the block with it at its last line but one
  refine ⟨⟨hs.ctrl.state_tick hp hd hb hheld, ?_, ?_, ?_, ?_⟩, ?_⟩
  · rw [tick_regs, hdp]
    rfl
  · rw [tick_regs, hdp]
    show (if _ then _ else _) = _
    split <;> rfl
  · rw [tick_regs, hdp, Regs.line_goTo]
  · rw [tick_regs, hdp, Regs.pos_goTo]
    rfl
  · rw [view_tick_of_pins_eq (by rw [hdp]; rfl), hs.view, Nat.mul_succ]

/-- **One line** is rotated by eight places. -/
theorem LineStart.leadsTo (hp : p.Fits B e) (hd : p.Drives key st nxt)
    (hW : ∀ s : System, s.state = st → W s) (hb : b < B) (hk : key.getLsbD b = true)
    (hl : Shifted key B l) :
    LeadsTo System.tick (Held key) W (LineStart p st e key B G b l)
      (LineStart p st e key B G (if (l : ℕ) + 1 = 8 * b + 7 then b + 1 else b) (l + 1)) := by
  have hN := hp.eight_lt
  -- eight words into the buffer, the words of the line one by one, and the last one by itself
  have hfill : LeadsTo System.tick (Held key) W (Filling p st e key B G b l 0)
      (Filling p st e key B G b l 8) :=
    .loop (Nat.zero_le 8) fun q _ hq => Filling.leadsTo hp hd hW hb hk hq
  have hmove : LeadsTo System.tick (Held key) W (fun s => Moving p st e key B G 2 b l 0 0 s)
      (fun s => Moving p st e key B G 2 b l (N - 1) (N - 1) s) := by
    refine .loop (L := fun q => Moving p st e key B G 2 b l q q) (Nat.zero_le _) fun q _ hq => ?_
    exact (Moving.write hp hd hW hb hk hl (by omega)).trans
      (Moving.advance hp hd hW hb hk (by omega))
  have hlast := Moving.write (q := N - 1) (G := G) hp hd hW hb hk hl (by omega)
  rw [show N - 1 + 1 = N by omega] at hlast
  refine LeadsTo.mono_left ?_ (hfill.trans (LeadsTo.mono_left ?_
    (hmove.trans (hlast.trans (Moving.finish hp hd hW hb hk)))))
  · exact fun s hs => ⟨hs.ctrl, hs.view, fun q hq => absurd hq (Nat.not_lt_zero _)⟩
  · exact fun s hs => ⟨hs.ctrl, hs.view, hs.buffer⟩

end Line

/-! ### The blocks of the phase -/

section Block

variable [NeZero N] {b : ℕ}

/-- **One block**: skipped, or shifted line by line. -/
theorem block_leadsTo (hp : p.Fits B e) (hd : p.Drives key st nxt)
    (hW : ∀ s : System, s.state = st → W s) (hb : b < B) :
    LeadsTo System.tick (Held key) W (LineStart p st e key B G b (lineAt key b))
      (LineStart p st e key B G (b + 1) (lineAt key (b + 1))) := by
  have hlines := hp.lines
  have hlt20 := hp.line_lt
  have hstart := lineAt_le key b
  -- by the key bit of the block
  cases hk : key.getLsbD b with
  | false =>
    -- skipped: eight lines are passed over, and none of them is shifted
    refine .of_step (fun s hs => hW s hs.ctrl.state) fun s i hs hheld => ?_
    have hdp : s.dataPath i = s.regs.shiftSkip p := by
      rw [hd.regs s i hs.ctrl.state hheld, Regs.shiftTick, hs.ctrl.block, hp.blocks,
        if_pos ((ofNat_lt (by omega) (by omega)).mpr hb), toNat_ofNat_of_lt (by omega), hk]
      rfl
    refine ⟨⟨hs.ctrl.state_tick hp hd hb hheld, ?_, ?_, ?_, ?_⟩, ?_⟩
    · rw [tick_regs, hdp]
      show (if p.skipClearsRev then (0 : BitVec 6) else s.regs.rev) = 0
      rw [hs.ctrl.rev, ite_self]
    · rw [tick_regs, hdp, ← ofNat_succ, ← hs.ctrl.block]
      rfl
    · rw [tick_regs, hdp, Regs.shiftSkip, Regs.line_goTo, hs.ctrl.line, lineAt_succ_of_false hk]
      exact (BitVec.ofNat_add _ _).symm
    · rw [tick_regs, hdp, Regs.shiftSkip, Regs.pos_goTo, hs.ctrl.pos]
    · rw [view_tick_of_pins_eq (by rw [hdp]; rfl), hs.view]
      refine (swept_skip (Nat.mul_le_mul_left N (lineAt_mono key (Nat.le_succ b))) ?_).symm
      rintro ⟨l, q⟩ hge hlt
      rw [← Nat.not_lt, scanRank_lt_iff] at hge
      rw [scanRank_lt_iff] at hlt
      exact shiftedWords_of_neg q (not_shifted_of_false hk (Nat.not_lt.mp hge) hlt)
  | true =>
    -- line by line up to line `8 * b + 7`, which belongs to the next block already
    have hend := lineAt_succ_of_true hk
    have hloop : LeadsTo System.tick (Held key) W
        (LineStart p st e key B G (if lineAt key b = 8 * b + 7 then b + 1 else b) (lineAt key b))
        (LineStart p st e key B G (if 8 * b + 7 = 8 * b + 7 then b + 1 else b) (8 * b + 7)) :=
      .loop (L := fun l => LineStart p st e key B G (if l = 8 * b + 7 then b + 1 else b) l)
      (by omega) fun l hge hlt => by
        rw [if_neg (by omega : ¬ l = 8 * b + 7)]
        have hl : l < L := by omega
        exact LineStart.leadsTo (l := ⟨l, hl⟩) hp hd hW hb hk ⟨b, hb, hk, hge, hlt⟩
    rw [if_neg (by omega), if_pos rfl] at hloop
    rw [hend]
    exact hloop

/-- **A shifting phase**, entered with cleared counters, leaves with the frame shifted. -/
theorem shift_leadsTo (hp : p.Fits B e) (hd : p.Drives key st nxt)
    (hW : ∀ s : System, s.state = st → W s) (F : Frame) :
    LeadsTo System.tick (Held key) W (Entered st F) (Left nxt (F ∘ shiftPerm key B e)) := by
  -- block by block
  have hloop : LeadsTo System.tick (Held key) W (LineStart p st e key B (F ∘ e) 0 (lineAt key 0))
      (LineStart p st e key B (F ∘ e) B (lineAt key B)) :=
    .loop (L := fun b => LineStart p st e key B (F ∘ e) b (lineAt key b)) (Nat.zero_le B)
    fun b _ hb => block_leadsTo hp hd hW hb
  refine LeadsTo.mono_left ?_ (hloop.trans (.of_step (fun s hs => hW s hs.ctrl.state) ?_))
  -- cleared counters are the first word of the first line
  · intro s hs
    refine ⟨⟨hs.state, hs.rev, hs.block, ?_, ?_⟩, ?_⟩
    · rw [lineAt_zero]
      cases hax : p.axis
      · exact hs.column
      · exact hs.row
    · cases hax : p.axis
      · exact hs.row
      · exact hs.column
    · rw [lineAt_zero, Nat.mul_zero, swept_zero, view_eq_frame_comp, hs.frame]
  -- past the last block nothing is done, and the lines that are left over are not shifted
  · intro s i hs hheld
    have hblock : s.regs.blockCounter = p.blocks := by rw [hs.ctrl.block, hp.blocks]
    have hdp : s.dataPath i = s.regs := by
      rw [hd.regs s i hs.ctrl.state hheld, Regs.shiftTick, hblock,
        if_neg (BitVec.lt_irrefl _)]
    refine ⟨?_, ?_⟩
    · rw [hd.state s i hs.ctrl.state hheld, if_pos hblock]
    · rw [frame_eq_view_comp _ e, view_tick_of_pins_eq (by rw [hdp]), hs.view, swept_eq_new]
      · funext px
        simp [shiftedWords, shiftPerm, Equiv.permCongr_apply]
      · rintro ⟨l, q⟩ hge
        rw [← Nat.not_lt, scanRank_lt_iff] at hge
        exact shiftedWords_of_neg q (not_shifted_of_lineAt_le (Nat.not_lt.mp hge))

end Block

end Sram
end VideoEncryption
