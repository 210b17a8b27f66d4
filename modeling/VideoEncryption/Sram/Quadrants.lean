import VideoEncryption.Sram.Frame

/-!
# The quadrant shift phase

`ENCRYPT_MIX` and `DECRYPT_MIX` exchange two quadrants of the frame word by word: both words of a
pair of places are fetched before the first of them is overwritten. `Mixing.pair` is one pair,
`mix_leadsTo` the whole phase.
-/

namespace VideoEncryption
namespace Sram

open Clocked

/-- An index of the frame as quadrants. -/
abbrev QuadrantIndex := (Fin 2 × Fin 2) × (Fin 240 × Fin 320)

variable {key : BitVec 80} {st nxt : Fsm} {G : QuadrantIndex → BitVec 16} {W : System → Prop}
  {s : System} {i : Inputs}

theorem pixelAddr_quadrants (c : Fin 2 × Fin 2) (y : Fin 240) (x : Fin 320) :
    pixelAddr (quadrants (c, y, x))
      = 640 * BitVec.ofNat 20 (240 * c.1 + y) + BitVec.ofNat 20 (320 * c.2 + x) := by
  have hval : pixelAddr (quadrants (c, y, x))
      = BitVec.ofNat 20 (640 * ((y : ℕ) + 240 * c.1) + (x + 320 * c.2)) := rfl
  rw [hval, BitVec.ofNat_add, BitVec.ofNat_mul, Nat.add_comm (y : ℕ), Nat.add_comm (x : ℕ)]
  rfl

/-- When the exchange comes to a word: the first quadrant's word of a pair is written first. -/
def mixRank (key : BitVec 80) (j : QuadrantIndex) : ℕ :=
  2 * (320 * j.2.1 + j.2.2) + if j.1 = (quadrantPair key).1 then 0 else 1

/-- In the course of the phase, at place `(y, x)` of the quadrants; `k` words are written. -/
structure Mixing (st : Fsm) (key : BitVec 80) (G : QuadrantIndex → BitVec 16) (rev : BitVec 6)
    (y x k : ℕ) (s : System) : Prop where
  state : s.state = st
  rev : s.regs.rev = rev
  block : s.regs.blockCounter = 0
  column : s.regs.columnCounter = BitVec.ofNat 20 (240 * (quadrantPair key).1.1 + y)
  row : s.regs.rowCounter = BitVec.ofNat 20 (320 * (quadrantPair key).1.2 + x)
  column2 : s.regs.columnCounter2 = BitVec.ofNat 20 (240 * (quadrantPair key).2.1 + y)
  row2 : s.regs.rowCounter2 = BitVec.ofNat 20 (320 * (quadrantPair key).2.2 + x)
  view : s.view quadrants = swept (mixRank key) G (G ∘ quadrantSwap key) k

/-- The state `st` is the quadrant shift phase. -/
abbrev DrivesMix (key : BitVec 80) (st nxt : Fsm) : Prop :=
  Drives key st (fun dq r => r.mixTick key dq)
    (fun r => if r.blockCounter = 100 then nxt else st)

/-! ### The exchange as a sweep -/

theorem mixRank_first (y : Fin 240) (x : Fin 320) :
    mixRank key ((quadrantPair key).1, y, x) = 2 * (320 * y + x) := by
  rw [mixRank, if_pos rfl, Nat.add_zero]

theorem mixRank_second (y : Fin 240) (x : Fin 320) :
    mixRank key ((quadrantPair key).2, y, x) = 2 * (320 * y + x) + 1 := by
  rw [mixRank, if_neg (quadrantPair_ne key).symm]

/-- The places of one rank. -/
theorem place_of_mixRank {j : QuadrantIndex} {y : Fin 240} {x : Fin 320} {d : ℕ} (hd : d < 2)
    (h : mixRank key j = 2 * (320 * y + x) + d) :
    j.2 = (y, x) ∧ (j.1 = (quadrantPair key).1 ↔ d = 0) := by
  obtain ⟨c, y', x'⟩ := j
  unfold mixRank at h
  simp only at h
  -- half the rank is the place, its last bit tells the first quadrant from the others
  have hplace : (y', x') = (y, x) := by
    rw [Prod.mk.injEq, Fin.ext_iff, Fin.ext_iff]
    split at h <;> omega
  refine ⟨hplace, ?_⟩
  simp only
  split at h
  · rename_i hc
    exact iff_of_true hc (by omega)
  · rename_i hc
    exact iff_of_false hc (by omega)

/-- The first word of a pair is written. -/
theorem swept_write_first (y : Fin 240) (x : Fin 320) :
    Function.update (swept (mixRank key) G (G ∘ quadrantSwap key) (2 * (320 * y + x)))
        ((quadrantPair key).1, y, x) (G ((quadrantPair key).2, y, x))
      = swept (mixRank key) G (G ∘ quadrantSwap key) (2 * (320 * y + x) + 1) := by
  have hnew : (G ∘ quadrantSwap key) ((quadrantPair key).1, y, x)
      = G ((quadrantPair key).2, y, x) := by
    simp [quadrantSwap]
  rw [← hnew]
  refine swept_write (mixRank_first y x) fun j hj hrank => absurd ?_ hj
  obtain ⟨hplace, hfirst⟩ := place_of_mixRank (d := 0) (by omega) hrank
  exact Prod.ext (hfirst.mpr rfl) hplace

/-- The second word of a pair is written. -/
theorem swept_write_second (y : Fin 240) (x : Fin 320) :
    Function.update (swept (mixRank key) G (G ∘ quadrantSwap key) (2 * (320 * y + x) + 1))
        ((quadrantPair key).2, y, x) (G ((quadrantPair key).1, y, x))
      = swept (mixRank key) G (G ∘ quadrantSwap key) (2 * (320 * y + x) + 2) := by
  -- the word that goes there is the one of the first quadrant
  have hnew : (G ∘ quadrantSwap key) ((quadrantPair key).2, y, x)
      = G ((quadrantPair key).1, y, x) := by
    simp [quadrantSwap]
  rw [← hnew]
  refine swept_write (mixRank_second y x) fun j hj hrank => ?_
  obtain ⟨hplace, hfirst⟩ := place_of_mixRank (d := 1) (by omega) hrank
  -- the other quadrants have the rank of the second, but they keep their words
  have hne₁ : j.1 ≠ (quadrantPair key).1 := mt hfirst.mp (by omega)
  have hne₂ : j.1 ≠ (quadrantPair key).2 := fun h => hj (Prod.ext h hplace)
  obtain ⟨c, p⟩ := j
  simp [quadrantSwap, Equiv.swap_apply_of_ne_of_ne hne₁ hne₂]

/-! ### The ticks of the phase -/

variable {rev : BitVec 6} {y x k : ℕ}

theorem Mixing.state_tick (hd : DrivesMix key st nxt) (hs : Mixing st key G rev y x k s)
    (hheld : Held key s i) : (s.tick i).state = st := by
  rw [hd.state s i hs.state hheld, hs.block]
  rfl

theorem Mixing.wordAddr_eq {y : Fin 240} {x : Fin 320} (hs : Mixing st key G rev y x k s) :
    s.regs.wordAddr = pixelAddr (quadrants ((quadrantPair key).1, y, x)) := by
  rw [Regs.wordAddr, hs.column, hs.row, pixelAddr_quadrants]

theorem Mixing.wordAddr2_eq {y : Fin 240} {x : Fin 320} (hs : Mixing st key G rev y x k s) :
    s.regs.wordAddr2 = pixelAddr (quadrants ((quadrantPair key).2, y, x)) := by
  rw [Regs.wordAddr2, hs.column2, hs.row2, pixelAddr_quadrants]

/-- A tick that leaves the counters alone. -/
theorem Mixing.keep {rev' : BitVec 6} {k' : ℕ} {pins : Pins} {t t' : BitVec 16}
    (hd : DrivesMix key st nxt) (hs : Mixing st key G rev y x k s) (hheld : Held key s i)
    (hdp : s.dataPath i
      = { s.regs with pins := pins, tempStorage2 := t, tempStorage3 := t', rev := rev' })
    (hview : (s.tick i).view quadrants = swept (mixRank key) G (G ∘ quadrantSwap key) k') :
    Mixing st key G rev' y x k' (s.tick i) := by
  refine ⟨hs.state_tick hd hheld, ?_, ?_, ?_, ?_, ?_, ?_, hview⟩ <;> rw [tick_regs, hdp]
  · exact hs.block
  · exact hs.column
  · exact hs.row
  · exact hs.column2
  · exact hs.row2

/-- A tick of a read. -/
theorem Mixing.read {rev' : BitVec 6} {a : BitVec 20} {t t' : BitVec 16}
    (hd : DrivesMix key st nxt) (hs : Mixing st key G rev y x k s) (hheld : Held key s i)
    (hdp : s.dataPath i
      = { s.regs with pins := .read a, tempStorage2 := t, tempStorage3 := t', rev := rev' }) :
    Mixing st key G rev' y x k (s.tick i) ∧ (s.tick i).regs.pins = .read a ∧
      (s.tick i).regs.tempStorage2 = t ∧ (s.tick i).regs.tempStorage3 = t' := by
  refine ⟨hs.keep hd hheld hdp ?_, ?_, ?_, ?_⟩
  · rw [view_tick_of_read (by rw [hdp]), hs.view]
  all_goals rw [tick_regs, hdp]

/-- **One pair of words is fetched**, before either of them is overwritten. -/
theorem Mixing.fetch (hd : DrivesMix key st nxt) (hW : ∀ s : System, s.state = st → W s)
    {y : Fin 240} {x : Fin 320} (hk : k = 2 * (320 * y + x)) :
    LeadsTo System.tick (Held key) W (Mixing st key G 1 y x k) fun s =>
      Mixing st key G 5 y x k s ∧ s.regs.tempStorage2 = G ((quadrantPair key).1, y, x) ∧
        s.regs.tempStorage3 = G ((quadrantPair key).2, y, x) := by
  -- neither place of the pair is written yet
  have hfirst : swept (mixRank key) G (G ∘ quadrantSwap key) k ((quadrantPair key).1, y, x)
      = G ((quadrantPair key).1, y, x) :=
    swept_of_le (by rw [mixRank_first]; omega)
  have hsecond : swept (mixRank key) G (G ∘ quadrantSwap key) k ((quadrantPair key).2, y, x)
      = G ((quadrantPair key).2, y, x) :=
    swept_of_le (by rw [mixRank_second]; omega)
  refine .step_trans (Q := fun s => Mixing st key G 2 y x k s ∧
      s.regs.pins = .read (pixelAddr (quadrants ((quadrantPair key).1, y, x))))
    (fun s hs => hW s hs.state) ?_
    (.step_trans (Q := fun s => Mixing st key G 10 y x k s ∧
      s.regs.tempStorage2 = G ((quadrantPair key).1, y, x)) (fun s hs => hW s hs.1.state) ?_
    (.step_trans (Q := fun s => Mixing st key G 3 y x k s ∧
      s.regs.tempStorage2 = G ((quadrantPair key).1, y, x)) (fun s hs => hW s hs.1.state) ?_
    (.step_trans (Q := fun s => Mixing st key G 4 y x k s ∧
      s.regs.tempStorage2 = G ((quadrantPair key).1, y, x) ∧
      s.regs.pins = .read (pixelAddr (quadrants ((quadrantPair key).2, y, x))))
      (fun s hs => hW s hs.1.state) ?_ (.of_step (fun s hs => hW s hs.1.state) ?_))))
  -- `rev` 1 and 2: the first word
  · intro s i hs hheld
    have hdp : s.dataPath i = { s.regs with
        pins := .read s.regs.wordAddr, tempStorage2 := s.dq i,
        tempStorage3 := s.regs.tempStorage3, rev := 2 } := by
      rw [hd.regs s i hs.state hheld, Regs.mixTick, hs.rev]
      rfl
    obtain ⟨hm, hpins, -⟩ := hs.read hd hheld hdp
    rw [hs.wordAddr_eq] at hpins
    exact ⟨hm, hpins⟩
  · rintro s i ⟨hs, hpins⟩ hheld
    have hdp : s.dataPath i = { s.regs with
        pins := .read s.regs.wordAddr, tempStorage2 := s.dq i,
        tempStorage3 := s.regs.tempStorage3, rev := 10 } := by
      rw [hd.regs s i hs.state hheld, Regs.mixTick, hs.rev]
      rfl
    obtain ⟨hm, -, htemp, -⟩ := hs.read hd hheld hdp
    refine ⟨hm, ?_⟩
    rw [htemp, dq_of_read hpins, hs.view, hfirst]
  -- `rev` 10: nothing but the enables
  · rintro s i ⟨hs, htemp⟩ hheld
    have hdp : s.dataPath i = { s.regs with
        pins := { s.regs.pins with lbN := false, ubN := false, ceN := false },
        tempStorage2 := s.regs.tempStorage2, tempStorage3 := s.regs.tempStorage3, rev := 3 } := by
      rw [hd.regs s i hs.state hheld, Regs.mixTick, hs.rev]
      rfl
    refine ⟨hs.keep hd hheld hdp ?_, ?_⟩
    · rw [view_tick_of_hold (by rw [hdp]) (by rw [hdp]) (by rw [hdp]), hs.view]
    · rw [tick_regs, hdp, htemp]
  -- `rev` 3 and 4: the second word
  · rintro s i ⟨hs, htemp⟩ hheld
    have hdp : s.dataPath i = { s.regs with
        pins := .read s.regs.wordAddr2, tempStorage2 := s.regs.tempStorage2,
        tempStorage3 := s.dq i, rev := 4 } := by
      rw [hd.regs s i hs.state hheld, Regs.mixTick, hs.rev]
      rfl
    obtain ⟨hm, hpins, hkept, -⟩ := hs.read hd hheld hdp
    rw [hs.wordAddr2_eq] at hpins
    exact ⟨hm, hkept.trans htemp, hpins⟩
  · rintro s i ⟨hs, htemp, hpins⟩ hheld
    have hdp : s.dataPath i = { s.regs with
        pins := .read s.regs.wordAddr2, tempStorage2 := s.regs.tempStorage2,
        tempStorage3 := s.dq i, rev := 5 } := by
      rw [hd.regs s i hs.state hheld, Regs.mixTick, hs.rev]
      rfl
    obtain ⟨hm, -, hkept, htemp'⟩ := hs.read hd hheld hdp
    refine ⟨hm, hkept.trans htemp, ?_⟩
    rw [htemp', dq_of_read hpins, hs.view, hsecond]

/-- **One pair of words is exchanged.** -/
theorem Mixing.pair (hd : DrivesMix key st nxt) (hW : ∀ s : System, s.state = st → W s)
    {y : Fin 240} {x : Fin 320} :
    LeadsTo System.tick (Held key) W (Mixing st key G 1 y x (2 * (320 * y + x)))
      (Mixing st key G 7 y x (2 * (320 * y + x) + 2)) := by
  refine (Mixing.fetch hd hW rfl).trans (.step_trans
    (Q := fun s => Mixing st key G 6 y x (2 * (320 * y + x) + 1) s ∧
      s.regs.tempStorage2 = G ((quadrantPair key).1, y, x)) (fun s hs => hW s hs.1.state) ?_
    (.of_step (fun s hs => hW s hs.1.state) ?_))
  -- `rev` 5: the second word goes to the first place
  · rintro s i ⟨hs, htemp, htemp'⟩ hheld
    have hdp : s.dataPath i = { s.regs with
        pins := .write (pixelAddr (quadrants ((quadrantPair key).1, y, x)))
          (G ((quadrantPair key).2, y, x)),
        tempStorage2 := s.regs.tempStorage2, tempStorage3 := s.regs.tempStorage3, rev := 6 } := by
      rw [hd.regs s i hs.state hheld, Regs.mixTick, hs.rev, ← hs.wordAddr_eq, ← htemp']
      rfl
    refine ⟨hs.keep hd hheld hdp ?_, ?_⟩
    · rw [view_tick_of_write (by rw [hdp]), hs.view, swept_write_first]
    · rw [tick_regs, hdp, htemp]
  -- `rev` 6: the first word goes to the second place
  · rintro s i ⟨hs, htemp⟩ hheld
    have hdp : s.dataPath i = { s.regs with
        pins := .write (pixelAddr (quadrants ((quadrantPair key).2, y, x)))
          (G ((quadrantPair key).1, y, x)),
        tempStorage2 := s.regs.tempStorage2, tempStorage3 := s.regs.tempStorage3, rev := 7 } := by
      rw [hd.regs s i hs.state hheld, Regs.mixTick, hs.rev, ← hs.wordAddr2_eq, ← htemp]
      rfl
    refine hs.keep hd hheld hdp ?_
    rw [view_tick_of_write (by rw [hdp]), hs.view, swept_write_second]

/-- The row counter stands at the last column of its quadrant. -/
theorem Mixing.row_last_iff (hs : Mixing st key G rev y x k s) (hx : x < 320) :
    (s.regs.rowCounter = 319 ∨ s.regs.rowCounter = 639) ↔ x = 319 := by
  have hc := (quadrantPair key).1.2.isLt
  rw [hs.row, show (319 : BitVec 20) = BitVec.ofNat 20 319 from rfl,
    show (639 : BitVec 20) = BitVec.ofNat 20 639 from rfl, ofNat_inj (by omega) (by omega),
    ofNat_inj (by omega) (by omega)]
  omega

/-- The column counter has passed the last row of its quadrant. -/
theorem Mixing.column_last_iff (hs : Mixing st key G rev y x k s) (hy : 0 < y) (hy' : y ≤ 240) :
    (s.regs.columnCounter = 240 ∨ s.regs.columnCounter = 480) ↔ y = 240 := by
  have hc := (quadrantPair key).1.1.isLt
  rw [hs.column, show (240 : BitVec 20) = BitVec.ofNat 20 240 from rfl,
    show (480 : BitVec 20) = BitVec.ofNat 20 480 from rfl, ofNat_inj (by omega) (by omega),
    ofNat_inj (by omega) (by omega)]
  omega

/-- On to the next place of the row. -/
theorem Mixing.advance (hd : DrivesMix key st nxt) (hW : ∀ s : System, s.state = st → W s)
    (hx : x + 1 < 320) :
    LeadsTo System.tick (Held key) W (Mixing st key G 7 y x k) (Mixing st key G 1 y (x + 1) k) := by
  refine .of_step (fun s hs => hW s hs.state) fun s i hs hheld => ?_
  -- the row of the quadrants is not at its end
  have hmore : ¬ (s.regs.rowCounter = 319 ∨ s.regs.rowCounter = 639) :=
    mt (hs.row_last_iff (by omega)).mp (by omega)
  have hdp : s.dataPath i = { s.regs.mixEnable with
      rowCounter := s.regs.rowCounter + 1, rowCounter2 := s.regs.rowCounter2 + 1, rev := 1 } := by
    rw [hd.regs s i hs.state hheld, Regs.mixTick, hs.rev]
    exact if_neg hmore
  -- of the counters only the two row counters move
  refine ⟨hs.state_tick hd hheld, ?_, ?_, ?_, ?_, ?_, ?_, ?_⟩
  · rw [tick_regs, hdp]
  · rw [tick_regs, hdp]
    exact hs.block
  · rw [tick_regs, hdp]
    exact hs.column
  · rw [tick_regs, hdp, hs.row, ofNat_succ, Nat.add_assoc]
  · rw [tick_regs, hdp]
    exact hs.column2
  · rw [tick_regs, hdp, hs.row2, ofNat_succ, Nat.add_assoc]
  · rw [view_tick_of_hold (by rw [hdp]; rfl) (by rw [hdp]; rfl) (by rw [hdp]; rfl), hs.view]

/-- On to the next row of the quadrants. -/
theorem Mixing.nextRow (hd : DrivesMix key st nxt) (hW : ∀ s : System, s.state = st → W s) :
    LeadsTo System.tick (Held key) W (Mixing st key G 7 y 319 k)
      (Mixing st key G 8 (y + 1) 0 k) := by
  refine .of_step (fun s hs => hW s hs.state) fun s i hs hheld => ?_
  -- going back 319 columns from the end of either half is its start
  have hback : ∀ c : Fin 2,
      BitVec.ofNat 20 (320 * c + 319) - 319 = BitVec.ofNat 20 (320 * c + 0) := by
    decide
  have hdp : s.dataPath i = { s.regs.mixEnable with
      rowCounter := s.regs.rowCounter - 319, rowCounter2 := s.regs.rowCounter2 - 319,
      columnCounter := s.regs.columnCounter + 1, columnCounter2 := s.regs.columnCounter2 + 1,
      rev := 8 } := by
    rw [hd.regs s i hs.state hheld, Regs.mixTick, hs.rev]
    exact if_pos ((hs.row_last_iff (by omega)).mpr rfl)
  -- both column counters move, both row counters are back
  refine ⟨hs.state_tick hd hheld, ?_, ?_, ?_, ?_, ?_, ?_, ?_⟩
  · rw [tick_regs, hdp]
  · rw [tick_regs, hdp]
    exact hs.block
  · rw [tick_regs, hdp, hs.column, ofNat_succ, Nat.add_assoc]
  · rw [tick_regs, hdp, hs.row, hback]
  · rw [tick_regs, hdp, hs.column2, ofNat_succ, Nat.add_assoc]
  · rw [tick_regs, hdp, hs.row2, hback]
  · rw [view_tick_of_hold (by rw [hdp]; rfl) (by rw [hdp]; rfl) (by rw [hdp]; rfl), hs.view]

/-- Back to the first value of `rev` while there are rows left. -/
theorem Mixing.turn (hd : DrivesMix key st nxt) (hW : ∀ s : System, s.state = st → W s)
    (hy : 0 < y) (hy' : y < 240) :
    LeadsTo System.tick (Held key) W (Mixing st key G 8 y x k) (Mixing st key G 1 y x k) := by
  refine .of_step (fun s hs => hW s hs.state) fun s i hs hheld => ?_
  have hmore : ¬ (s.regs.columnCounter = 240 ∨ s.regs.columnCounter = 480) :=
    mt (hs.column_last_iff hy (by omega)).mp (by omega)
  have hdp : s.dataPath i = { s.regs with
      pins := { s.regs.pins with lbN := false, ubN := false, ceN := false },
      tempStorage2 := s.regs.tempStorage2, tempStorage3 := s.regs.tempStorage3, rev := 1 } := by
    rw [hd.regs s i hs.state hheld, Regs.mixTick, hs.rev]
    exact if_neg hmore
  refine hs.keep hd hheld hdp ?_
  rw [view_tick_of_hold (by rw [hdp]) (by rw [hdp]) (by rw [hdp]), hs.view]

/-- **One row** of the quadrants is exchanged. -/
theorem Mixing.row_leadsTo (hd : DrivesMix key st nxt) (hW : ∀ s : System, s.state = st → W s)
    (hy : y < 240) :
    LeadsTo System.tick (Held key) W (Mixing st key G 1 y 0 (2 * (320 * y)))
      (Mixing st key G 8 (y + 1) 0 (2 * (320 * (y + 1)))) := by
  have hloop : LeadsTo System.tick (Held key) W (Mixing st key G 1 y 0 (2 * (320 * y)))
      (Mixing st key G 1 y 319 (2 * (320 * y + 319))) :=
    .loop (L := fun x => Mixing st key G 1 y x (2 * (320 * y + x))) (Nat.zero_le 319) fun x _ hx =>
      (Mixing.pair (y := ⟨y, hy⟩) (x := ⟨x, by omega⟩) hd hW).trans
        (Mixing.advance hd hW (by simp only; omega))
  have hlast := Mixing.pair (y := ⟨y, hy⟩) (x := ⟨319, by omega⟩) (G := G) hd hW
  exact hloop.trans (hlast.trans (Mixing.nextRow hd hW))

/-! ### The phase -/

/-- After the exchange. -/
structure Mixed (st : Fsm) (F : Frame) (s : System) : Prop where
  state : s.state = st
  rev : s.regs.rev = 8
  column : s.regs.columnCounter = 240 ∨ s.regs.columnCounter = 480
  block : s.regs.blockCounter = 100
  frame : s.frame = F

/-- The counters start at the corners of the quadrants. -/
theorem mixCorners_eq (key : BitVec 80) (r : Regs) : r.mixCorners key
    = { r with
        columnCounter := BitVec.ofNat 20 (240 * (quadrantPair key).1.1 + 0)
        rowCounter := BitVec.ofNat 20 (320 * (quadrantPair key).1.2 + 0)
        columnCounter2 := BitVec.ofNat 20 (240 * (quadrantPair key).2.1 + 0)
        rowCounter2 := BitVec.ofNat 20 (320 * (quadrantPair key).2.2 + 0) } := by
  unfold Regs.mixCorners quadrantPair
  rcases mixSequence key with ⟨_ | _, _ | _⟩ <;> rfl

/-- The frame after the exchange. -/
theorem Mixing.frame_eq {F : Frame}
    (hs : Mixing st key (F ∘ quadrants) rev y x (2 * (320 * 240)) s) :
    s.frame = F ∘ mixPerm key := by
  rw [frame_eq_view_comp s quadrants, hs.view, swept_eq_new]
  · funext px
    simp [mixPerm, Equiv.permCongr_apply]
  · -- every place has come up, whatever the quadrant
    rintro ⟨c, y, x⟩ hge
    unfold mixRank at hge
    simp only at hge
    split at hge <;> omega

/-- The phase starts at the corners of the two quadrants. -/
theorem mix_starts (hd : DrivesMix key st nxt) (hW : ∀ s : System, s.state = st → W s) (F : Frame) :
    LeadsTo System.tick (Held key) W (Entered st F)
      (Mixing st key (F ∘ quadrants) 1 0 0 (2 * (320 * 0))) := by
  refine .of_step (fun s hs => hW s hs.state) fun s i hs hheld => ?_
  have hdp : s.dataPath i
      = { s.regs.mixEnable.mixCorners key with blockCounter := 0, rev := 1 } := by
    rw [hd.regs s i hs.state hheld, Regs.mixTick, if_pos hs.rev]
  -- the corners are those that the key selects
  rw [mixCorners_eq] at hdp
  have hstate : (s.tick i).state = st := by
    rw [hd.state s i hs.state hheld, hs.block]
    rfl
  refine ⟨hstate, ?_, ?_, ?_, ?_, ?_, ?_, ?_⟩
  · rw [tick_regs, hdp]
  · rw [tick_regs, hdp]
  · rw [tick_regs, hdp]
  · rw [tick_regs, hdp]
  · rw [tick_regs, hdp]
  · rw [tick_regs, hdp]
  · rw [view_tick_of_hold (by rw [hdp]; rfl) (by rw [hdp]; rfl) (by rw [hdp]; rfl),
      view_eq_frame_comp, hs.frame]
    exact swept_zero.symm

/-- The exchange ends with the block counter that leaves the phase. -/
theorem mix_ends (hd : DrivesMix key st nxt) (hW : ∀ s : System, s.state = st → W s) (F : Frame) :
    LeadsTo System.tick (Held key) W (Mixing st key (F ∘ quadrants) 8 240 0 (2 * (320 * 240)))
      (Mixed st (F ∘ mixPerm key)) := by
  refine .of_step (fun s hs => hW s hs.state) fun s i hs hheld => ?_
  have hlast := (hs.column_last_iff (by omega) le_rfl).mpr rfl
  have hdp : s.dataPath i = { s.regs.mixEnable with blockCounter := 100 } := by
    rw [hd.regs s i hs.state hheld, Regs.mixTick, hs.rev]
    exact if_pos hlast
  have hframe : (s.tick i).frame = s.frame :=
    view_tick_of_hold (by rw [hdp]; rfl) (by rw [hdp]; rfl) (by rw [hdp]; rfl)
  refine ⟨hs.state_tick hd hheld, ?_, ?_, ?_, hframe.trans hs.frame_eq⟩ <;> rw [tick_regs, hdp]
  · exact hs.rev
  · exact hlast

/-- The tick that leaves the phase: its last tick once more. -/
theorem Mixed.leaves (hd : DrivesMix key st nxt) (hW : ∀ s : System, s.state = st → W s)
    (F : Frame) : LeadsTo System.tick (Held key) W (Mixed st F) (Left nxt F) := by
  refine .of_step (fun s hs => hW s hs.state) fun s i hs hheld => ?_
  have hdp : s.dataPath i = { s.regs.mixEnable with blockCounter := 100 } := by
    rw [hd.regs s i hs.state hheld, Regs.mixTick, hs.rev]
    exact if_pos hs.column
  have hframe : (s.tick i).frame = s.frame :=
    view_tick_of_hold (by rw [hdp]; rfl) (by rw [hdp]; rfl) (by rw [hdp]; rfl)
  refine ⟨?_, hframe.trans hs.frame⟩
  rw [hd.state s i hs.state hheld, hs.block]
  rfl

/-- **The quadrant shift phase**, entered with `rev` cleared, leaves with two quadrants
exchanged. -/
theorem mix_leadsTo (hd : DrivesMix key st nxt) (hW : ∀ s : System, s.state = st → W s)
    (F : Frame) :
    LeadsTo System.tick (Held key) W (Entered st F) (Left nxt (F ∘ mixPerm key)) := by
  have hloop : LeadsTo System.tick (Held key) W
      (Mixing st key (F ∘ quadrants) 1 0 0 (2 * (320 * 0)))
      (Mixing st key (F ∘ quadrants) 1 239 0 (2 * (320 * 239))) :=
    .loop (L := fun y => Mixing st key (F ∘ quadrants) 1 y 0 (2 * (320 * y))) (Nat.zero_le 239)
      fun y _ hy => (Mixing.row_leadsTo hd hW (by omega)).trans
        (Mixing.turn hd hW (by omega) (by omega))
  have hrows := hloop.trans (Mixing.row_leadsTo hd hW (by omega))
  exact (mix_starts hd hW F).trans (hrows.trans ((mix_ends hd hW F).trans (Mixed.leaves hd hW _)))

end Sram
end VideoEncryption
