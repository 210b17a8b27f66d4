import VideoEncryption.Diag.Rotation

/-!
# What a row of blocks becomes

`WRITE_BLOCK` is left only after the last block of a row, so a row of blocks loads and shifts its
first block alone and writes it to all twenty places, and the key register shifts once per row.

* `RowStart` — at `LOAD_KEY` before row `by`; `Loading`, `Writing` — the ticks of the two loops;
* `row_outcome` — after the write phase every block of the row is the shifted first block, and the
  rows after it are untouched;
* `shiftPerm` — `SHIFT` moves the pixels of a block and loses none;
* `row_transformed_iff` — **when each block holds its own transformation all the same**.
-/

namespace VideoEncryption
namespace Diag

open Clocked

/-! ### Pixels -/

/-- The address of pixel `(y, x)` of block `(bx, by)`. -/
def addr (bx row y x : ℕ) : ℕ := 640 * (32 * row + y) + 32 * bx + x

/-- Block `(bx, row)` of a memory. -/
def blockOf (M : Memory) (bx row : ℕ) : Block :=
  fun y x => M (BitVec.ofNat 20 (addr bx row y.toNat x.toNat))

/-- The key bit of block `(bx, row)`. -/
def ownBit (bx row : ℕ) : ℕ := 79 - (20 * (row % 4) + bx)

/-- The tick of the last `LOAD_KEY` that loaded a key before row `row` was shifted. -/
def keyTick (row : ℕ) : ℕ := 1 + 21506 * (4 * (row / 4))

/-- The tick after the write phase of a row: one tick in `WAIT`, and for every row one in
`LOAD_KEY`, 1024 to load, one to shift and 20480 to write. -/
def rowEnd (row : ℕ) : ℕ := 1 + 21506 * (row + 1)

theorem addr_lt {bx row y x : ℕ} (hbx : bx < 20) (hrow : row < 16) (hy : y < 32) (hx : x < 32) :
    addr bx row y x < 2 ^ 20 := by
  unfold addr
  omega

theorem addr_inj {bx row y x bx' row' y' x' : ℕ} (hbx : bx < 20) (hbx' : bx' < 20) (hy : y < 32)
    (hy' : y' < 32) (hx : x < 32) (hx' : x' < 32) (h : addr bx row y x = addr bx' row' y' x') :
    bx = bx' ∧ row = row' ∧ y = y' ∧ x = x' := by
  unfold addr at h
  omega

theorem ofNat_five_eq_max {n : ℕ} : BitVec.ofNat 5 n = 31 ↔ n % 32 = 31 := by
  rw [← BitVec.toNat_inj, BitVec.toNat_ofNat]
  rfl

/-! ### Ticks of the loops -/

/-- No reset at this edge. -/
def NoReset (_ : System) (p : Port) : Prop := p.reset = false

/-- Before tick `n` of the load of block `(0, row)` out of the memory `M`. -/
structure Loading (M : Memory) (k : BitVec 80) (row n : ℕ) (s : System) : Prop where
  state : s.chip.state = if n < 1024 then .loadBlock else .shift
  blockX : s.chip.blockX = 0
  blockY : s.chip.blockY = BitVec.ofNat 4 row
  x : s.chip.x = BitVec.ofNat 5 n
  y : s.chip.y = BitVec.ofNat 5 (n / 32)
  currSubkey : s.chip.currSubkey = k
  subblock : ∀ j i : BitVec 5, 32 * j.toNat + i.toNat < n →
    s.chip.subblock j i = blockOf M 0 row j i
  mem : s.mem = M

/-- Before tick `n` of the write of the block `b` over row `row` of the memory `M`. -/
structure Writing (M : Memory) (b : Block) (k : BitVec 80) (row n : ℕ) (s : System) : Prop where
  state : s.chip.state = if n < 20480 then .writeBlock else .loadKey
  blockX : s.chip.blockX = if n < 20480 then BitVec.ofNat 5 (n / 1024) else 0
  blockY : s.chip.blockY = BitVec.ofNat 4 (if n < 20480 then row else row + 1)
  x : s.chip.x = BitVec.ofNat 5 n
  y : s.chip.y = BitVec.ofNat 5 (n / 32)
  currSubkey : s.chip.currSubkey = k
  subblock : s.chip.subblock = b
  written : ∀ bx < 20, ∀ j i : BitVec 5, 1024 * bx + 32 * j.toNat + i.toNat < n →
    blockOf s.mem bx row j i = b j i
  rest : ∀ row', row < row' → row' < 15 → ∀ bx < 20, blockOf s.mem bx row' = blockOf M bx row'

/-- The address that the counters of a loop point to. -/
theorem pixelAddr_eq {c : Chip} {bx row n : ℕ} (hbx : bx < 20) (hrow : row < 16)
    (hX : c.blockX = BitVec.ofNat 5 bx) (hY : c.blockY = BitVec.ofNat 4 row)
    (hx : c.x = BitVec.ofNat 5 n) (hy : c.y = BitVec.ofNat 5 (n / 32)) :
    c.pixelAddr = BitVec.ofNat 20 (addr bx row (n / 32 % 32) (n % 32)) := by
  have hbx' : bx % 2 ^ 5 = bx := Nat.mod_eq_of_lt (by omega)
  have hrow' : row % 2 ^ 4 = row := Nat.mod_eq_of_lt (by omega)
  rw [Chip.pixelAddr, hX, hY, hx, hy, addr]
  apply BitVec.eq_of_toNat_eq
  simp only [BitVec.toNat_add, BitVec.toNat_mul, BitVec.toNat_setWidth, BitVec.toNat_ofNat,
    BitVec.ofNat_eq_ofNat, hbx', hrow']
  omega

variable {M : Memory} {blk : Block} {k : BitVec 80} {row n : ℕ} {s : System} {p : Port}

theorem tick_chip (hp : NoReset s p) : (tick s p).chip
    = { s.chip.routine p (s.mem s.chip.sramAddr) with state := s.chip.nextState p } := by
  have hreset : p.reset = false := hp
  simp only [tick, Chip.tick, hreset, Bool.false_eq_true, if_false]

/-- Only `WRITE_BLOCK` stores anything. -/
theorem tick_mem_of_ne (hs : s.chip.state ≠ .writeBlock) : (tick s p).mem = s.mem :=
  if_pos (decide_eq_true hs)

/-- The row counter of a block moves on with every thirty-second pixel. -/
theorem ofNat_five_div_succ (n : ℕ) :
    (if BitVec.ofNat 5 n = 31 then BitVec.ofNat 5 (n / 32) + 1 else BitVec.ofNat 5 (n / 32))
      = BitVec.ofNat 5 ((n + 1) / 32) := by
  by_cases hmax : n % 32 = 31
  · rw [if_pos (ofNat_five_eq_max.mpr hmax), ofNat_succ, show (n + 1) / 32 = n / 32 + 1 by omega]
  · rw [if_neg (mt ofNat_five_eq_max.mp hmax), show (n + 1) / 32 = n / 32 by omega]

/-- The counters of a loop stand at the corner of a block with every 1024th pixel. -/
theorem corner_iff {c : Chip} (hx : c.x = BitVec.ofNat 5 n) (hy : c.y = BitVec.ofNat 5 (n / 32)) :
    (c.x = 31 ∧ c.y = 31) ↔ n % 1024 = 1023 := by
  rw [hx, hy, ofNat_five_eq_max, ofNat_five_eq_max]
  omega

/-- The word that the counters of a loop point to is a pixel of the block. -/
theorem blockOf_counters (M : Memory) (bx row n : ℕ) :
    blockOf M bx row (BitVec.ofNat 5 (n / 32)) (BitVec.ofNat 5 n)
      = M (BitVec.ofNat 20 (addr bx row (n / 32 % 32) (n % 32))) := by
  rw [blockOf, BitVec.toNat_ofNat, BitVec.toNat_ofNat]

/-- **One tick of the load** takes in one pixel. -/
theorem Loading.step (hrow : row < 16) (hn : n < 1024) (hs : Loading M k row n s)
    (hp : NoReset s p) : Loading M k row (n + 1) (tick s p) := by
  have hstate : s.chip.state = .loadBlock := by rw [hs.state, if_pos hn]
  have haddr : s.chip.sramAddr = BitVec.ofNat 20 (addr 0 row (n / 32 % 32) (n % 32)) := by
    have hpixel := pixelAddr_eq (by omega : 0 < 20) hrow hs.blockX hs.blockY hs.x hs.y
    rw [← hpixel, Chip.sramAddr, hstate]
  have hchip : (tick s p).chip = { s.chip.loadBlockRoutine (s.mem s.chip.sramAddr) with
      state := if s.chip.x = 31 ∧ s.chip.y = 31 then .shift else .loadBlock } := by
    rw [tick_chip hp, Chip.routine, Chip.nextState, hstate]
  have hlast : (s.chip.x = 31 ∧ s.chip.y = 31) ↔ ¬ n + 1 < 1024 := by
    rw [corner_iff hs.x hs.y]
    omega
  refine ⟨?_, ?_, ?_, ?_, ?_, ?_, ?_, ?_⟩
  · -- `LOAD_BLOCK` is left at the corner of the block, which is pixel 1023
    rw [hchip]
    by_cases hmore : n + 1 < 1024
    · rw [if_pos hmore]
      exact if_neg fun h => hlast.mp h hmore
    · rw [if_neg hmore]
      exact if_pos (hlast.mpr hmore)
  · rw [hchip]
    exact hs.blockX
  · rw [hchip]
    exact hs.blockY
  -- `x` counts up and wraps around at the end of a line of the block
  · rw [hchip]
    change s.chip.x + 1 = _
    rw [hs.x, ofNat_succ]
  -- `y` moves on there
  · rw [hchip]
    change (if s.chip.x = 31 then s.chip.y + 1 else s.chip.y) = _
    rw [hs.x, hs.y, ofNat_five_div_succ]
  · rw [hchip]
    exact hs.currSubkey
  · -- the pixel under the counters comes in, the others stay
    intro j i hji
    rw [hchip]
    change (if j = s.chip.y ∧ i = s.chip.x then s.mem s.chip.sramAddr else s.chip.subblock j i) = _
    by_cases hnow : j = s.chip.y ∧ i = s.chip.x
    · rw [if_pos hnow, hnow.1, hnow.2, hs.mem, haddr, hs.y, hs.x, blockOf_counters]
    · rw [if_neg hnow]
      refine hs.subblock j i ?_
      -- the only pixel between the two bounds is the one under the counters
      rcases Nat.lt_or_ge (32 * j.toNat + i.toNat) n with hlt | hge
      · exact hlt
      · exfalso
        have hi : i.toNat < 32 := i.isLt
        have hj : j.toNat < 32 := j.isLt
        refine hnow ⟨?_, ?_⟩
        · rw [hs.y, ← BitVec.toNat_inj, BitVec.toNat_ofNat]
          omega
        · rw [hs.x, ← BitVec.toNat_inj, BitVec.toNat_ofNat]
          omega
  -- `LOAD_BLOCK` only reads
  · have hread : s.chip.state ≠ .writeBlock := by
      rw [hstate]
      decide
    rw [tick_mem_of_ne hread, hs.mem]

/-- A pixel of a block after a word of the frame has been written. -/
theorem blockOf_update {bx row' j₀ i₀ bx₀ : ℕ} (hbx : bx < 20) (hrow' : row' < 16) (hbx₀ : bx₀ < 20)
    (hrow : row < 16) (hj₀ : j₀ < 32) (hi₀ : i₀ < 32) (M : Memory) (v : BitVec 16)
    (j i : BitVec 5) :
    blockOf (Function.update M (BitVec.ofNat 20 (addr bx₀ row j₀ i₀)) v) bx row' j i
      = if bx = bx₀ ∧ row' = row ∧ j.toNat = j₀ ∧ i.toNat = i₀ then v
        else blockOf M bx row' j i := by
  -- an address names its block, line and column, so the written pixel is one of a kind
  have haddr : BitVec.ofNat 20 (addr bx row' j.toNat i.toNat) = BitVec.ofNat 20 (addr bx₀ row j₀ i₀)
      ↔ addr bx row' j.toNat i.toNat = addr bx₀ row j₀ i₀ :=
    ofNat_inj (addr_lt hbx hrow' j.isLt i.isLt) (addr_lt hbx₀ hrow hj₀ hi₀)
  rw [blockOf, Function.update_apply]
  by_cases heq : addr bx row' j.toNat i.toNat = addr bx₀ row j₀ i₀
  · rw [if_pos (haddr.mpr heq), if_pos (addr_inj hbx hbx₀ j.isLt hj₀ i.isLt hi₀ heq)]
  · rw [if_neg (mt haddr.mp heq), if_neg]
    · rfl
    · rintro ⟨rfl, rfl, rfl, rfl⟩
      exact heq rfl

/-- The word that a tick of the write stores, and where. -/
theorem Writing.tick_mem (hrow : row < 15) (hn : n < 20480) (hs : Writing M blk k row n s) :
    (tick s p).mem = Function.update s.mem
      (BitVec.ofNat 20 (addr (n / 1024) row (n / 32 % 32) (n % 32)))
      (blk s.chip.y s.chip.x) := by
  have hstate : s.chip.state = .writeBlock := by rw [hs.state, if_pos hn]
  have hX : s.chip.blockX = BitVec.ofNat 5 (n / 1024) := by rw [hs.blockX, if_pos hn]
  have hY : s.chip.blockY = BitVec.ofNat 4 row := by rw [hs.blockY, if_pos hn]
  have haddr : s.chip.sramAddr
      = BitVec.ofNat 20 (addr (n / 1024) row (n / 32 % 32) (n % 32)) := by
    have hpixel := pixelAddr_eq (by omega) (by omega) hX hY hs.x hs.y
    rw [← hpixel, Chip.sramAddr, hstate]
  have hout : s.chip.sramDqOut = blk s.chip.y s.chip.x := by
    rw [Chip.sramDqOut, hstate, ← hs.subblock]
  -- `SRAM_WE_N` is low in `WRITE_BLOCK` alone
  have hwe : s.chip.sramWeN = false := by
    rw [Chip.sramWeN, hstate]
    decide
  rw [tick, hwe, ← haddr, ← hout]
  rfl

/-- A pixel of the row after a tick of the write: below the bound it is the block's. -/
theorem Writing.written_tick (hrow : row < 15) (hn : n < 20480) (hs : Writing M blk k row n s)
    {bx : ℕ} (hbx : bx < 20) (j i : BitVec 5) (hji : 1024 * bx + 32 * j.toNat + i.toNat < n + 1) :
    blockOf (tick s p).mem bx row j i = blk j i := by
  rw [hs.tick_mem hrow hn,
    -- the bound counts blocks, lines and columns in this order
    blockOf_update hbx (by omega) (by omega) (by omega) (by omega) (by omega)]
  have hj : j.toNat < 32 := j.isLt
  have hi : i.toNat < 32 := i.isLt
  by_cases hnow : bx = n / 1024 ∧ row = row ∧ j.toNat = n / 32 % 32 ∧ i.toNat = n % 32
  · -- the pixel under the counters
    have hy : s.chip.y = j := by
      rw [hs.y, ← BitVec.toNat_inj, BitVec.toNat_ofNat]
      exact hnow.2.2.1.symm
    have hx : s.chip.x = i := by
      rw [hs.x, ← BitVec.toNat_inj, BitVec.toNat_ofNat]
      exact hnow.2.2.2.symm
    rw [if_pos hnow, hy, hx]
  · -- any other one was written before
    rw [if_neg hnow]
    refine hs.written bx hbx j i ?_
    by_contra hge
    exact hnow (by omega)

/-- **One tick of the write** puts one pixel of the block into one of the twenty places. -/
theorem Writing.step (hrow : row < 15) (hn : n < 20480) (hs : Writing M blk k row n s)
    (hp : NoReset s p) : Writing M blk k row (n + 1) (tick s p) := by
  have hstate : s.chip.state = .writeBlock := by rw [hs.state, if_pos hn]
  have hX : s.chip.blockX = BitVec.ofNat 5 (n / 1024) := by rw [hs.blockX, if_pos hn]
  have hY : s.chip.blockY = BitVec.ofNat 4 row := by rw [hs.blockY, if_pos hn]
  have hchip : (tick s p).chip = { s.chip.writeBlockRoutine with
      state := if s.chip.x = 31 ∧ s.chip.y = 31 ∧ s.chip.blockX = 19 then .loadKey
        else .writeBlock } := by
    rw [tick_chip hp, Chip.routine, Chip.nextState, hstate]
  have hcorner := corner_iff hs.x hs.y
  have hX19 : s.chip.blockX = 19 ↔ n / 1024 = 19 := by
    have h19 : BitVec.ofNat 5 (n / 1024) = BitVec.ofNat 5 19 ↔ n / 1024 = 19 :=
      ofNat_inj (by omega) (by omega)
    rw [hX]
    exact h19
  have hlast : (s.chip.x = 31 ∧ s.chip.y = 31 ∧ s.chip.blockX = 19) ↔ ¬ n + 1 < 20480 := by
    rw [← and_assoc, hcorner, hX19]
    omega
  refine ⟨?_, ?_, ?_, ?_, ?_, ?_, ?_, ?_, ?_⟩
  · -- `WRITE_BLOCK` is left at the corner of the twentieth block only
    rw [hchip]
    by_cases hmore : n + 1 < 20480
    · rw [if_pos hmore]
      exact if_neg fun h => hlast.mp h hmore
    · rw [if_neg hmore]
      exact if_pos (hlast.mpr hmore)
  · -- `block_x` moves on at every corner, and back to 0 at the last one
    rw [hchip]
    change (if s.chip.x = 31 ∧ s.chip.y = 31 then
      if s.chip.blockX = 19 then 0 else s.chip.blockX + 1 else s.chip.blockX) = _
    by_cases hc : n % 1024 = 1023
    · rw [if_pos (hcorner.mpr hc)]
      by_cases h19 : n / 1024 = 19
      · rw [if_pos (hX19.mpr h19), if_neg (by omega)]
      · rw [if_neg (mt hX19.mp h19), if_pos (by omega), hX, ofNat_succ,
          show (n + 1) / 1024 = n / 1024 + 1 by omega]
    · rw [if_neg (mt hcorner.mp hc), if_pos (by omega), hX,
        show (n + 1) / 1024 = n / 1024 by omega]
  · -- `block_y` moves on with the state
    rw [hchip]
    change (if s.chip.x = 31 ∧ s.chip.y = 31 ∧ s.chip.blockX = 19 then s.chip.blockY + 1
      else s.chip.blockY) = _
    by_cases hmore : n + 1 < 20480
    · rw [if_neg fun h => hlast.mp h hmore, if_pos hmore, hY]
    · rw [if_pos (hlast.mpr hmore), if_neg hmore, hY, ofNat_succ]
  -- `x` and `y` count as in the load
  · rw [hchip]
    change s.chip.x + 1 = _
    rw [hs.x, ofNat_succ]
  · rw [hchip]
    change (if s.chip.x = 31 then s.chip.y + 1 else s.chip.y) = _
    rw [hs.x, hs.y, ofNat_five_div_succ]
  · rw [hchip]
    exact hs.currSubkey
  -- the block itself stays until the next `LOAD_BLOCK`
  · rw [hchip]
    exact hs.subblock
  -- the pixels below the bound, the one of this tick among them
  · exact fun bx hbx j i hji => hs.written_tick hrow hn hbx j i hji
  · -- the address is in row `row`, so a later row keeps its words
    intro row' hlt hrow' bx hbx
    funext j i
    rw [hs.tick_mem hrow hn,
      blockOf_update hbx (by omega) (by omega) (by omega) (by omega) (by omega), if_neg (by omega)]
    exact congrFun (congrFun (hs.rest row' hlt hrow' bx hbx) j) i

/-! ### One row of blocks -/

/-- At `LOAD_KEY` before row `row`, out of the frame `F`: the rows from here on are untouched, and
the key register holds the key `k` of the last load, shifted once per row. -/
structure RowStart (F : Memory) (k : BitVec 80) (row : ℕ) (s : System) : Prop where
  state : s.chip.state = .loadKey
  blockX : s.chip.blockX = 0
  blockY : s.chip.blockY = BitVec.ofNat 4 row
  x : s.chip.x = 0
  y : s.chip.y = 0
  currSubkey : row % 4 ≠ 0 → s.chip.currSubkey = k <<< (row % 4)
  rest : ∀ row', row ≤ row' → row' < 15 → ∀ bx < 20, blockOf s.mem bx row' = blockOf F bx row'

variable {F : Memory}

/-- The low two bits of the row counter. -/
theorem low_bits_ofNat (hrow : row < 16) :
    (BitVec.ofNat 4 row).extractLsb' 0 2 = 0 ↔ row % 4 = 0 := by
  interval_cases row <;> decide

/-- `LOAD_KEY` loads a key before every fourth row. -/
theorem RowStart.loads (hrow : row < 15) (hs : RowStart F k row s) (hp : NoReset s p)
    (hk : row % 4 = 0 → p.subkey = k) : Loading s.mem (k <<< (row % 4)) row 0 (tick s p) := by
  have hchip : (tick s p).chip = { s.chip.loadKeyRoutine p with state := .loadBlock } := by
    rw [tick_chip hp, Chip.routine, Chip.nextState, hs.state]
  refine ⟨?_, ?_, ?_, ?_, ?_, ?_, ?_, ?_⟩
  · rw [hchip]
    rfl
  · rw [hchip]
    exact hs.blockX
  · rw [hchip]
    exact hs.blockY
  · rw [hchip]
    exact hs.x
  · rw [hchip]
    exact hs.y
  · -- the two low bits of `block_y` decide whether the key is the port's or the shifted one
    rw [hchip]
    change (if s.chip.blockY.extractLsb' 0 2 = 0 then p.subkey else s.chip.currSubkey) = _
    by_cases h4 : row % 4 = 0
    · rw [if_pos (by rw [hs.blockY]; exact (low_bits_ofNat (by omega)).mpr h4), hk h4, h4,
        BitVec.shiftLeft_zero]
    · rw [if_neg (by rw [hs.blockY]; exact mt (low_bits_ofNat (by omega)).mp h4),
        hs.currSubkey h4]
  -- no pixel is in yet
  · exact fun j i hji => absurd hji (Nat.not_lt_zero _)
  · apply tick_mem_of_ne
    rw [hs.state]
    decide

/-- `SHIFT` transforms the block that was loaded. -/
theorem Loading.shifts (hs : Loading M k row 1024 s) (hp : NoReset s p) :
    Writing M (shiftBlock (k.getLsbD 79) (blockOf M 0 row)) (k <<< 1) row 0 (tick s p) := by
  have hchip : (tick s p).chip = { s.chip.shiftRoutine with state := .writeBlock } := by
    rw [tick_chip hp, Chip.routine, Chip.nextState, hs.state]
    rfl
  -- after 1024 pixels the whole block is in
  have hblock : s.chip.subblock = blockOf M 0 row := by
    funext j i
    have hj : j.toNat < 32 := j.isLt
    have hi : i.toNat < 32 := i.isLt
    exact hs.subblock j i (by omega)
  have hmem : (tick s p).mem = M := by
    have hread : s.chip.state ≠ .writeBlock := by
      rw [hs.state]
      decide
    rw [tick_mem_of_ne hread, hs.mem]
  refine ⟨?_, ?_, ?_, ?_, ?_, ?_, ?_, ?_, ?_⟩
  · rw [hchip]
    rfl
  · rw [hchip]
    exact hs.blockX
  · rw [hchip]
    exact hs.blockY
  · rw [hchip]
    rfl
  · rw [hchip]
    rfl
  -- the key moves on by one bit
  · rw [hchip]
    exact congrArg (fun key : BitVec 80 => key <<< 1) hs.currSubkey
  -- the top bit of the key is the one that decides
  · rw [hchip]
    change shiftBlock (s.chip.currSubkey.getLsbD 79) s.chip.subblock = _
    rw [hs.currSubkey, hblock]
  -- no block is written yet
  · exact fun bx _ j i hji => absurd hji (Nat.not_lt_zero _)
  · intro row' _ _ bx _
    rw [hmem]

/-- The ticks of the load of a row: one tick in `LOAD_KEY`, then 1024 in `LOAD_BLOCK`. -/
theorem RowStart.loading (inp : ℕ → Port) (hrow : row < 15) (hs : RowStart F k row s)
    (hk : row % 4 = 0 → (inp 0).subkey = k) (hp : ∀ n, (inp n).reset = false) (hn : n ≤ 1024) :
    Loading s.mem (k <<< (row % 4)) row n (stateAt tick s inp (1 + n)) := by
  rw [stateAt_add]
  exact stateAt_count (c := NoReset) (L := Loading s.mem (k <<< (row % 4)) row)
    (fun n hn t i ht hi => ht.step (by omega) hn hi) (hs.loads hrow (hp 0) hk)
    (fun n => hp (1 + n)) hn

/-- The ticks of the write of a row: after the load one tick in `SHIFT`, then 20480 in
`WRITE_BLOCK`. -/
theorem RowStart.writing (inp : ℕ → Port) (hrow : row < 15) (hs : RowStart F k row s)
    (hk : row % 4 = 0 → (inp 0).subkey = k) (hp : ∀ n, (inp n).reset = false) (hn : n ≤ 20480) :
    Writing s.mem (shiftBlock ((k <<< (row % 4)).getLsbD 79) (blockOf s.mem 0 row))
      ((k <<< (row % 4)) <<< 1) row n (stateAt tick s inp (1026 + n)) := by
  have hshift : Writing s.mem (shiftBlock ((k <<< (row % 4)).getLsbD 79) (blockOf s.mem 0 row))
      ((k <<< (row % 4)) <<< 1) row 0 (stateAt tick s inp 1026) :=
    (hs.loading inp hrow hk hp le_rfl).shifts (hp 1025)
  rw [stateAt_add]
  exact stateAt_count (c := NoReset) (b := 20480)
    (fun n hn t i ht hi => Writing.step hrow hn ht hi) hshift (fun n => hp (1026 + n)) hn

/-- **One row of blocks**, 21506 ticks. Every block of the row becomes the shifted first block. -/
theorem RowStart.next (inp : ℕ → Port) (hrow : row < 15) (hs : RowStart F k row s)
    (hk : row % 4 = 0 → (inp 0).subkey = k) (hp : ∀ n, (inp n).reset = false) :
    RowStart F k (row + 1) (stateAt tick s inp 21506) ∧
      ∀ bx < 20, blockOf (stateAt tick s inp 21506).mem bx row
        = shiftBlock (k.getLsbD (79 - row % 4)) (blockOf F 0 row) := by
  -- the row is over after the load, the shift and 20480 ticks of the write
  have hwrite := hs.writing inp hrow hk hp (le_refl 20480)
  -- the top bit of a key that has shifted once per row
  have hbit : (k <<< (row % 4)).getLsbD 79 = k.getLsbD (79 - row % 4) := by
    simp only [BitVec.getLsbD_shiftLeft]
    have h4 : row % 4 < 4 := Nat.mod_lt _ (by omega)
    simp only [show ¬ 79 < row % 4 by omega]
    simp
  -- the rows before have left this one alone
  have hfirst : blockOf s.mem 0 row = blockOf F 0 row := hs.rest row le_rfl hrow 0 (by omega)
  rw [hbit, hfirst, ← BitVec.shiftLeft_add] at hwrite
  refine ⟨⟨hwrite.state, hwrite.blockX, hwrite.blockY, hwrite.x, hwrite.y, fun h4 => ?_, ?_⟩, ?_⟩
  · rw [hwrite.currSubkey, show (row + 1) % 4 = row % 4 + 1 by omega]
  -- the rows below are still those of the frame
  · intro row' hle hlt bx hbx
    rw [hwrite.rest row' (by omega) hlt bx hbx]
    exact hs.rest row' (by omega) hlt bx hbx
  · intro bx hbx
    funext j i
    have hj : j.toNat < 32 := j.isLt
    have hi : i.toNat < 32 := i.isLt
    exact hwrite.written bx hbx j i (by omega)

/-! ### Every row -/

/-- `WAIT` with `Run` high starts before the first row. -/
theorem starts_first_row (hs : s.chip.state = .wait) (hp : NoReset s p) (hrun : p.run = true) :
    RowStart s.mem 0 0 (tick s p) := by
  have hchip : (tick s p).chip = { s.chip.waitRoutine with state := .loadKey } := by
    rw [tick_chip hp, Chip.routine, Chip.nextState, hs]
    simp only [hrun, if_true]
  -- `WAIT` only reads
  have hmem : (tick s p).mem = s.mem := by
    apply tick_mem_of_ne
    rw [hs]
    decide
  refine ⟨?_, ?_, ?_, ?_, ?_, fun h => absurd rfl h, fun row' _ _ bx _ => ?_⟩
  · rw [hchip]
  · rw [hchip]
    rfl
  · rw [hchip]
    rfl
  · rw [hchip]
    rfl
  · rw [hchip]
    rfl
  · rw [hmem]

/-- The key of a row stays that of the row before it, up to the next load. -/
theorem keyTick_succ (h4 : (row + 1) % 4 ≠ 0) : keyTick (row + 1) = keyTick row := by
  unfold keyTick
  omega

/-- The key of a row is loaded in the `LOAD_KEY` right before it, one row in four. -/
theorem subkey_keyTick (inp : ℕ → Port) (h4 : row % 4 = 0) :
    (inp (1 + 21506 * row + 0)).subkey = (inp (keyTick row)).subkey := by
  rw [keyTick, show 4 * (row / 4) = row by omega, Nat.add_zero]

/-- The start of every row. -/
theorem rowStart {inp : ℕ → Port} (hs : s.chip.state = .wait) (hrun : (inp 0).run = true)
    (hp : ∀ n, (inp n).reset = false) (hrow : row ≤ 15) :
    RowStart s.mem (inp (keyTick row)).subkey row (stateAt tick s inp (1 + 21506 * row)) := by
  -- a row leaves the chip at the start of the next one, with the key of the row
  induction row with
  | zero =>
    have hfirst := starts_first_row hs (hp 0) hrun
    exact ⟨hfirst.1, hfirst.2, hfirst.3, hfirst.4, hfirst.5, fun h => absurd rfl h, hfirst.7⟩
  | succ row ih =>
    obtain ⟨hnext, -⟩ := (ih (by omega)).next (fun n => inp (1 + 21506 * row + n)) (by omega)
      (subkey_keyTick inp) fun n => hp _
    rw [← stateAt_add, show 1 + 21506 * row + 21506 = 1 + 21506 * (row + 1) by omega] at hnext
    -- the key register matters only before a row that loads none
    refine ⟨hnext.1, hnext.2, hnext.3, hnext.4, hnext.5, fun h4 => ?_, hnext.7⟩
    rw [keyTick_succ h4]
    exact hnext.currSubkey h4

/-- **What a row becomes.** After the write phase of a row every block of it is the first one,
shifted by the key bit of the row. -/
theorem row_outcome {inp : ℕ → Port} (hs : s.chip.state = .wait) (hrun : (inp 0).run = true)
    (hp : ∀ n, (inp n).reset = false) (hrow : row < 15) :
    ∀ bx < 20, blockOf (stateAt tick s inp (rowEnd row)).mem bx row
      = shiftBlock ((inp (keyTick row)).subkey.getLsbD (79 - row % 4)) (blockOf s.mem 0 row) := by
  obtain ⟨-, hblocks⟩ := (rowStart hs hrun hp (show row ≤ 15 by omega)).next
    (fun n => inp (1 + 21506 * row + n)) hrow (subkey_keyTick inp) fun n => hp _
  rwa [← stateAt_add, show 1 + 21506 * row + 21506 = rowEnd row by unfold rowEnd; omega] at hblocks

/-! ### The transformation moves pixels -/

/-- The pixel of the old block that a pixel of the shifted block comes from. -/
def source (up : Bool) (z : BitVec 5 × BitVec 5) : BitVec 5 × BitVec 5 :=
  if up = false then
    if z.1 = 0 then if z.2 = 31 then (0, 31) else (31 - z.2, 31)
    else if z.2 = 0 then (31, 31 - z.1)
    else (z.1 - 1, z.2 - 1)
  else
    if z.1 = 0 then if z.2 = 0 then (0, 0) else (z.2, 0)
    else if z.2 = 31 then (31, z.1)
    else (z.1 - 1, z.2 + 1)

/-- The pixel of the shifted block that a pixel of the old block goes to. -/
def target (up : Bool) (z : BitVec 5 × BitVec 5) : BitVec 5 × BitVec 5 :=
  if up = false then
    if z.2 = 31 then if z.1 = 0 then (0, 31) else (0, 31 - z.1)
    else if z.1 = 31 then (31 - z.2, 0)
    else (z.1 + 1, z.2 + 1)
  else
    if z.2 = 0 then (0, z.1)
    else if z.1 = 31 then (z.2, 31)
    else (z.1 + 1, z.2 - 1)

theorem target_source : ∀ (up : Bool) (y x : BitVec 5), target up (source up (y, x)) = (y, x) := by
  decide +kernel

theorem source_target : ∀ (up : Bool) (y x : BitVec 5), source up (target up (y, x)) = (y, x) := by
  decide +kernel

/-- `SHIFT` permutes the pixels of a block. -/
def shiftPerm (up : Bool) : Equiv.Perm (BitVec 5 × BitVec 5) where
  toFun := source up
  invFun := target up
  left_inv z := target_source up z.1 z.2
  right_inv z := source_target up z.1 z.2

theorem shiftBlock_eq_shiftPerm (up : Bool) (b : Block) (y x : BitVec 5) :
    shiftBlock up b y x = b (shiftPerm up (y, x)).1 (shiftPerm up (y, x)).2 := by
  change _ = b (source up (y, x)).1 (source up (y, x)).2
  unfold shiftBlock source
  split_ifs <;> rfl

/-! ### When every block holds its own transformation -/

/-- After the write phase of row `row` over the frame `F` with the key `k`: every block of the row
holds the transformation of its own contents with its own key bit, so that no pixel is lost or
duplicated, and the rows after it are untouched. -/
structure RowTransformed (F : Memory) (k : BitVec 80) (row : ℕ) (M : Memory) : Prop where
  own : ∀ bx < 20, blockOf M bx row = shiftBlock (k.getLsbD (ownBit bx row)) (blockOf F bx row)
  rearranged : ∀ bx < 20, ∃ e : Equiv.Perm (BitVec 5 × BitVec 5), ∀ y x,
    blockOf M bx row y x = blockOf F bx row (e (y, x)).1 (e (y, x)).2
  later : ∀ row', row < row' → row' < 15 → ∀ bx < 20, blockOf M bx row' = blockOf F bx row'

/-- Each block of the row, transformed with its own key bit, is the first block transformed with the
key bit of the row. -/
def RowUniform (F : Memory) (k : BitVec 80) (row : ℕ) : Prop :=
  ∀ bx < 20, shiftBlock (k.getLsbD (ownBit bx row)) (blockOf F bx row)
    = shiftBlock (k.getLsbD (79 - row % 4)) (blockOf F 0 row)

/-- At `LOAD_KEY` after row `row`. -/
def AfterRow (row : ℕ) (s : System) : Prop :=
  s.chip.state = .loadKey ∧ s.chip.blockY = BitVec.ofNat 4 (row + 1)

/-- **When every block holds its own transformation**: exactly when the twenty transformations of
the row agree with that of the first block. -/
theorem row_transformed_iff (s : System) (hs : s.chip.state = .wait) (inp : ℕ → Port)
    (hrun : (inp 0).run = true) (hp : ∀ n, (inp n).reset = false) (row : ℕ) (hrow : row < 15) :
    AfterRow row (stateAt tick s inp (rowEnd row)) ∧
      (RowTransformed s.mem (inp (keyTick row)).subkey row (stateAt tick s inp (rowEnd row)).mem ↔
        RowUniform s.mem (inp (keyTick row)).subkey row) := by
  have hnext := rowStart hs hrun hp (show row + 1 ≤ 15 by omega)
  have hblocks := row_outcome hs hrun hp hrow
  refine ⟨⟨hnext.state, hnext.blockY⟩, fun h bx hbx => ?_, fun h => ⟨fun bx hbx => ?_, ?_, ?_⟩⟩
  · -- what the block holds is both its own transformation and that of the first block
    calc shiftBlock ((inp (keyTick row)).subkey.getLsbD (ownBit bx row)) (blockOf s.mem bx row)
        = blockOf (stateAt tick s inp (rowEnd row)).mem bx row := (h.own bx hbx).symm
      _ = shiftBlock ((inp (keyTick row)).subkey.getLsbD (79 - row % 4)) (blockOf s.mem 0 row) :=
        hblocks bx hbx
  · rw [hblocks bx hbx, h bx hbx]
  · -- the own transformation only moves pixels
    intro bx hbx
    refine ⟨shiftPerm ((inp (keyTick row)).subkey.getLsbD (ownBit bx row)), fun y x => ?_⟩
    rw [hblocks bx hbx, ← h bx hbx, shiftBlock_eq_shiftPerm]
  -- rows that come later are untouched
  · exact fun row' hlt hrow' bx hbx => hnext.rest row' (by omega) hrow' bx hbx

/-- A frame of stripes 32 pixels wide, so that all its blocks are the same. -/
def striped : Memory := fun a => (a.setWidth 5).setWidth 16

theorem blockOf_striped (bx row : ℕ) : blockOf striped bx row = fun _ x => x.setWidth 16 := by
  funext y x
  have haddr : addr bx row y.toNat x.toNat % 32 = x.toNat := by
    have hx := x.isLt
    unfold addr
    omega
  -- the low five bits of an address are the column within the block
  have hlow : (BitVec.ofNat 20 (addr bx row y.toNat x.toNat)).setWidth 5 = x := by
    apply BitVec.eq_of_toNat_eq
    rw [BitVec.toNat_setWidth, BitVec.toNat_ofNat]
    exact (Nat.mod_mod_of_dvd _ (by decide)).trans haddr
  exact congrArg (BitVec.setWidth 16) hlow

/-- `Run` held high, with all key bits set. -/
def heldOnes : ℕ → Port := fun _ => ⟨false, true, BitVec.allOnes 80⟩

/-- Equal blocks under equal key bits: row 7 is transformed, and the stripes of its blocks are
slanted. -/
theorem row_transformed_striped :
    RowTransformed striped (BitVec.allOnes 80) 7
        (stateAt tick ⟨.reset, striped⟩ heldOnes (rowEnd 7)).mem ∧
      blockOf (stateAt tick ⟨.reset, striped⟩ heldOnes (rowEnd 7)).mem 12 7 1 4 = 5 := by
  have htransformed : RowTransformed striped (BitVec.allOnes 80) 7
      (stateAt tick ⟨.reset, striped⟩ heldOnes (rowEnd 7)).mem := by
    refine (row_transformed_iff ⟨.reset, striped⟩ rfl heldOnes rfl (fun _ => rfl) 7
      (by decide)).2.mpr fun bx hbx => ?_
    -- the twenty key bits of the row are all one
    have hown : (BitVec.allOnes 80).getLsbD (ownBit bx 7) = true := by
      rw [BitVec.getLsbD_allOnes]
      exact decide_eq_true (by unfold ownBit; omega)
    change shiftBlock ((BitVec.allOnes 80).getLsbD (ownBit bx 7)) (blockOf striped bx 7)
      = shiftBlock ((BitVec.allOnes 80).getLsbD (79 - 7 % 4)) (blockOf striped 0 7)
    rw [hown, blockOf_striped, blockOf_striped]
    rfl
  refine ⟨htransformed, ?_⟩
  rw [htransformed.own 12 (by decide), blockOf_striped]
  rfl

/-- A frame with a single white pixel, in the second block of the first row. -/
def onePixel : Memory := fun a => if a = 32 then 0xffff else 0

/-- The chip after a reset, with that frame. -/
def onePixelStart : System := ⟨.reset, onePixel⟩

/-- `Run` held high, with the key 0. -/
def heldRun : ℕ → Port := fun _ => ⟨false, true, 0⟩

/-- In the first row the pixel is lost: the second block becomes the first one, shifted. -/
theorem second_block_overwritten :
    ¬ RowTransformed onePixelStart.mem (heldRun (keyTick 0)).subkey 0
      (stateAt tick onePixelStart heldRun (rowEnd 0)).mem := by
  intro h
  have hreset : ∀ n, (heldRun n).reset = false := fun _ => rfl
  have hfirst := row_outcome (s := onePixelStart) rfl rfl hreset (show 0 < 15 by decide) 1
    (by decide)
  have hpixel := congrFun (congrFun ((h.own 1 (by decide)).symm.trans hfirst) 1) 1
  exact absurd hpixel (by decide)

end Diag
end VideoEncryption
