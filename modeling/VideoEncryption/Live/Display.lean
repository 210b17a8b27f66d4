import VideoEncryption.Clocked.Word
import VideoEncryption.Live.ImageInput

/-!
# The display side of `Image_Input`

`Image_mod.sv`: the raster counters, the read ports of the three `VRAM` banks and the colour
multiplexer. `VRAM.v` registers the read address and the output on `rdclock`, so a bank answers two
ticks of `VGA_Clk` after it was asked. The multiplexer picks the bank by `VRAM_rdaddress[17:16]` as
it is *now*, and the capture side files pixel `k` in bank `k / 65536` (`Vram.flat`).

* `Delayed` — what the read ports hold on a row: the last two addresses presented. Every run keeps
  it (`delayed_run`).
* `colour_eq_ahead` — hence the colour of a visible position: the word asked for two ticks ago, in
  the bank asked for now.
* `showsFlat_iff` — the two banks are the same one but at four positions, two for each bank
  boundary inside a visible row.
-/

namespace VideoEncryption
namespace Live

open Clocked

/-! ### The read ports and the raster -/

/-- The registers of an `altsyncram` read port with registered address and registered output. -/
structure ReadPort where
  addressReg : BitVec 16
  q : BitVec 16
deriving DecidableEq, Repr

/-- A rising `rdclock` edge of a port whose array holds `memory` and has since the edge before: the
old address is answered and a new one taken. -/
def ReadPort.rdclock (r : ReadPort) (memory : BitVec 16 → BitVec 16) (rdaddress : BitVec 16) :
    ReadPort where
  addressReg := rdaddress
  q := memory r.addressReg

/-- `Red`, `Green` and `Blue`. -/
structure Colour where
  red : BitVec 8
  green : BitVec 8
  blue : BitVec 8
deriving DecidableEq, Repr

/-- The RGB565 word `w` on eight bits a channel, the high bits repeated below. -/
def expand (w : BitVec 16) : Colour where
  red := w.extractLsb' 11 5 ++ w.extractLsb' 13 3
  green := w.extractLsb' 5 6 ++ w.extractLsb' 9 2
  blue := w.extractLsb' 0 5 ++ w.extractLsb' 2 3

/-- What is shown outside the image. -/
def black : Colour := ⟨0, 0, 0⟩

/-- The registers of `Image_Input` in the `VGA_Clk` domain, with the banks' read ports. -/
structure Display where
  hc : BitVec 10
  vc : BitVec 10
  videoMemory : Fin 3 → ReadPort

namespace Display

/-- `VRAM_rdaddress`. -/
def vramRdaddress (d : Display) : BitVec 18 :=
  (640 * d.vc.setWidth 32 + d.hc.setWidth 32).setWidth 18

/-- The colour multiplexer. -/
def colour (d : Display) : Colour :=
  if d.vc ≥ 240 then black
  else if d.vramRdaddress.extractLsb' 16 2 = 0b00 then expand (d.videoMemory ⟨0, by decide⟩).q
  else if d.vramRdaddress.extractLsb' 16 2 = 0b01 then expand (d.videoMemory ⟨1, by decide⟩).q
  else if d.vramRdaddress.extractLsb' 16 2 = 0b10 then expand (d.videoMemory ⟨2, by decide⟩).q
  else black

/-- The raster counters at a `VGA_Clk` edge without `Reset`. -/
def raster (d : Display) : Display :=
  if d.hc = 799 then { d with hc := 0, vc := if d.vc = 524 then 0 else d.vc + 1 }
  else { d with hc := d.hc + 1 }

/-- The raster counters under `Reset`. -/
def clear (d : Display) : Display := { d with hc := 0, vc := 0 }

/-- A rising `VGA_Clk` edge over banks that hold `v`. `Reset` does not reach the read ports. -/
def vgaClk (v : Vram) (reset : Bool) (d : Display) : Display :=
  { (if reset then d.clear else d.raster) with
    videoMemory := fun b => (d.videoMemory b).rdclock (v b) (d.vramRdaddress.setWidth 16) }

end Display

/-- The two edges the `VGA_Clk` domain is sensitive to. -/
inductive VgaEdge
  | reset
  | vgaClk (reset : Bool)
deriving DecidableEq, Repr

/-- One edge over banks that hold `v`. -/
def Display.edge (v : Vram) (d : Display) : VgaEdge → Display
  | .reset => d.clear
  | .vgaClk reset => d.vgaClk v reset

/-- The counters at power-up, the read ports holding anything. -/
def Display.powerUp (videoMemory : Fin 3 → ReadPort) : Display := ⟨0, 0, videoMemory⟩

/-! ### Expansion loses nothing -/

/-- The RGB565 word a colour was expanded from. -/
def Colour.collapse (c : Colour) : BitVec 16 :=
  c.red.extractLsb' 3 5 ++ c.green.extractLsb' 2 6 ++ c.blue.extractLsb' 3 5

theorem collapse_expand (w : BitVec 16) : (expand w).collapse = w := by
  apply BitVec.eq_of_getLsbD_eq
  intro i hi
  simp only [Colour.collapse, expand, BitVec.getLsbD_append, BitVec.getLsbD_extractLsb']
  by_cases h5 : i < 5
  · simp [h5, Nat.add_comm 3 i]
  · by_cases h11 : i < 11
    · simp [h5, show i - 5 < 6 by omega, show ¬ 2 + (i - 5) < 2 by omega,
        show 5 + (i - 5) = i by omega]
    · simp [h5, show ¬ i - 5 < 6 by omega, show i - 5 - 6 < 5 by omega,
        show ¬ 3 + (i - 5 - 6) < 3 by omega, show 11 + (i - 5 - 6) = i by omega]

theorem expand_injective : Function.Injective expand :=
  Function.LeftInverse.injective collapse_expand

/-! ### What the read ports hold -/

/-- The raster position as a flat address. -/
def Display.position (d : Display) : ℕ := 640 * d.vc.toNat + d.hc.toNat

/-- **The read ports of a row.** One tick into a row a port has registered the row's first address,
two ticks into it the port answers for the address before the last. -/
structure Delayed (v : Vram) (d : Display) : Prop where
  hc_lt : d.hc.toNat < 800
  vc_lt : d.vc.toNat < 525
  addressReg : 1 ≤ d.hc.toNat →
    ∀ b, (d.videoMemory b).addressReg = BitVec.ofNat 16 (d.position - 1)
  q : 2 ≤ d.hc.toNat → ∀ b, (d.videoMemory b).q = v b (BitVec.ofNat 16 (d.position - 2))

variable {v : Vram} {d : Display}

/-- The first pixel of a row asks nothing of the ports. -/
theorem delayed_of_hc_eq_zero (hhc : d.hc = 0) (hvc : d.vc.toNat < 525) : Delayed v d where
  hc_lt := by simp [hhc]
  vc_lt := hvc
  addressReg := fun h => absurd h (by simp [hhc])
  q := fun h => absurd h (by simp [hhc])

theorem vramRdaddress_eq (d : Display) : d.vramRdaddress = BitVec.ofNat 18 d.position := by
  apply BitVec.eq_of_toNat_eq
  have hvc := d.vc.isLt
  have hhc := d.hc.isLt
  simp only [Display.vramRdaddress, Display.position, BitVec.toNat_setWidth, BitVec.toNat_add,
    BitVec.toNat_mul, BitVec.toNat_ofNat, show (640 : BitVec 32).toNat = 640 from rfl]
  omega

/-- The low half of the address, as the banks see it. -/
theorem vramRdaddress_low (d : Display) :
    d.vramRdaddress.setWidth 16 = BitVec.ofNat 16 d.position := by
  apply BitVec.eq_of_toNat_eq
  rw [vramRdaddress_eq, BitVec.toNat_setWidth, BitVec.toNat_ofNat, BitVec.toNat_ofNat]
  omega

/-- **One edge** keeps the read ports two ticks behind. -/
theorem Delayed.edge (h : Delayed v d) (e : VgaEdge) : Delayed v (d.edge v e) := by
  obtain ⟨hhc, hvc, haddr, hq⟩ := h
  cases e with
  | reset => exact delayed_of_hc_eq_zero rfl (by simp [Display.edge, Display.clear])
  | vgaClk reset =>
    cases reset with
    | true =>
      exact delayed_of_hc_eq_zero rfl (by simp [Display.edge, Display.vgaClk, Display.clear])
    | false =>
      by_cases hlast : d.hc = 799
      · -- the first pixel of the next row
        refine delayed_of_hc_eq_zero (by simp [Display.edge, Display.vgaClk, Display.raster, hlast])
          ?_
        simp only [Display.edge, Display.vgaClk, Display.raster, hlast, if_true,
          Bool.false_eq_true, if_false]
        split_ifs with hbottom
        · simp
        -- the row counter stays below 525
        · have hne : d.vc.toNat ≠ 524 := fun he => hbottom (BitVec.eq_of_toNat_eq he)
          rw [BitVec.toNat_add]
          exact lt_of_le_of_lt (Nat.mod_le _ _) (by simp; omega)
      · -- the next pixel of the row: what was registered is answered
        have hne : d.hc.toNat ≠ 799 := fun he => hlast (BitVec.eq_of_toNat_eq he)
        have hnext : (d.hc + 1).toNat = d.hc.toNat + 1 := by
          rw [BitVec.toNat_add]
          exact Nat.mod_eq_of_lt (by simp; omega)
        simp only [Display.edge, Display.vgaClk, Display.raster, hlast, Bool.false_eq_true,
          if_false]
        refine ⟨by simp only [hnext]; omega, hvc, fun _ b => ?_, fun h2 b => ?_⟩
        -- the position now addressed is what the ports register
        · simp only [ReadPort.rdclock, Display.position, hnext, vramRdaddress_low]
          rfl
        · simp only [hnext] at h2
          simp only [ReadPort.rdclock, Display.position, hnext, haddr (by omega) b]
          rfl

/-- **The invariant of every run** of the display from power-up. -/
theorem delayed_run (v : Vram) (videoMemory : Fin 3 → ReadPort) (edges : List VgaEdge) :
    Delayed v (run (Display.edge v) (Display.powerUp videoMemory) edges) :=
  run_invariant (c := fun _ _ => True) (I := Delayed v) (fun _ e h _ => h.edge e)
    (delayed_of_hc_eq_zero rfl (by simp [Display.powerUp])) (along_true _ _)

/-! ### What is shown -/

/-- What is shown at a visible position: what the bank addressed now answers. -/
theorem colour_eq_expand_q (hvc : d.vc.toNat < 240) (hhc : d.hc.toNat < 640) :
    d.colour = expand (d.videoMemory (Fin.ofNat 3 (d.position / 65536))).q := by
  have hrow : ¬ d.vc ≥ 240 := by
    rw [ge_iff_le, BitVec.le_def]
    simpa using hvc
  -- the address of a visible position fits in the three banks
  have hlt : d.position < 153600 := by
    simp only [Display.position]
    omega
  have hbank : d.vramRdaddress.extractLsb' 16 2 = BitVec.ofNat 2 (d.position / 65536) := by
    apply BitVec.eq_of_toNat_eq
    rw [vramRdaddress_eq, BitVec.extractLsb'_toNat, BitVec.toNat_ofNat, BitVec.toNat_ofNat,
      Nat.shiftRight_eq_div_pow]
    omega
  have hcases : d.position / 65536 = 0 ∨ d.position / 65536 = 1 ∨ d.position / 65536 = 2 := by omega
  rw [Display.colour, if_neg hrow, hbank]
  -- the multiplexer, bank by bank
  rcases hcases with h | h | h <;> rw [h] <;> rfl

/-- The bank asked now, at the word asked two ticks before: `k` is the flat address of that word. -/
def Vram.ahead (v : Vram) (k : ℕ) : BitVec 16 :=
  v.flat (65536 * ((k + 2) / 65536) + k % 65536)

theorem flat_bank_add (v : Vram) (b : ℕ) {w : ℕ} (hw : w < 65536) :
    v.flat (65536 * b + w) = v (Fin.ofNat 3 b) (BitVec.ofNat 16 w) := by
  have hbank : (65536 * b + w) / 65536 = b := by omega
  have hword : (65536 * b + w) % 65536 = w := by omega
  rw [Vram.flat, hbank, hword]

/-- **The colour of a visible position.** -/
theorem colour_eq_ahead (h : Delayed v d) (hvc : d.vc.toNat < 240) (h2 : 2 ≤ d.hc.toNat)
    (hhc : d.hc.toNat < 640) : d.colour = expand (v.ahead (d.position - 2)) := by
  have hpos : d.position - 2 + 2 = d.position := by
    simp only [Display.position]
    omega
  rw [colour_eq_expand_q hvc hhc, h.q h2, Vram.ahead, hpos,
    flat_bank_add v _ (Nat.mod_lt _ (by decide))]
  congr 2
  exact BitVec.eq_of_toNat_eq (by simp)

/-- The first two positions of the second and of the third bank, which lie inside a visible row. -/
def Straddles (vc hc : ℕ) : Prop :=
  (vc = 102 ∧ (hc = 256 ∨ hc = 257)) ∨ (vc = 204 ∧ (hc = 512 ∨ hc = 513))

instance (vc hc : ℕ) : Decidable (Straddles vc hc) :=
  inferInstanceAs (Decidable ((vc = 102 ∧ (hc = 256 ∨ hc = 257)) ∨ (vc = 204 ∧ _)))

/-- Two ticks cross a bank boundary of a visible row at no other position. -/
theorem straddles_iff {vc hc : ℕ} (hvc : vc < 240) (h2 : 2 ≤ hc) (hhc : hc < 640) :
    Straddles vc hc ↔ (640 * vc + hc) / 65536 ≠ (640 * vc + hc - 2) / 65536 := by
  unfold Straddles
  -- the boundaries 65536 and 131072 lie in the rows 102 and 204
  have hrow : vc < 102 ∨ vc = 102 ∨ (102 < vc ∧ vc < 204) ∨ vc = 204 ∨ 204 < vc := by omega
  rcases hrow with h | rfl | ⟨h, h'⟩ | rfl | h
  -- in the other rows both positions lie in one bank
  · omega
  · omega
  · have hnow : (640 * vc + hc) / 65536 = 1 := by omega
    have hthen : (640 * vc + hc - 2) / 65536 = 1 := by omega
    omega
  · omega
  · have hnow : (640 * vc + hc) / 65536 = 2 := by omega
    have hthen : (640 * vc + hc - 2) / 65536 = 2 := by omega
    omega

/-- The word of flat address `640 * vc + hc - 2` is what the position `(vc, hc)` shows. -/
def ShowsFlat (v : Vram) (d : Display) : Prop :=
  d.colour = expand (v.flat (640 * d.vc.toNat + d.hc.toNat - 2))

/-- **When the display agrees with the capture side.** At every visible position of every run, but
at the four that straddle two banks; and there exactly when the two banks hold the same word. -/
theorem showsFlat_iff (v : Vram) (videoMemory : Fin 3 → ReadPort) (edges : List VgaEdge)
    (hvc : (run (Display.edge v) (.powerUp videoMemory) edges).vc.toNat < 240)
    (h2 : 2 ≤ (run (Display.edge v) (.powerUp videoMemory) edges).hc.toNat)
    (hhc : (run (Display.edge v) (.powerUp videoMemory) edges).hc.toNat < 640) :
    ShowsFlat v (run (Display.edge v) (.powerUp videoMemory) edges) ↔
      (Straddles (run (Display.edge v) (.powerUp videoMemory) edges).vc.toNat
          (run (Display.edge v) (.powerUp videoMemory) edges).hc.toNat →
        v.ahead ((run (Display.edge v) (.powerUp videoMemory) edges).position - 2)
          = v.flat ((run (Display.edge v) (.powerUp videoMemory) edges).position - 2)) := by
  have h := delayed_run v videoMemory edges
  generalize run (Display.edge v) (.powerUp videoMemory) edges = d at *
  -- both sides of the comparison are expanded words, and expanding is injective
  rw [ShowsFlat, colour_eq_ahead h hvc h2 hhc, expand_injective.eq_iff,
    straddles_iff hvc h2 hhc]
  refine ⟨fun heq _ => heq, fun hstraddle => ?_⟩
  by_cases hsame : (640 * d.vc.toNat + d.hc.toNat) / 65536
      = (640 * d.vc.toNat + d.hc.toNat - 2) / 65536
  · -- the bank asked now is the bank the word is filed in
    rw [Vram.ahead, Display.position,
      show 640 * d.vc.toNat + d.hc.toNat - 2 + 2 = 640 * d.vc.toNat + d.hc.toNat by omega, hsame,
      Nat.div_add_mod]
  · exact hstraddle hsame

/-! ### A bank boundary -/

/-- **The raster without resets**: tick `n` is at column `n mod 800` of row `n / 800 mod 525`. -/
theorem raster_replicate (v : Vram) (videoMemory : Fin 3 → ReadPort) (n : ℕ) :
    (run (Display.edge v) (.powerUp videoMemory) (List.replicate n (.vgaClk false))).hc
        = BitVec.ofNat 10 (n % 800) ∧
      (run (Display.edge v) (.powerUp videoMemory) (List.replicate n (.vgaClk false))).vc
        = BitVec.ofNat 10 (n / 800 % 525) := by
  induction n with
  | zero => exact ⟨rfl, rfl⟩
  | succ n ih =>
    rw [List.replicate_succ', run_append, run_cons, run_nil]
    generalize run (Display.edge v) (.powerUp videoMemory) (.replicate n (.vgaClk false)) = d at *
    obtain ⟨hhc, hvc⟩ := ih
    -- the comparisons of the raster, on numbers
    have hlast : d.hc = 799 ↔ n % 800 = 799 := by
      rw [hhc]
      exact ofNat_inj (by omega) (by decide)
    have hbottom : d.vc = 524 ↔ n / 800 % 525 = 524 := by
      rw [hvc]
      exact ofNat_inj (by omega) (by decide)
    simp only [Display.edge, Display.vgaClk, Display.raster, Bool.false_eq_true, if_false]
    by_cases hl : n % 800 = 799
    · -- the last column of a row
      rw [if_pos (hlast.mpr hl), show (n + 1) % 800 = 0 by omega,
        show (n + 1) / 800 = n / 800 + 1 by omega]
      refine ⟨rfl, ?_⟩
      by_cases hb : n / 800 % 525 = 524
      · rw [if_pos (hbottom.mpr hb), show (n / 800 + 1) % 525 = 0 by omega]
        rfl
      · rw [if_neg (mt hbottom.mp hb), hvc, ofNat_succ,
          show (n / 800 + 1) % 525 = n / 800 % 525 + 1 by omega]
    · rw [if_neg (mt hlast.mp hl), show (n + 1) % 800 = n % 800 + 1 by omega,
        show (n + 1) / 800 = n / 800 by omega]
      exact ⟨by rw [hhc, ofNat_succ], hvc⟩

/-- Column 200 of the second row, over banks that hold the addresses. -/
theorem showsFlat_second_row :
    (run (Display.edge fun _ k => k) (.powerUp fun _ => ⟨0, 0⟩)
      (List.replicate 1000 (.vgaClk false))).colour = expand 838 := by
  obtain ⟨hhc, hvc⟩ := raster_replicate (fun _ k => k) (fun _ => ⟨0, 0⟩) 1000
  have hcolumn : (run (Display.edge fun _ k => k) (.powerUp fun _ => ⟨0, 0⟩)
      (List.replicate 1000 (.vgaClk false))).hc.toNat = 200 := by
    rw [hhc]
    rfl
  have hrow : (run (Display.edge fun _ k => k) (.powerUp fun _ => ⟨0, 0⟩)
      (List.replicate 1000 (.vgaClk false))).vc.toNat = 1 := by
    rw [hvc]
    rfl
  have hshown := (showsFlat_iff (fun _ k => k) (fun _ => ⟨0, 0⟩)
    (List.replicate 1000 (.vgaClk false)) (by omega) (by omega) (by omega)).mpr
      (by rw [hcolumn, hrow]; exact fun h => absurd h (by decide))
  rw [ShowsFlat, hcolumn, hrow] at hshown
  exact hshown

/-- A white first bank before two black ones. -/
def whiteFirst : Vram := fun b _ => if (b : ℕ) = 0 then 0xffff else 0

/-- The last two words of the white bank are shown black. -/
theorem straddle_shows_next_bank :
    ¬ ∀ (v : Vram) (videoMemory : Fin 3 → ReadPort) (edges : List VgaEdge),
      (run (Display.edge v) (.powerUp videoMemory) edges).vc.toNat < 240 →
      2 ≤ (run (Display.edge v) (.powerUp videoMemory) edges).hc.toNat →
      (run (Display.edge v) (.powerUp videoMemory) edges).hc.toNat < 640 →
      ShowsFlat v (run (Display.edge v) (.powerUp videoMemory) edges) := by
  intro h
  obtain ⟨hhc, hvc⟩ := raster_replicate whiteFirst (fun _ => ⟨0, 0⟩) 81856
  have hdelayed := delayed_run whiteFirst (fun _ => ⟨0, 0⟩) (List.replicate 81856 (.vgaClk false))
  have hshown := h whiteFirst (fun _ => ⟨0, 0⟩) (List.replicate 81856 (.vgaClk false))
  generalize run (Display.edge whiteFirst) (.powerUp fun _ => ⟨0, 0⟩)
    (List.replicate 81856 (.vgaClk false)) = d at *
  -- 81856 ticks bring the raster to column 256 of row 102
  have hhc' : d.hc.toNat = 256 := by rw [hhc]; decide
  have hvc' : d.vc.toNat = 102 := by rw [hvc]; decide
  -- the word is white, and what is shown is the black of the next bank
  have hfalse := hshown (by omega) (by omega) (by omega)
  rw [ShowsFlat, colour_eq_ahead hdelayed (by omega) (by omega) (by omega),
    expand_injective.eq_iff, Display.position, hhc', hvc'] at hfalse
  exact absurd hfalse (by decide)

end Live
end VideoEncryption
