import VideoEncryption.Live.Bank
import VideoEncryption.Live.Keystream
import VideoEncryption.Live.Recorder

/-!
# From the camera to the screen

The whole of `Image_mod.sv`: the camera's side, the encryptor and its gate, the VRAM banks and the
raster, on the edges of `Clk`, `Cam_pclk` and `Reset` in any order (`Device`). What it is for is
said by a `Relay`: a recorder, the encryptor stepped as a gate opens that is open within a pixel,
and a count of the ticks of `VGA_Clk` since the last reset, which gives the position on the screen
and the sync pulses. The screen sees the words as they were at the tick before the last, but for
those that were written before the last one: what it sees there is up to the banks.

* `Relays` — the device stands for a relay, kept by every edge (`Relays.event`);
* `screen_relays` — **the screen shows what the relay says**, in every state of every run.
-/

namespace VideoEncryption
namespace Live

open Clocked

/-! ### The sync pulses -/

namespace Display

/-- What `hs` becomes. The sum has the width of the integer literal. -/
def nextHs (d : Display) : Bool :=
  !(656 ≤ d.hc.setWidth 32 + 1 && d.hc.setWidth 32 + 1 < 752)

/-- What `vs` becomes. -/
def nextVs (d : Display) : Bool :=
  !(d.vc.setWidth 32 + 1 == 490 || d.vc.setWidth 32 + 1 == 491)

/-- `blank`, low outside the picture. -/
def blank (d : Display) : Bool := !(640 ≤ d.hc || 480 ≤ d.vc)

end Display

/-! ### The device -/

/-- `Image_Input`: the camera's side with its clock divider and its encryptor, the raster, the sync
pulses and the VRAM banks. -/
structure Device (P : Type*) where
  chip : Chip
  hc : BitVec 10
  vc : BitVec 10
  hs : Bool
  vs : Bool
  videoMemory : Fin 3 → P

namespace Device

/-- An edge that `Image_Input` is sensitive to. -/
inductive Event
  /-- A rising `Reset` edge. -/
  | reset
  /-- A rising `Clk` edge, with the level of `Reset`. -/
  | clk (reset : Bool)
  /-- A rising `Cam_pclk` edge. -/
  | pclk (p : CamPort)
deriving DecidableEq, Repr

/-- What the event is to the camera's side. -/
def Event.chip : Event → Live.Event
  | .reset => .reset
  | .clk _ => .vga
  | .pclk p => .pclk p

variable {P : Type*} (V : Altsyncram P) (d : Device P)

/-- The raster and the read ports. -/
def display : Display := ⟨d.hc, d.vc, fun b => V.port (d.videoMemory b)⟩

/-- The contents of the banks. -/
def vram : Vram := fun b => V.contents (d.videoMemory b)

/-- A rising `VGA_Clk` edge, at which `Reset` has the level `reset`. -/
def vgaClk (reset : Bool) : Device P :=
  { d with
    hc := (if reset then (d.display V).clear else (d.display V).raster).hc
    vc := (if reset then (d.display V).clear else (d.display V).raster).vc
    hs := !reset && (d.display V).nextHs
    vs := !reset && (d.display V).nextVs
    videoMemory := fun b =>
      V.rdclock (d.videoMemory b) ((d.display V).vramRdaddress.setWidth 16) }

/-- The banks at a rising `Cam_pclk` edge. -/
def wrclock : Device P :=
  { d with
    videoMemory := fun b => V.wrclock (d.videoMemory b) (bankWren d.chip.image b)
      (d.chip.image.vramWraddress.extractLsb' 0 16) d.chip.image.vramIn }

/-- The event's effect on the raster and the banks. -/
def screen : Event → Device P
  | .reset => { d with hc := 0, vc := 0, hs := false, vs := false }
  | .clk reset => if d.chip.vgaClk then d else d.vgaClk V reset
  | .pclk _ => d.wrclock V

/-- One event. -/
def event (ev : Event) : Device P := { d.screen V ev with chip := d.chip.event ev.chip }

/-- The device at power-up. -/
def powerUp (level : Bool) (encryptor : Encryptor) (videoMemory : Fin 3 → P) : Device P where
  chip := ⟨Live.powerUp, level, encryptor⟩
  hc := 0
  vc := 0
  hs := false
  vs := false
  videoMemory := videoMemory

end Device

/-! ### The relay -/

/-- A camera's recorder in front of a screen. -/
structure Relay where
  recorder : Recorder
  level : Bool
  keystream : Encryptor
  /-- The ticks of `VGA_Clk` since the last reset. -/
  ticks : ℕ
  /-- The words as the last tick found them, but for those written since. -/
  asked : ℕ → Option (BitVec 16)
  /-- The words that the last tick brought to the screen. -/
  seen : ℕ → Option (BitVec 16)

namespace Relay

/-- The gate of the keystream is open within a pixel. -/
def gate (a : Relay) : Bool := a.level && a.recorder.half.isSome

/-- The words asked for, after the pending write. -/
def askedAfter (a : Relay) : ℕ → Option (BitVec 16) :=
  match a.recorder.writing with
  | none => a.asked
  | some (k, _) => Function.update a.asked k none

/-- The event's effect before the keystream reacts. -/
def domain (a : Relay) : Device.Event → Relay
  | .reset => { a with recorder := a.recorder.reset, ticks := 0 }
  | .clk reset =>
    if a.level then { a with level := false }
    else
      { a with
        level := true
        ticks := if reset then 0 else a.ticks + 1
        asked := fun k => some (a.recorder.kept k)
        seen := a.asked }
  | .pclk p =>
    { a with recorder := a.recorder.pclk p a.keystream.out.mask, asked := a.askedAfter }

/-- One event. -/
def event (a : Relay) (ev : Device.Event) : Relay :=
  if !a.gate && (a.domain ev).gate then { a.domain ev with keystream := a.keystream.step }
  else a.domain ev

/-- The relay at power-up. -/
def powerUp (level : Bool) (keystream : Encryptor) (kept : ℕ → BitVec 16) : Relay :=
  ⟨.asleep kept, level, keystream, 0, fun _ => none, fun _ => none⟩

/-- The position on the screen. -/
def column (a : Relay) : ℕ := a.ticks % 800

def row (a : Relay) : ℕ := a.ticks / 800 % 525

/-- The address of the position on the screen after `t` ticks. -/
def position (t : ℕ) : ℕ := 640 * (t / 800 % 525) + t % 800

/-- The horizontal sync is low at the columns 656 to 751, and after a reset. -/
def hs (a : Relay) : Bool := a.ticks != 0 && !(656 ≤ a.column && a.column < 752)

/-- The vertical sync is low for two rows, from the second position of row 489 on, and after a
reset. -/
def vs (a : Relay) : Bool :=
  a.ticks != 0 && !((a.ticks - 1) / 800 % 525 == 489 || (a.ticks - 1) / 800 % 525 == 490)

/-- Bank `b` at the low half of the address `x`. -/
def inBank (b x : ℕ) : ℕ := 65536 * b + x % 65536

/-- The address whose word is shown: that of two ticks back, in the bank of the position itself. -/
def shownAddress (a : Relay) : ℕ := inBank (position a.ticks / 65536) (position (a.ticks - 2))

end Relay

section Relays

variable {P : Type*} (V : Altsyncram P) (d : Device P) (a : Relay)

/-- The device's outputs to the screen are those of the relay, as far as it knows the words. -/
structure Shows : Prop where
  hs : d.hs = a.hs
  vs : d.vs = a.vs
  blank : (d.display V).blank = (a.column < 640 && a.row < 480)
  picture : 2 ≤ a.ticks → a.row < 240 → a.column < 640 → ∀ w, a.seen a.shownAddress = some w →
    (d.display V).colour = expand w
  below : 240 ≤ a.row → (d.display V).colour = black

/-- The read ports: they answer for two ticks back and have been asked for one tick back. -/
structure Answers : Prop where
  asked : 1 ≤ a.ticks → ∀ (b : Fin 3) w, a.asked (Relay.inBank b (Relay.position (a.ticks - 1)))
    = some w → V.Asked (BitVec.ofNat 16 (Relay.position (a.ticks - 1))) w (d.videoMemory b)
  q : 2 ≤ a.ticks → ∀ (b : Fin 3) w, a.seen (Relay.inBank b (Relay.position (a.ticks - 2)))
    = some w → (V.port (d.videoMemory b)).q = w

/-- The device stands for the relay. -/
structure Relays : Prop extends Answers V d a where
  records : Records d.chip.image (d.vram V) a.recorder
  level : d.chip.vgaClk = a.level
  keystream : d.chip.encryptor = a.keystream
  hc : d.hc = BitVec.ofNat 10 a.column
  vc : d.vc = BitVec.ofNat 10 a.row
  hs : d.hs = a.hs
  vs : d.vs = a.vs

end Relays

variable {P : Type*} {V : Altsyncram P} {d : Device P} {a : Relay} {v : Vram} {t : ℕ}

/-! ### The raster -/

/-- The raster counters are one count of ticks. -/
theorem raster_of_ticks {d : Display} (hhc : d.hc = BitVec.ofNat 10 (t % 800))
    (hvc : d.vc = BitVec.ofNat 10 (t / 800 % 525)) :
    d.raster.hc = BitVec.ofNat 10 ((t + 1) % 800) ∧
      d.raster.vc = BitVec.ofNat 10 ((t + 1) / 800 % 525) := by
  -- the raster of a run from power-up after `t` ticks is in the same position
  obtain ⟨hhc₀, hvc₀⟩ := raster_replicate whiteFirst (fun _ => ⟨0, 0⟩) t
  have hnext := raster_replicate whiteFirst (fun _ => ⟨0, 0⟩) (t + 1)
  rw [List.replicate_succ', run_append, run_cons, run_nil] at hnext
  generalize run (Display.edge whiteFirst) (.powerUp fun _ => ⟨0, 0⟩)
    (List.replicate t (.vgaClk false)) = d₀ at hhc₀ hvc₀ hnext
  simp only [Display.edge, Display.vgaClk, Bool.false_eq_true, if_false] at hnext
  have hsame : d.raster.hc = d₀.raster.hc ∧ d.raster.vc = d₀.raster.vc := by
    unfold Display.raster
    rw [hhc, hhc₀, hvc, hvc₀]
    split_ifs <;> exact ⟨rfl, rfl⟩
  exact ⟨hsame.1.trans hnext.1, hsame.2.trans hnext.2⟩

/-- The sum in the conditions of the sync pulses does not overflow. -/
theorem toNat_setWidth_add_one (c : BitVec 10) : (c.setWidth 32 + 1).toNat = c.toNat + 1 := by
  have hc := c.isLt
  rw [BitVec.toNat_add, BitVec.toNat_setWidth]
  change (c.toNat % 2 ^ 32 + 1) % 2 ^ 32 = c.toNat + 1
  omega

theorem nextHs_of_ticks {d : Display} (hhc : d.hc = BitVec.ofNat 10 (t % 800)) :
    d.nextHs = !(656 ≤ (t + 1) % 800 && (t + 1) % 800 < 752) := by
  have hcolumn : d.hc.toNat = t % 800 := by
    rw [hhc]
    exact Nat.mod_eq_of_lt (by omega)
  -- the 32-bit sums of the source are sums of numbers
  have hlow : 656 ≤ d.hc.setWidth 32 + 1 ↔ 656 ≤ d.hc.toNat + 1 := by
    rw [BitVec.le_def, toNat_setWidth_add_one]
    rfl
  have hhigh : d.hc.setWidth 32 + 1 < 752 ↔ d.hc.toNat + 1 < 752 := by
    rw [BitVec.lt_def, toNat_setWidth_add_one]
    rfl
  -- past the last column the sum is 800 and the column 0, both outside the pulse
  refine congrArg (!·) (Bool.eq_iff_iff.mpr ?_)
  simp only [Bool.and_eq_true, decide_eq_true_eq, hlow, hhigh, hcolumn]
  omega

theorem nextVs_of_ticks {d : Display} (hvc : d.vc = BitVec.ofNat 10 (t / 800 % 525)) :
    d.nextVs = !(t / 800 % 525 == 489 || t / 800 % 525 == 490) := by
  have hrow : d.vc.toNat = t / 800 % 525 := by
    rw [hvc]
    exact Nat.mod_eq_of_lt (by omega)
  have hat : ∀ n < 1024, (d.vc.setWidth 32 + 1 == BitVec.ofNat 32 (n + 1)) = (d.vc.toNat == n) := by
    intro n hn
    rw [Bool.eq_iff_iff, beq_iff_eq, beq_iff_eq, ← BitVec.toNat_inj, toNat_setWidth_add_one,
      BitVec.toNat_ofNat, Nat.mod_eq_of_lt (by omega)]
    omega
  unfold Display.nextVs
  rw [← hrow, ← hat 489 (by decide), ← hat 490 (by decide)]
  rfl

theorem position_of_ticks {d : Display} (hhc : d.hc = BitVec.ofNat 10 (t % 800))
    (hvc : d.vc = BitVec.ofNat 10 (t / 800 % 525)) : d.position = Relay.position t := by
  have hcolumn : d.hc.toNat = t % 800 := by
    rw [hhc]
    exact Nat.mod_eq_of_lt (by omega)
  have hrow : d.vc.toNat = t / 800 % 525 := by
    rw [hvc]
    exact Nat.mod_eq_of_lt (by omega)
  rw [Display.position, Relay.position, hcolumn, hrow]

/-! ### The read ports -/

/-- The word of `v` at an address of two halves. -/
theorem flat_inBank (v : Vram) (b : Fin 3) (x : ℕ) :
    v.flat (Relay.inBank b x) = v b (BitVec.ofNat 16 x) := by
  rw [Relay.inBank, flat_bank_add v b (Nat.mod_lt _ (by decide))]
  congr 1
  · exact Fin.ext (Nat.mod_eq_of_lt b.isLt)
  · exact BitVec.eq_of_toNat_eq (by simp)

theorem inBank_lt (b : Fin 3) (x : ℕ) : Relay.inBank b x < 3 * 65536 := by
  unfold Relay.inBank
  omega

/-- A bank that an edge writes is the one of the pending write, and the word its own. -/
theorem Records.wraddress {s : ImageInput} {r : Recorder} (h : Records s v r) {b : Fin 3}
    (hb : bankWren s b = true) {x : ℕ}
    (hx : s.vramWraddress.extractLsb' 0 16 = BitVec.ofNat 16 x) :
    ∃ w, r.writing = some (Relay.inBank b x, w) := by
  -- the write enable of a bank is the pending write's
  have hmem := mem_stores hb
  rw [h.writing] at hmem
  cases hw : r.writing with
  | none => simp [hw] at hmem
  | some y =>
    simp only [hw, Option.map_some, Option.toList_some, List.mem_singleton, flatStore,
      Store.mk.injEq] at hmem
    obtain ⟨hbank, hword, -⟩ := hmem
    have hlt := (h.inside y hw).trans framePixels_lt
    -- bank and word make up the address
    rw [hx, ← BitVec.toNat_inj, BitVec.toNat_ofNat, BitVec.toNat_ofNat] at hword
    rw [Fin.ext_iff] at hbank
    simp only [Fin.ofNat] at hbank
    refine ⟨y.2, congrArg some (Prod.ext ?_ rfl)⟩
    change y.1 = Relay.inBank b x
    unfold Relay.inBank
    omega

/-- **A tick** answers what was asked at the tick before and asks anew. -/
theorem Answers.tick (hV : V.Lawful) (h : Answers V d a) (hkept : ∀ k < 3 * 65536,
    (d.vram V).flat k = a.recorder.kept k) (hposition : (d.display V).position
      = Relay.position a.ticks) (level : Bool) :
    Answers V (d.vgaClk V false) { a with
      level := level
      ticks := a.ticks + 1
      asked := fun k => some (a.recorder.kept k)
      seen := a.asked } where
  -- what is asked is the word at the address of this tick
  asked _ b w hw := by
    have haddr : (d.display V).vramRdaddress.setWidth 16
        = BitVec.ofNat 16 (Relay.position a.ticks) := by
      rw [vramRdaddress_low, hposition]
    change V.Asked (BitVec.ofNat 16 (Relay.position a.ticks)) w
      (V.rdclock (d.videoMemory b) ((d.display V).vramRdaddress.setWidth 16))
    rw [haddr]
    refine .ask ?_
    rw [← Option.some.inj hw, ← hkept _ (inBank_lt b _)]
    exact (flat_inBank (d.vram V) b _).symm
  -- what was asked a tick ago is what the port shows now
  q h2 b w hw := hV.q_rdclock _ _ _ _ (h.asked (Nat.le_of_succ_le_succ h2) b w hw)

/-- **An edge of `Cam_pclk`** leaves the answers alone, and what was asked but where it writes. -/
theorem Answers.wrclock (hV : V.Lawful) (h : Answers V d a)
    (hrecords : Records d.chip.image (d.vram V) a.recorder) (r : Recorder) :
    Answers V (d.wrclock V) { a with recorder := r, asked := a.askedAfter } where
  asked h1 b w hw := by
    have hold : a.asked (Relay.inBank b (Relay.position (a.ticks - 1))) = some w ∧
        ¬ ∃ u, a.recorder.writing
          = some (Relay.inBank b (Relay.position (a.ticks - 1)), u) := by
      unfold Relay.askedAfter at hw
      cases hwr : a.recorder.writing with
      | none =>
        rw [hwr] at hw
        exact ⟨hw, by simp⟩
      | some y =>
        rw [hwr] at hw
        change Function.update a.asked y.1 none _ = _ at hw
        rw [Function.update_apply] at hw
        -- an address just written is not known any more
        split_ifs at hw with hy
        refine ⟨hw, ?_⟩
        rintro ⟨u, hu⟩
        exact hy (congrArg Prod.fst (Option.some.inj hu)).symm
    exact .keep _ (h.asked h1 b w hold.1)
      fun hwritten => hold.2 (hrecords.wraddress hwritten.1 hwritten.2)
  -- the outputs of the ports change at ticks only
  q h2 b w hw := (hV.q_wrclock _ _ _ _).trans (h.q h2 b w hw)

/-- After a reset nothing is known of the ports. -/
theorem answers_zero (ha : a.ticks = 0) : Answers V d a where
  asked h := absurd h (by omega)
  q h := absurd h (by omega)

/-- An edge of `Cam_pclk` performs the stores of the three banks. -/
theorem vram_wrclock (hV : V.Lawful) (d : Device P) :
    (d.wrclock V).vram V = (d.vram V).storeAll (stores d.chip.image) := by
  funext b
  rw [storeAll_stores]
  exact hV.contents_wrclock ..

/-- An edge of `VGA_Clk` stores nothing. -/
theorem vram_vgaClk (hV : V.Lawful) (d : Device P) (reset : Bool) :
    (d.vgaClk V reset).vram V = d.vram V := by
  funext b
  exact hV.contents_rdclock _ _

/-! ### The device as a relay -/

theorem first_row : (0 : BitVec 10) = BitVec.ofNat 10 (0 / 800 % 525) := by decide

/-- The gate of the encryptor is that of the relay. -/
theorem Relays.gate (h : Relays V d a) : d.chip.gate = a.gate := by
  rw [Chip.gate, Relay.gate, h.level, h.records.trigger]

theorem relays_powerUp (V : Altsyncram P) (level : Bool) (e : Encryptor) (m : Fin 3 → P) :
    Relays V (.powerUp level e m)
      (.powerUp level e ((Device.powerUp level e m).vram V).flat) where
  toAnswers := answers_zero rfl
  records := records_powerUp _
  level := rfl
  keystream := rfl
  hc := rfl
  vc := first_row
  hs := rfl
  vs := rfl

/-- The event's effect before the encryptor reacts. -/
theorem Relays.domain (hV : V.Lawful) (h : Relays V d a) (ev : Device.Event) :
    Relays V { d.screen V ev with chip := d.chip.domain ev.chip } (a.domain ev) := by
  -- each event moves its own part, and the other parts stand for what they did
  obtain ⟨hanswers, hrecords, hlevel, hkeystream, hhc, hvc, hhs, hvs⟩ := h
  cases ev with
  | reset => exact ⟨answers_zero rfl, hrecords.reset, hlevel, hkeystream, rfl, first_row, rfl, rfl⟩
  | pclk p =>
    have hports := hanswers.wrclock hV hrecords (a.recorder.pclk p a.keystream.out.mask)
    have hnext := hrecords.pclk p d.chip.encryptor.out
    rw [← vram_wrclock hV] at hnext
    rw [hkeystream] at hnext
    refine ⟨⟨hports.asked, hports.q⟩, ?_, hlevel, hkeystream, hhc, hvc, hhs, hvs⟩
    change Records (d.chip.image.pclk p d.chip.encryptor.out) _ _
    rw [hkeystream]
    exact hnext
  | clk reset =>
    simp only [Device.screen, Relay.domain, ← hlevel]
    cases hclk : d.chip.vgaClk with
    | true =>
      -- `VGA_Clk` falls
      simp only [if_true]
      exact ⟨⟨hanswers.asked, hanswers.q⟩, hrecords, by simp [Device.Event.chip, Chip.domain, hclk],
        hkeystream, hhc, hvc, hhs, hvs⟩
    | false =>
      -- and rises: the ports answer and ask anew
      simp only [Bool.false_eq_true, if_false]
      have hlevel' : (d.chip.domain .vga).vgaClk = true := by simp [Chip.domain, hclk]
      have hkept : Records d.chip.image ((d.vgaClk V reset).vram V) a.recorder := by
        rw [vram_vgaClk hV]
        exact hrecords
      cases reset with
      | true => exact ⟨answers_zero rfl, hkept, hlevel', hkeystream, rfl, first_row, rfl, rfl⟩
      | false =>
        have hposition := position_of_ticks (d := d.display V) hhc hvc
        obtain ⟨hhc', hvc'⟩ := raster_of_ticks (d := d.display V) hhc hvc
        have hports := hanswers.tick hV hrecords.kept hposition true
        exact ⟨⟨hports.asked, hports.q⟩, hkept, hlevel', hkeystream, hhc', hvc',
          nextHs_of_ticks (d := d.display V) hhc, nextVs_of_ticks (d := d.display V) hvc⟩

/-- **One event** of the device is one event of the relay. -/
theorem Relays.event (hV : V.Lawful) (h : Relays V d a) (ev : Device.Event) :
    Relays V (d.event V ev) (a.event ev) := by
  have hdomain := h.domain hV ev
  have hrises : d.chip.gateRises ev.chip = (!a.gate && (a.domain ev).gate) := by
    rw [Chip.gateRises, h.gate, ← hdomain.gate]
  unfold Device.event Chip.event Relay.event
  rw [hrises]
  split_ifs
  · -- the encryptor steps, and nothing else looks at it
    obtain ⟨hanswers, hrecords, hlevel, -, hhc, hvc, hhs, hvs⟩ := hdomain
    exact ⟨⟨hanswers.asked, hanswers.q⟩, hrecords, hlevel, congrArg Encryptor.step h.keystream,
      hhc, hvc, hhs, hvs⟩
  · exact hdomain

/-! ### What the screen shows -/

theorem Relays.column (h : Relays V d a) : d.hc.toNat = a.column := by
  rw [h.hc]
  have hlt : a.column < 800 := Nat.mod_lt _ (by decide)
  exact Nat.mod_eq_of_lt (by omega)

theorem Relays.row (h : Relays V d a) : d.vc.toNat = a.row := by
  rw [h.vc]
  have hlt : a.row < 525 := Nat.mod_lt _ (by decide)
  exact Nat.mod_eq_of_lt (by omega)

theorem position_lt (hrow : a.row < 240) (hcolumn : a.column < 640) :
    Relay.position a.ticks < 3 * 65536 := by
  unfold Relay.position Relay.row Relay.column at *
  omega

/-- **The outputs** of a device that stands for a relay are those of the relay. -/
theorem Relays.shows (h : Relays V d a) : Shows V d a where
  hs := h.hs
  vs := h.vs
  blank := by
    -- the comparisons of the visible area are those of numbers
    have hcolumn : 640 ≤ d.hc ↔ 640 ≤ a.column := by
      rw [BitVec.le_def, h.column]
      rfl
    have hrow : 480 ≤ d.vc ↔ 480 ≤ a.row := by
      rw [BitVec.le_def, h.row]
      rfl
    rw [Bool.eq_iff_iff, Display.blank]
    simp only [Device.display, Bool.not_eq_true', Bool.or_eq_false_iff, decide_eq_false_iff_not,
      Bool.and_eq_true, decide_eq_true_eq, hcolumn, hrow, not_le]
  picture h2 hrow hcolumn w hw := by
    have hposition : (d.display V).position = Relay.position a.ticks := position_of_ticks h.hc h.vc
    have hlt := position_lt hrow hcolumn
    -- the bank of the position answers for the address of two ticks back
    have hbank : ((Fin.ofNat 3 (Relay.position a.ticks / 65536) : Fin 3) : ℕ)
        = Relay.position a.ticks / 65536 := Nat.mod_eq_of_lt (by omega)
    rw [colour_eq_expand_q (d := d.display V) (by rw [← h.row] at hrow; exact hrow)
      (by rw [← h.column] at hcolumn; exact hcolumn), hposition]
    refine congrArg expand (h.q h2 _ w ?_)
    rw [hbank]
    exact hw
  -- below the picture the colour is black by the multiplexer itself
  below hrow := if_pos (by
    rw [ge_iff_le, BitVec.le_def]
    exact h.row.symm ▸ hrow)

theorem relays_run (hV : V.Lawful) (level : Bool) (e : Encryptor) (m : Fin 3 → P)
    (evs : List Device.Event) :
    Relays V (run (Device.event V) (.powerUp level e m) evs)
      (run Relay.event (.powerUp level e ((Device.powerUp level e m).vram V).flat) evs) := by
  induction evs using List.reverseRecOn with
  | nil => exact relays_powerUp V level e m
  | append_singleton evs ev ih =>
    rw [run_append, run_append]
    exact ih.event hV ev

/-- **The screen shows what the relay says**, in every state of every run from power-up, whatever
the order of the clocks is, whatever the banks and the encryptor hold at first and whatever the
banks do about a word that is written while it is read. -/
theorem screen_relays (hV : V.Lawful) (level : Bool) (e : Encryptor) (m : Fin 3 → P)
    (evs : List Device.Event) :
    Shows V (run (Device.event V) (.powerUp level e m) evs)
      (run Relay.event (.powerUp level e ((Device.powerUp level e m).vram V).flat) evs) :=
  (relays_run hV level e m evs).shows

/-- White, two ticks after power-up. -/
theorem screen_relays_white :
    ((run (Device.event .array) (.powerUp false ⟨0, 0, 0⟩ fun b => (whiteFirst b, ⟨0, 0⟩))
      [.clk false, .clk false, .clk false]).display .array).colour = ⟨0xff, 0xff, 0xff⟩ :=
  (screen_relays Altsyncram.lawful_array false ⟨0, 0, 0⟩ (fun b => (whiteFirst b, ⟨0, 0⟩))
    [.clk false, .clk false, .clk false]).picture (by decide) (by decide) (by decide) 0xffff
    (by decide)

end Live
end VideoEncryption
