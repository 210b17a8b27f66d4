import VideoEncryption.Top.Test

/-!
# From the keyboard to the picture

What is typed at the second prompt of `main.c` is the key that pictures are encrypted with: the ten
characters go through the handshake into `column_shift`, from there through `KEY_GEN` and the
generator into the subkeys, and the switches select one of those.

`typed_key_round_trip` follows them through every module and every order of the clocks. It needs of
the program that a clock edge falls between two of its accesses up to the end of the round, and that
the characters are not sent anew before the subkeys are there; and of the clocks that an edge of
`VGA_Clk` comes between two of `Cam_pclk`.
-/

namespace VideoEncryption
namespace Top

open Clocked
open Sram (Board ClockEdge Clock Inputs Frame KeyRequest EncryptRequest DecryptRequest Entered
  encrypt selectedKey)
open Subkey (subkeyOf mapKey)

variable {rounds : ℕ → Key.Round} {seed : BitVec 12} {t : Test} {b : Board} {inp : ℕ → Event}
  {inp' : ℕ → ClockEdge} {c : ℕ → ℕ} {n n₀ n₁ : ℕ} {e : Event} {i : Inputs} {A : Frame}

/-! ### What is typed -/

/-- The second key of a round as a word. -/
def typedKey (k : Key.Round) : BitVec 80 := keyWord fun j => k.columnKey j

/-- At the end of a round `column_shift` is what was typed in it. -/
theorem columnShift_of_acknowledged {sig port : BitVec 8} {h : Key.Receiver}
    (hio : t.io = Key.start sig port h)
    (hspaced : ∀ m, ∀ a ∈ (inp m).action,
      Key.Spaced (stateAt (Test.event · rounds seed) t inp m).io a)
    (hack : (stateAt (Test.event · rounds seed) t inp n).io.pc = .putZero) :
    (stateAt (Test.event · rounds seed) t inp n).columnShift
      = typedKey (rounds (stateAt (Test.event · rounds seed) t inp n).io.round) := by
  -- the accesses so far are a spaced run of the program
  have halong := along_actions t hspaced n
  rw [hio] at halong
  have hs := Key.started_run halong
  rw [← hio, ← io_stateAt rounds seed] at hs
  have hcolumn : ∀ j : Fin 10,
      (stateAt (Test.event · rounds seed) t inp n).io.receiver.columnShift j
        = (rounds (stateAt (Test.event · rounds seed) t inp n).io.round).columnKey j := by
    -- at the acknowledgement the invariant of the round holds
    rcases hs.inv with hinit | hinit | hinv
    · exact absurd (hack.symm.trans hinit) (by decide)
    · exact absurd (hack.symm.trans hinit) (by decide)
    · exact (hinv.delivered hack).column
  rw [Test.columnShift, typedKey]
  exact congrArg keyWord (funext hcolumn)

/-! ### The board of the design -/

/-- The generator is in a state that it comes to, and in reset if `Subkey_Reset` is high. -/
def Test.Ready (t : Test) : Prop :=
  ∃ g, t.module1.Serving g ∧ (t.image.regs.subkeyReset = true → g = Sram.generatorReset)

theorem Test.Ready.exists_onBoard (h : t.Ready) : ∃ b, OnBoard t b := by
  obtain ⟨g, hserving, hreset⟩ := h
  exact ⟨⟨t.image, g, hreset⟩, rfl, hserving⟩

/-- No reset at this event. -/
def Event.Unreset : Event → Prop
  | .access | .clk => True
  | .vgaClk i | .camPclk i => i.reset = false

/-- No reset, no request for subkeys, and the switches of `KEY` as in `j`. -/
def Event.SameSwitches (j : Inputs) : Event → Prop
  | .access | .clk => True
  | .vgaClk i | .camPclk i => i.reset = false ∧ ¬ KeyRequest i ∧
      i.sw14 = j.sw14 ∧ i.sw15 = j.sw15 ∧ i.sw16 = j.sw16 ∧ i.sw17 = j.sw17

theorem admitted_edge {keyInput : BitVec 80} {ce : ClockEdge} (he : e.Unreset)
    (hkey : t.columnShift = keyInput) (hce : t.edge e = some ce) : Sram.Admitted keyInput ce := by
  cases e <;> cases hce
  exacts [trivial, ⟨he, hkey⟩, ⟨he, hkey⟩]

theorem sameSwitches_edge {j : Inputs} {ce : ClockEdge} (he : e.SameSwitches j)
    (hce : t.edge e = some ce) : Sram.SameSwitches j ce := by
  cases e <;> cases hce
  exacts [trivial, he, he]

/-- From `n₁` to `n₂` the image is shown or the machine is in `HIATUS`. -/
def Rests (rounds : ℕ → Key.Round) (seed : BitVec 12) (t : Test) (inp : ℕ → Event) (n₁ n₂ : ℕ) :
    Prop :=
  ∀ m, n₁ ≤ m → m ≤ n₂ →
    (stateAt (Test.event · rounds seed) t inp m).image.state = .hiatus ∨
      (stateAt (Test.event · rounds seed) t inp m).image.state = .display

section Tracks

variable (h : Tracks (Test.event · rounds seed) (Board.edge · (mapKey) seed) Test.edge OnBoard t b
  inp inp' c)
include h

theorem chip_eq (n : ℕ) : (stateAt (Board.edge · mapKey seed) b inp' (c n)).chip
    = (stateAt (Test.event · rounds seed) t inp n).image :=
  (h.related n).chip

theorem boardRests {n₁ n₂ : ℕ} (hn : n₁ ≤ n₂) (hr : Rests rounds seed t inp n₁ n₂) :
    Sram.BoardRests mapKey seed b inp' (c n₁) (c n₂) := by
  intro k h₁ h₂
  obtain ⟨m, hm₁, hm₂, rfl⟩ := h.exists_between hn h₁ h₂
  rw [chip_eq h]
  exact hr m hm₁ hm₂

theorem camPclk_eq {n : ℕ} {i : Inputs} (hn : inp n = .camPclk i) :
    inp' (c n)
      = .camPclk { i with keyInput := (stateAt (Test.event · rounds seed) t inp n).columnShift } :=
  (h.edge n _ (by rw [hn]; rfl)).1

end Tracks

/-- **From the keyboard to the picture.** Let a round of the program have seen its last
acknowledgement, and let subkeys be asked for after it, in `DISPLAY`, before a key is sent anew. The
visit to `KEY_GEN` ends in `HIATUS`. An encryption asked for after that is one with the subkey that
the switches select, out of those that the generator with its multipliers computes from the second
key typed in that round; and a decryption after that gives the picture again. -/
theorem typed_key_round_trip (rounds : ℕ → Key.Round) (seed : BitVec 12) (n₀ n₁ : ℕ) {t : Test}
    {sig port : BitVec 8} {h : Key.Receiver} (hready : t.Ready) (hio : t.io = Key.start sig port h)
    (hspaced : ∀ n, ∀ a ∈ (inp n).action,
      Key.Spaced (stateAt (Test.event · rounds seed) t inp n).io a)
    (hclocks : Interleaves Event.clock (some .camPclk) (some .vgaClk) inp)
    (hclk : ∀ n, ∃ k, (inp (n + k)).clock = some .clk)
    (hack : (stateAt (Test.event · rounds seed) t inp n₀).io.pc = .putZero) (hn : n₀ ≤ n₁)
    (hdisplay : Entered .display A (stateAt (Test.event · rounds seed) t inp n₁).image)
    (hn₁ : inp n₁ = .camPclk i) (hrequest : KeyRequest i)
    (hunreset : ∀ n, n₁ ≤ n → (∀ m, n₁ < m → m ≤ n →
      (stateAt (Test.event · rounds seed) t inp m).image.state = .keyGen) → (inp n).Unreset)
    (hkey : ∀ n, n₀ ≤ n → (∀ m, n₁ < m → m ≤ n →
      (stateAt (Test.event · rounds seed) t inp m).image.state = .keyGen) →
      (stateAt (Test.event · rounds seed) t inp n).columnShift
        = (stateAt (Test.event · rounds seed) t inp n₀).columnShift) :
    ∃ n₂, n₁ < n₂ ∧ (stateAt (Test.event · rounds seed) t inp n₂).image.state = .hiatus ∧
      (∀ m, n₁ < m → m < n₂ →
        (stateAt (Test.event · rounds seed) t inp m).image.state = .keyGen) ∧
      ∀ n₃ j, n₂ < n₃ → Rests rounds seed t inp n₂ n₃ →
        (stateAt (Test.event · rounds seed) t inp n₃).image.state = .display →
        inp n₃ = .camPclk j → EncryptRequest j → (∀ n, n₃ ≤ n → (inp n).SameSwitches j) →
        ∃ n₄, n₃ < n₄ ∧ (stateAt (Test.event · rounds seed) t inp n₄).image.state = .hiatus ∧
          (stateAt (Test.event · rounds seed) t inp n₄).image.frame
            = encrypt (selectedKey (subkeyOf mapKey seed)
                (typedKey (rounds (stateAt (Test.event · rounds seed) t inp n₀).io.round)) j) A ∧
          ∀ n₅ l, n₄ < n₅ → Rests rounds seed t inp n₄ n₅ →
            (stateAt (Test.event · rounds seed) t inp n₅).image.state = .display →
            inp n₅ = .camPclk l → DecryptRequest l →
            ∃ n₆, n₅ < n₆ ∧ (stateAt (Test.event · rounds seed) t inp n₆).image.state = .hiatus ∧
              (stateAt (Test.event · rounds seed) t inp n₆).image.frame = A := by
  -- the board follows the design, pausing at accesses
  obtain ⟨b, hb⟩ := hready.exists_onBoard
  obtain ⟨inp', c, htracks⟩ := (stutters rounds seed).tracks hb fun n => by
    obtain ⟨k, hk⟩ := hclk n
    refine ⟨k, ?_⟩
    rw [← Option.isSome_map (f := ClockEdge.clock), clock_edge, hk]
    rfl
  -- what the board shows is what the design shows
  have hchip := chip_eq htracks
  have hclocks' := htracks.interleaves clock_edge hclocks
  have hreset : i.reset = false := by
    have h := hunreset n₁ le_rfl fun m hm hmn => absurd hm (by omega)
    rwa [hn₁] at h
  -- the request is an edge of the board, so a later event comes later there
  have hlater : ∀ m, n₁ < m → c n₁ < c m := by
    intro m hm
    have hnext := (htracks.edge n₁ _ (by rw [hn₁]; rfl)).2
    have hle := htracks.mono (show n₁ + 1 ≤ m from hm)
    omega
  -- the subkeys, the encryption and the decryption on the board
  obtain ⟨k₂, hk₂, hhiatus₂, hin₂, hencrypts⟩ := Sram.keyed_round_trip
    (typedKey (rounds (stateAt (Test.event · rounds seed) t inp n₀).io.round)) (c n₁)
    (by rw [hchip]; exact hdisplay) (camPclk_eq htracks hn₁) hreset hrequest hclocks'
    (htracks.often clock_edge hclk) fun k hk hin => by
      obtain ⟨n, hnn, rfl, hshown⟩ := htracks.onto_from hk.le
      have hin' : ∀ m, n₁ < m → m ≤ n →
          (stateAt (Test.event · rounds seed) t inp m).image.state = .keyGen := by
        intro m hm hmn
        rw [← hchip]
        exact hin (c m) (hlater m hm) (htracks.mono hmn)
      exact admitted_edge (hunreset n hnn hin') ((hkey n (by omega) hin').trans
        (columnShift_of_acknowledged hio hspaced hack)) hshown
  -- the board's state comes with an event of the design
  obtain ⟨n₂, hn₂, rfl, hfirst₂⟩ := htracks.exists_first hk₂
  rw [hchip] at hhiatus₂
  refine ⟨n₂, hn₂, hhiatus₂, fun m hm hmn => ?_,
    fun n₃ j hn₃ hrest₃ hdisplay₃ hj hencrypt hsame => ?_⟩
  · rw [← hchip]
    exact hin₂ (c m) (hlater m hm) (hfirst₂ m hmn)
  -- states that differ are different steps of the board
  have hstrict : ∀ {m m' : ℕ} {st : Sram.Fsm}, m < m' → st ≠ .display →
      (stateAt (Test.event · rounds seed) t inp m).image.state = st →
      (stateAt (Test.event · rounds seed) t inp m').image.state = .display → c m < c m' := by
    intro m m' st hm hne hst hst'
    refine lt_of_le_of_ne (htracks.mono hm.le) fun heq => hne ?_
    rw [← hst, ← hst', ← hchip, ← hchip, heq]
  -- the encryption, asked for after a rest
  obtain ⟨k₄, hk₄, hhiatus₄, hframe₄, hdecrypts⟩ := hencrypts (c n₃) _
    (hstrict hn₃ (by decide) hhiatus₂ hdisplay₃) (boardRests htracks hn₃.le hrest₃)
    (by rw [hchip]; exact hdisplay₃) (camPclk_eq htracks hj) hencrypt fun k hk => by
      obtain ⟨n, hnn, rfl, hshown⟩ := htracks.onto_from hk
      exact sameSwitches_edge (hsame n hnn) hshown
  obtain ⟨n₄, hn₄, rfl, -⟩ := htracks.exists_first hk₄
  rw [hchip] at hhiatus₄ hframe₄
  refine ⟨n₄, hn₄, hhiatus₄, hframe₄, fun n₅ l hn₅ hrest₅ hdisplay₅ hl hdecrypt => ?_⟩
  -- and the decryption, asked for after another one
  obtain ⟨k₆, hk₆, hhiatus₆, hframe₆⟩ := hdecrypts (c n₅) _
    (hstrict hn₅ (by decide) hhiatus₄ hdisplay₅) (boardRests htracks hn₅.le hrest₅)
    (by rw [hchip]; exact hdisplay₅) (camPclk_eq htracks hl) hdecrypt
  obtain ⟨n₆, hn₆, rfl, -⟩ := htracks.exists_first hk₆
  rw [hchip] at hhiatus₆ hframe₆
  exact ⟨n₆, hn₆, hhiatus₆, hframe₆⟩

/-! ### Typing a key -/

/-- `Run` with both switches down. -/
def asksForKeys : Inputs := { Sram.inTurn 0 with sw1 := false }

/-- What the switches ask for: subkeys first; then, in turn, `DISPLAY` and what `dec` says, a
decryption or an encryption. -/
def switched (dec : ℕ → Bool) (n : ℕ) : Inputs :=
  if n = 242 then asksForKeys
  else if n % 6 = 5 then Sram.inTurn 1
  else if dec n then Sram.inTurn 2
  else Sram.inTurn 0

/-- A round of the program, with a clock edge before every access; then the three clocks tick in
turn. -/
def typing (dec : ℕ → Bool) (n : ℕ) : Event :=
  if n < 242 then if n % 2 = 0 then .clk else .access
  else if n % 3 = 2 then .camPclk (switched dec n)
  else if n % 3 = 0 then .vgaClk (Sram.inTurn 1)
  else .clk

/-- A picture is shown, and the program starts. -/
def poweredUp : Test where
  image := Sram.displaying
  module1 := ⟨.reset, ⟨.wait, 0, ⟨.wait, 0, 0, 0, 0⟩⟩, ⟨.load, 0, ⟨.wait, 0, 0, 0, 0⟩⟩,
    ⟨.load, 0, ⟨.wait, 0, 0, 0, 0⟩⟩, ⟨.load, 0⟩⟩
  io := Key.boot

theorem ready_poweredUp : poweredUp.Ready := by
  refine ⟨Sram.generatorReset, ⟨rfl, fun m => ?_⟩, fun _ => rfl⟩
  cases m
  case bern => exact rfl
  all_goals exact ⟨rfl, rfl⟩

variable {dec : ℕ → Bool}

/-- The run of the design in which the first of `exampleRounds` is typed. -/
def typed (dec : ℕ → Bool) (n : ℕ) : Test :=
  stateAt (Test.event · Key.exampleRounds 0) poweredUp (typing dec) n

theorem typed_succ (n : ℕ) :
    typed dec (n + 1) = (typed dec n).event Key.exampleRounds 0 (typing dec n) := rfl

theorem typing_camPclk (h : 242 ≤ n) (hmod : n % 3 = 2) :
    typing dec n = .camPclk (switched dec n) := by
  rw [typing, if_neg (by omega), if_pos hmod]

theorem typing_vgaClk (h : 242 ≤ n) (hmod : n % 3 = 0) :
    typing dec n = .vgaClk (Sram.inTurn 1) := by
  rw [typing, if_neg (by omega), if_neg (by omega), if_pos hmod]

theorem typing_clk (h : 242 ≤ n) (hmod : n % 3 = 1) : typing dec n = .clk := by
  rw [typing, if_neg (by omega), if_neg (by omega), if_neg (by omega)]

theorem interleaves_typing :
    Interleaves Event.clock (some .camPclk) (some .vgaClk) (typing dec) where
  -- from event 243 on the clocks take turns
  control n := by
    refine ⟨243 + (5 - n % 3) % 3, ?_⟩
    rw [typing_camPclk (by omega) (by omega)]
    rfl
  data n := by
    refine ⟨243 + (3 - n % 3) % 3, ?_⟩
    rw [typing_vgaClk (by omega) (by omega)]
    rfl
  -- between two edges of `Cam_pclk` there is the one of `VGA_Clk` just after
  between n m hnm hn hm := by
    have hcam : ∀ k, (typing dec k).clock = some .camPclk → 242 ≤ k ∧ k % 3 = 2 := by
      intro k hk
      unfold typing at hk
      split_ifs at hk with h1 h2 h3 h4 <;> first | exact ⟨by omega, h3⟩ | cases hk
    obtain ⟨hn₁, hn₂⟩ := hcam n hn
    obtain ⟨hm₁, hm₂⟩ := hcam m hm
    refine ⟨n + 1, by omega, by omega, ?_⟩
    rw [typing_vgaClk (by omega) (by omega)]
    rfl

theorem often_clk_typing (n : ℕ) : ∃ k, (typing dec (n + k)).clock = some .clk := by
  refine ⟨243 + (4 - n % 3) % 3, ?_⟩
  rw [typing_clk (by omega) (by omega)]
  rfl

theorem spaced_typing (n : ℕ) :
    ∀ a ∈ (typing dec n).action, Key.Spaced (typed dec n).io a := by
  rintro a ha rfl
  have hodd : n < 242 ∧ n % 2 = 1 := by
    unfold typing at ha
    split_ifs at ha with h1 h2 h3 h4 <;> first | exact ⟨h1, by omega⟩ | cases ha
  -- the event before is an edge of `Clk`
  obtain ⟨m, rfl⟩ := Nat.exists_eq_add_of_le' (show 1 ≤ n by omega)
  have hclk : typing dec m = .clk := by rw [typing, if_pos (by omega), if_pos (by omega)]
  right
  rw [typed_succ, hclk]
  rfl

theorem io_typed :
    (typed dec 242).io = run (Key.step Key.exampleRounds) Key.boot (Key.spacedActions 121) := by
  have hactions : actions (typing dec) 242 = actions (typing fun _ => false) 242 := by
    refine List.filterMap_congr fun k hk => ?_
    rw [typing, typing, if_pos (List.mem_range.mp hk), if_pos (List.mem_range.mp hk)]
  have hspaced : actions (typing fun _ => false) 242 = Key.spacedActions 121 := by decide +kernel
  rw [typed, io_stateAt, hactions, hspaced]
  rfl

theorem image_typed (hn : n ≤ 242) : (typed dec n).image = Sram.displaying := by
  induction n with
  | zero => rfl
  | succ n ih =>
    rw [typed_succ, typing, if_pos (by omega)]
    split_ifs
    exacts [ih (by omega), ih (by omega)]

theorem entered_typed : Entered .display Sram.displaying.frame (typed dec 242).image := by
  rw [image_typed le_rfl]
  exact ⟨rfl, rfl, rfl, rfl, rfl, rfl⟩

/-- The round has seen its last acknowledgement. -/
theorem acknowledged_typed :
    (typed dec 242).io.pc = .putZero ∧ (typed dec 242).io.round = 0 := by
  rw [io_typed]
  decide +kernel

/-- With code 10 on the wire the key stays. -/
theorem columnShift_typed (hn : 242 ≤ n) :
    (typed dec n).io.toHwSig = 10 ∧ (typed dec n).columnShift = (typed dec 242).columnShift := by
  -- the receiver writes the key for the column command only
  induction n, hn using Nat.le_induction with
  | base =>
    refine ⟨?_, rfl⟩
    rw [io_typed]
    decide +kernel
  | succ n hn ih =>
    rw [typed_succ, typing, if_neg (by omega)]
    split_ifs
    · exact ih
    · exact ih
    · refine ⟨ih.1, Eq.trans (congrArg keyWord ?_) ih.2⟩
      change (Key.Receiver.tick _ _ _).columnShift = _
      rw [Key.Receiver.tick_columnShift, ih.1, if_neg (by decide)]

/-- Only `Cam_pclk` changes the state. -/
theorem state_typing_of_ne (hn : 242 < n) (hmod : n % 3 ≠ 2) :
    (t.event rounds seed (typing dec n)).image.state = t.image.state := by
  obtain hmod | hmod : n % 3 = 0 ∨ n % 3 = 1 := by omega
  · rw [typing_vgaClk hn.le hmod]
    rfl
  · rw [typing_clk hn.le hmod]
    rfl

theorem switched_reset (n : ℕ) : (switched dec n).reset = false := by
  unfold switched
  split_ifs <;> rfl

/-- `HIATUS` is left for `DISPLAY` at every other edge of `Cam_pclk`. -/
theorem hiatus_typing (hn : 242 < n) (h : t.image.state = .hiatus) :
    (t.event rounds seed (typing dec n)).image.state
      = if n % 6 = 5 then .display else .hiatus := by
  by_cases hmod : n % 3 = 2
  · rw [typing_camPclk hn.le hmod]
    change (if (switched dec n).reset then Sram.Fsm.sleep
      else t.image.nextState (t.inputs (switched dec n))) = _
    rw [switched_reset, if_neg Bool.false_ne_true, switched, if_neg (by omega)]
    simp only [Sram.System.nextState, h, Test.inputs]
    split_ifs <;> simp_all [Sram.inTurn]
  · rw [state_typing_of_ne hn hmod, h, if_neg (by omega)]

/-- From `HIATUS` to the next request. -/
theorem display_typed (hn : 242 < n) (h : (typed dec n).image.state = .hiatus) :
    ∃ k, n < 6 * k + 2 ∧ (typed dec (6 * k + 2)).image.state = .display ∧
      Rests Key.exampleRounds 0 poweredUp (typing dec) n (6 * k + 2) := by
  obtain ⟨k, hk⟩ : ∃ k, n + 1 ≤ 6 * k ∧ 6 * k < n + 7 := ⟨(n + 6) / 6, by omega, by omega⟩
  -- until then the chip waits
  have hwait : ∀ m, n ≤ m → m + 1 ≤ 6 * k → (typed dec m).image.state = .hiatus := by
    intro m hm
    induction m, hm using Nat.le_induction with
    | base => exact fun _ => h
    | succ m hm ih =>
      intro hmk
      rw [typed_succ]
      exact (hiatus_typing (by omega) (ih (by omega))).trans (if_neg (by omega))
  -- the edge that enters `DISPLAY` is the last one before `6 * k`
  have hthere : ∀ j, j ≤ 2 → (typed dec (6 * k + j)).image.state = .display := by
    intro j hj
    induction j with
    | zero =>
      obtain ⟨m, hm⟩ := Nat.exists_eq_add_of_le' (show 1 ≤ 6 * k by omega)
      rw [Nat.add_zero, hm, typed_succ]
      exact (hiatus_typing (by omega) (hwait m (by omega) (by omega))).trans (if_pos (by omega))
    | succ j ih =>
      rw [← Nat.add_assoc, typed, stateAt_succ]
      exact (state_typing_of_ne (by omega) (by omega)).trans (ih (by omega))
  refine ⟨k, by omega, hthere 2 le_rfl, fun m hm hmk => ?_⟩
  rcases Nat.lt_or_ge m (6 * k) with hlt | hge
  · exact .inl (hwait m hm (by omega))
  · obtain ⟨j, rfl⟩ := Nat.exists_eq_add_of_le hge
    exact .inr (hthere j (by omega))

theorem unreset_typing (n : ℕ) : (typing dec n).Unreset := by
  unfold typing
  split_ifs
  exacts [trivial, trivial, switched_reset n, rfl, trivial]

/-- After the request for subkeys there is no other one. -/
theorem sameSwitches_typing (hn : 242 < n) : (typing dec n).SameSwitches (Sram.inTurn 0) := by
  -- asking for subkeys takes both switches, one of which is up here
  have hnone : ∀ m, ¬ KeyRequest (Sram.inTurn m) := by
    rintro m ⟨-, h1, h2⟩
    simp only [Sram.inTurn, Bool.or_eq_false_iff, bne_eq_false_iff_eq] at h1 h2
    simp [h2] at h1
  have hturn : ∀ m, (Sram.inTurn m).reset = false ∧ ¬ KeyRequest (Sram.inTurn m) ∧
      (Sram.inTurn m).sw14 = (Sram.inTurn 0).sw14 ∧ (Sram.inTurn m).sw15 = (Sram.inTurn 0).sw15 ∧
      (Sram.inTurn m).sw16 = (Sram.inTurn 0).sw16 ∧
      (Sram.inTurn m).sw17 = (Sram.inTurn 0).sw17 := fun m => ⟨rfl, hnone m, rfl, rfl, rfl, rfl⟩
  rw [typing, if_neg (by omega)]
  split_ifs
  · change (switched dec n).reset = false ∧ _
    rw [switched, if_neg (by omega)]
    split_ifs <;> exact hturn _
  · exact hturn 1
  · trivial

theorem typing_congr {dec' : ℕ → Bool} (h : dec n = dec' n) : typing dec n = typing dec' n := by
  unfold typing switched
  rw [h]

/-- A key is typed, the subkeys of it are generated, and the picture is encrypted with one of them
and decrypted again. -/
theorem typed_key_round_trip_once : ∃ dec n₂ n₄ n₆, 242 < n₂ ∧ n₂ < n₄ ∧ n₄ < n₆ ∧
    (typed dec n₂).image.state = .hiatus ∧ (typed dec n₄).image.state = .hiatus ∧
    (typed dec n₄).image.frame
      = encrypt (selectedKey (subkeyOf mapKey 0) (typedKey (Key.exampleRounds 0))
          (Sram.inTurn 0)) Sram.displaying.frame ∧
    (typed dec n₆).image.state = .hiatus ∧
    (typed dec n₆).image.frame = Sram.displaying.frame := by
  -- the theorem, for any choice of when decryptions are asked for
  have htrip := fun dec : ℕ → Bool => typed_key_round_trip Key.exampleRounds 0 242 242
    ready_poweredUp rfl (@spaced_typing dec) (@interleaves_typing dec) often_clk_typing
    acknowledged_typed.1 le_rfl entered_typed (typing_camPclk le_rfl rfl) ⟨rfl, rfl, rfl⟩
    (fun n _ _ => unreset_typing n) fun n hn _ => (columnShift_typed hn).2
  -- when subkeys are there and an encryption can be asked for
  obtain ⟨n₂, hn₂, hhiatus₂, hin₂, -⟩ := htrip fun _ => false
  obtain ⟨k, hk, hdisplay₃, hrest₃⟩ := display_typed hn₂ hhiatus₂
  -- a decryption is asked for after that; up to there the two runs are one
  obtain ⟨dec, hdec⟩ : ∃ dec : ℕ → Bool, dec = fun n => decide (6 * k + 2 < n) := ⟨_, rfl⟩
  have hagree : ∀ m, m ≤ 6 * k + 2 → typed dec m = typed (fun _ => false) m := fun m hm =>
    stateAt_congr _ fun n hn => typing_congr (by rw [hdec]; exact decide_eq_false (by omega))
  obtain ⟨n, hn, hhiatus, hin, hencrypts⟩ := htrip dec
  -- both runs come to the end of the visit at the same event
  have hsame : n = n₂ := by
    rcases Nat.lt_trichotomy n n₂ with hlt | heq | hlt
    · have hkeyGen := hin₂ n hn hlt
      change (typed (fun _ => false) n).image.state = _ at hkeyGen
      rw [← hagree n (by omega)] at hkeyGen
      exact absurd (hkeyGen.symm.trans hhiatus) (by decide)
    · exact heq
    · have hkeyGen := hin n₂ hn₂ hlt
      change (typed dec n₂).image.state = _ at hkeyGen
      rw [hagree n₂ hk.le] at hkeyGen
      exact absurd (hkeyGen.symm.trans hhiatus₂) (by decide)
  subst hsame
  -- the encryption, and then the second request
  obtain ⟨n₄, hn₄, hhiatus₄, hframe₄, hdecrypts⟩ := hencrypts (6 * k + 2) (Sram.inTurn 0) hk
    (fun m hm hmk => by
      change (typed dec m).image.state = _ ∨ (typed dec m).image.state = _
      rw [hagree m hmk]
      exact hrest₃ m hm hmk)
    (by change (typed dec _).image.state = _
        rw [hagree _ le_rfl]
        exact hdisplay₃)
    (by rw [typing_camPclk (by omega) (by omega), switched, if_neg (by omega), if_neg (by omega),
          hdec]
        simp)
    ⟨rfl, rfl, rfl⟩ fun m hm => sameSwitches_typing (by omega)
  obtain ⟨l, hl, hdisplay₅, hrest₅⟩ := display_typed (by omega) hhiatus₄
  obtain ⟨n₆, hn₆, hhiatus₆, hframe₆⟩ := hdecrypts (6 * l + 2) (Sram.inTurn 2) hl hrest₅ hdisplay₅
    (by rw [typing_camPclk (by omega) (by omega), switched, if_neg (by omega), if_neg (by omega),
          hdec, if_pos (decide_eq_true (by omega))])
    ⟨rfl, rfl, rfl⟩
  change (typed dec n₄).image.frame = encrypt (selectedKey _
    (typedKey (Key.exampleRounds (typed dec 242).io.round)) _) _ at hframe₄
  rw [acknowledged_typed.2] at hframe₄
  exact ⟨dec, n, n₄, n₆, hn, by omega, by omega, hhiatus, hhiatus₄, hframe₄, hhiatus₆, hframe₆⟩

end Top
end VideoEncryption
