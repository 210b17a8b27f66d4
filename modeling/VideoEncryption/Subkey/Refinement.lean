import VideoEncryption.Clocked.Word
import VideoEncryption.Subkey.Generator

/-!
# The generator computes the composition of its maps

What `subkeyGenerator` is for: the seed picks four maps and four numbers of applications, and the
subkey is the key sent through them one after the other. The controller reaches it whatever the map
modules compute and however long each use takes.

* `subkeyOf` — the composition;
* `Using` — one of the four states that use a map module, with the number of uses ahead;
* `leadsTo_answered` — one use applies the map once; `leadsTo_stage` — all uses of a stage;
* `generates_subkey` — **the generator refines the composition**.
-/

namespace VideoEncryption
namespace Subkey

open Clocked

/-! ### The composition -/

/-- Bits `lo + 2` to `lo` of the seed. -/
def seedField (s : BitVec 12) (lo : ℕ) : ℕ := (s.extractLsb' lo 3).toNat

/-- The first map, chosen by bits 11 to 9. -/
def firstMap (n : ℕ) : Map := if n < 3 then .log else if n ≤ 4 then .tent else .quad

/-- The second map, chosen by bits 8 to 6. -/
def secondMap (n : ℕ) : Map := if n < 3 then .quad else if n ≤ 5 then .bern else .tent

/-- The third map, chosen by bits 5 to 3. -/
def thirdMap (n : ℕ) : Map :=
  if n = 0 ∨ n = 4 then .tent else if n = 1 then .log else if n = 2 then .bern else .quad

/-- The fourth map, chosen by bits 5 to 3 again. -/
def fourthMap (n : ℕ) : Map :=
  if n = 0 ∨ n = 4 then .log else if n = 1 then .bern else if n = 2 then .tent else .quad

/-- The map of stage `c`. -/
def stageMap (s : BitVec 12) (c : ℕ) : Map :=
  match c with
  | 0 => firstMap (seedField s 9)
  | 1 => secondMap (seedField s 6)
  | 2 => thirdMap (seedField s 3)
  | _ => fourthMap (seedField s 3)

/-- How often stage `c` applies its map. -/
def stageUses (s : BitVec 12) (c : ℕ) : ℕ := 4 + seedField s (9 - 3 * c)

/-- The key after the first `c` stages. -/
def keyAfter (F : Map → Key → Key) (s : BitVec 12) (k : Key) : ℕ → Key
  | 0 => k
  | c + 1 => (F (stageMap s c))^[stageUses s c] (keyAfter F s k c)

/-- **The subkey**: the composition of the four stages. -/
def subkeyOf (F : Map → Key → Key) (s : BitVec 12) (k : Key) : Key :=
  (F (fourthMap (seedField s 3)))^[4 + seedField s 0]
    ((F (thirdMap (seedField s 3)))^[4 + seedField s 3]
      ((F (secondMap (seedField s 6)))^[4 + seedField s 6]
        ((F (firstMap (seedField s 9)))^[4 + seedField s 9] k)))

theorem seedField_lt (s : BitVec 12) (lo : ℕ) : seedField s lo < 8 := (s.extractLsb' lo 3).isLt

/-! ### What `DECIDE_MAP` decides -/

/-- Two neighbouring bits of a seed field, as a field of the field. -/
theorem extract_field_pair (s : BitVec 12) (i : ℕ) (hi : i < 2) :
    s.extractLsb' (3 + i) 2 = (s.extractLsb' 3 3).extractLsb' i 2 := by
  ext j hj
  simp only [BitVec.getElem_extractLsb', BitVec.getLsbD_extractLsb']
  rw [Nat.add_assoc]
  simp [show i + j < 3 by omega]

theorem extract_field_bit (s : BitVec 12) (i : ℕ) (hi : i < 3) :
    s.extractLsb' (3 + i) 1 = (s.extractLsb' 3 3).extractLsb' i 1 := by
  ext j hj
  simp only [BitVec.getElem_extractLsb', BitVec.getLsbD_extractLsb']
  rw [Nat.add_assoc]
  simp [show i + j < 3 by omega]

/-- The transition out of `DECIDE_MAP` picks the map of the stage. -/
theorem decideMapNext_stage {g : Generator} {c : ℕ} (hc : c < 4)
    (hcycle : g.cycle = BitVec.ofNat 3 c) :
    g.decideMapNext = (stageMap g.tempSeed c).state := by
  -- the bits that the source names are bits of one field
  have hlow : g.tempSeed.extractLsb' 3 2 = (g.tempSeed.extractLsb' 3 3).extractLsb' 0 2 :=
    extract_field_pair _ 0 (by omega)
  have hhigh : g.tempSeed.extractLsb' 4 2 = (g.tempSeed.extractLsb' 3 3).extractLsb' 1 2 :=
    extract_field_pair _ 1 (by omega)
  have hbit3 : g.tempSeed.extractLsb' 3 1 = (g.tempSeed.extractLsb' 3 3).extractLsb' 0 1 :=
    extract_field_bit _ 0 (by omega)
  have hbit5 : g.tempSeed.extractLsb' 5 1 = (g.tempSeed.extractLsb' 3 3).extractLsb' 2 1 :=
    extract_field_bit _ 2 (by omega)
  have hfour : g.cycle ≠ 4 := by
    rw [hcycle]
    interval_cases c <;> decide
  rw [Generator.decideMapNext, if_neg hfour, hcycle, hlow, hhigh, hbit3, hbit5]
  -- every choice is a fact about the three bits of one field
  interval_cases c
  · have hfirst : ∀ t : BitVec 3,
        (if t < 3 then Fsm.logistic else if t > 4 then .quadratic else .tent)
          = (firstMap t.toNat).state := by decide
    exact hfirst _
  · have hsecond : ∀ t : BitVec 3,
        (if t < 3 then Fsm.quadratic else if t > 5 then .tent else .bernoulli)
          = (secondMap t.toNat).state := by decide
    exact hsecond _
  · have hthird : ∀ t : BitVec 3,
        (if t.extractLsb' 0 2 = 0 then Fsm.tent else if t.extractLsb' 1 2 = 0 then .logistic
          else if t.extractLsb' 2 1 ++ t.extractLsb' 0 1 = 0#2 then .bernoulli else .quadratic)
          = (thirdMap t.toNat).state := by decide
    exact hthird _
  · have hfourth : ∀ t : BitVec 3,
        (if t.extractLsb' 0 2 = 0 then Fsm.logistic else if t.extractLsb' 1 2 = 0 then .bernoulli
          else if t.extractLsb' 2 1 ++ t.extractLsb' 0 1 = 0#2 then .tent else .quadratic)
          = (fourthMap t.toNat).state := by decide
    exact hfourth _

/-- `DECIDE_MAP` loads the number of uses of the stage. -/
theorem decideMapRoutine_mapCounter {g : Generator} {c : ℕ} (hc : c < 4)
    (hcycle : g.cycle = BitVec.ofNat 3 c) :
    g.decideMapRoutine.mapCounter = BitVec.ofNat 4 (stageUses g.tempSeed c) := by
  have hload : ∀ t : BitVec 3, t.setWidth 4 + 4 = BitVec.ofNat 4 (4 + t.toNat) := by decide
  simp only [Generator.decideMapRoutine, hcycle]
  interval_cases c <;> exact hload _

/-! ### The states of a run -/

/-- In `WAIT`, with the map modules idle. -/
structure Waiting (x : System) : Prop where
  state : x.gen.state = .wait
  idle : ∀ m, x.maps m = .idle

/-- In `DECIDE_MAP` before stage `c`, with the key `k`. -/
structure Deciding (s : BitVec 12) (c : ℕ) (k : Key) (x : System) : Prop where
  state : x.gen.state = .decideMap
  cycle : x.gen.cycle = BitVec.ofNat 3 c
  tempSeed : x.gen.tempSeed = s
  currentKey : x.gen.currentKey = k
  idle : ∀ m, x.maps m = .idle

/-- In the state of the map `m` in stage `c`, with `n` uses ahead and the key `k`. -/
structure Using (s : BitVec 12) (c : ℕ) (m : Map) (n : ℕ) (k : Key) (x : System) : Prop where
  state : x.gen.state = m.state
  cycle : x.gen.cycle = BitVec.ofNat 3 (c + 1)
  tempSeed : x.gen.tempSeed = s
  currentKey : x.gen.currentKey = k
  mapCounter : x.gen.mapCounter = BitVec.ofNat 4 n
  idle : ∀ m', m' ≠ m → x.maps m' = .idle

/-- In `HOLD` with the key `k`. -/
structure Finished (k : Key) (x : System) : Prop where
  state : x.gen.state = .hold
  currentKey : x.gen.currentKey = k

/-- No reset at this edge. -/
def NoReset (_ : System) (p : Port) : Prop := p.reset = false

/-- `done` is low. -/
def Working (x : System) : Prop := x.gen.done = false

theorem working_of_state {x : System} (h : x.gen.state ≠ .hold) : Working x :=
  decide_eq_false h

theorem Map.state_ne_hold (m : Map) : m.state ≠ .hold := by cases m <;> decide

theorem Map.state_inj {m m' : Map} : m.state = m'.state ↔ m = m' := by
  cases m <;> cases m' <;> decide

variable {F : Map → Key → Key} {s : BitVec 12} {c n : ℕ} {m : Map} {k : Key} {x : System} {p : Port}

/-! ### One edge in each state -/

/-- An edge in the state of a map. -/
theorem tick_gen_of_map (hx : x.gen.state = m.state) (hp : NoReset x p) :
    (tick F x p).gen = { x.gen.mapRoutine (x.maps m).answer with
      state := x.gen.mapNext (x.maps m).answer } := by
  have hreset : p.reset = false := hp
  cases m <;>
    simp only [tick, hreset, Bool.false_eq_true, if_false, Generator.routine, Generator.nextState,
      hx, Map.state]

theorem mapRun_eq_false (hx : x.gen.state ≠ m.state) : x.gen.mapRun x.maps m = false := by
  rw [Generator.mapRun, decide_eq_false hx, Bool.false_and]

theorem tick_maps (hp : NoReset x p) (m : Map) : (tick F x p).maps m
    = (x.maps m).step (F m) (x.gen.mapRun x.maps m) x.gen.currentKey (p.latency m) := by
  have hreset : p.reset = false := hp
  simp only [tick, hreset, Bool.false_eq_true, if_false]

/-- A map module that is not used stays idle. -/
theorem tick_idle (hp : NoReset x p) (hx : x.gen.state ≠ m.state) (hidle : x.maps m = .idle) :
    (tick F x p).maps m = .idle := by
  rw [tick_maps hp, mapRun_eq_false hx, hidle, Server.step_idle_false]

/-- Without an answer the controller waits, with the map module running on its key. -/
theorem Using.waits (hx : Using s c m n k x) (hp : NoReset x p) (hnone : (x.maps m).answer = none) :
    Using s c m n k (tick F x p)
      -- the controller stands still until the module answers
      ∧ (tick F x p).maps m = (x.maps m).step (F m) true k (p.latency m) := by
  have hgen : (tick F x p).gen = x.gen := by
    rw [tick_gen_of_map hx.state hp, hnone]
    rfl
  have hrun : x.gen.mapRun x.maps m = true := by
    rw [Generator.mapRun, hnone, decide_eq_true hx.state]
    rfl
  refine ⟨⟨?_, ?_, ?_, ?_, ?_, fun m' hm' => ?_⟩, ?_⟩
  -- no register of the controller changes
  · rw [hgen, hx.state]
  · rw [hgen, hx.cycle]
  · rw [hgen, hx.tempSeed]
  · rw [hgen, hx.currentKey]
  · rw [hgen, hx.mapCounter]
  -- the other modules see their run low
  · refine tick_idle hp ?_ (hx.idle m' hm')
    rw [hx.state]
    exact fun h => hm' (Map.state_inj.mp h).symm
  -- the module in use sees its run high and the key on its input
  · rw [tick_maps hp, hrun, hx.currentKey]

/-- With `n` uses ahead; after the last one the controller is back in `DECIDE_MAP`. -/
def InStage (s : BitVec 12) (c : ℕ) (m : Map) : ℕ → Key → System → Prop
  | 0, k => Deciding s (c + 1) k
  | n + 1, k => fun x => Using s c m (n + 1) k x ∧ x.maps m = .idle

/-- With the answer the controller takes it, and the map module goes back to idle. -/
theorem Using.takes (hn : n + 1 < 16) (hx : Using s c m (n + 1) k x)
    (hhold : x.maps m = .hold (F m k)) (hp : NoReset x p) :
    InStage s c m n (F m k) (tick F x p) := by
  -- the answer is there, so the controller moves
  have hanswer : (x.maps m).answer = some (F m k) := by rw [hhold, Server.answer_hold]
  have hgen := tick_gen_of_map (F := F) hx.state hp
  rw [hanswer] at hgen
  have hcounter : (tick F x p).gen.mapCounter = BitVec.ofNat 4 n := by
    rw [hgen]
    change x.gen.mapCounter - 1 = _
    rw [hx.mapCounter]
    exact ofNat_sub_ofNat (b := 1) (by omega) hn
  have hidle : ∀ m', (tick F x p).maps m' = .idle := by
    intro m'
    rcases eq_or_ne m' m with rfl | hm'
    · -- the run falls combinationally with the answer, so the module lets go of it at this edge
      have hrun : x.gen.mapRun x.maps m' = false := by
        rw [Generator.mapRun, hanswer]
        exact Bool.and_false _
      rw [tick_maps hp, hrun, hhold, Server.step_hold_false]
    · refine tick_idle hp ?_ (hx.idle m' hm')
      rw [hx.state]
      exact fun h => hm' (Map.state_inj.mp h).symm
  -- the counter has come to 1 with the last use
  have hlast : x.gen.mapCounter = 1 ↔ n = 0 := by
    have hone : BitVec.ofNat 4 (n + 1) = BitVec.ofNat 4 1 ↔ n + 1 = 1 :=
      ofNat_inj (by omega) (by omega)
    rw [hx.mapCounter]
    exact hone.trans (by omega)
  rcases n with _ | n
  · -- the last answer of the stage
    have hstate : (tick F x p).gen.state = .decideMap := by
      rw [hgen]
      exact if_pos (hlast.mpr rfl)
    refine ⟨hstate, ?_, ?_, ?_, hidle⟩ <;> rw [hgen]
    exacts [hx.cycle, hx.tempSeed, rfl]
  · -- another use of the same map
    have hstate : (tick F x p).gen.state = m.state := by
      rw [hgen]
      exact (if_neg fun h => absurd (hlast.mp h) (by omega)).trans hx.state
    refine ⟨⟨hstate, ?_, ?_, ?_, hcounter, fun m' _ => hidle m'⟩, hidle m⟩ <;> rw [hgen]
    exacts [hx.cycle, hx.tempSeed, rfl]

/-- `DECIDE_MAP` starts a stage. -/
theorem Deciding.starts (hc : c < 4) (hx : Deciding s c k x) (hp : NoReset x p) :
    InStage s c (stageMap s c) (stageUses s c) k (tick F x p) := by
  have hreset : p.reset = false := hp
  have hgen : (tick F x p).gen
      = { x.gen.decideMapRoutine with state := (stageMap s c).state } := by
    -- the map and its uses are those of the stage
    simp only [tick, hreset, Bool.false_eq_true, if_false, Generator.routine, Generator.nextState,
      hx.state, decideMapNext_stage hc hx.cycle, hx.tempSeed]
  have hidle : ∀ m, (tick F x p).maps m = .idle := by
    intro m
    refine tick_idle hp ?_ (hx.idle m)
    rw [hx.state]
    cases m <;> decide
  have hcounter := decideMapRoutine_mapCounter hc hx.cycle
  have hcycle : (tick F x p).gen.cycle = BitVec.ofNat 3 (c + 1) := by
    rw [hgen]
    change x.gen.cycle + 1 = _
    rw [hx.cycle, ofNat_succ]
  obtain ⟨n, hn⟩ : ∃ n, stageUses s c = n + 1 := ⟨seedField s (9 - 3 * c) + 3, by
    rw [stageUses]
    omega⟩
  rw [hx.tempSeed, hn] at hcounter
  rw [hn]
  refine ⟨⟨?_, hcycle, ?_, ?_, ?_, fun m' _ => hidle m'⟩, hidle _⟩ <;> rw [hgen]
  exacts [hx.tempSeed, hx.currentKey, hcounter]

/-- After four stages `DECIDE_MAP` leads to `HOLD`. -/
theorem Deciding.finishes (hx : Deciding s 4 k x) (hp : NoReset x p) :
    Finished k (tick F x p) := by
  have hreset : p.reset = false := hp
  have hnext : x.gen.decideMapNext = .hold := if_pos hx.cycle
  refine ⟨?_, ?_⟩
  · simp only [tick, hreset, Bool.false_eq_true, if_false, Generator.nextState, hx.state, hnext]
  · simp only [tick, hreset, Bool.false_eq_true, if_false, Generator.routine, hx.state]
    exact hx.currentKey

theorem Finished.stays (hx : Finished k x) (hp : NoReset x p) : Finished k (tick F x p) := by
  have hreset : p.reset = false := hp
  refine ⟨?_, ?_⟩
  · simp only [tick, hreset, Bool.false_eq_true, if_false, Generator.nextState, hx.state]
  · simp only [tick, hreset, Bool.false_eq_true, if_false, Generator.routine, hx.state]
    exact hx.currentKey

/-- `WAIT` with `Run` low. -/
theorem Waiting.stays (hx : Waiting x) (hp : NoReset x p) (hrun : p.run = false) :
    Waiting (tick F x p) := by
  have hreset : p.reset = false := hp
  refine ⟨?_, fun m => tick_idle hp ?_ (hx.idle m)⟩
  · simp only [tick, hreset, Bool.false_eq_true, if_false, Generator.nextState, hx.state, hrun]
  · rw [hx.state]
    cases m <;> decide

/-- `WAIT` with `Run` high samples the seed and the key. -/
theorem Waiting.starts (hx : Waiting x) (hp : NoReset x p) (hrun : p.run = true) :
    Deciding p.seed 0 p.initialSubkey (tick F x p) := by
  have hreset : p.reset = false := hp
  -- the seed and the key are sampled with the run
  have hgen : (tick F x p).gen = { x.gen.waitRoutine p with state := .decideMap } := by
    simp only [tick, hreset, Bool.false_eq_true, if_false, Generator.routine, Generator.nextState,
      hx.state, hrun, if_true]
  refine ⟨?_, ?_, ?_, ?_, fun m => tick_idle hp ?_ (hx.idle m)⟩
  · rw [hgen]
  · rw [hgen]
    rfl
  · rw [hgen]
    rfl
  · rw [hgen]
    exact if_pos hrun
  · rw [hx.state]
    cases m <;> decide

/-! ### Stages -/

theorem working_of_using (hx : Using s c m n k x) : Working x :=
  working_of_state (hx.state ▸ m.state_ne_hold)

/-- **One use** applies the map once. -/
theorem leadsTo_answered (hn : n + 1 < 16) : LeadsTo (tick F) NoReset Working
    (InStage s c m (n + 1) k) (InStage s c m n (F m k)) := by
  have hanswer : LeadsTo (tick F) NoReset Working
      (fun x => Using s c m (n + 1) k x ∧ x.maps m = .idle)
      (fun x => Using s c m (n + 1) k x ∧ x.maps m = .hold (F m k)) :=
    Server.leadsTo_answer (fun _ hx => working_of_using hx)
      fun x p hx hp hnone => ⟨(hx.waits hp hnone).1, p.latency m, (hx.waits hp hnone).2⟩
  refine hanswer.trans (.of_step (fun _ hx => working_of_using hx.1) fun x p hx hp => ?_)
  exact hx.1.takes hn hx.2 hp

/-- **One stage** applies its map as often as the seed says. -/
theorem leadsTo_stage (hc : c < 4) : LeadsTo (tick F) NoReset Working (Deciding s c k)
    (Deciding s (c + 1) ((F (stageMap s c))^[stageUses s c] k)) := by
  have huses : stageUses s c < 12 := by
    have hfield := seedField_lt s (9 - 3 * c)
    rw [stageUses]
    omega
  refine .step_trans (fun x hx => working_of_state (by rw [hx.state]; decide))
    (fun x p hx hp => hx.starts hc hp) ?_
  exact LeadsTo.iterate (F := F (stageMap s c)) (L := InStage s c (stageMap s c))
    (fun n hn k => leadsTo_answered (by omega)) k

/-- **The four stages** one after the other. -/
theorem leadsTo_finished : LeadsTo (tick F) NoReset Working (Deciding s 0 k)
    (Finished (subkeyOf F s k)) := by
  -- stage `c` takes the key after `c` stages to the key after `c + 1`
  have hstages : LeadsTo (tick F) NoReset Working (Deciding s 0 (keyAfter F s k 0))
      (Deciding s 4 (keyAfter F s k 4)) :=
    LeadsTo.loop (L := fun c => Deciding s c (keyAfter F s k c)) (Nat.zero_le 4)
      fun c _ hc => leadsTo_stage hc
  refine hstages.trans (.of_step (fun x hx => working_of_state (by rw [hx.state]; decide)) ?_)
  exact fun x p hx hp => hx.finishes hp

/-! ### The whole run -/

/-- A run reaches `HOLD` with the subkey `out`: `done` is low at every edge before, and high with
the subkey on the output at every edge from then on. -/
def Generates (F : Map → Key → Key) (x : System) (inp : ℕ → Port) (out : Key) : Prop :=
  ∃ T, (∀ n < T, (stateAt (tick F) x inp n).gen.done = false) ∧
    ∀ n, T ≤ n → (stateAt (tick F) x inp n).gen.state = .hold ∧
      (stateAt (tick F) x inp n).gen.done = true ∧ (stateAt (tick F) x inp n).gen.subkey = out

/-- **The generator refines the composition of its maps.** After a reset, whatever the map modules
compute and however long each use takes, the first edge with `Run` high fixes the seed and the key:
the generator reaches `HOLD`, `done` is low until then, and from then on the output is the
composition. -/
theorem generates_subkey (F : Map → Key → Key) (x₀ : System) (r : Port) (hr : r.reset = true)
    (inp : ℕ → Port) (hreset : ∀ n, (inp n).reset = false) (t : ℕ) (hrun : (inp t).run = true)
    (hwait : ∀ n < t, (inp n).run = false) :
    Generates F (tick F x₀ r) inp (subkeyOf F (inp t).seed (inp t).initialSubkey) := by
  -- `WAIT` until `Run` is high
  have hwaiting : ∀ n ≤ t, Waiting (stateAt (tick F) (tick F x₀ r) inp n) := by
    intro n hn
    induction n with
    | zero =>
      rw [stateAt_zero, tick, if_pos hr]
      exact ⟨rfl, fun _ => rfl⟩
    | succ n ih =>
      rw [stateAt_succ]
      exact (ih (by omega)).stays (hreset n) (hwait n (by omega))
  have hstart : Deciding (inp t).seed 0 (inp t).initialSubkey
      (stateAt (tick F) (tick F x₀ r) inp (t + 1)) := by
    rw [stateAt_succ]
    exact (hwaiting t le_rfl).starts (hreset t) hrun
  -- the stages from there on
  obtain ⟨m, hfinished, hbefore⟩ := leadsTo_finished _ hstart (fun n => inp (t + 1 + n))
    fun n => hreset (t + 1 + n)
  rw [← stateAt_add] at hfinished
  refine ⟨t + 1 + m, fun n hn => ?_, fun n hn => ?_⟩
  · -- `done` is low in `WAIT` and all through the stages
    rcases Nat.lt_or_ge t n with htn | htn
    · obtain ⟨j, rfl⟩ := Nat.exists_eq_add_of_le (show t + 1 ≤ n by omega)
      rw [stateAt_add]
      exact hbefore j (by omega)
    · exact working_of_state (by rw [(hwaiting n htn).state]; decide)
  · -- and `HOLD` is never left
    have hheld : Finished (subkeyOf F (inp t).seed (inp t).initialSubkey)
        (stateAt (tick F) (tick F x₀ r) inp n) := by
      induction n, hn using Nat.le_induction with
      | base => exact hfinished
      | succ n hn ih =>
        rw [stateAt_succ]
        exact ih.stays (hreset n)
    exact ⟨hheld.state, decide_eq_true hheld.state, hheld.currentKey⟩

/-- With `Run` held high from the reset on, and three edges of work for every use. -/
theorem generates_subkey_held :
    Generates (fun _ k => k + 1)
      (tick (fun _ k => k + 1) ⟨.reset, fun _ => .idle⟩ ⟨true, true, 0, 0, fun _ => 0⟩)
      (fun _ => ⟨false, true, 0x123, 0x1234567890, fun _ => 3⟩)
      (subkeyOf (fun _ k => k + 1) 0x123 0x1234567890) :=
  generates_subkey (fun _ k => k + 1) ⟨.reset, fun _ => .idle⟩ ⟨true, true, 0, 0, fun _ => 0⟩ rfl
    (fun _ => ⟨false, true, 0x123, 0x1234567890, fun _ => 3⟩) (fun _ => rfl) 0 rfl
    fun _ hn => absurd hn (Nat.not_lt_zero _)

end Subkey
end VideoEncryption
