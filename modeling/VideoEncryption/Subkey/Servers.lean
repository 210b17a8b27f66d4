import VideoEncryption.Clocked.Simulation
import VideoEncryption.Clocked.Timed
import VideoEncryption.Subkey.Refinement
import VideoEncryption.Subkey.Tent

/-!
# The map modules are servers

`subkeyGenerator` asks nothing of its map modules but the handshake. The four modules keep it: each
of them, with the multiplier inside, is a server that computes a function of its own (`mapKey`) in a
number of edges of its own (`mapLatency`), whatever its `run` and its input do.

So the generator with its four modules simulates the generator with four servers
(`chip_simulates`), and what it generates is the composition of those functions
(`chip_generates_subkey`), after a number of edges that the seed determines (`generationTime`).
-/

namespace VideoEncryption
namespace Subkey

open Clocked Fixed

/-! ### What the modules compute -/

/-- The first product of `logisticMap`, read complete. -/
def logisticFirst (x : Key) : Key :=
  BitVec.ofNat 80 (partialProduct 79 x.toNat (0x80000000000000000000 - x).toNat 80)

/-- The second one, as `out` takes it: without the last summand and without the top bit. -/
def logisticSecond (x : Key) : Key :=
  ((BitVec.ofNat 80 (partialProduct 79 (logisticFirst x).toNat
    (0xF0000000000000000000 : Key).toNat 79)).setWidth 79).setWidth 80

/-- What `logisticMap` computes. -/
def logisticKey (x : Key) : Key := logisticSecond x <<< 1

/-- What `tentMap` computes. -/
def tentKey (x : Key) : Key :=
  BitVec.ofNat 80 (partialProduct 79 TentMap.op1.toNat (TentMap.adjusted x).toNat 79)

/-- The product of `quadMap`, without the last summand. -/
def quadSquare (x : Key) : Key := BitVec.ofNat 80 (partialProduct 79 x.toNat x.toNat 79)

/-- What `quadMap` computes. -/
def quadKey (x : Key) : Key := quadSquare x + 0x30000000000000000000

/-- What `bernMap` computes. -/
def bernKey (x : Key) : Key :=
  if x < 0x40000000000000000000 then x <<< 1 else x <<< 1 + 0x80000000000000000000

/-- What each module computes. -/
def mapKey : Map → Key → Key
  | .log => logisticKey
  | .tent => tentKey
  | .quad => quadKey
  | .bern => bernKey

/-- The edges of work of a module after it has captured its input. -/
def mapLatency : Map → ℕ
  | .log => 164
  | .tent => 82
  | .quad => 82
  | .bern => 1

/-! ### Waiting for the multiplier -/

/-- A client with the factors `a` and `b` sees `done` in `n` ticks: the multiplier is still to
start, or on its way. -/
def Awaiting (a b : Key) (n : ℕ) (m : Multiplier) : Prop :=
  (n = 80 ∧ m.state = .wait) ∨ ∃ k, k ≤ 79 ∧ n = 79 - k ∧ Underway a b k m

section Awaiting

variable {a b : Key} {n : ℕ} {m : Multiplier}

theorem Awaiting.done_eq (hm : Awaiting a b n m) : m.done = decide (n = 0) := by
  rcases hm with ⟨rfl, hwait⟩ | ⟨k, hk, rfl, hm⟩
  · rw [Multiplier.done, hwait]
    rfl
  · rw [hm.done_eq hk, decide_eq_decide]
    omega

theorem Awaiting.tick (hm : Awaiting a b (n + 1) m) : Awaiting a b n (m.tick true a b) := by
  rcases hm with ⟨hn, hwait⟩ | ⟨k, hk, hn, hm⟩
  · exact Or.inr ⟨0, by omega, by omega, underway_zero hwait⟩
  · exact Or.inr ⟨k + 1, by omega, by omega, hm.tick (by omega)⟩

/-- When `done` is high the product lacks its last summand, and one edge later it is complete. -/
theorem Awaiting.finish (hm : Awaiting a b 0 m) :
    m.out = BitVec.ofNat 80 (partialProduct 79 a.toNat b.toNat 79) ∧
      (m.tick true a b).state = .wait ∧
      (m.tick true a b).out = BitVec.ofNat 80 (partialProduct 79 a.toNat b.toNat 80) := by
  have hdone : m.done = true := hm.done_eq
  rcases hm with ⟨hn, -⟩ | ⟨k, hk, hn, hm⟩
  · exact absurd hn (by decide)
  · obtain rfl : k = 79 := by omega
    exact ⟨hm.out, tick_of_done hdone, hm.tick_out le_rfl⟩

end Awaiting

/-! ### The states of the modules as states of servers -/

/-- A `bernMap` as a server. -/
def BernMap.Serving (b : BernMap) : Server Key → Prop
  | .idle => b.state = .load
  | .busy n x => n = 0 ∧ b.state = .compute ∧ b.out = x
  | .hold y => b.state = .hold ∧ b.out = y

/-- A `tentMap` as a server. -/
def TentMap.Serving (t : TentMap) : Server Key → Prop
  | .idle => t.state = .load ∧ t.mult.state = .wait
  | .busy n x =>
    (n = 81 ∧ t.state = .adjust ∧ t.out = x ∧ t.mult.state = .wait) ∨
      (t.state = .compute ∧ t.out = adjusted x ∧ Awaiting op1 (adjusted x) n t.mult)
  | .hold y => t.state = .hold ∧ t.out = y ∧ t.mult.state = .wait

/-- A `quadMap` as a server. -/
def QuadMap.Serving (q : QuadMap) : Server Key → Prop
  | .idle => q.state = .load ∧ q.mult.state = .wait
  | .busy n x =>
    (∃ j, n = j + 1 ∧ q.state = .compute ∧ q.out = x ∧ Awaiting x x j q.mult) ∨
      (n = 0 ∧ q.state = .add ∧ q.out = quadSquare x ∧ q.mult.state = .wait)
  | .hold y => q.state = .hold ∧ q.out = y ∧ q.mult.state = .wait

/-- A `logisticMap` as a server. -/
def LogisticMap.Serving (l : LogisticMap) : Server Key → Prop
  | .idle => l.state = .wait ∧ l.mult.state = .wait
  | .busy n x =>
    (∃ j, n = j + 83 ∧ l.state = .compute1 ∧ l.out = x ∧
        Awaiting x (0x80000000000000000000 - x) j l.mult) ∨
      (n = 82 ∧ l.state = .pause ∧ l.mult.out = logisticFirst x ∧ l.mult.state = .wait) ∨
      (∃ j, n = j + 1 ∧ l.state = .compute2 ∧ l.out = logisticFirst x ∧
        Awaiting (logisticFirst x) 0xF0000000000000000000 j l.mult) ∨
      (n = 0 ∧ l.state = .shift ∧ l.out = logisticSecond x ∧ l.mult.state = .wait)
  | .hold y => l.state = .hold ∧ l.out = y ∧ l.mult.state = .wait

/-! ### One edge of each module -/

variable {run : Bool} {input x y : Key} {n : ℕ}

/-- **`bernMap` is a server.** -/
theorem bernMap_serves : Serves BernMap.tick (fun b => if b.done then some b.out else none)
    bernKey 1 BernMap.Serving where
  answer := by
    rintro b (_ | ⟨n, x⟩ | y) hb
    -- a module has an answer in `HOLD` only
    · simp [BernMap.done, show b.state = .load from hb, Server.answer]
    · simp [BernMap.done, hb.2.1, Server.answer]
    · simp [BernMap.done, hb.1, hb.2, Server.answer]
  edge := by
    -- edge by edge: at rest, at work, with an answer
    rintro b (_ | ⟨n, x⟩ | y) run input hb
    · have hs : b.state = .load := hb
      cases run
      · simp [BernMap.Serving, BernMap.tick, BernMap.nextState, Server.step, hs]
      · simp [BernMap.Serving, BernMap.tick, BernMap.nextState, BernMap.nextOut, Server.step,
          Server.working, hs]
    · obtain ⟨rfl, hs, rfl⟩ := hb
      simp [BernMap.Serving, BernMap.tick, BernMap.nextState, BernMap.nextOut, Server.step,
        Server.working, bernKey, hs]
    · obtain ⟨hs, rfl⟩ := hb
      cases run <;>
        simp [BernMap.Serving, BernMap.tick, BernMap.nextState, BernMap.nextOut, Server.step, hs]

/-- **`tentMap` is a server.** -/
theorem tentMap_serves : Serves TentMap.tick (fun t => if t.done then some t.out else none)
    tentKey 82 TentMap.Serving where
  answer := by
    -- a module has an answer in `HOLD` only
    rintro t (_ | ⟨n, x⟩ | y) ht
    · simp [TentMap.done, ht.1, Server.answer]
    · rcases ht with ⟨-, hs, -⟩ | ⟨hs, -⟩ <;> simp [TentMap.done, hs, Server.answer]
    · simp [TentMap.done, ht.1, ht.2.1, Server.answer]
  edge := by
    -- at rest, at work on the adjustment or the product, with an answer
    rintro t (_ | ⟨n, x⟩ | y) run input ht
    · obtain ⟨hs, hwait⟩ := ht
      have hidle := (tick_of_idle hwait TentMap.op1 t.out).1
      rw [TentMap.tick_load hs]
      cases run
      · exact ⟨rfl, hidle⟩
      · exact Or.inl ⟨rfl, rfl, rfl, hidle⟩
    · rcases ht with ⟨rfl, hs, rfl, hwait⟩ | ⟨hs, hout, hmult⟩
      · rw [TentMap.tick_adjust hs]
        exact Or.inr ⟨rfl, rfl, Or.inl ⟨rfl, (tick_of_idle hwait TentMap.op1 t.out).1⟩⟩
      · rw [TentMap.tick_compute hs, hmult.done_eq, hout]
        cases n with
        | zero =>
          obtain ⟨hproduct, hwait, -⟩ := hmult.finish
          exact ⟨rfl, hproduct, hwait⟩
        | succ n => exact Or.inr ⟨rfl, rfl, hmult.tick⟩
    · obtain ⟨hs, rfl, hwait⟩ := ht
      have hidle := (tick_of_idle hwait TentMap.op1 t.out).1
      rw [TentMap.tick_hold hs]
      cases run
      · exact ⟨rfl, hidle⟩
      · exact ⟨rfl, rfl, hidle⟩

/-- **`quadMap` is a server.** -/
theorem quadMap_serves : Serves QuadMap.tick (fun q => if q.done then some q.out else none)
    quadKey 82 QuadMap.Serving where
  answer := by
    -- a module has an answer in `HOLD` only
    rintro q (_ | ⟨n, x⟩ | y) hq
    · simp [QuadMap.done, hq.1, Server.answer]
    · rcases hq with ⟨j, -, hs, -⟩ | ⟨-, hs, -⟩ <;> simp [QuadMap.done, hs, Server.answer]
    · simp [QuadMap.done, hq.1, hq.2.1, Server.answer]
  edge := by
    -- at rest, at work on the product or the addition, with an answer
    rintro q (_ | ⟨n, x⟩ | y) run input hq
    · obtain ⟨hs, hwait⟩ := hq
      have hidle := (tick_of_idle hwait q.out q.out).1
      rw [QuadMap.tick_load hs]
      cases run
      · exact ⟨rfl, hidle⟩
      · exact Or.inl ⟨80, rfl, rfl, rfl, Or.inl ⟨rfl, hidle⟩⟩
    · rcases hq with ⟨j, rfl, hs, hout, hmult⟩ | ⟨rfl, hs, hout, hwait⟩
      · rw [QuadMap.tick_compute hs, hmult.done_eq, hout]
        cases j with
        | zero =>
          obtain ⟨hproduct, hwait, -⟩ := hmult.finish
          exact Or.inr ⟨rfl, rfl, hproduct, hwait⟩
        | succ j => exact Or.inl ⟨j, rfl, rfl, rfl, hmult.tick⟩
      · rw [QuadMap.tick_add hs, hout]
        exact ⟨rfl, rfl, (tick_of_idle hwait _ _).1⟩
    · obtain ⟨hs, rfl, hwait⟩ := hq
      have hidle := (tick_of_idle hwait q.out q.out).1
      rw [QuadMap.tick_hold hs]
      cases run
      · exact ⟨rfl, hidle⟩
      · exact ⟨rfl, rfl, hidle⟩

/-- **`logisticMap` is a server.** -/
theorem logisticMap_serves : Serves LogisticMap.tick
    (fun l => if l.done then some l.out else none) logisticKey 164 LogisticMap.Serving where
  answer := by
    -- a module has an answer in `HOLD` only
    rintro l (_ | ⟨n, x⟩ | y) hl
    · simp [LogisticMap.done, hl.1, Server.answer]
    · rcases hl with ⟨j, -, hs, -⟩ | ⟨-, hs, -⟩ | ⟨j, -, hs, -⟩ | ⟨-, hs, -⟩ <;>
        simp [LogisticMap.done, hs, Server.answer]
    · simp [LogisticMap.done, hl.1, hl.2.1, Server.answer]
  edge := by
    -- at rest, at work in one of four states, with an answer
    rintro l (_ | ⟨n, x⟩ | y) run input hl
    · obtain ⟨hs, hwait⟩ := hl
      have hidle := (tick_of_idle hwait l.op1 l.op2).1
      rw [LogisticMap.tick_wait hs]
      cases run
      · exact ⟨rfl, hidle⟩
      · exact Or.inl ⟨80, rfl, rfl, rfl, Or.inl ⟨rfl, hidle⟩⟩
    · rcases hl with ⟨j, rfl, hs, hout, hmult⟩ | ⟨rfl, hs, hproduct, hwait⟩ |
        ⟨j, rfl, hs, hout, hmult⟩ | ⟨rfl, hs, hout, hwait⟩
      · -- the first product is read one edge after `done`, in `PAUSE`
        rw [LogisticMap.tick_compute1 hs, hmult.done_eq, hout]
        cases j with
        | zero =>
          obtain ⟨-, hwait, hproduct⟩ := hmult.finish
          exact Or.inr (Or.inl ⟨rfl, rfl, hproduct, hwait⟩)
        | succ j => exact Or.inl ⟨j, by omega, rfl, rfl, hmult.tick⟩
      · rw [LogisticMap.tick_pause hs, hproduct]
        exact Or.inr (Or.inr (Or.inl ⟨80, rfl, rfl, rfl,
          Or.inl ⟨rfl, (tick_of_idle hwait _ _).1⟩⟩))
      · -- the second one with `done`
        rw [LogisticMap.tick_compute2 hs, hmult.done_eq, hout]
        cases j with
        | zero =>
          obtain ⟨hproduct, hwait, -⟩ := hmult.finish
          refine Or.inr (Or.inr (Or.inr ⟨rfl, rfl, ?_, hwait⟩))
          change (l.mult.out.setWidth 79).setWidth 80 = _
          rw [hproduct]
          rfl
        | succ j => exact Or.inr (Or.inr (Or.inl ⟨j, rfl, rfl, rfl, hmult.tick⟩))
      · rw [LogisticMap.tick_shift hs, hout]
        exact ⟨rfl, rfl, (tick_of_idle hwait _ _).1⟩
    · obtain ⟨hs, rfl, hwait⟩ := hl
      have hidle := (tick_of_idle hwait l.op1 l.op2).1
      rw [LogisticMap.tick_hold hs]
      cases run
      · exact ⟨rfl, hidle⟩
      · exact ⟨rfl, rfl, hidle⟩

/-! ### The generator with its modules -/

namespace Chip

/-- The module of a map, as a server. -/
def moduleServing (c : Chip) : Map → Server Key → Prop
  | .log => c.log.Serving
  | .tent => c.tent.Serving
  | .quad => c.quad.Serving
  | .bern => c.bern.Serving

/-- The chip as a generator with four servers. -/
structure Serving (c : Chip) (x : System) : Prop where
  gen : x.gen = c.gen
  maps : ∀ m, c.moduleServing m (x.maps m)

variable {c : Chip} {x : System} {p : Port}

/-- The controller sees of its modules what it sees of the servers. -/
theorem Serving.answer (h : c.Serving x) (m : Map) : (x.maps m).answer = (c.servers m).answer := by
  have hservers : (c.servers m).answer = if c.mapDone m then some (c.mapOut m) else none := by
    rw [servers]
    split_ifs <;> rfl
  rw [hservers]
  cases m
  case log => exact (logisticMap_serves.answer c.log _ (h.maps .log)).symm
  case tent => exact (tentMap_serves.answer c.tent _ (h.maps .tent)).symm
  case quad => exact (quadMap_serves.answer c.quad _ (h.maps .quad)).symm
  case bern => exact (bernMap_serves.answer c.bern _ (h.maps .bern)).symm

theorem Serving.mapRun (h : c.Serving x) (m : Map) : x.gen.mapRun x.maps m = c.mapRun m := by
  rw [Generator.mapRun, h.answer, h.gen]
  rfl

/-- After `Reset` all modules are idle. -/
theorem serving_reset (c : Chip) (hp : p.reset = true) :
    (c.tick p).Serving ⟨.reset, fun _ => .idle⟩ := by
  rw [tick, if_pos hp]
  refine ⟨rfl, fun m => ?_⟩
  cases m
  case bern => exact rfl
  all_goals exact ⟨rfl, rfl⟩

end Chip

/-- The registers of the controller after an edge depend on the answers alone. -/
theorem Generator.edge_congr (g : Generator) (p : Port) {maps maps' : Map → Server Key}
    (h : ∀ m, (maps m).answer = (maps' m).answer) :
    g.routine p maps = g.routine p maps' ∧ g.nextState p maps = g.nextState p maps' := by
  constructor
  · cases hs : g.state <;> simp only [Generator.routine, hs, h]
  · cases hs : g.state <;> simp only [Generator.nextState, hs, h]

/-- The inputs of the chip, with the latencies of its modules. -/
def Port.timed (p : Port) : Port := { p with latency := mapLatency }

/-- **The chip simulates the generator with four servers**, edge by edge and resets included. -/
theorem chip_simulates : Simulates Chip.tick (tick mapKey) Port.timed Chip.Serving where
  edge c x p h := by
    -- a reset clears both, any other edge moves both
    rcases Bool.eq_false_or_eq_true p.reset with hreset | hreset
    · have hx : tick mapKey x p.timed = ⟨.reset, fun _ => .idle⟩ := if_pos hreset
      rw [hx]
      exact Chip.serving_reset c hreset
    · have hx : tick mapKey x p.timed =
          { gen := { x.gen.routine p x.maps with state := x.gen.nextState p x.maps }
            maps := fun m => (x.maps m).step (mapKey m) (x.gen.mapRun x.maps m) x.gen.currentKey
              (mapLatency m) } := by
        rw [tick, if_neg (by simp [Port.timed, hreset])]
        rfl
      obtain ⟨hroutine, hnext⟩ := x.gen.edge_congr p h.answer
      rw [hx, Chip.tick, if_neg (by simp [hreset])]
      refine ⟨?_, fun m => ?_⟩
      -- the controllers see the same answers
      · rw [hroutine, hnext, h.gen]
      · dsimp only
        -- the module of each map is its server
        rw [h.mapRun m, h.gen]
        cases m
        case log => exact logisticMap_serves.edge c.log _ _ _ (h.maps .log)
        case tent => exact tentMap_serves.edge c.tent _ _ _ (h.maps .tent)
        case quad => exact quadMap_serves.edge c.quad _ _ _ (h.maps .quad)
        case bern => exact bernMap_serves.edge c.bern _ _ _ (h.maps .bern)

/-! ### The time a subkey takes -/

/-- The edges of stage `c`: one to decide on its map, and for each use one to capture the key, the
work, and one to take the answer. -/
def stageTime (s : BitVec 12) (c : ℕ) : ℕ :=
  1 + stageUses s c * (mapLatency (stageMap s c) + 2)

/-- The edges from the one that takes the seed to `HOLD`. -/
def generationTime (s : BitVec 12) : ℕ :=
  1 + (stageTime s 0 + stageTime s 1 + stageTime s 2 + stageTime s 3) + 1

/-- No reset, and the latencies of the modules. -/
def Timed (x : System) (p : Port) : Prop := NoReset x p ∧ p.latency = mapLatency

variable {s : BitVec 12} {c : ℕ} {m : Map} {k : Key}

/-- **One use** applies the map once, in the time of the module. -/
theorem leadsIn_answered (hn : n + 1 < 16) : LeadsIn (tick mapKey) Timed Working (mapLatency m + 2)
    (InStage s c m (n + 1) k) (InStage s c m n (mapKey m k)) := by
  -- the module works as long as its latency says
  have hanswer : LeadsIn (tick mapKey) Timed Working (1 + mapLatency m)
      (fun x => Using s c m (n + 1) k x ∧ x.maps m = .idle)
      (fun x => Using s c m (n + 1) k x ∧ x.maps m = .hold (mapKey m k)) := by
    refine Server.leadsIn_answer (fun _ hx => working_of_using hx) fun x p hx hp hnone => ?_
    obtain ⟨hstay, hserver⟩ := hx.waits hp.1 hnone
    rw [hp.2] at hserver
    exact ⟨hstay, hserver⟩
  -- and its answer is taken one edge later
  have htake : LeadsIn (tick mapKey) Timed Working 1
      (fun x => Using s c m (n + 1) k x ∧ x.maps m = .hold (mapKey m k))
      (InStage s c m n (mapKey m k)) :=
    .of_step (fun _ hx => working_of_using hx.1) fun x p hx hp => hx.1.takes hn hx.2 hp.1
  have huse := hanswer.trans htake
  rwa [show 1 + mapLatency m + 1 = mapLatency m + 2 by omega] at huse

/-- **One stage**, in its time. -/
theorem leadsIn_stage (hc : c < 4) : LeadsIn (tick mapKey) Timed Working (stageTime s c)
    (Deciding s c (keyAfter mapKey s k c)) (Deciding s (c + 1) (keyAfter mapKey s k (c + 1))) := by
  have huses : stageUses s c < 12 := by
    have hfield := seedField_lt s (9 - 3 * c)
    rw [stageUses]
    omega
  have hdecide : LeadsIn (tick mapKey) Timed Working 1 (Deciding s c (keyAfter mapKey s k c))
      (InStage s c (stageMap s c) (stageUses s c) (keyAfter mapKey s k c)) :=
    .of_step (fun x hx => working_of_state (by rw [hx.state]; decide))
      fun x p hx hp => hx.starts hc hp.1
  exact hdecide.trans (LeadsIn.iterate (fun n hn k => leadsIn_answered (by omega)) _)

/-- **The four stages**, in the time of the seed. -/
theorem leadsIn_finished : LeadsIn (tick mapKey) Timed Working (generationTime s - 1)
    (Deciding s 0 k) (Finished (subkeyOf mapKey s k)) := by
  have hstages := ((leadsIn_stage (s := s) (k := k) (show 0 < 4 by decide)).trans
    ((leadsIn_stage (show 1 < 4 by decide)).trans ((leadsIn_stage (show 2 < 4 by decide)).trans
      (leadsIn_stage (show 3 < 4 by decide)))))
  have hfinish : LeadsIn (tick mapKey) Timed Working 1 (Deciding s 4 (keyAfter mapKey s k 4))
      (Finished (subkeyOf mapKey s k)) :=
    .of_step (fun x hx => working_of_state (by rw [hx.state]; decide))
      fun x p hx hp => hx.finishes hp.1
  have hall := hstages.trans hfinish
  rwa [show stageTime s 0 + (stageTime s 1 + (stageTime s 2 + stageTime s 3)) + 1
    = generationTime s - 1 by rw [generationTime]; omega] at hall

/-! ### The whole run of the chip -/

/-- The generator with four servers of known latency, from a reset: `done` rises `generationTime`
edges after the first edge with `Run` high. -/
theorem generates_in (inp : ℕ → Port) (hreset : ∀ n, (inp n).reset = false) (t : ℕ)
    (hrun : (inp t).run = true) (hwait : ∀ n < t, (inp n).run = false) :
    (∀ n < t + generationTime (inp t).seed,
      Working (stateAt (tick mapKey) ⟨.reset, fun _ => .idle⟩ (fun n => (inp n).timed) n)) ∧
      ∀ n, t + generationTime (inp t).seed ≤ n →
        Finished (subkeyOf mapKey (inp t).seed (inp t).initialSubkey)
          (stateAt (tick mapKey) ⟨.reset, fun _ => .idle⟩ (fun n => (inp n).timed) n) := by
  -- `WAIT` until `Run` is high
  have hwaiting : ∀ n ≤ t,
      Waiting (stateAt (tick mapKey) ⟨.reset, fun _ => .idle⟩ (fun n => (inp n).timed) n) := by
    intro n hn
    induction n with
    | zero => exact ⟨rfl, fun _ => rfl⟩
    | succ n ih =>
      rw [stateAt_succ]
      exact (ih (by omega)).stays (hreset n) (hwait n (by omega))
  have hstart : Deciding (inp t).seed 0 (inp t).initialSubkey
      (stateAt (tick mapKey) ⟨.reset, fun _ => .idle⟩ (fun n => (inp n).timed) (t + 1)) := by
    rw [stateAt_succ]
    exact (hwaiting t le_rfl).starts (p := (inp t).timed) (hreset t) hrun
  obtain ⟨hfinished, hbefore⟩ := leadsIn_finished _ hstart (fun n => (inp (t + 1 + n)).timed)
    fun n => ⟨hreset (t + 1 + n), rfl⟩
  -- the stages take that time less the edge that starts them
  have htime : 1 ≤ generationTime (inp t).seed := by rw [generationTime]; omega
  constructor
  -- before: in `WAIT`, or in the stages
  · intro n hn
    rcases Nat.lt_or_ge t n with htn | htn
    · obtain ⟨j, rfl⟩ := Nat.exists_eq_add_of_le (show t + 1 ≤ n by omega)
      rw [stateAt_add]
      exact hbefore j (by omega)
    · exact working_of_state (by rw [(hwaiting n htn).state]; decide)
  -- after: `HOLD` is never left
  · intro n hn
    induction n, hn using Nat.le_induction with
    | base =>
      rwa [← stateAt_add, Nat.add_assoc, Nat.add_sub_cancel' htime] at hfinished
    | succ n hn ih =>
      rw [stateAt_succ]
      exact ih.stays (hreset n)

/-- The controller of the chip, from a reset. -/
theorem chip_generates_in (c₀ : Chip) {r : Port} (hr : r.reset = true) (inp : ℕ → Port)
    (hreset : ∀ n, (inp n).reset = false) (t : ℕ) (hrun : (inp t).run = true)
    (hwait : ∀ n < t, (inp n).run = false) (n : ℕ) :
    ((stateAt Chip.tick (c₀.tick r) inp n).gen.done = true ↔
        t + generationTime (inp t).seed ≤ n) ∧
      (t + generationTime (inp t).seed ≤ n →
        (stateAt Chip.tick (c₀.tick r) inp n).gen.subkey
          = subkeyOf mapKey (inp t).seed (inp t).initialSubkey) := by
  obtain ⟨hbefore, hafter⟩ := generates_in inp hreset t hrun hwait
  -- the chip's controller is the one of the simulation
  rw [← (chip_simulates.stateAt (Chip.serving_reset c₀ hr) inp n).gen]
  refine ⟨⟨fun hdone => ?_, fun hn => decide_eq_true (hafter n hn).state⟩,
    fun hn => (hafter n hn).currentKey⟩
  by_contra hlt
  have hlow : Generator.done _ = false := hbefore n (by omega)
  rw [hlow] at hdone
  exact absurd hdone (by decide)

/-- **The subkey of the chip.** After a reset the first edge with `Run` high fixes the seed and the
key; `done` rises `generationTime` edges later and no sooner, and from then on the output is the
composition of what the modules compute. -/
theorem chip_generates_subkey (c₀ : Chip) (r : Port) (hr : r.reset = true) (inp : ℕ → Port)
    (hreset : ∀ n, (inp n).reset = false) (t : ℕ) (hrun : (inp t).run = true)
    (hwait : ∀ n < t, (inp n).run = false) :
    (∀ n < t + generationTime (inp t).seed,
      (stateAt Chip.tick (c₀.tick r) inp n).gen.done = false) ∧
      ∀ n, t + generationTime (inp t).seed ≤ n →
        (stateAt Chip.tick (c₀.tick r) inp n).gen.done = true ∧
          (stateAt Chip.tick (c₀.tick r) inp n).gen.subkey
            = subkeyOf mapKey (inp t).seed (inp t).initialSubkey := by
  have hrun' := chip_generates_in c₀ hr inp hreset t hrun hwait
  refine ⟨fun n hn => ?_, fun n hn => ⟨(hrun' n).1.mpr hn, (hrun' n).2 hn⟩⟩
  by_contra hdone
  rw [Bool.not_eq_false, (hrun' n).1] at hdone
  exact absurd hn (by omega)

/-- With `Run` held high from the reset on: two stages of `logisticMap`, one of `bernMap` and one of
`tentMap` take 2528 edges. -/
theorem chip_generates_subkey_held :
    (stateAt Chip.tick (Chip.tick ⟨.reset, ⟨.wait, 0, ⟨.wait, 0, 0, 0, 0⟩⟩,
        ⟨.load, 0, ⟨.wait, 0, 0, 0, 0⟩⟩, ⟨.load, 0, ⟨.wait, 0, 0, 0, 0⟩⟩, ⟨.load, 0⟩⟩
        ⟨true, true, 0, 0, fun _ => 0⟩)
      (fun _ => ⟨false, true, 0x123, 0x1234567890, fun _ => 0⟩) 2528).gen.subkey
        = subkeyOf mapKey 0x123 0x1234567890 :=
  ((chip_generates_subkey ⟨.reset, ⟨.wait, 0, ⟨.wait, 0, 0, 0, 0⟩⟩,
      ⟨.load, 0, ⟨.wait, 0, 0, 0, 0⟩⟩, ⟨.load, 0, ⟨.wait, 0, 0, 0, 0⟩⟩, ⟨.load, 0⟩⟩
    ⟨true, true, 0, 0, fun _ => 0⟩ rfl (fun _ => ⟨false, true, 0x123, 0x1234567890, fun _ => 0⟩)
    (fun _ => rfl) 0 rfl fun _ hn => absurd hn (Nat.not_lt_zero _)).2 2528 (by decide)).2

end Subkey
end VideoEncryption
