import VideoEncryption.Sccb.Phases

/-!
# The camera's program

The pairs of register address and value that a whole run of the master shifts out. `FIN` looks up
the pair for the transaction after it, and the delay counter that lets `FIN` go stands still at the
last entry of the table: the pair of that entry is loaded and never sent.

* `Loaded` — the state before transaction `k`, with its pair loaded;
* `transaction_step` — one transaction shifts out its pair and loads the next;
* `program_run` — a run shifts out the pair of `HALT` and the entries 1 to 58, then rests;
* `never_programs_camera` — **no run sends the whole table**.
-/

namespace VideoEncryption
namespace Sccb

open Clocked

/-! ### What is shifted out -/

/-- The data bit of a sight: the first eight pulses of `Phase2` and of `INPUT`. -/
def dataBit (x : Sight) : List Bool :=
  match x.event with
  | .pulse b => if (x.state = .phase2 ∨ x.state = .input) ∧ x.stateCounter ≤ 8 then [b] else []
  | _ => []

/-- The data bits shifted out at an edge. -/
def shiftedOut (s : Master) (p : Port) : List Bool := (watch s p).flatMap dataBit

/-- The data bits shifted out in the first `n` edges of a run. -/
def shiftedBefore (s : Master) (inp : ℕ → Port) (n : ℕ) : List Bool :=
  emitted Master.tick shiftedOut s ((List.range n).map inp)

/-- The bits of a register address and a value. -/
def pairBits (q : BitVec 8 × BitVec 8) : List Bool := byteBits q.1 ++ byteBits q.2

/-- The pair of transaction `k`: the one loaded in `HALT`, then the entries of the table. -/
def pairAt (k : ℕ) : BitVec 8 × BitVec 8 :=
  if k = 0 then (0x12, 0x80) else (table (BitVec.ofNat 8 k)).getD (0, 0)

/-- The camera is programmed: at some edge exactly the pair of `HALT` and the table's entries `0x01`
to `0x3b` have been shifted out, and the machine stays in `FIN` from there on. -/
def ProgramsCamera (s : Master) (inp : ℕ → Port) : Prop :=
  ∃ T, shiftedBefore s inp T = (List.range (0x3b + 1)).flatMap (fun k => pairBits (pairAt k))
    ∧ ∀ n, T ≤ n → (stateAt Master.tick s inp n).state = .fin

/-- The table has every entry up to the last one. -/
theorem table_isSome : ∀ k : Fin 0x3c, (table (BitVec.ofNat 8 k)).isSome := by decide

theorem table_pairAt {k : ℕ} (h0 : k ≠ 0) (hk : k < 0x3c) :
    table (BitVec.ofNat 8 k) = some (pairAt k) := by
  obtain ⟨q, hq⟩ := Option.isSome_iff_exists.mp (table_isSome ⟨k, hk⟩)
  rw [pairAt, if_neg h0]
  simp only [hq, Option.getD_some]

theorem shiftedOut_eq_nil {s : Master} (h2 : s.state ≠ .phase2) (hi : s.state ≠ .input) (p : Port) :
    shiftedOut s p = [] := by
  rw [shiftedOut, watch, List.flatMap_map, List.flatMap_eq_nil_iff]
  intro e _
  cases e
  case pulse b => simp only [dataBit, h2, hi, or_self, false_and, if_false]
  all_goals rfl

/-- A transaction shifts out its address and its value. -/
theorem dataBits_transactionSights (h : Held) :
    (transactionSights h).flatMap dataBit = pairBits (h.subAddress, h.writeData) := rfl

/-! ### One transaction after another -/

/-- Before transaction `k`, with its pair loaded. -/
structure Loaded (k : ℕ) (t : Master) : Prop where
  state : t.state = .stop
  sccbCounter : t.sccbCounter = BitVec.ofNat 8 k
  subAddress : t.subAddress = (pairAt k).1
  writeData : t.writeData = (pairAt k).2

variable {k : ℕ} {t : Master}

theorem Loaded.pairBits_held (ht : Loaded k t) :
    pairBits (t.held.opened.subAddress, t.held.opened.writeData) = pairBits (pairAt k) := by
  have hsub : t.held.opened.subAddress = (pairAt k).1 := ht.subAddress
  have hdata : t.held.opened.writeData = (pairAt k).2 := ht.writeData
  rw [hsub, hdata]

theorem Loaded.sccbCounter_opened (ht : Loaded k t) :
    t.held.opened.sccbCounter = BitVec.ofNat 8 (k + 1) := by
  change t.sccbCounter + 1 = _
  rw [ht.sccbCounter, ofNat_succ]

/-- `FIN` loads the pair of the transaction after it. -/
theorem load_pairAt {h : Held} (hc : h.sccbCounter = BitVec.ofNat 8 (k + 1)) (hk : k < 58) :
    h.load.subAddress = (pairAt (k + 1)).1 ∧ h.load.writeData = (pairAt (k + 1)).2 := by
  have hentry := table_pairAt (k := k + 1) (by omega) (by omega)
  rw [← hc] at hentry
  simp only [Held.load, hentry, Option.map_some, Option.getD_some, and_self]

/-- The edge that executes `STOP` shifts nothing out. -/
theorem Loaded.stop_edge (ht : Loaded k t) :
    Performs Master.tick shiftedOut NoReset (fun _ => True) 1 t [] (Opened t.held.opened) := by
  refine .edge trivial fun p hp => ⟨?_, stop_tick ht.state hp⟩
  exact shiftedOut_eq_nil (by rw [ht.state]; decide) (by rw [ht.state]; decide) p

/-- **One transaction** shifts out its pair and loads the next. -/
theorem transaction_step (hk : k < 58) (ht : Loaded k t) :
    Performs Master.tick shiftedOut NoReset (fun _ => True) 140 t (pairBits (pairAt k))
      (Loaded (k + 1)) := by
  -- the entry looked up in `FIN` is not the last one
  have hc : t.held.opened.sccbCounter ≠ 0x3b := by
    rw [ht.sccbCounter_opened]
    have h59 : BitVec.ofNat 8 (k + 1) = BitVec.ofNat 8 59 ↔ k + 1 = 59 :=
      ofNat_inj (by omega) (by omega)
    exact fun h => absurd (h59.mp h) (by omega)
  -- after the edge that leaves `STOP`
  have hrest : ∀ u, Opened t.held.opened u →
      Performs Master.tick shiftedOut NoReset (fun _ => True) 139 u (pairBits (pairAt k))
        (Loaded (k + 1)) := by
    intro u hu
    -- the sights of the transaction, with everything but the data bits dropped
    have hbody := ((reaches_stop rfl rfl hc hu).flatMap dataBit).weaken (V := fun _ => True)
      fun _ _ => trivial
    rw [dataBits_transactionSights, ht.pairBits_held] at hbody
    refine hbody.mono fun v hv => ?_
    obtain ⟨hsub, hdata⟩ := load_pairAt ht.sccbCounter_opened hk
    exact ⟨hv.state, (congrArg Held.sccbCounter hv.held).trans ht.sccbCounter_opened,
      (congrArg Held.subAddress hv.held).trans hsub,
      (congrArg Held.writeData hv.held).trans hdata⟩
  exact ht.stop_edge.trans hrest

/-- The transaction that finds the last entry shifts out the one before it and comes to rest. -/
theorem last_transaction (ht : Loaded 58 t) (n : ℕ) :
    Performs Master.tick shiftedOut NoReset (fun _ => True) (1 + (118 + n)) t (pairBits (pairAt 58))
      AtRest := by
  refine ht.stop_edge.trans fun u hu => ?_
  have hrest := ((reaches_rest rfl rfl ht.sccbCounter_opened hu n).flatMap dataBit).weaken
    (V := fun _ => True) fun _ _ => trivial
  rwa [dataBits_transactionSights, ht.pairBits_held] at hrest

/-! ### The whole run -/

/-- Leaving `HALT` loads the first pair. -/
theorem halt_edge {s : Master} (hs : s.state = .halt) {p : Port} (hrun : p.sccbRun = true)
    (hp : NoReset p) : Loaded 0 (s.tick p) := by
  have htick : s.tick p = { s.haltRoutine with state := .stop } := by
    simp only [tick_of_noReset hp, Master.routine, Master.nextState, hs, hrun, if_true]
  rw [htick]
  exact ⟨rfl, rfl, rfl, rfl⟩

/-- **The run.** From 1 + 140·58 + 119 edges on, the pair of `HALT` and the entries 1 to 58 of the
table have been shifted out, and the machine rests in `FIN`. -/
theorem program_run {s : Master} (hs : s.state = .halt) {inp : ℕ → Port}
    (hrun : (inp 0).sccbRun = true) (hreset : ∀ n, NoReset (inp n)) (n : ℕ) :
    shiftedBefore s inp (8240 + n) = (List.range 59).flatMap (fun k => pairBits (pairAt k))
      ∧ AtRest (stateAt Master.tick s inp (8240 + n)) := by
  -- after the edge that leaves `HALT`: 58 transactions that close, and the one that does not
  have hloop := (Performs.iterate 58 (fun k hk u hu => transaction_step hk hu)
    (halt_edge hs hrun (hreset 0))).trans fun u hu => last_transaction hu n
  obtain ⟨-, hbits, hend⟩ := hloop ((List.range (8239 + n)).map fun k => inp (k + 1))
    (by rw [List.length_map, List.length_range]; omega) fun p hp => by
      obtain ⟨k, -, rfl⟩ := List.mem_map.mp hp
      exact hreset (k + 1)
  -- the first edge is that of `HALT`, which shifts nothing out
  have hsplit : (List.range (8240 + n)).map inp
      = inp 0 :: (List.range (8239 + n)).map fun k => inp (k + 1) := by
    rw [show 8240 + n = (8239 + n) + 1 by omega, List.range_succ_eq_map, List.map_cons,
      List.map_map]
    rfl
  have hhalt : shiftedOut s (inp 0) = [] :=
    shiftedOut_eq_nil (by rw [hs]; decide) (by rw [hs]; decide) _
  rw [shiftedBefore, stateAt_eq_run, hsplit, emitted_cons, run_cons, hhalt, List.nil_append, hbits]
  have hlast : List.range 59 = List.range 58 ++ [58] := List.range_succ
  exact ⟨by rw [hlast, List.flatMap_append, List.flatMap_singleton], hend⟩

theorem length_pairBits (q : BitVec 8 × BitVec 8) : (pairBits q).length = 16 := rfl

theorem length_flatMap_pairBits (n : ℕ) :
    ((List.range n).flatMap fun k => pairBits (pairAt k)).length = 16 * n := by
  induction n with
  | zero => rfl
  | succ n ih =>
    rw [List.range_succ, List.flatMap_append, List.length_append, ih, List.flatMap_singleton,
      length_pairBits, Nat.mul_succ]

/-- Edges in `FIN` shift nothing out. -/
theorem shiftedBefore_of_fin {s : Master} {inp : ℕ → Port} {T : ℕ}
    (hfin : ∀ n, T ≤ n → (stateAt Master.tick s inp n).state = .fin) (m : ℕ) :
    shiftedBefore s inp (T + m) = shiftedBefore s inp T := by
  induction m with
  | zero => rfl
  | succ m ih =>
    -- in `FIN` no bit is driven
    have hstate := hfin (T + m) (by omega)
    have hsilent : shiftedOut (stateAt Master.tick s inp (T + m)) (inp (T + m)) = [] :=
      shiftedOut_eq_nil (by rw [hstate]; decide) (by rw [hstate]; decide) _
    calc shiftedBefore s inp (T + (m + 1))
        = shiftedBefore s inp (T + m)
            ++ shiftedOut (stateAt Master.tick s inp (T + m)) (inp (T + m)) := by
          rw [shiftedBefore, ← Nat.add_assoc, List.range_succ, List.map_append, emitted_append,
            List.map_singleton, emitted_cons, emitted_nil, List.append_nil, ← stateAt_eq_run]
          rfl
      _ = shiftedBefore s inp T := by rw [hsilent, List.append_nil, ih]

/-- A run that ends with one pair too few does not program the camera. -/
theorem not_programsCamera {s : Master} {inp : ℕ → Port} {N : ℕ}
    (hsent : ∀ n, shiftedBefore s inp (N + n)
      = (List.range 59).flatMap (fun k => pairBits (pairAt k))) : ¬ ProgramsCamera s inp := by
  rintro ⟨T, hbits, hfin⟩
  -- at edge `N + T` both runs are over, with 59 pairs sent by the one and 60 by the other
  have hshort := hsent T
  rw [Nat.add_comm, shiftedBefore_of_fin hfin N, hbits] at hshort
  have hlen := congrArg List.length hshort
  rw [length_flatMap_pairBits, length_flatMap_pairBits] at hlen
  exact absurd hlen (by decide)

/-- **No run sends the whole table**: the last entry is loaded when `FIN` is entered for good. -/
theorem never_programs_camera (s : Master) (hs : s.state = .halt) (inp : ℕ → Port)
    (hrun : (inp 0).sccbRun = true) (hreset : ∀ n, NoReset (inp n)) :
    ¬ ProgramsCamera s inp :=
  not_programsCamera fun n => (program_run hs hrun hreset n).1

/-- From power-up, with `SCCB_Run` high at the first edge alone. -/
theorem never_programs_camera_pulse : ¬ ProgramsCamera powerUp (fun n => ⟨false, n == 0, false⟩) :=
  never_programs_camera powerUp rfl _ rfl fun _ => rfl

/-- From power-up, with `SCCB_Run` held high: the entry `0x3b` is never sent. -/
theorem last_entry_never_sent : ¬ ProgramsCamera powerUp (fun _ => ⟨false, true, false⟩) := by
  have hreset : ∀ _ : ℕ, NoReset ⟨false, true, false⟩ := fun _ => rfl
  exact not_programsCamera fun n => (program_run (s := powerUp) rfl rfl hreset n).1

end Sccb
end VideoEncryption
