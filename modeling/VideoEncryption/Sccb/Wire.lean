import VideoEncryption.Sccb.Phases

/-!
# The wire format of a transaction

What an observer of the two wires decodes from one transaction: START, the write address, the
register address and the value, a STOP and a START, the read address, the eight read pulses and the
closing STOP, with no other change of the data wire while the clock wire is high.

* `WireFormat` — the events of a transaction that writes `d` to the register `a`;
* `Addressed` — the device addresses are loaded before `HALT` is ever left;
* `Transaction.length_eq` — from `STOP` to the next `STOP` is 140 ticks;
* `transaction_wire_format` — **every transaction has the wire format**.
-/

namespace VideoEncryption
namespace Sccb

open Clocked

/-- The events of a transaction that writes `d` to the register `a`. The ninth bits and the eight
bits read are the bus's own. -/
def WireFormat (a d : BitVec 8) (es : List BusEvent) : Prop :=
  ∃ (x₁ x₂ x₃ x₄ : Bool) (r : List Bool), r.length = 8 ∧
    es = [.start] ++ bytePulses 0x42 x₁ ++ bytePulses a x₂ ++ bytePulses d x₃
      ++ [.pulse false, .stop, .start] ++ bytePulses 0x43 x₄ ++ r.map .pulse
      ++ [.pulse true, .pulse false, .stop]

/-- The edges `ps` take the machine from `STOP` to the next `STOP` without a reset. -/
structure Transaction (s : Master) (ps : List Port) : Prop where
  opens : s.state = .stop
  nonempty : ps ≠ []
  noReset : ∀ p ∈ ps, NoReset p
  closes : (run Master.tick s ps).state = .stop
  between : ∀ m, 0 < m → m < ps.length → (run Master.tick s (ps.take m)).state ≠ .stop

/-- The events of the transaction `ps` and of the edge `q` that executes the next `STOP`. The edge
that executes the first `STOP` belongs to the transaction before. -/
def transactionEvents (s : Master) (ps : List Port) (q : Port) : List BusEvent :=
  emitted Master.tick observe (run Master.tick s (ps.take 1)) (ps.drop 1 ++ [q])

/-! ### The device addresses -/

/-- Outside `HALT` the device addresses are loaded. -/
def Addressed (t : Master) : Prop :=
  t.state = .halt ∨ (t.ipAddressWrite = 0x42 ∧ t.ipAddressRead = 0x43)

/-- No state but `HALT` writes the device addresses. -/
theorem routine_addresses {t : Master} (ht : t.state ≠ .halt) (p : Port) :
    (t.routine p).ipAddressWrite = t.ipAddressWrite
      ∧ (t.routine p).ipAddressRead = t.ipAddressRead := by
  -- a byte that is sent writes the wires and the counters only
  have hsend : ∀ byte, (t.sendByte byte).ipAddressWrite = t.ipAddressWrite
      ∧ (t.sendByte byte).ipAddressRead = t.ipAddressRead := by
    intro byte
    unfold Master.sendByte
    split_ifs <;> exact ⟨rfl, rfl⟩
  unfold Master.routine
  split
  -- the states in the order of `routine`, `HALT` first
  case h_1 h => exact absurd h ht
  case h_2 | h_7 | h_10 => exact ⟨rfl, rfl⟩
  case h_3 | h_6 | h_9 =>
    first | unfold Master.prepRoutine | unfold Master.inputRoutine | unfold Master.phase4Routine
    split_ifs <;> exact ⟨rfl, rfl⟩
  case h_4 | h_5 | h_8 => exact hsend _

theorem Addressed.tick {t : Master} (ht : Addressed t) (p : Port) : Addressed (t.tick p) := by
  right
  by_cases hst : t.state = .halt
  · -- the edge that leaves `HALT` loads them, and so does every edge in it
    simp only [Master.tick, Master.routine, hst]
    exact ⟨rfl, rfl⟩
  · obtain ⟨hw, hr⟩ := routine_addresses hst p
    obtain ⟨htw, htr⟩ := ht.resolve_left hst
    exact ⟨hw.trans htw, hr.trans htr⟩

theorem addressed_run {t : Master} (ht : t.state = .halt) (ps : List Port) :
    Addressed (run Master.tick t ps) :=
  run_invariant (I := Addressed) (fun _ p hs _ => hs.tick p) (Or.inl ht) (along_true t ps)

/-! ### The length of a transaction -/

theorem noReset_idle : NoReset ⟨false, false, false⟩ := rfl

/-- After the edge that executes `STOP`. -/
theorem Transaction.opened {s : Master} {ps : List Port} (h : Transaction s ps) :
    Opened s.held.opened (run Master.tick s (ps.take 1)) := by
  obtain ⟨p, ps, rfl⟩ := List.exists_cons_of_ne_nil h.nonempty
  exact stop_tick h.opens (h.noReset p List.mem_cons_self)

theorem run_take_drop_one (s : Master) (ps : List Port) (m : ℕ) :
    run Master.tick (run Master.tick s (ps.take 1)) ((ps.drop 1).take m)
      = run Master.tick s (ps.take (1 + m)) := by
  rw [← run_append, List.take_add]

/-- A transaction that closes is not the last one of the table, and it takes 140 edges. -/
theorem Transaction.length_eq {s : Master} {ps : List Port} (h : Transaction s ps) :
    s.held.opened.sccbCounter ≠ 0x3b ∧ (ps.drop 1).length = 139 := by
  have hpos : 0 < ps.length := List.length_pos_of_ne_nil h.nonempty
  have hrest : ∀ p ∈ ps.drop 1, NoReset p := fun p hp => h.noReset p (List.mem_of_mem_drop hp)
  have hend : (run Master.tick (run Master.tick s (ps.take 1)) (ps.drop 1)).state = .stop := by
    rw [← run_append, List.take_append_drop]
    exact h.closes
  have hc : s.held.opened.sccbCounter ≠ 0x3b := by
    -- otherwise the machine would rest in `FIN` and not close the transaction
    intro hc
    have hlast := reaches_rest rfl rfl hc h.opened (ps.drop 1).length
    exact hlast.underway noReset_idle (by omega) hrest hend
  refine ⟨hc, ?_⟩
  have hbody := reaches_stop rfl rfl hc h.opened
  -- before 140 edges the machine is underway
  rcases lt_trichotomy (ps.drop 1).length 139 with hlt | heq | hgt
  · exact absurd hend (hbody.underway noReset_idle hlt hrest)
  · exact heq
  · -- the machine is in `STOP` already after 140 edges
    have hlen : ps.length - 1 = (ps.drop 1).length := List.length_drop.symm
    obtain ⟨-, -, hstop⟩ := hbody ((ps.drop 1).take 139) (by rw [List.length_take]; omega)
      fun p hp => hrest p (List.mem_of_mem_take hp)
    rw [run_take_drop_one] at hstop
    exact absurd hstop.state (h.between _ (by omega) (by omega))

/-- From a `STOP` that does not find the last entry, any 140 edges without reset are a
transaction. -/
theorem Transaction.of_length {s : Master} {ps : List Port} (hs : s.state = .stop)
    (hc : s.held.opened.sccbCounter ≠ 0x3b) (hps : ∀ p ∈ ps, NoReset p)
    (hlen : ps.length = 140) : Transaction s ps := by
  have hne : ps ≠ [] := by
    rintro rfl
    exact absurd hlen (by decide)
  -- the first edge executes `STOP`
  have hopened : Opened s.held.opened (run Master.tick s (ps.take 1)) := by
    obtain ⟨p, ps, rfl⟩ := List.exists_cons_of_ne_nil hne
    exact stop_tick hs (hps p List.mem_cons_self)
  have hrest : ∀ p ∈ ps.drop 1, NoReset p := fun p hp => hps p (List.mem_of_mem_drop hp)
  have hbody := reaches_stop rfl rfl hc hopened
  refine ⟨hs, hne, hps, ?_, fun m hm hlt => ?_⟩
  · obtain ⟨-, -, hend⟩ := hbody (ps.drop 1) (by rw [List.length_drop]; omega) hrest
    rw [← run_append, List.take_append_drop] at hend
    exact hend.state
  -- before the last edge the machine is on its way
  · obtain ⟨k, rfl⟩ := Nat.exists_eq_add_of_le hm
    have hlt' : ((ps.drop 1).take k).length < 139 := by
      rw [List.length_take, List.length_drop]
      omega
    have hmid := hbody.underway noReset_idle hlt' fun p hp => hrest p (List.mem_of_mem_take hp)
    rwa [run_take_drop_one] at hmid

/-! ### The events -/

/-- The edge that executes `STOP` after `FIN` is seen as a STOP. -/
theorem observe_stop {h : Held} {t : Master} (ht : At h .stop 0 false t) (q : Port) :
    observe t q = [.stop] := by
  have hafter : t.tick q = { t.stopRoutine with state := if q.reset then .halt else .prep } := by
    simp only [Master.tick, Master.routine, Master.nextState, ht.state]
  rw [observe, busEvents, hafter, ht.sdioc, ht.level]
  rfl

theorem map_event_bitSights (st : Fsm) (byte : BitVec 8) :
    (bitSights st byte).map Sight.event = (byteBits byte).map .pulse := by
  rw [bitSights, byteBits, List.map_map, List.map_map]
  rfl

theorem map_event_byteSights (st : Fsm) (byte : BitVec 8) :
    (byteSights st byte).map Sight.event = bytePulses byte (byte.getLsbD 0) := by
  rw [byteSights, List.map_append, map_event_bitSights]
  rfl

theorem map_event_watch (s : Master) (p : Port) : (watch s p).map Sight.event = observe s p := by
  rw [watch, List.map_map]
  exact List.map_id _

theorem emitted_observe (s : Master) (ps : List Port) :
    emitted Master.tick observe s ps = (emitted Master.tick watch s ps).map Sight.event := by
  have h : emitted Master.tick (fun s p => (watch s p).flatMap fun x => [x.event]) s ps
      = (emitted Master.tick watch s ps).flatMap fun x => [x.event] :=
    emitted_flatMap _ s ps
  simpa only [← List.map_eq_flatMap, map_event_watch] using h

/-- The sights of a transaction, decoded. -/
theorem wireFormat_sights {h : Held} (hw : h.ipAddressWrite = 0x42) (hr : h.ipAddressRead = 0x43) :
    WireFormat h.subAddress h.writeData
      ((transactionSights h).map Sight.event ++ [.stop]) := by
  refine ⟨(0x42#8).getLsbD 0, h.subAddress.getLsbD 0, h.writeData.getLsbD 0, (0x43#8).getLsbD 0,
    List.replicate 8 true, List.length_replicate, ?_⟩
  simp only [transactionSights, inputSights, readSights, List.map_append, map_event_byteSights,
    map_event_bitSights, hw, hr, bytePulses, List.append_assoc]
  rfl

/-- **Every transaction has the wire format.** Whatever happened since the machine was last in
`HALT`, and whatever bytes `a` and `d` the address and value registers hold, a transaction sends
exactly these. -/
theorem transaction_wire_format (s₀ : Master) (h₀ : s₀.state = .halt) (ps₀ : List Port)
    (a d : BitVec 8) (ps : List Port) (q : Port)
    (h : Transaction { run Master.tick s₀ ps₀ with subAddress := a, writeData := d } ps) :
    WireFormat a d
      (transactionEvents { run Master.tick s₀ ps₀ with subAddress := a, writeData := d } ps q) := by
  generalize hs : { run Master.tick s₀ ps₀ with subAddress := a, writeData := d } = s at h ⊢
  -- since `HALT` the address registers hold the camera's two addresses
  have haddr : s.ipAddressWrite = 0x42 ∧ s.ipAddressRead = 0x43 := by
    have hrun := addressed_run h₀ ps₀
    rcases hrun with hhalt | haddr
    · have hopens := h.opens
      rw [← hs] at hopens
      exact absurd (hhalt.symm.trans hopens) (by decide)
    · rw [← hs]
      exact haddr
  obtain ⟨hc, hlen⟩ := h.length_eq
  -- the sights of the 139 edges after `STOP`, and the STOP of the edge after them
  have hrest : ∀ p ∈ ps.drop 1, NoReset p := fun p hp => h.noReset p (List.mem_of_mem_drop hp)
  obtain ⟨-, hsights, hend⟩ := reaches_stop rfl rfl hc h.opened (ps.drop 1) hlen hrest
  have hevents : transactionEvents s ps q
      = (transactionSights s.held.opened).map Sight.event ++ [.stop] := by
    calc transactionEvents s ps q
        = emitted Master.tick observe (run Master.tick s (ps.take 1)) (ps.drop 1)
            ++ observe (run Master.tick (run Master.tick s (ps.take 1)) (ps.drop 1)) q := by
          rw [transactionEvents, emitted_append, emitted_cons, emitted_nil, List.append_nil]
      _ = (transactionSights s.held.opened).map Sight.event ++ [.stop] := by
          rw [emitted_observe, hsights, observe_stop hend]
  have hformat := wireFormat_sights (h := s.held.opened) haddr.1 haddr.2
  -- what is left is the wire format of these sights
  rw [hevents]
  have ha : s.held.opened.subAddress = a := by rw [← hs]; rfl
  have hd : s.held.opened.writeData = d := by rw [← hs]; rfl
  rwa [ha, hd] at hformat

/-- The first transaction after power-up, which resets the camera. -/
theorem transaction_wire_format_first :
    WireFormat 0x12 0x80
      (transactionEvents
        { run Master.tick powerUp [⟨false, true, false⟩] with
          subAddress := 0x12
          writeData := 0x80 }
        (List.replicate 140 ⟨false, false, false⟩) ⟨false, false, false⟩) :=
  transaction_wire_format powerUp rfl [⟨false, true, false⟩] 0x12 0x80 _ _
    (.of_length rfl (by decide) (fun _ hp => List.eq_of_mem_replicate hp ▸ noReset_idle)
      List.length_replicate)

end Sccb
end VideoEncryption
