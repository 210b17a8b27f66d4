import VideoEncryption.Clocked.Fair
import VideoEncryption.Key.Delivery

/-!
# Whether a transfer comes to its end

The program polls for acknowledgements. As long as both sides keep going, a transfer ends, with one
exception: a program that tests the acknowledgement of a store code before the receiver has seen the
code goes on to poll for the next-byte code without having sent it. Unless it finds the
acknowledgement of the byte before, it polls for good (`Hung`).

* `sync_leadsTo`, `byte_leadsTo`, `key_leadsTo`, `command_leadsTo` — the parts of a transfer;
* `transfer_ends_or_hangs` — **every transfer of every fair run**;
* `every_round_delivered` — a clock edge between any two accesses rules the exception out.
-/

namespace VideoEncryption
namespace Key

open Clocked

variable {rounds : ℕ → Round} {s : System} {r : ℕ} {p : Phase} {i : ℕ} {c : Sync}

/-- What a fair schedule of accesses and clock edges leads to. -/
abbrev Leads (rounds : ℕ → Round) (P Q : System → Prop) : Prop :=
  FairlyLeadsTo (step rounds) id (fun _ => True) (fun _ => True) P Q

/-- In round `r`, before the access `pc`. -/
def At (r : ℕ) (pc : Pc) (s : System) : Prop := s.round = r ∧ s.pc = pc

/-- With the code `sig` on the wire. -/
def AtSig (r : ℕ) (pc : Pc) (sig : BitVec 8) (s : System) : Prop := At r pc s ∧ s.toHwSig = sig

/-- The program polls for the next-byte code with the store code on the wire and acknowledged. -/
def Hung (s : System) : Prop :=
  ∃ p i, s.pc = .poll p i ∧ s.toHwSig = p.storeCode ∧ s.receiver.toSwSig = p.storeCode

/-! ### One access or one clock edge -/

/-- The next access, with clock edges before it. -/
theorem Leads.of_access {P Q : System → Prop} (htick : ∀ s, P s → P s.tick)
    (haccess : ∀ s, P s → Q (step rounds s .access)) : Leads rounds P Q := by
  refine .of_kind .access (fun _ _ => trivial) (fun s a hs _ ha => ?_) fun s a hs _ ha => ?_
  · cases a
    exacts [absurd rfl ha, htick s hs]
  · cases ha
    exact haccess s hs

/-- The next clock edge, unless an access arrives before it. -/
theorem Leads.of_tick {P Q : System → Prop}
    (haccess : ∀ s, P s → P (step rounds s .access) ∨ Q (step rounds s .access))
    (htick : ∀ s, P s → Q s.tick) : Leads rounds P Q := by
  refine .of_kind_or .tick (fun _ _ => trivial) (fun s a hs _ ha => ?_) fun s a hs _ ha => ?_
  · cases a
    exacts [haccess s hs, absurd rfl ha]
  · cases ha
    exact htick s hs

theorem At.tick {pc : Pc} (hs : At r pc s) : At r pc s.tick := hs

theorem toSwSig_tick_of_eq {sig : BitVec 8} (hsig : s.toHwSig = sig)
    (hack : ∀ (h : Receiver) (port : BitVec 8), (h.tick sig port).toSwSig = sig) :
    s.tick.receiver.toSwSig = sig := by
  rw [System.tick, hsig]
  exact hack _ _

/-! ### Waiting for a code -/

theorem toSwSig_tick_code (c : Sync) (h : Receiver) (port : BitVec 8) :
    (h.tick c.code port).toSwSig = c.code := by
  cases c <;> rfl

theorem toSwSig_tick_nextCode (p : Phase) (h : Receiver) (port : BitVec 8) :
    (h.tick p.nextCode port).toSwSig = p.nextCode := by
  cases p <;> rfl

theorem access_awaitSync (rounds : ℕ → Round) (hs : At r (.awaitSync c) s) :
    (s.receiver.toSwSig = c.code ∧ At r (.putPort c.phase 0) (step rounds s .access)) ∨
      (s.receiver.toSwSig ≠ c.code ∧ At r (.writeSync c) (step rounds s .access) ∧
        (step rounds s .access).toHwSig = s.toHwSig ∧
        (step rounds s .access).receiver = s.receiver) := by
  obtain ⟨hr, hpc⟩ := hs
  by_cases hack : s.receiver.toSwSig = c.code
  · refine .inl ⟨hack, ?_, ?_⟩ <;> simp [step, System.access, hpc, hack, hr]
  · refine .inr ⟨hack, ⟨?_, ?_⟩, ?_, ?_⟩ <;> simp [step, System.access, hpc, hack, hr]

theorem access_writeSync (rounds : ℕ → Round) (hs : At r (.writeSync c) s) :
    AtSig r (.awaitSync c) c.code (step rounds s .access) ∧
      (step rounds s .access).receiver = s.receiver := by
  obtain ⟨hr, hpc⟩ := hs
  refine ⟨⟨⟨?_, ?_⟩, ?_⟩, ?_⟩ <;> simp [step, System.access, hpc, hr]

/-- The code is on the wire and acknowledged. -/
def Acknowledged (r : ℕ) (pc : Pc) (sig : BitVec 8) (s : System) : Prop :=
  AtSig r pc sig s ∧ s.receiver.toSwSig = sig

theorem acknowledged_leadsTo (rounds : ℕ → Round) (r : ℕ) (c : Sync) :
    Leads rounds (fun s => Acknowledged r (.awaitSync c) c.code s ∨
      Acknowledged r (.writeSync c) c.code s) (At r (.putPort c.phase 0)) := by
  -- the acknowledgement stays until the next access reads it
  have hawait : Leads rounds (Acknowledged r (.awaitSync c) c.code) (At r (.putPort c.phase 0)) :=
    .of_access (fun s hs => ⟨hs.1, toSwSig_tick_of_eq hs.1.2 (toSwSig_tick_code c)⟩)
      fun s hs => ((access_awaitSync rounds hs.1.1).resolve_right fun h => h.1 hs.2).2
  have hwrite : Leads rounds (Acknowledged r (.writeSync c) c.code)
      (Acknowledged r (.awaitSync c) c.code) :=
    .of_access (fun s hs => ⟨hs.1, toSwSig_tick_of_eq hs.1.2 (toSwSig_tick_code c)⟩) fun s hs => by
      obtain ⟨hat, hrec⟩ := access_writeSync rounds hs.1.1
      exact ⟨hat, by rw [hrec]; exact hs.2⟩
  exact hawait.or (hwrite.trans hawait)

/-- **The loops that send a code until it is acknowledged** end. -/
theorem sync_leadsTo (rounds : ℕ → Round) (r : ℕ) (c : Sync) :
    Leads rounds (At r (.awaitSync c)) (At r (.putPort c.phase 0)) := by
  -- the code is sent
  have hfirst : Leads rounds (At r (.awaitSync c))
      fun s => At r (.putPort c.phase 0) s ∨ At r (.writeSync c) s :=
    .of_access (fun s hs => hs.tick) fun s hs => (access_awaitSync rounds hs).imp And.right (·.2.1)
  have hwrite : Leads rounds (At r (.writeSync c)) (AtSig r (.awaitSync c) c.code) :=
    .of_access (fun s hs => hs.tick) fun s hs => (access_writeSync rounds hs).1
  -- and a clock edge acknowledges it
  have hedge : Leads rounds
      (fun s => AtSig r (.awaitSync c) c.code s ∨ AtSig r (.writeSync c) c.code s)
      fun s => At r (.putPort c.phase 0) s ∨ (Acknowledged r (.awaitSync c) c.code s ∨
        Acknowledged r (.writeSync c) c.code s) := by
    refine .of_tick (fun s hs => ?_) fun s hs => .inr (hs.imp (fun h => ?_) fun h => ?_)
    · rcases hs with hs | hs
      · rcases access_awaitSync rounds hs.1 with ⟨-, h⟩ | ⟨-, h, hsig, -⟩
        exacts [.inr (.inl h), .inl (.inr ⟨h, hsig.trans hs.2⟩)]
      · exact .inl (.inl (access_writeSync rounds hs.1).1)
    · exact ⟨h, toSwSig_tick_of_eq h.2 (toSwSig_tick_code c)⟩
    · exact ⟨h, toSwSig_tick_of_eq h.2 (toSwSig_tick_code c)⟩
  -- in the loop with its code on the wire
  have hsent : Leads rounds (AtSig r (.awaitSync c) c.code) (At r (.putPort c.phase 0)) :=
    (FairlyLeadsTo.of_imp fun s hs => Or.inl hs).trans
      (hedge.trans ((FairlyLeadsTo.of_imp fun _ hs => hs).or (acknowledged_leadsTo rounds r c)))
  exact hfirst.trans ((FairlyLeadsTo.of_imp fun _ hs => hs).or (hwrite.trans hsent))

/-! ### One byte -/

/-- Where the program is with `i` bytes of a key sent. -/
def Phase.place (p : Phase) (i : ℕ) : Pc := if i < p.length then .putPort p i else p.after

theorem access_poll (rounds : ℕ → Round) (hs : At r (.poll p i) s) :
    (s.receiver.toSwSig = p.nextCode ∧ At r (p.place (i + 1)) (step rounds s .access)) ∨
      (s.receiver.toSwSig ≠ p.nextCode ∧ At r (.poll p i) (step rounds s .access) ∧
        (step rounds s .access).toHwSig = s.toHwSig ∧
        (step rounds s .access).receiver = s.receiver) := by
  obtain ⟨hr, hpc⟩ := hs
  by_cases hack : s.receiver.toSwSig = p.nextCode
  · refine .inl ⟨hack, ?_, ?_⟩ <;> simp [step, System.access, hpc, hack, hr, Phase.place]
  · refine .inr ⟨hack, ⟨?_, ?_⟩, ?_, ?_⟩ <;> simp [step, System.access, hpc, hack, hr]

/-- The end of a byte: the program moves on, or polls for good. -/
def AtOrHung (r : ℕ) (pc : Pc) (s : System) : Prop := At r pc s ∨ s.round = r ∧ Hung s

/-- With the next-byte code on the wire the program moves on. -/
theorem poll_leadsTo (rounds : ℕ → Round) (r : ℕ) (p : Phase) (i : ℕ) :
    Leads rounds (AtSig r (.poll p i) p.nextCode) (At r (p.place (i + 1))) := by
  have hacknowledged :
      Leads rounds (Acknowledged r (.poll p i) p.nextCode) (At r (p.place (i + 1))) :=
    .of_access (fun s hs => ⟨hs.1, toSwSig_tick_of_eq hs.1.2 (toSwSig_tick_nextCode p)⟩)
      fun s hs => ((access_poll rounds hs.1.1).resolve_right fun h => h.1 hs.2).2
  -- the next edge acknowledges, unless the program has seen the code before
  have hedge : Leads rounds (AtSig r (.poll p i) p.nextCode)
      fun s => At r (p.place (i + 1)) s ∨ Acknowledged r (.poll p i) p.nextCode s := by
    refine .of_tick (fun s hs => ?_) fun s hs =>
      .inr ⟨hs, toSwSig_tick_of_eq hs.2 (toSwSig_tick_nextCode p)⟩
    rcases access_poll rounds hs.1 with ⟨-, h⟩ | ⟨-, h, hsig, -⟩
    exacts [.inr (.inl h), .inl ⟨h, hsig.trans hs.2⟩]
  exact hedge.trans ((FairlyLeadsTo.of_imp fun _ hs => hs).or hacknowledged)

/-- With the store code on the wire it moves on by mistake, or polls for good. -/
theorem poll_storeCode_leadsTo (rounds : ℕ → Round) (r : ℕ) (p : Phase) (i : ℕ) :
    Leads rounds (AtSig r (.poll p i) p.storeCode) (AtOrHung r (p.place (i + 1))) := by
  refine .of_tick (fun s hs => ?_) fun s hs => .inr ⟨hs.1.1, p, i, hs.1.2, hs.2, ?_⟩
  · rcases access_poll rounds hs.1 with ⟨-, h⟩ | ⟨-, h, hsig, -⟩
    exacts [.inr (.inl h), .inl ⟨h, hsig.trans hs.2⟩]
  · exact toSwSig_tick_of_eq hs.2 fun h port => h.tick_storeCode_toSwSig port p

/-- **One byte** of a key. -/
theorem byte_leadsTo (rounds : ℕ → Round) (r : ℕ) (p : Phase) (i : ℕ) :
    Leads rounds (At r (.putPort p i)) (AtOrHung r (p.place (i + 1))) := by
  have hport : Leads rounds (At r (.putPort p i)) (At r (.putSig p i)) :=
    .of_access (fun s hs => hs.tick) fun s hs => by
      constructor <;> simp [step, System.access, hs.2, hs.1]
  have hsig : Leads rounds (At r (.putSig p i)) (AtSig r (.check p i) p.storeCode) :=
    .of_access (fun s hs => hs.tick) fun s hs => by
      refine ⟨⟨?_, ?_⟩, ?_⟩ <;> simp [step, System.access, hs.2, hs.1]
  -- the test is made once: without the acknowledgement the program polls with the store code
  have hcheck : Leads rounds (AtSig r (.check p i) p.storeCode)
      fun s => At r (.putNext p i) s ∨ AtSig r (.poll p i) p.storeCode s := by
    refine .of_access (fun s hs => hs) fun s hs => ?_
    obtain ⟨⟨hr, hpc⟩, hwire⟩ := hs
    by_cases hack : s.receiver.toSwSig = p.storeCode
    · left
      constructor <;> simp [step, System.access, hpc, hack, hr]
    · right
      refine ⟨⟨?_, ?_⟩, ?_⟩ <;> simp [step, System.access, hpc, hack, hr, hwire]
  have hnext : Leads rounds (At r (.putNext p i)) (AtSig r (.poll p i) p.nextCode) :=
    .of_access (fun s hs => hs.tick) fun s hs => by
      refine ⟨⟨?_, ?_⟩, ?_⟩ <;> simp [step, System.access, hs.2, hs.1]
  have hdone : Leads rounds (At r (p.place (i + 1))) (AtOrHung r (p.place (i + 1))) :=
    .of_imp fun _ hs => .inl hs
  -- either the next-byte code is sent, or the poll is on the store code
  exact hport.trans (hsig.trans (hcheck.trans
    ((hnext.trans ((poll_leadsTo rounds r p i).trans hdone)).or
      (poll_storeCode_leadsTo rounds r p i))))

/-! ### A transfer -/

theorem AtOrHung.leadsTo {pc pc' : Pc} (h : Leads rounds (At r pc) (AtOrHung r pc')) :
    Leads rounds (AtOrHung r pc) (AtOrHung r pc') :=
  h.or (.of_imp fun _ hs => .inr hs)

/-- **One key**: its bytes in turn. -/
theorem key_leadsTo (rounds : ℕ → Round) (r : ℕ) (p : Phase) :
    Leads rounds (At r (.putPort p 0)) (AtOrHung r p.after) := by
  have hloop : Leads rounds (AtOrHung r (p.place 0)) (AtOrHung r (p.place p.length)) :=
    FairlyLeadsTo.loop (L := fun i => AtOrHung r (p.place i)) fun i hi => by
      rw [show p.place i = .putPort p i from if_pos hi]
      exact AtOrHung.leadsTo (byte_leadsTo rounds r p i)
  have hfirst : p.place 0 = .putPort p 0 := if_pos (by cases p <;> decide)
  have hlast : p.place p.length = p.after := if_neg (lt_irrefl _)
  rw [hfirst, hlast] at hloop
  exact (FairlyLeadsTo.of_imp fun _ hs => Or.inl hs).trans hloop

theorem access_pollTen (rounds : ℕ → Round) (hs : At r .pollTen s) :
    (s.receiver.toSwSig = 10 ∧ At r .putZero (step rounds s .access)) ∨
      (s.receiver.toSwSig ≠ 10 ∧ At r .pollTen (step rounds s .access) ∧
        (step rounds s .access).toHwSig = s.toHwSig ∧
        (step rounds s .access).receiver = s.receiver) := by
  obtain ⟨hr, hpc⟩ := hs
  by_cases hack : s.receiver.toSwSig = 10
  · refine .inl ⟨hack, ?_, ?_⟩ <;> simp [step, System.access, hpc, hack, hr]
  · refine .inr ⟨hack, ⟨?_, ?_⟩, ?_, ?_⟩ <;>
      simp only [step, System.access, hpc, hr, ne_eq, hack, not_false_eq_true, if_true]

/-- **The command** is sent and acknowledged. -/
theorem command_leadsTo (rounds : ℕ → Round) (r : ℕ) :
    Leads rounds (At r .putCommand) (At r .putZero) := by
  have hport : Leads rounds (At r .putCommand) (At r .putTen) :=
    .of_access (fun s hs => hs.tick) fun s hs => by
      constructor <;> simp [step, System.access, hs.2, hs.1]
  have hsig : Leads rounds (At r .putTen) (AtSig r .pollTen 10) :=
    .of_access (fun s hs => hs.tick) fun s hs => by
      refine ⟨⟨?_, ?_⟩, ?_⟩ <;> simp [step, System.access, hs.2, hs.1]
  -- code 10 has not been on the wire before, so only an edge acknowledges it
  have hedge : Leads rounds (AtSig r .pollTen 10)
      fun s => At r .putZero s ∨ Acknowledged r .pollTen 10 s := by
    refine .of_tick (fun s hs => ?_) fun s hs =>
      .inr ⟨hs, toSwSig_tick_of_eq hs.2 fun _ _ => rfl⟩
    rcases access_pollTen rounds hs.1 with ⟨-, h⟩ | ⟨-, h, hwire, -⟩
    exacts [.inr (.inl h), .inl ⟨h, hwire.trans hs.2⟩]
  have hacknowledged : Leads rounds (Acknowledged r .pollTen 10) (At r .putZero) :=
    .of_access (fun s hs => ⟨hs.1, toSwSig_tick_of_eq hs.1.2 fun _ _ => rfl⟩)
      fun s hs => ((access_pollTen rounds hs.1.1).resolve_right fun h => h.1 hs.2).2
  exact hport.trans (hsig.trans (hedge.trans
    ((FairlyLeadsTo.of_imp fun _ hs => hs).or hacknowledged)))

/-- **A transfer** comes to its last access, or hangs. -/
theorem transfer_leadsTo (hr : Transfers (rounds r)) :
    Leads rounds (At r .topPort) (AtOrHung r .putZero) := by
  have htop : Leads rounds (At r .topPort) (At r (.awaitSync .start)) := by
    refine .of_access (fun s hs => hs.tick) fun s hs => ?_
    obtain ⟨pc, round, sig, port, h, ticked, stored⟩ := s
    obtain ⟨rfl, rfl⟩ := hs
    rw [step_topPort_of_command hr]
    exact ⟨rfl, rfl⟩
  -- each key after its loop
  have hsynced (c : Sync) : Leads rounds (At r (.awaitSync c)) (AtOrHung r c.phase.after) :=
    (sync_leadsTo rounds r c).trans (key_leadsTo rounds r c.phase)
  have hcommand : Leads rounds (At r .putCommand) (AtOrHung r .putZero) :=
    (command_leadsTo rounds r).trans (.of_imp fun _ hs => .inl hs)
  -- what may hang in one key may not come to the next one
  exact htop.trans ((hsynced .start).trans ((AtOrHung.leadsTo (hsynced .afterRow)).trans
    ((AtOrHung.leadsTo (hsynced .afterColumn)).trans (AtOrHung.leadsTo hcommand))))

/-! ### Hanging -/

/-- **A program that polls for good** does, whatever comes. -/
theorem Hung.step (hs : Hung s) (a : Action) :
    Hung (step rounds s a) ∧ (step rounds s a).round = s.round := by
  obtain ⟨p, i, hpc, hsig, hack⟩ := hs
  cases a
  case tick =>
    exact ⟨⟨p, i, hpc, hsig, toSwSig_tick_of_eq hsig fun h port => h.tick_storeCode_toSwSig port p⟩,
      rfl⟩
  case access =>
    -- the acknowledgement of the store code is not what it polls for
    have hne : s.receiver.toSwSig ≠ p.nextCode := by
      rw [hack]
      exact p.storeCode_ne_nextCode p
    obtain ⟨-, hat, hsig', hrec⟩ :=
      (access_poll rounds ⟨rfl, hpc⟩).resolve_left fun h => hne h.1
    exact ⟨⟨p, i, hat.2, hsig'.trans hsig, by rw [hrec]; exact hack⟩, hat.1⟩

theorem Hung.stateAt (hs : Hung s) (hr : s.round = r) (inp : ℕ → Action) (n : ℕ) :
    Hung (stateAt (Key.step rounds) s inp n) ∧ (stateAt (Key.step rounds) s inp n).round = r :=
  stateAt_invariant (c := fun _ _ => True) (I := fun t => Hung t ∧ t.round = r)
    (fun _ a ht _ => ⟨(ht.1.step a).1, (ht.1.step a).2.trans ht.2⟩) ⟨hs, hr⟩ (fun _ => trivial) n

/-- **A transfer ends or hangs.** Begun in any state and under any schedule on which the program and
the receiver keep going, it comes to its last access or to a poll that it never leaves. -/
theorem transfer_ends_or_hangs (rounds : ℕ → Round) (s : System) (inp : ℕ → Action)
    (hpc : s.pc = .topPort) (hr : Transfers (rounds s.round))
    (hfair : ∀ (a : Action) (n : ℕ), ∃ k, inp (n + k) = a) :
    ∃ n, (stateAt (step rounds) s inp n).round = s.round ∧
      ((stateAt (step rounds) s inp n).pc = .putZero ∨
        ∀ m ≥ n, Hung (stateAt (step rounds) s inp m) ∧
          (stateAt (step rounds) s inp m).round = s.round) := by
  obtain ⟨n, hn, -⟩ := transfer_leadsTo hr s ⟨rfl, hpc⟩ inp ⟨fun _ => trivial, hfair⟩
  rcases hn with hend | ⟨hround, hhung⟩
  · exact ⟨n, hend.1, .inl hend.2⟩
  · refine ⟨n, hround, .inr fun m hm => ?_⟩
    obtain ⟨j, rfl⟩ := Nat.exists_eq_add_of_le hm
    rw [stateAt_add]
    exact hhung.stateAt hround _ j

/-- The program and the clock in turn. -/
def inTurn (n : ℕ) : Action := if n % 2 = 0 then .tick else .access

theorem inTurn_fair (a : Action) (n : ℕ) : ∃ k, inTurn (n + k) = a := by
  cases a
  case tick =>
    refine ⟨n % 2, if_pos ?_⟩
    omega
  case access =>
    refine ⟨1 - n % 2, if_neg ?_⟩
    omega

/-- A transfer begun with the receiver at power-up. -/
theorem transfer_ends_or_hangs_in_turn :
    ∃ n, (stateAt (step exampleRounds) { boot with pc := .topPort } inTurn n).round = 0 ∧
      ((stateAt (step exampleRounds) { boot with pc := .topPort } inTurn n).pc = .putZero ∨
        ∀ m ≥ n, Hung (stateAt (step exampleRounds) { boot with pc := .topPort } inTurn m) ∧
          (stateAt (step exampleRounds) { boot with pc := .topPort } inTurn m).round = 0) :=
  transfer_ends_or_hangs exampleRounds { boot with pc := .topPort } inTurn rfl (Or.inl rfl)
    inTurn_fair

/-! ### Spaced runs -/

section Spaced

variable {sig port : BitVec 8} {h : Receiver} {inp : ℕ → Action}

theorem started_stateAt
    (hsp : ∀ n, Spaced (stateAt (step rounds) (start sig port h) inp n) (inp n)) (n : ℕ) :
    Started (rounds (stateAt (step rounds) (start sig port h) inp n).round)
      (stateAt (step rounds) (start sig port h) inp n) :=
  stateAt_invariant (I := fun t => Started (rounds t.round) t)
    (fun _ a ht hc => started_step a ht hc) (started_start _ sig port h) hsp n

/-- The invariant leaves the next-byte code on the wire while the program polls for it. -/
theorem Started.not_hung {k : Round} (hs : Started k s) : ¬ Hung s := by
  rintro ⟨p, i, hpc, hsig, -⟩
  rcases hs.inv with hinit | hinit | hinv
  · exact nomatch hpc.symm.trans hinit
  · exact nomatch hpc.symm.trans hinit
  · rw [Inv, hpc] at hinv
    obtain ⟨-, -, -, hnext, -⟩ := hinv
    exact p.storeCode_ne_nextCode p (hsig.symm.trans hnext)

theorem Started.delivered {k : Round} (hs : Started k s) (hpc : s.pc = .putZero) :
    Delivered k s.receiver := by
  rcases hs.inv with hinit | hinit | hinv
  · exact nomatch hpc.symm.trans hinit
  · exact nomatch hpc.symm.trans hinit
  · exact hinv.delivered hpc

/-- A transfer of a spaced run comes to its last access. -/
theorem spaced_transfer_ends
    (hsp : ∀ n, Spaced (stateAt (step rounds) (start sig port h) inp n) (inp n))
    (hfair : ∀ (a : Action) (n : ℕ), ∃ k, inp (n + k) = a) (hr : Transfers (rounds r)) {n : ℕ}
    (hn : At r .topPort (stateAt (step rounds) (start sig port h) inp n)) :
    ∃ m, At r .putZero (stateAt (step rounds) (start sig port h) inp (n + m)) := by
  obtain ⟨m, hm, -⟩ := transfer_leadsTo hr _ hn _ ((Fair.mk (fun _ => trivial) hfair).drop n)
  rw [← stateAt_add] at hm
  refine ⟨m, hm.resolve_right fun hhung => ?_⟩
  exact (started_stateAt hsp (n + m)).not_hung hhung.2

/-- Every round of a spaced run begins. -/
theorem spaced_round_begins
    (hsp : ∀ n, Spaced (stateAt (step rounds) (start sig port h) inp n) (inp n))
    (hfair : ∀ (a : Action) (n : ℕ), ∃ k, inp (n + k) = a) (r : ℕ) :
    ∃ n, At r .topPort (stateAt (step rounds) (start sig port h) inp n) := by
  -- a spaced run is a fair one
  have hstream : Fair id (fun _ => True) inp := ⟨fun _ => trivial, hfair⟩
  have htop (r : ℕ) : Leads rounds (At r .topSig) (At r .topPort) :=
    .of_access (fun s hs => hs.tick) fun s hs => by
      constructor <;> simp [step, System.access, hs.2, hs.1]
  induction r with
  | zero =>
    have hsig : Leads rounds (At 0 .initSig) (At 0 .initPort) :=
      .of_access (fun s hs => hs.tick) fun s hs => by
        constructor <;> simp [step, System.access, hs.2, hs.1]
    have hport : Leads rounds (At 0 .initPort) (At 0 .topSig) :=
      .of_access (fun s hs => hs.tick) fun s hs => by
        constructor <;> simp [step, System.access, hs.2, hs.1]
    obtain ⟨n, hn, -⟩ := hsig.trans (hport.trans (htop 0)) (start sig port h) ⟨rfl, rfl⟩ inp hstream
    exact ⟨n, hn⟩
  | succ r ih =>
    obtain ⟨n, hn⟩ := ih
    -- the end of the round before, with a transfer or without one
    have hend : ∃ m, ∃ pc, At r pc (stateAt (step rounds) (start sig port h) inp m) ∧
        Leads rounds (At r pc) (At (r + 1) .topSig) := by
      by_cases hr : Transfers (rounds r)
      · obtain ⟨m, hm⟩ := spaced_transfer_ends hsp hfair hr hn
        refine ⟨n + m, .putZero, hm, .of_access (fun s hs => hs.tick) fun s hs => ?_⟩
        constructor <;> simp [step, System.access, hs.2, hs.1]
      · refine ⟨n, .topPort, hn, .of_access (fun s hs => hs.tick) fun s hs => ?_⟩
        obtain ⟨pc, round, wire, out, rec, ticked, stored⟩ := s
        obtain ⟨rfl, rfl⟩ := hs
        rw [step_topPort_of_not hr]
        exact ⟨rfl, rfl⟩
    obtain ⟨m, pc, hm, hnext⟩ := hend
    obtain ⟨l, hl, -⟩ := hnext.trans (htop (r + 1)) _ hm _ (hstream.drop m)
    rw [← stateAt_add] at hl
    exact ⟨m + l, hl⟩

/-- **Every round is delivered.** With a clock edge between any two accesses, a program and a
receiver that keep going begin every round, and come to the last access of every round that has a
command; the receiver then holds the row key, the column key and the command of that round. -/
theorem every_round_delivered (rounds : ℕ → Round) (sig port : BitVec 8) (h : Receiver)
    (inp : ℕ → Action)
    (hsp : ∀ n, Spaced (stateAt (step rounds) (start sig port h) inp n) (inp n))
    (hfair : ∀ (a : Action) (n : ℕ), ∃ k, inp (n + k) = a) (r : ℕ) :
    (∃ n, (stateAt (step rounds) (start sig port h) inp n).round = r ∧
        (stateAt (step rounds) (start sig port h) inp n).pc = .topPort) ∧
      (Transfers (rounds r) →
        ∃ n, (stateAt (step rounds) (start sig port h) inp n).round = r ∧
          (stateAt (step rounds) (start sig port h) inp n).pc = .putZero ∧
          Delivered (rounds r) (stateAt (step rounds) (start sig port h) inp n).receiver) := by
  obtain ⟨n, hn⟩ := spaced_round_begins hsp hfair r
  refine ⟨⟨n, hn⟩, fun hr => ?_⟩
  obtain ⟨m, hround, hpc⟩ := spaced_transfer_ends hsp hfair hr hn
  -- a spaced run does not hang
  refine ⟨n + m, hround, hpc, ?_⟩
  rw [← hround]
  exact (started_stateAt hsp (n + m)).delivered hpc

end Spaced

/-- In turn, a clock edge comes before every access. -/
theorem spaced_inTurn (s : System) (n : ℕ) :
    Spaced (stateAt (step rounds) s inTurn n) (inTurn n) := by
  intro hn
  right
  obtain ⟨m, rfl⟩ : ∃ m, n = 2 * m + 1 := by
    refine ⟨n / 2, ?_⟩
    by_contra hodd
    rw [inTurn, if_pos (by omega)] at hn
    exact nomatch hn
  rw [stateAt_succ, show inTurn (2 * m) = .tick from if_pos (by omega)]
  rfl

/-- The second round of the example. -/
theorem every_round_delivered_in_turn :
    ∃ n, (stateAt (step exampleRounds) (start 0 0 powerUp) inTurn n).round = 1 ∧
      (stateAt (step exampleRounds) (start 0 0 powerUp) inTurn n).pc = .putZero ∧
      Delivered (exampleRounds 1)
        (stateAt (step exampleRounds) (start 0 0 powerUp) inTurn n).receiver :=
  (every_round_delivered exampleRounds 0 0 powerUp inTurn (spaced_inTurn _) inTurn_fair 1).2
    (Or.inl rfl)

end Key
end VideoEncryption
