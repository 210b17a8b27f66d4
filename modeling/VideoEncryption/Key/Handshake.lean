import VideoEncryption.Key.Main

/-!
# The handshake

What the program and the receiver hold at every access, and when the handshake is independent of
the timing. The acknowledgement of a store code is tested once and not polled, so a program that
tests it before a clock edge has fallen waits for the next-byte code without having sent it, or
takes the acknowledgement of the byte before for its own.

* `Inv` — the invariant, one clause for each control point of the program;
* `Timely` — a clock edge falls between a store code and its test, and the counter is clear when a
  round starts;
* `inv_step` — timely steps keep the invariant;
* `handshake_of_timely` — **timely runs deliver every byte and never lock up**.
-/

namespace VideoEncryption
namespace Key

open Clocked

/-! ### The invariant -/

/-- The first `n` slots of the phase `p` hold the bytes sent. The program advances the diagonal key
by eight slots at a time, so nothing is said of it. -/
def Filled (k : Round) (p : Phase) (n : ℕ) (h : Receiver) : Prop :=
  p ≠ .diagonal → ∀ j < n, h.slot p j = some (k.key p j)

/-- The keys sent before the phase `p` are in place. -/
def Earlier (k : Round) (h : Receiver) : Phase → Prop
  | .row => True
  | .column => Filled k .row 8 h
  | .diagonal => Filled k .row 8 h ∧ Filled k .column 10 h

/-- Byte `i` of the phase `p` has been stored, and it was stored after the program wrote it to the
port. -/
def Taken (k : Round) (p : Phase) (i : ℕ) (s : System) : Prop :=
  Filled k p (i + 1) s.receiver ∧ (p ≠ .diagonal → s.stored = some ⟨p, i, k.key p i⟩)

/-- The receiver has acknowledged the code it sees. -/
def Settled (code : BitVec 8) (s : System) : Prop :=
  s.toHwSig = code ∧ s.receiver.toSwSig = code

/-- The code on the wire when such a loop is entered. -/
def Sync.entry : Sync → BitVec 8
  | start => 0
  | afterRow => 3
  | afterColumn => 6

/-- In a loop that waits for the code `c`: it has not been sent yet, or it has and is acknowledged
only with the counter clear. -/
def Syncing (c : Sync) (s : System) : Prop :=
  (s.toHwSig = c.entry ∧ s.receiver.toSwSig ≠ c.code) ∨
    (s.toHwSig = c.code ∧ ((s.receiver.toSwSig ≠ c.code ∧ c ≠ .start) ∨ s.receiver.counter = 0))

/-- The code of the synchronisation before a phase. -/
def Phase.syncCode : Phase → BitVec 8
  | row => 1
  | column => 4
  | diagonal => 7

/-- The code on the wire before byte `i` of the phase `p` is sent. -/
def Phase.codeBefore (p : Phase) (i : ℕ) : BitVec 8 := if i = 0 then p.syncCode else p.nextCode

/-- The counter points to slot `i` of the phase `p`, and everything before it is in place. -/
structure Pointing (k : Round) (p : Phase) (i : ℕ) (s : System) : Prop where
  lt_length : i < p.length
  earlier : Earlier k s.receiver p
  filled : Filled k p i s.receiver
  counter : s.receiver.counter = BitVec.ofNat 5 (p.stride * i)

/-- All keys are in place. -/
def Complete (k : Round) (s : System) : Prop :=
  Filled k .row 8 s.receiver ∧ Filled k .column 10 s.receiver

/-- The port holds the command. -/
def CommandReady (k : Round) (s : System) : Prop :=
  (k.command = 'E' → s.toHwPort = 1) ∧ (k.command = 'D' → s.toHwPort = 0)

/-- What holds when the program performs the given access next. -/
def InvAt (k : Round) (s : System) : Pc → Prop
  | .initSig | .initPort | .topSig | .topPort => s.toHwSig = 0 ∧ s.receiver.toSwSig ≠ 1
  | .awaitSync c | .writeSync c => Earlier k s.receiver c.phase ∧ Syncing c s
  | .putPort p i => Pointing k p i s ∧ Settled (p.codeBefore i) s
  | .putSig p i => Pointing k p i s ∧ Settled (p.codeBefore i) s ∧ s.toHwPort = k.key p i
  | .check p i =>
    Pointing k p i s ∧ s.toHwPort = k.key p i ∧ s.toHwSig = p.storeCode ∧
      (s.ticked = true → s.receiver.toSwSig = p.storeCode ∧ Taken k p i s)
  | .putNext p i =>
    Pointing k p i s ∧ s.toHwPort = k.key p i ∧ Settled p.storeCode s ∧ Taken k p i s
  | .poll p i =>
    i < p.length ∧ Earlier k s.receiver p ∧ Taken k p i s ∧ s.toHwSig = p.nextCode ∧
      ((s.receiver.toSwSig = p.storeCode ∧ s.receiver.counter = BitVec.ofNat 5 (p.stride * i)) ∨
        (s.receiver.toSwSig = p.nextCode ∧
          s.receiver.counter = BitVec.ofNat 5 (p.stride * (i + 1))))
  | .putCommand => Complete k s ∧ Settled 9 s
  | .putTen => Complete k s ∧ Settled 9 s ∧ CommandReady k s
  | .pollTen =>
    Complete k s ∧ s.toHwSig = 10 ∧ CommandReady k s ∧
      (s.receiver.toSwSig = 10 → s.receiver.command = s.toHwPort.getLsbD 0)
  | .putZero =>
    Complete k s ∧ CommandReady k s ∧ Settled 10 s ∧
      s.receiver.command = s.toHwPort.getLsbD 0

/-- **The invariant.** -/
def Inv (k : Round) (s : System) : Prop := InvAt k s s.pc

/-- The condition on the timing: when the program tests the acknowledgement of a store code a clock
edge has fallen since it wrote the code, and when it writes code 1 the counter is clear. -/
def Timely (s : System) (a : Action) : Prop :=
  match a, s.pc with
  | .access, .check _ _ => s.ticked = true
  | .access, .writeSync .start => s.receiver.counter = 0
  | _, _ => True

variable {k : Round} {p : Phase} {i n : ℕ} {s : System} {h : Receiver}

/-! ### Clock edges -/

theorem Filled.tick_of_ne {sig port : BitVec 8} (hf : Filled k p n h)
    (hsig : sig ≠ p.storeCode) : Filled k p n (h.tick sig port) := by
  intro hp j hj
  rw [h.slot_tick, if_neg fun hs => hsig hs.1]
  exact hf hp j hj

theorem Earlier.tick_of_ne {sig port : BitVec 8} (he : Earlier k h p)
    (hsig : ∀ q : Phase, q ≠ p → sig ≠ q.storeCode) : Earlier k (h.tick sig port) p := by
  -- only the store codes of the phases before `p` could touch what is in place
  cases p
  case row => trivial
  case column => exact Filled.tick_of_ne he (hsig .row (by decide))
  case diagonal =>
    exact ⟨he.1.tick_of_ne (hsig .row (by decide)), he.2.tick_of_ne (hsig .column (by decide))⟩

/-- A code that stores nothing. -/
def Quiet (sig : BitVec 8) : Prop := ∀ p : Phase, sig ≠ p.storeCode

theorem quiet_nextCode (p : Phase) : Quiet p.nextCode := fun q => p.nextCode_ne_storeCode q

theorem quiet_entry (c : Sync) : Quiet c.entry := by
  intro q
  cases c <;> cases q <;> decide

theorem quiet_code (c : Sync) : Quiet c.code := by
  intro q
  cases c <;> cases q <;> decide

theorem Earlier.tick_of_quiet {sig port : BitVec 8} (he : Earlier k h p) (hsig : Quiet sig) :
    Earlier k (h.tick sig port) p :=
  he.tick_of_ne fun q _ => hsig q

theorem Receiver.tick_nextCode_self {port : BitVec 8} (hack : h.toSwSig = p.nextCode) :
    h.tick p.nextCode port = h := by
  rw [Receiver.tick_nextCode, Receiver.advance, if_neg (not_not.mpr hack), ← hack]

/-- The receiver has nothing left to do for a code that it has acknowledged. -/
theorem Receiver.tick_codeBefore {port : BitVec 8} (hack : h.toSwSig = p.codeBefore i)
    (hc : h.counter = BitVec.ofNat 5 (p.stride * i)) : h.tick (p.codeBefore i) port = h := by
  unfold Phase.codeBefore at *
  split_ifs at * with hi
  · -- before the first byte the code is a synchronisation, which clears a clear counter
    have hc0 : h.counter = 0 := by rw [hc, hi]; rfl
    cases p <;> obtain ⟨ack, counter⟩ := h <;> simp only at hack hc0 <;> subst hack hc0 <;> rfl
  · -- before any other byte it is a next-byte code, which counts once only
    exact Receiver.tick_nextCode_self hack

theorem Settled.receiver_tick (hset : Settled (p.codeBefore i) s)
    (hc : s.receiver.counter = BitVec.ofNat 5 (p.stride * i)) : s.tick.receiver = s.receiver := by
  rw [System.tick, hset.1]
  exact Receiver.tick_codeBefore hset.2 hc

theorem counter_toNat {p : Phase} {i : ℕ} (hi : i < p.length)
    (hc : h.counter = BitVec.ofNat 5 (p.stride * i)) (hp : p ≠ .diagonal) :
    h.counter.toNat = i ∧ i < p.slots := by
  rw [hc, BitVec.toNat_ofNat]
  cases p
  case diagonal => exact absurd rfl hp
  all_goals
    simp only [Phase.length, Phase.stride, Phase.slots] at *
    omega

/-- A clock edge on a store code puts the byte into its slot. -/
theorem Pointing.tick_store (hpt : Pointing k p i s) (hport : s.toHwPort = k.key p i)
    (hsig : s.toHwSig = p.storeCode) :
    Pointing k p i s.tick ∧ s.tick.receiver.toSwSig = p.storeCode ∧ Taken k p i s.tick := by
  have hrec : s.tick.receiver = s.receiver.tick p.storeCode (k.key p i) := by
    rw [System.tick, hsig, hport]
  have hslot : p ≠ .diagonal → ∀ j < i + 1,
      (s.receiver.tick p.storeCode (k.key p i)).slot p j = some (k.key p j) := by
    intro hp j hj
    obtain ⟨hcount, hslots⟩ := counter_toNat hpt.lt_length hpt.counter hp
    rw [Receiver.slot_tick, hcount]
    -- slot `i` takes the byte of the port, the slots below it stay
    rcases eq_or_ne i j with rfl | hij
    · rw [if_pos ⟨rfl, rfl, hslots⟩]
    · rw [if_neg fun hs => hij hs.2.1]
      exact hpt.filled hp j (by omega)
  -- what the edge stored is remembered for the statement of the handshake
  have hstored : p ≠ .diagonal → s.tick.stored = some ⟨p, i, k.key p i⟩ := by
    intro hp
    obtain ⟨hcount, hslots⟩ := counter_toNat hpt.lt_length hpt.counter hp
    rw [System.tick, hsig, hport, Receiver.store_storeCode _ _ _ (by rw [hcount]; exact hslots),
      hcount]
    rfl
  refine ⟨⟨hpt.lt_length, ?_, ?_, ?_⟩, ?_, ?_, hstored⟩
  -- the three parts of `Pointing`: earlier keys, filled slots, counter
  · rw [hrec]
    exact hpt.earlier.tick_of_ne fun q hq hs => hq (Phase.storeCode_inj.mp hs).symm
  · rw [hrec]
    exact fun hp j hj => hslot hp j (by omega)
  · rw [hrec, Receiver.tick_storeCode_counter]
    exact hpt.counter
  · rw [hrec, Receiver.tick_storeCode_toSwSig]
  · rw [hrec]
    exact hslot

theorem stored_tick_of_quiet (hsig : Quiet s.toHwSig) : s.tick.stored = s.stored := by
  rw [System.tick, Receiver.store_of_ne _ _ _ hsig]
  rfl

/-- A clock edge on a next-byte code advances the counter, unless it was acknowledged already. -/
theorem tick_poll (hsig : s.toHwSig = p.nextCode)
    (hack : (s.receiver.toSwSig = p.storeCode
        ∧ s.receiver.counter = BitVec.ofNat 5 (p.stride * i)) ∨
      (s.receiver.toSwSig = p.nextCode
        ∧ s.receiver.counter = BitVec.ofNat 5 (p.stride * (i + 1)))) :
    s.tick.receiver.toSwSig = p.nextCode
      ∧ s.tick.receiver.counter = BitVec.ofNat 5 (p.stride * (i + 1)) := by
  rw [System.tick, hsig, Receiver.tick_nextCode]
  refine ⟨rfl, ?_⟩
  -- the first edge counts, the ones after it find their code acknowledged
  rcases hack with ⟨hack, hc⟩ | ⟨hack, hc⟩
  · have hne : s.receiver.toSwSig ≠ p.nextCode := by
      rw [hack]
      exact p.storeCode_ne_nextCode p
    rw [Receiver.advance, if_pos hne, hc, Nat.mul_succ, BitVec.ofNat_add]
  · rw [Receiver.advance, if_neg (not_not.mpr hack), hc]

/-- A loop that waits for a code keeps waiting for it. -/
theorem Syncing.tick {c : Sync} (hs : Syncing c s) : Syncing c s.tick := by
  rcases hs with ⟨hsig, hack⟩ | ⟨hsig, hack⟩
  · -- the code before the loop is acknowledged by itself, which is not what the loop waits for
    left
    refine ⟨hsig, ?_⟩
    rw [System.tick, hsig]
    cases c
    case start => exact (by decide : (0 : BitVec 8) ≠ 1)
    case afterRow => exact (by decide : (3 : BitVec 8) ≠ 4)
    case afterColumn => exact (by decide : (6 : BitVec 8) ≠ 7)
  · -- codes 4 and 7 clear the counter; code 1 does not, so it has to be clear already
    right
    refine ⟨hsig, Or.inr ?_⟩
    rw [System.tick, hsig]
    cases c
    case start => exact hack.resolve_left fun h => h.2 rfl
    all_goals rfl

theorem Complete.tick (hc : Complete k s) (hsig : Quiet s.toHwSig) : Complete k s.tick :=
  ⟨hc.1.tick_of_ne (hsig .row), hc.2.tick_of_ne (hsig .column)⟩

/-- The code of the diagonal key's last byte stays on the wire until the command is sent. -/
theorem settled_nine_tick (hset : Settled 9 s) : s.tick.receiver = s.receiver := by
  change s.receiver.tick s.toHwSig s.toHwPort = s.receiver
  rw [hset.1]
  exact Receiver.tick_nextCode_self (p := .diagonal) hset.2

theorem quiet_nine : Quiet 9 := quiet_nextCode .diagonal

theorem quiet_ten : Quiet 10 := by
  intro q
  cases q <;> decide

/-- The command code stores the low bit of the port. -/
theorem tick_command_of_ten (hsig : s.toHwSig = 10) :
    s.tick.receiver.toSwSig = 10 ∧ s.tick.receiver.command = s.tick.toHwPort.getLsbD 0 := by
  rw [System.tick, hsig]
  exact ⟨rfl, rfl⟩

/-- **Clock edges** keep the invariant, however many there are. -/
theorem inv_tick (hs : Inv k s) : Inv k s.tick := by
  unfold Inv at hs ⊢
  rw [show s.tick.pc = s.pc from rfl]
  cases hpc : s.pc <;> rw [hpc] at hs
  case initSig | initPort | topSig | topPort =>
    -- code 0 is acknowledged with 0
    obtain ⟨hsig, -⟩ := hs
    refine ⟨hsig, ?_⟩
    rw [System.tick, hsig]
    exact (by decide : (0 : BitVec 8) ≠ 1)
  case awaitSync c | writeSync c =>
    -- neither the code before the loop nor the loop's own code stores anything
    obtain ⟨hearlier, hsync⟩ := hs
    refine ⟨?_, hsync.tick⟩
    rcases hsync with ⟨hsig, -⟩ | ⟨hsig, -⟩
    · exact hearlier.tick_of_quiet (hsig ▸ quiet_entry c)
    · exact hearlier.tick_of_quiet (hsig ▸ quiet_code c)
  case putPort p i =>
    -- the code on the wire is acknowledged, so the receiver stands still
    obtain ⟨hpt, hset⟩ := hs
    have hrec := hset.receiver_tick hpt.counter
    refine ⟨⟨hpt.lt_length, ?_, ?_, ?_⟩, hset.1, ?_⟩ <;> rw [hrec]
    exacts [hpt.earlier, hpt.filled, hpt.counter, hset.2]
  case putSig p i =>
    -- the same with the byte on the port already
    obtain ⟨hpt, hset, hport⟩ := hs
    have hrec := hset.receiver_tick hpt.counter
    refine ⟨⟨hpt.lt_length, ?_, ?_, ?_⟩, ⟨hset.1, ?_⟩, hport⟩ <;> rw [hrec]
    exacts [hpt.earlier, hpt.filled, hpt.counter, hset.2]
  case check p i =>
    -- the edge that a test in time waits for
    obtain ⟨hpt, hport, hsig, -⟩ := hs
    obtain ⟨hpt', hack, htaken⟩ := hpt.tick_store hport hsig
    exact ⟨hpt', hport, hsig, fun _ => ⟨hack, htaken⟩⟩
  case putNext p i =>
    -- the byte is stored once more, in the same slot
    obtain ⟨hpt, hport, hset, -⟩ := hs
    obtain ⟨hpt', hack, htaken⟩ := hpt.tick_store hport hset.1
    exact ⟨hpt', hport, ⟨hset.1, hack⟩, htaken⟩
  case poll p i =>
    -- the counter moves on, once, and every slot stays
    obtain ⟨hlt, hearlier, htaken, hsig, hack⟩ := hs
    have hquiet : Quiet s.toHwSig := hsig ▸ quiet_nextCode p
    refine ⟨hlt, hearlier.tick_of_quiet hquiet, ⟨htaken.1.tick_of_ne (hquiet p), ?_⟩, hsig,
      Or.inr (tick_poll hsig hack)⟩
    rw [stored_tick_of_quiet hquiet]
    exact htaken.2
  case putCommand =>
    -- code 9 is acknowledged with 9
    obtain ⟨hall, hset⟩ := hs
    exact ⟨hall.tick (hset.1 ▸ quiet_nine), hset.1, by rw [settled_nine_tick hset]; exact hset.2⟩
  case putTen =>
    obtain ⟨hall, hset, hcmd⟩ := hs
    exact ⟨hall.tick (hset.1 ▸ quiet_nine),
      ⟨hset.1, by rw [settled_nine_tick hset]; exact hset.2⟩, hcmd⟩
  case pollTen =>
    -- the command is the low bit of the port, however often it is stored
    obtain ⟨hall, hsig, hcmd, -⟩ := hs
    exact ⟨hall.tick (hsig ▸ quiet_ten), hsig, hcmd, fun _ => (tick_command_of_ten hsig).2⟩
  case putZero =>
    obtain ⟨hall, hcmd, hset, -⟩ := hs
    obtain ⟨hack, hcommand⟩ := tick_command_of_ten hset.1
    exact ⟨hall.tick (hset.1 ▸ quiet_ten), hcmd, ⟨hset.1, hack⟩, hcommand⟩

/-! ### Accesses -/

/-- The acknowledged code of a synchronisation is the one before the first byte. -/
theorem Syncing.acknowledged {c : Sync} (hs : Syncing c s) (hack : s.receiver.toSwSig = c.code) :
    Settled (c.phase.codeBefore 0) s ∧ s.receiver.counter = 0 := by
  have hcode : c.phase.codeBefore 0 = c.code := by cases c <;> rfl
  -- of the three situations in the loop only the last has the code acknowledged
  rcases hs with ⟨-, hne⟩ | ⟨hsig, ⟨hne, -⟩ | hzero⟩
  · exact absurd hack hne
  · exact absurd hack hne
  · rw [hcode]
    exact ⟨⟨hsig, hack⟩, hzero⟩

/-- The first byte of a key is sent with everything before it in place. -/
theorem inv_synchronised {c : Sync} {t : System} (hearlier : Earlier k s.receiver c.phase)
    (hsync : Syncing c s) (hack : s.receiver.toSwSig = c.code) (hsig : t.toHwSig = s.toHwSig)
    (hrec : t.receiver = s.receiver) : InvAt k t (.putPort c.phase 0) := by
  obtain ⟨hset, hzero⟩ := hsync.acknowledged hack
  refine ⟨⟨?_, ?_, ?_, ?_⟩, ?_, ?_⟩
  -- no byte of the key is sent yet, so nothing is in its slots
  · cases c <;> decide
  · rw [hrec]
    exact hearlier
  · exact fun _ j hj => absurd hj (Nat.not_lt_zero j)
  · rw [hrec, hzero, Nat.mul_zero]
    rfl
  · rw [hsig]
    exact hset.1
  · rw [hrec]
    exact hset.2

/-- The poll that sees the next-byte code goes on to the next byte. -/
theorem inv_next_byte {t : System} (hs : InvAt k s (.poll p i))
    (hack : s.receiver.toSwSig = p.nextCode) (hi : i + 1 < p.length)
    (hsig : t.toHwSig = s.toHwSig) (hrec : t.receiver = s.receiver) :
    InvAt k t (.putPort p (i + 1)) := by
  -- of the two ways to be acknowledged only the second is left
  obtain ⟨-, hearlier, htaken, hnext, hcount⟩ := hs
  have hcode : p.codeBefore (i + 1) = p.nextCode := if_neg (Nat.succ_ne_zero i)
  -- the acknowledgement that ends the poll comes with the counter moved on
  have hcounter : s.receiver.counter = BitVec.ofNat 5 (p.stride * (i + 1)) := by
    rcases hcount with ⟨hstale, -⟩ | ⟨-, hcounter⟩
    · exact absurd (hstale.symm.trans hack) (p.storeCode_ne_nextCode p)
    · exact hcounter
  rw [← hrec] at hearlier hcounter hack
  refine ⟨⟨hi, hearlier, ?_, hcounter⟩, ?_, ?_⟩
  · rw [hrec]
    exact htaken.1
  · rw [hcode, hsig, hnext]
  · rw [hcode, hack]

/-- The poll that sees the last next-byte code goes on past the key. -/
theorem inv_last_byte {t : System} (hs : InvAt k s (.poll p i))
    (hack : s.receiver.toSwSig = p.nextCode) (hi : ¬ i + 1 < p.length)
    (hsig : t.toHwSig = s.toHwSig) (hrec : t.receiver = s.receiver) : InvAt k t p.after := by
  obtain ⟨hlt, hearlier, ⟨hfilled, -⟩, hnext, -⟩ := hs
  have hlast : i + 1 = p.length := by omega
  rw [hlast] at hfilled
  rw [← hrec] at hearlier hfilled hack
  rw [← hsig] at hnext
  -- what follows the key: a loop that waits, or the command
  cases p
  case row => exact ⟨hfilled, Or.inl ⟨hnext, by rw [hack]; decide⟩⟩
  case column => exact ⟨⟨hearlier, hfilled⟩, Or.inl ⟨hnext, by rw [hack]; decide⟩⟩
  case diagonal => exact ⟨hearlier, hnext, hack⟩

section TopPort

variable {rounds : ℕ → Round} {round : ℕ} {sig port : BitVec 8} {ticked : Bool}
  {stored : Option Store}

/-- A command that starts a transfer leads to the first loop. -/
theorem step_topPort_of_command
    (hcmd : (rounds round).command = 'E' ∨ (rounds round).command = 'D') :
    step rounds ⟨.topPort, round, sig, port, h, ticked, stored⟩ .access
      = ⟨.awaitSync .start, round, sig, 0, h, false, stored⟩ := by
  simp only [step, System.access, System.writesByte, hcmd, if_true, if_false, Bool.false_eq_true]

/-- Any other command leads to the next round. -/
theorem step_topPort_of_not
    (hcmd : ¬ ((rounds round).command = 'E' ∨ (rounds round).command = 'D')) :
    step rounds ⟨.topPort, round, sig, port, h, ticked, stored⟩ .access
      = ⟨.topSig, round + 1, sig, 0, h, false, stored⟩ := by
  simp only [step, System.access, System.writesByte, hcmd, if_false, Bool.false_eq_true]

end TopPort

/-- **Timely accesses** keep the invariant. -/
theorem inv_access {rounds : ℕ → Round} (hs : Inv (rounds s.round) s) (ht : Timely s .access) :
    Inv (rounds (step rounds s .access).round) (step rounds s .access) := by
  obtain ⟨pc, round, sig, port, h, ticked, stored⟩ := s
  -- one case for each access of the program; a branch of it is decided by the acknowledgement
  cases pc
  case initSig | topSig => exact ⟨rfl, hs.2⟩
  -- the port is written, the wire stays
  case initPort => exact ⟨hs.1, hs.2⟩
  case topPort =>
    by_cases hcmd : (rounds round).command = 'E' ∨ (rounds round).command = 'D'
    · rw [step_topPort_of_command hcmd]
      exact ⟨trivial, Or.inl ⟨hs.1, hs.2⟩⟩
    · rw [step_topPort_of_not hcmd]
      exact ⟨hs.1, hs.2⟩
  case awaitSync c =>
    obtain ⟨hearlier, hsync⟩ := hs
    -- the loop ends with its code acknowledged
    by_cases hack : h.toSwSig = c.code
    · have hpc : (step rounds ⟨.awaitSync c, round, sig, port, h, ticked, stored⟩ .access).pc
          = .putPort c.phase 0 := if_neg (not_not.mpr hack)
      rw [Inv, hpc]
      exact inv_synchronised hearlier hsync hack rfl rfl
    · have hpc : (step rounds ⟨.awaitSync c, round, sig, port, h, ticked, stored⟩ .access).pc
          = .writeSync c := if_pos hack
      rw [Inv, hpc]
      exact ⟨hearlier, hsync⟩
  case writeSync c =>
    obtain ⟨hearlier, hsync⟩ := hs
    refine ⟨hearlier, Or.inr ⟨rfl, ?_⟩⟩
    rcases hsync with ⟨-, hack⟩ | ⟨-, hdone⟩
    · -- the code is written for the first time
      rcases eq_or_ne c .start with rfl | hc
      · exact Or.inr ht
      · exact Or.inl ⟨hack, hc⟩
    · exact hdone
  case putPort p i =>
    obtain ⟨hpt, hset⟩ := hs
    -- the byte goes to the port, the code before it is still acknowledged
    exact ⟨⟨hpt.1, hpt.2, hpt.3, hpt.4⟩, hset, rfl⟩
  case putSig p i =>
    -- no edge has fallen since this write, so nothing is known of the acknowledgement yet
    obtain ⟨hpt, -, hport⟩ := hs
    exact ⟨⟨hpt.1, hpt.2, hpt.3, hpt.4⟩, hport, rfl, fun hf => nomatch hf⟩
  case check p i =>
    -- tested in time, the acknowledgement is there and the next-byte code is sent
    obtain ⟨hpt, hport, hsig, hticked⟩ := hs
    obtain ⟨hack, htaken⟩ := hticked ht
    have hpc : (step rounds ⟨.check p i, round, sig, port, h, ticked, stored⟩ .access).pc
        = .putNext p i := if_pos hack
    rw [Inv, hpc]
    exact ⟨⟨hpt.1, hpt.2, hpt.3, hpt.4⟩, hport, ⟨hsig, hack⟩, htaken⟩
  case putNext p i =>
    -- the next-byte code is written while the store code is still acknowledged
    obtain ⟨hpt, -, hset, htaken⟩ := hs
    exact ⟨hpt.lt_length, hpt.earlier, htaken, rfl, Or.inl ⟨hset.2, hpt.counter⟩⟩
  case poll p i =>
    -- an acknowledged next-byte code ends the poll, before the last byte or at it
    by_cases hack : h.toSwSig = p.nextCode
    · by_cases hi : i + 1 < p.length
      · have hpc : (step rounds ⟨.poll p i, round, sig, port, h, ticked, stored⟩ .access).pc
            = .putPort p (i + 1) := (if_neg (not_not.mpr hack)).trans (if_pos hi)
        rw [Inv, hpc]
        exact inv_next_byte hs hack hi rfl rfl
      · have hpc : (step rounds ⟨.poll p i, round, sig, port, h, ticked, stored⟩ .access).pc
            = p.after := (if_neg (not_not.mpr hack)).trans (if_neg hi)
        rw [Inv, hpc]
        exact inv_last_byte hs hack hi rfl rfl
    · have hpc : (step rounds ⟨.poll p i, round, sig, port, h, ticked, stored⟩ .access).pc
          = .poll p i := if_pos hack
      rw [Inv, hpc]
      exact hs
  case putCommand =>
    obtain ⟨hall, hset⟩ := hs
    refine ⟨hall, hset, fun hE => if_pos hE, fun hD => ?_⟩
    have hE : (rounds round).command ≠ 'E' := by
      rw [show (rounds round).command = 'D' from hD]
      decide
    exact (if_neg hE).trans (if_pos hD)
  case putTen =>
    -- the acknowledgement on the wire is still that of code 9
    obtain ⟨hall, hset, hcmd⟩ := hs
    refine ⟨hall, rfl, hcmd, fun hack => ?_⟩
    exact absurd (hset.2.symm.trans hack) (by decide)
  case pollTen =>
    obtain ⟨hall, hsig, hcmd, hcommand⟩ := hs
    -- acknowledgement 10 ends the round
    by_cases hack : h.toSwSig = 10
    · have hpc : (step rounds ⟨.pollTen, round, sig, port, h, ticked, stored⟩ .access).pc
          = .putZero := if_neg (not_not.mpr hack)
      rw [Inv, hpc]
      exact ⟨hall, hcmd, ⟨hsig, hack⟩, hcommand hack⟩
    · have hpc : (step rounds ⟨.pollTen, round, sig, port, h, ticked, stored⟩ .access).pc
          = .pollTen := if_pos hack
      rw [Inv, hpc]
      exact ⟨hall, hsig, hcmd, hcommand⟩
  case putZero =>
    -- code 10 is on the wire when the next round starts
    obtain ⟨-, -, hset, -⟩ := hs
    refine ⟨rfl, ?_⟩
    change h.toSwSig ≠ 1
    rw [show h.toSwSig = 10 from hset.2]
    decide

/-- **Timely steps** keep the invariant. -/
theorem inv_step {rounds : ℕ → Round} (a : Action) (hs : Inv (rounds s.round) s)
    (ht : Timely s a) : Inv (rounds (step rounds s a).round) (step rounds s a) := by
  cases a
  case access => exact inv_access hs ht
  case tick => exact inv_tick hs

/-! ### Independence of the timing -/

/-- The handshake at a state: a poll that sees the next-byte code of byte `i` finds byte `i` stored
in slot `i` since the program wrote it to the port, and no poll waits with a store code on the
wire. -/
structure HandshakeHolds (k : Round) (s : System) : Prop where
  stored : ∀ (p : Phase) (i : ℕ), p ≠ .diagonal → s.pc = .poll p i →
    s.receiver.toSwSig = p.nextCode →
    s.stored = some ⟨p, i, k.key p i⟩ ∧ s.receiver.slot p i = some (k.key p i)
  unstuck : ∀ (p q : Phase) (i : ℕ), s.pc = .poll p i → s.toHwSig ≠ q.storeCode

theorem Inv.handshakeHolds (hs : Inv k s) : HandshakeHolds k s where
  stored p i hp hpc _ := by
    rw [Inv, hpc] at hs
    obtain ⟨-, -, ⟨hfilled, hstored⟩, -, -⟩ := hs
    exact ⟨hstored hp, hfilled hp i (Nat.lt_succ_self i)⟩
  unstuck p q i hpc := by
    rw [Inv, hpc] at hs
    obtain ⟨-, -, -, hsig, -⟩ := hs
    rw [hsig]
    exact p.nextCode_ne_storeCode q

theorem inv_boot (k : Round) : Inv k boot := ⟨rfl, by decide⟩

/-- The invariant along a timely run. -/
theorem inv_run {rounds : ℕ → Round} {as : List Action} (hs : Inv (rounds s.round) s)
    (ht : Along (step rounds) Timely s as) :
    Inv (rounds (run (step rounds) s as).round) (run (step rounds) s as) :=
  run_invariant (I := fun t => Inv (rounds t.round) t) (fun _ a ht hc => inv_step a ht hc) hs ht

/-- A loop that waits for a code, with one clock edge after the code is written. -/
def syncActions : List Action := [.access, .access, .tick, .access]

/-- One byte sent in time. -/
def byteActions : List Action := [.access, .access, .tick, .access, .access, .tick, .access]

/-- One byte whose store code is tested at once. -/
def hastyActions : List Action := [.access, .access, .access]

/-- A whole round. -/
def roundActions : List Action :=
  [.access, .access] ++ syncActions ++ (List.replicate 8 byteActions).flatten ++ syncActions
    ++ (List.replicate 10 byteActions).flatten ++ syncActions
    ++ (List.replicate 3 byteActions).flatten ++ [.access, .access, .tick, .access, .access]

/-- The first byte of a row key, up to the poll that sees its acknowledgement. -/
def firstByteActions : List Action :=
  [.access, .access, .access, .access] ++ syncActions ++ byteActions.dropLast

/-- Rounds with a key of their own each. -/
def exampleRounds (r : ℕ) : Round where
  rowKey := fun i => BitVec.ofNat 8 (0x41 + 16 * r + i)
  columnKey := fun i => BitVec.ofNat 8 (0x61 + i)
  diagonalKey := fun i => BitVec.ofNat 8 (0x30 + i)
  command := 'E'

/-- **Timely runs** keep the handshake, in every state they reach. -/
theorem handshake_of_timely (rounds : ℕ → Round) (as : List Action)
    (ht : Along (step rounds) Timely boot as) :
    HandshakeHolds (rounds (run (step rounds) boot as).round) (run (step rounds) boot as) :=
  (inv_run (inv_boot _) ht).handshakeHolds

/-- The first byte sent in time. -/
theorem handshake_of_timely_first :
    HandshakeHolds (exampleRounds 0) (run (step exampleRounds) boot firstByteActions) := by
  refine handshake_of_timely exampleRounds firstByteActions ?_
  repeat' first
    | exact trivial
    | exact rfl
    | refine And.intro ?_ ?_

/-- The first byte's store code tested at once: the program polls for 3 with 2 on the wire. The
second byte's tested at once: the acknowledgement of the first is taken for it. A second round
started at once: its first byte goes to no slot. -/
theorem handshake_depends_on_timing :
    ¬ HandshakeHolds (exampleRounds 0) (run (step exampleRounds) boot
        ([.access, .access, .access, .access] ++ syncActions ++ hastyActions)) ∧
    ¬ HandshakeHolds (exampleRounds 0) (run (step exampleRounds) boot
        ([.access, .access, .access, .access] ++ syncActions ++ byteActions ++ hastyActions)) ∧
    ¬ HandshakeHolds (exampleRounds 1) (run (step exampleRounds) boot
        ([.access, .access] ++ roundActions ++ [.access, .access] ++ syncActions
          ++ byteActions.dropLast)) := by
  refine ⟨fun h => ?_, fun h => ?_, fun h => ?_⟩
  -- each run stops where the handshake fails
  · exact absurd (h.unstuck .row .row 0 rfl) (by decide)
  · exact absurd (h.stored .row 1 (by decide) rfl rfl).1 (by decide)
  · exact absurd (h.stored .row 0 (by decide) (by decide +kernel) (by decide +kernel)).1
      (by decide +kernel)

end Key
end VideoEncryption
