import VideoEncryption.Sram.Bus
import VideoEncryption.Sram.Clocks

/-!
# A session with the board

From power-up a picture is taken, and then the buttons ask for encryptions, decryptions and subkeys
in any order. `ledger` lists what was asked for, with the `KEY` of the moment; the picture is the
one taken with the ciphers of the ledger applied to it, whenever the board is at rest.

* `Session` — the invariant: at rest the frame is there and `HIATUS` clears the counters before it
  is left, on the way it is what the chain under way leads to (`Decouples.pending`);
* `session_refines` — **the refinement**, over whole runs from power-up;
* `reset_skips_rows` — what the invariant needs `Reset` left alone for: it does not clear the
  counters.
-/

namespace VideoEncryption
namespace Sram

open Clocked

variable {F : Subkey.Map → Subkey.Key → Subkey.Key} {seed : BitVec 12} {key : BitVec 80}
  {b : Board} {e : ClockEdge} {es : List ClockEdge} {i : Inputs} {A : Frame} {seen : Bool}

/-! ### What is asked for -/

instance (i : Inputs) : Decidable (EncryptRequest i) :=
  inferInstanceAs (Decidable (_ ∧ _))

instance (i : Inputs) : Decidable (DecryptRequest i) :=
  inferInstanceAs (Decidable (_ ∧ _))

/-- What an edge asks for, and the `KEY` there. -/
def Board.request (b : Board) : ClockEdge → Option (Op × BitVec 80)
  | .clk _ | .vgaClk _ => none
  | .camPclk i =>
    if b.chip.state = .display then
      if EncryptRequest i then some (.encrypt, b.chip.key i)
      else if DecryptRequest i then some (.decrypt, b.chip.key i)
      else none
    else none

/-- All that the edges ask for. -/
def ledger (F : Subkey.Map → Subkey.Key → Subkey.Key) (seed : BitVec 12) (b : Board)
    (es : List ClockEdge) : List (Op × BitVec 80) :=
  emitted (Board.edge · F seed) (fun b e => (b.request e).toList) b es

/-- No reset at this edge. -/
def Unreset : ClockEdge → Prop
  | .clk _ => True
  | .vgaClk i | .camPclk i => i.reset = false

/-- The key of the chain that an edge starts, or the one before. -/
def Board.keyAfter (b : Board) (key : BitVec 80) (e : ClockEdge) : BitVec 80 :=
  ((b.request e).map Prod.snd).getD key

/-- `KEY` stays through a chain what it was when the chain was asked for. -/
def Kept (F : Subkey.Map → Subkey.Key → Subkey.Key) (seed : BitVec 12) :
    (key : BitVec 80) → Board → List ClockEdge → Prop
  | _, _, [] => True
  | key, b, e :: es =>
    (InChains b.chip → HeldEdge key b e) ∧ Kept F seed (b.keyAfter key e) (b.edge F seed e) es

/-- Whether `VGA_Clk` has ticked since the last edge of `Cam_pclk`. -/
def seenAfter (seen : Bool) : ClockEdge → Bool
  | .clk _ => seen
  | .vgaClk _ => true
  | .camPclk _ => false

theorem paced_cons : Paced seen (e :: es) ↔
    (e.clock = .camPclk → seen = true) ∧ Paced (seenAfter seen e) es := by
  cases e <;> simp [Paced, seenAfter, ClockEdge.clock]

/-! ### The invariant -/

/-- The board in a session. On the way to the end of a chain, `A` is the frame it will leave. -/
inductive Session (A : Frame) (key : BitVec 80) (seen : Bool) (b : Board) : Prop
  | rest (cleared : Prop) (quiet : Quiet A cleared b)
      (state : b.chip.state = .hiatus ∨ b.chip.state = .display) (ready : seen = true → cleared)
  | keyGen (left : Left .keyGen A b.chip)
  | chain (op : Op) (pending : Pending System.tick (Steady key) (InChain op.chain) (Left .hiatus A)
      System.mode Matches Halfway (seen = true) b)

theorem inChains_of_pending {op : Op}
    (h : Pending System.tick (Steady key) (InChain op.chain) (Left .hiatus A) System.mode Matches
      Halfway (seen = true) b) : InChains b.chip := by
  obtain ⟨s, hW, -, hb⟩ := h
  have hstate : b.chip.state = s.state := by
    rcases hb with ⟨⟨hcore, -⟩, -⟩ | ⟨hhalf, -⟩
    exacts [hcore.state, hhalf.state]
  have hin := Op.inChains hW
  rwa [InChains, ← hstate] at hin

theorem Session.frame (h : Session A key seen b)
    (hs : b.chip.state = .hiatus ∨ b.chip.state = .display) : b.chip.frame = A := by
  cases h with
  | rest cleared quiet _ _ => exact quiet.frame
  | keyGen left => exact left.frame
  | chain op pending =>
    obtain ⟨hhiatus, hdisplay⟩ := (inChains_of_pending pending).not_rest
    exact hs.elim (absurd · hhiatus) (absurd · hdisplay)

/-- What a request in `DISPLAY` looks like. -/
theorem request_eq_some {op : Op} {k : BitVec 80} (h : b.request e = some (op, k)) :
    ∃ i, e = .camPclk i ∧ b.chip.state = .display ∧ b.chip.key i = k ∧
      b.chip.nextState i = op.first := by
  -- only an edge of `Cam_pclk` asks, in `DISPLAY` only
  cases e with
  | clk l => cases h
  | vgaClk i => cases h
  | camPclk i =>
    rw [Board.request] at h
    by_cases hs : b.chip.state = .display
    · rw [if_pos hs] at h
      by_cases he : EncryptRequest i
      · rw [if_pos he] at h
        cases h
        exact ⟨i, rfl, hs, rfl, nextState_of_encryptRequest hs he⟩
      · rw [if_neg he] at h
        by_cases hd : DecryptRequest i
        · rw [if_pos hd] at h
          cases h
          exact ⟨i, rfl, hs, rfl, nextState_of_decryptRequest hs hd⟩
        · rw [if_neg hd] at h
          cases h
    · rw [if_neg hs] at h
      cases h

/-- Without a request the board stays at rest, or subkeys are generated. -/
theorem nextState_of_request_none (h : b.request (.camPclk i) = none)
    (hs : b.chip.state = .hiatus ∨ b.chip.state = .display) :
    b.chip.nextState i = .hiatus ∨ b.chip.nextState i = .display ∨
      b.chip.nextState i = .keyGen := by
  rcases hs with hs | hs
  · simp only [System.nextState, hs]
    split_ifs <;> simp
  · rw [Board.request, if_pos hs] at h
    have he : ¬ EncryptRequest i := fun he => by simp [he] at h
    have hd : ¬ DecryptRequest i := fun hd => by simp [he, hd] at h
    simp only [System.nextState, hs]
    simp only [EncryptRequest, DecryptRequest] at he hd
    split_ifs <;> simp_all

/-- A request in `DISPLAY` starts its chain. -/
theorem session_of_request {op : Op} {k : BitVec 80} (hb : Entered .display A b.chip)
    (hreq : b.request e = some (op, k)) (he : Unreset e) :
    Session (op.cipher k A) k false (b.edge F seed e) := by
  obtain ⟨i, rfl, -, hkey, hnext⟩ := request_eq_some hreq
  have hreset : i.reset = false := he
  -- the chain is entered with the counters cleared
  have hentered : Entered op.first A (b.edge F seed (.camPclk i)).chip :=
    entered_of_request hb hreset hnext
  have hne : (b.edge F seed (.camPclk i)).chip.state ≠ .keyGen := by
    rw [hentered.state]
    cases op <;> exact Fsm.noConfusion
  have hin : InChain op.chain (b.edge F seed (.camPclk i)).chip := by
    rw [InChain, hentered.state]
    cases op <;> decide
  refine .chain op ⟨_, hin, inevitable_of_leadsTo (op.leadsTo k A) hentered hne ⟨i, hreset, hkey⟩,
    .inl ⟨⟨⟨rfl, rfl, rfl⟩, atEnd_of_block_zero hentered.block⟩, fun _ => Bool.noConfusion⟩⟩

theorem request_eq_none (hs : b.chip.state ≠ .display) : b.request e = none := by
  cases e with
  | clk l => rfl
  | vgaClk i => rfl
  | camPclk i => exact if_neg hs

/-- Arrived in `HIATUS`. -/
theorem session_of_left (h : Left .hiatus A b.chip) : Session A key false b :=
  .rest False ⟨h.frame, False.elim, fun hs => absurd (h.state.symm.trans hs) (by decide)⟩
    (.inl h.state) fun hs => absurd hs (by decide)

/-- An edge at rest that asks for nothing. -/
theorem session_of_quiet {cleared : Prop} (hq : Quiet A cleared b) (he : Unreset e)
    (hs : b.chip.state = .hiatus ∨ b.chip.state = .display) (hready : seen = true → cleared)
    (hpaced : e.clock = .camPclk → seen = true) (hreq : b.request e = none) :
    Session A key (seenAfter seen e) (b.edge F seed e) := by
  -- what is cleared at rest stays so
  have hquiet := hq.edge F seed hs fun hc => hready (hpaced hc)
  cases e with
  | clk l => exact .rest _ hquiet hs fun hseen => .inl (hready hseen)
  | vgaClk i => exact .rest _ hquiet hs fun _ => .inr rfl
  | camPclk i =>
    have hstate : (b.edge F seed (.camPclk i)).chip.state = b.chip.nextState i :=
      camPclk_state_of_unreset he
    -- without a request the chip rests, or goes for subkeys
    rcases nextState_of_request_none hreq hs with hnext | hnext | hnext
    · exact .rest _ hquiet (.inl (hstate.trans hnext)) fun hseen => absurd hseen Bool.false_ne_true
    · exact .rest _ hquiet (.inr (hstate.trans hnext)) fun hseen => absurd hseen Bool.false_ne_true
    · exact .keyGen ⟨hstate.trans hnext, hquiet.frame⟩

/-- `KEY_GEN` leaves the picture alone, and only `Cam_pclk` leaves it. -/
theorem Left.keyGen_edge (h : Left .keyGen A b.chip) (he : Unreset e) :
    Left .keyGen A (b.edge F seed e).chip ∨
      e.clock = .camPclk ∧ Left .hiatus A (b.edge F seed e).chip := by
  -- a tick writes registers of the key path only
  cases e with
  | clk l => exact .inl ⟨h.state, h.frame⟩
  | vgaClk i =>
    refine .inl ⟨h.state, ?_⟩
    have hpins : (b.chip.dataPath (b.inputs i)).pins = b.chip.regs.pins := by
      rw [System.dataPath, h.state]
      exact keyGenTick_pins _ _
    exact (view_tick_of_pins_eq (i := b.inputs i) hpins).trans h.frame
  | camPclk i =>
    have hstate : (b.edge F seed (.camPclk i)).chip.state
        = if b.chip.regs.rev = 5 then .hiatus else .keyGen := edge_camPclk_state h.state he
    -- `rev` tells whether the subkeys are there
    by_cases hrev : b.chip.regs.rev = 5
    · rw [if_pos hrev] at hstate
      exact .inr ⟨rfl, hstate, h.frame⟩
    · rw [if_neg hrev] at hstate
      exact .inl ⟨hstate, h.frame⟩

/-- An edge in `KEY_GEN`. -/
theorem session_of_keyGen (h : Left .keyGen A b.chip) (he : Unreset e) :
    Session A key (seenAfter seen e) (b.edge F seed e) := by
  rcases h.keyGen_edge he with hkeyGen | ⟨hcam, hhiatus⟩
  · exact .keyGen hkeyGen
  · cases e with
    | clk l => cases hcam
    | vgaClk i => cases hcam
    | camPclk i => exact session_of_left hhiatus

/-- An edge in a chain. -/
theorem session_of_chain {op : Op}
    (h : Pending System.tick (Steady key) (InChain op.chain) (Left .hiatus A) System.mode Matches
      Halfway (seen = true) b)
    (hpaced : e.clock = .camPclk → seen = true) (hheld : HeldEdge key b e) :
    Session A key (seenAfter seen e) (b.edge F seed e) := by
  -- the end of a chain is not in it
  have hWQ : ∀ s, InChain op.chain s → ¬ Left .hiatus A s := fun s hs hleft =>
    (Op.inChains hs).not_rest.1 hleft.state
  rcases (decouples F seed fun s hs => Op.inChains hs).pending hWQ h hheld hpaced with
    hpending | ⟨s, hleft, hcore, -⟩
  · refine .chain op ?_
    convert hpending using 2
    cases e <;> simp [seenAfter, ClockEdge.clock]
  · -- only `Cam_pclk` leaves the chain
    have hstate : (b.edge F seed e).chip.state = .hiatus := hcore.state.trans hleft.state
    have hcam : e.clock = .camPclk := clock_of_state_ne F seed fun hsame =>
      (inChains_of_pending h).not_rest.1 (hsame.symm.trans hstate)
    cases e with
    | clk l => cases hcam
    | vgaClk i => cases hcam
    | camPclk i => exact session_of_left ⟨hstate, hcore.frame.trans hleft.frame⟩

variable (F seed) in
/-- **One edge of a session.** -/
theorem Session.edge (h : Session A key seen b) (he : Unreset e)
    (hpaced : e.clock = .camPclk → seen = true) (hkept : InChains b.chip → HeldEdge key b e) :
    Session (((b.request e).toList).foldl (fun A r => r.1.cipher r.2 A) A) (b.keyAfter key e)
      (seenAfter seen e) (b.edge F seed e) := by
  -- by what the edge asks for
  cases hreq : b.request e with
  | none =>
    rw [Board.keyAfter, hreq]
    cases h with
    | rest cleared quiet state ready => exact session_of_quiet quiet he state ready hpaced hreq
    | keyGen left => exact session_of_keyGen left he
    | chain op pending =>
      exact session_of_chain pending hpaced (hkept (inChains_of_pending pending))
  | some r =>
    obtain ⟨op, k⟩ := r
    obtain ⟨i, rfl, hdisplay, -, -⟩ := request_eq_some hreq
    rw [Board.keyAfter, hreq]
    -- a request is taken at rest only
    cases h with
    | rest cleared quiet state ready =>
      have hready := quiet.cleared (quiet.display hdisplay)
      rw [hdisplay] at hready
      exact session_of_request hready hreq he
    | keyGen left => exact absurd (left.state.symm.trans hdisplay) (by decide)
    | chain op pending => exact absurd hdisplay (inChains_of_pending pending).not_rest.2

/-- **A whole session.** -/
theorem Session.run (h : Session A key seen b) (hes : ∀ e ∈ es, Unreset e)
    (hpaced : Paced seen es) (hkept : Kept F seed key b es) :
    ∃ key' seen', Session ((ledger F seed b es).foldl (fun A r => r.1.cipher r.2 A) A) key' seen'
      (run (Board.edge · F seed) b es) := by
  induction es generalizing A key seen b with
  | nil => exact ⟨key, seen, h⟩
  | cons e es ih =>
    rw [paced_cons] at hpaced
    have hedge := h.edge F seed (hes e List.mem_cons_self) hpaced.1 hkept.1
    rw [ledger, emitted_cons, List.foldl_append]
    exact ih hedge (fun e he => hes e (List.mem_cons_of_mem _ he)) hpaced.2 hkept.2

/-! ### From power-up -/

/-- Before the first picture is taken: the counters are as they were at power-up. -/
structure Prepared (b : Board) : Prop where
  state : b.chip.state ∈ [.sleep, .prep, .prep2, .run]
  entered : Entered b.chip.state b.chip.frame b.chip

/-- At power-up all registers are cleared. -/
theorem Prepared.of_sleep (hs : b.chip.state = .sleep) (hrev : b.chip.regs.rev = 0)
    (hblock : b.chip.regs.blockCounter = 0) (hrow : b.chip.regs.rowCounter = 0)
    (hcolumn : b.chip.regs.columnCounter = 0) : Prepared b :=
  ⟨by simp [hs], rfl, hrev, hblock, hrow, hcolumn, rfl⟩

theorem session_of_entered (h : Entered .display A b.chip) : Session A key seen b :=
  .rest True ⟨h.frame, fun _ => ⟨rfl, h.rev, h.block, h.row, h.column, h.frame⟩, fun _ => trivial⟩
    (.inr h.state) fun _ => trivial

/-- The counters are left alone until the picture is there. -/
theorem Prepared.edge (h : Prepared b) (he : Unreset e) : Prepared (b.edge F seed e) ∨
    Session (b.edge F seed e).chip.frame key (seenAfter seen e) (b.edge F seed e) := by
  obtain ⟨-, hrev, hblock, hrow, hcolumn, -⟩ := h.entered
  cases e with
  | clk l => exact .inl ⟨h.state, h.entered⟩
  | vgaClk i =>
    -- before the picture a tick moves nothing but the pins
    obtain ⟨p, hp⟩ : ∃ p, b.chip.dataPath (b.inputs i) = { b.chip.regs with pins := p } := by
      have hs := h.state
      simp only [List.mem_cons, List.not_mem_nil, or_false] at hs
      rcases hs with hs | hs | hs | hs <;> rw [System.dataPath, hs] <;> exact ⟨_, rfl⟩
    have hregs : (b.edge F seed (.vgaClk i)).chip.regs = { b.chip.regs with pins := p } := hp
    exact .inl ⟨h.state, rfl, by rw [hregs]; exact hrev, by rw [hregs]; exact hblock,
      by rw [hregs]; exact hrow, by rw [hregs]; exact hcolumn, rfl⟩
  | camPclk i =>
    have hentered : Entered (b.edge F seed (.camPclk i)).chip.state
        (b.edge F seed (.camPclk i)).chip.frame (b.edge F seed (.camPclk i)).chip :=
      ⟨rfl, hrev, hblock, hrow, hcolumn, rfl⟩
    -- `Cam_pclk` goes on to `DISPLAY` or stays before it
    have hstate : (b.edge F seed (.camPclk i)).chip.state ∈ [.sleep, .prep, .prep2, .run] ∨
        (b.edge F seed (.camPclk i)).chip.state = .display := by
      have hs := h.state
      rw [camPclk_state_of_unreset he]
      simp only [List.mem_cons, List.not_mem_nil, or_false] at hs
      rcases hs with hs | hs | hs | hs <;> simp only [System.nextState, hs] <;> split_ifs <;> simp
    rcases hstate with hstate | hstate
    · exact .inl ⟨hstate, hentered⟩
    · rw [hstate] at hentered
      exact .inr (session_of_entered hentered)

/-- The whole way from power-up. -/
theorem session_of_powerup {history : List ClockEdge}
    (h : Prepared b ∨ ∃ A, Session A key seen b) (hunreset : ∀ e ∈ history, Unreset e)
    (hpaced : Paced seen (history ++ es)) (hkept : Kept F seed key b (history ++ es)) :
    ∃ key' seen', (Prepared (run (Board.edge · F seed) b history) ∨
        ∃ A, Session A key' seen' (run (Board.edge · F seed) b history)) ∧
      Paced seen' es ∧ Kept F seed key' (run (Board.edge · F seed) b history) es := by
  -- edge by edge, with the pacing and the key of the rest
  induction history generalizing b key seen with
  | nil => exact ⟨key, seen, h, hpaced, hkept⟩
  | cons e history ih =>
    rw [List.cons_append, paced_cons] at hpaced
    refine ih ?_ (fun e he => hunreset e (List.mem_cons_of_mem _ he)) hpaced.2 hkept.2
    have he := hunreset e List.mem_cons_self
    rcases h with h | ⟨A, h⟩
    · exact (h.edge he).imp_right fun h => ⟨_, h⟩
    · exact .inr ⟨_, h.edge F seed he hpaced.1 hkept.1⟩

/-- **A session refines its ledger.** Take any run from power-up without a reset, whose clocks
interleave in any order that has an edge of `VGA_Clk` between two edges of `Cam_pclk`, and in which
`KEY` stays during a chain what it was when the chain was asked for. Whenever the board is at rest
after a picture was taken, the SRAM holds that picture with all the ciphers of the ledger applied to
it, in their order and with their keys, whatever else was asked for in between. -/
theorem session_refines (F : Subkey.Map → Subkey.Key → Subkey.Key) (seed : BitVec 12)
    {b₀ : Board} {history : List ClockEdge} (h₀ : Prepared b₀)
    (hunreset : ∀ e ∈ history ++ es, Unreset e) (hpaced : Paced seen (history ++ es))
    (hkept : Kept F seed key b₀ (history ++ es))
    (hdisplay : (run (Board.edge · F seed) b₀ history).chip.state = .display)
    (hrest : (run (Board.edge · F seed) b₀ (history ++ es)).chip.state = .hiatus ∨
      (run (Board.edge · F seed) b₀ (history ++ es)).chip.state = .display) :
    (run (Board.edge · F seed) b₀ (history ++ es)).chip.frame
      = (ledger F seed (run (Board.edge · F seed) b₀ history) es).foldl
          (fun A r => r.1.cipher r.2 A) (run (Board.edge · F seed) b₀ history).chip.frame := by
  obtain ⟨key', seen', hsession, hpaced', hkept'⟩ := session_of_powerup (.inl h₀)
    (fun e he => hunreset e (List.mem_append_left _ he)) hpaced hkept
  rw [run_append] at hrest ⊢
  generalize run (Board.edge · F seed) b₀ history = b at *
  rcases hsession with hprepared | ⟨A, hsession⟩
  · have hstate := hprepared.state
    rw [hdisplay] at hstate
    exact absurd hstate (by decide)
  -- the ledger is what the session adds to its picture
  · obtain ⟨key'', seen'', hend⟩ := hsession.run
      (fun e he => hunreset e (List.mem_append_right _ he)) hpaced' hkept'
    rw [hend.frame hrest, hsession.frame (.inr hdisplay)]

/-! A session with one encryption. -/

/-- `Run`, two frame syncs: a picture of no pixels. -/
def pictureTaken : List ClockEdge :=
  [false, true, false, true].flatMap fun vsync =>
    [.vgaClk (inTurn 0), .camPclk (sends vsync false 0)]

/-- A tick of `VGA_Clk`, and the three clocks in turn. -/
def thenInTurn (n : ℕ) : List ClockEdge :=
  .vgaClk (inTurn 0) :: (List.range n).map threeInTurn

/-- A list of edges with one key. -/
theorem kept_of_held {inp : ℕ → ClockEdge}
    (h : ∀ n, HeldEdge key (stateAt (Board.edge · F seed) b inp n) (inp n)) (n : ℕ) :
    Kept F seed key b ((List.range n).map inp) := by
  induction n generalizing b inp with
  | zero => trivial
  | succ n ih =>
    rw [List.range_succ_eq_map, List.map_cons, List.map_map]
    -- a request finds the key that is held anyway
    have hkey : b.keyAfter key (inp 0) = key := by
      cases hreq : b.request (inp 0) with
      | none => rw [Board.keyAfter, hreq]; rfl
      | some r =>
        obtain ⟨op, k⟩ := r
        obtain ⟨i, hi, -, hk, -⟩ := request_eq_some hreq
        have hheld := h 0
        rw [hi] at hheld
        rw [Board.keyAfter, hreq]
        exact hk.symm.trans hheld.2
    refine ⟨fun _ => h 0, ?_⟩
    rw [hkey]
    have hrest : ∀ n, HeldEdge key (stateAt (Board.edge · F seed) (b.edge F seed (inp 0))
        (fun n => inp (n + 1)) n) (inp (n + 1)) := fun n => by
      rw [← stateAt_succ']
      exact h (n + 1)
    exact ih hrest

/-- A ledger of edges that find the board in other states than `DISPLAY`. -/
theorem ledger_of_ne {inp : ℕ → ClockEdge} {n : ℕ}
    (h : ∀ m < n, (stateAt (Board.edge · F seed) b inp m).chip.state ≠ .display) :
    ledger F seed b ((List.range n).map inp) = [] := by
  induction n with
  | zero => rfl
  | succ n ih =>
    rw [ledger] at ih ⊢
    rw [List.range_succ, List.map_append, emitted_append, ih fun m hm => h m (by omega),
      ← stateAt_eq_run]
    simp [request_eq_none (h n (Nat.lt_succ_self n))]

theorem paced_threeInTurn (m n : ℕ) :
    Paced (decide (m % 3 ≠ 1)) ((List.range n).map fun k => threeInTurn (m + k)) := by
  induction n generalizing m with
  | zero => trivial
  | succ n ih =>
    rw [List.range_succ_eq_map, List.map_cons, List.map_map, paced_cons]
    -- a tick is seen at every third edge, and after the next one
    have hseen : seenAfter (decide (m % 3 ≠ 1)) (threeInTurn m) = decide ((m + 1) % 3 ≠ 1) := by
      unfold threeInTurn
      split_ifs <;> simp [seenAfter] <;> omega
    refine ⟨fun hcam => ?_, ?_⟩
    · unfold threeInTurn at hcam
      split_ifs at hcam with h0
      · rw [Nat.add_zero] at h0
        simp [h0]
      · cases hcam
      · cases hcam
    · rw [Nat.add_zero, hseen]
      simpa [Function.comp_def, Nat.add_assoc, Nat.add_comm 1] using ih (m + 1)

/-- The board before the request. -/
def pictured : Board :=
  run (Board.edge · (fun _ k => k) 0) sleepingBoard (pictureTaken ++ [.vgaClk (inTurn 0)])

theorem ledger_thenInTurn {n : ℕ}
    (h : ∀ m, 0 < m → m ≤ n → (stateAt (Board.edge · (fun _ k => k) 0) pictured threeInTurn
      m).chip.state ≠ .display) :
    ledger (fun _ k => k) 0 (run (Board.edge · (fun _ k => k) 0) sleepingBoard pictureTaken)
      (thenInTurn (n + 1)) = [(.encrypt, displaying.key (inTurn 0))] := by
  have hrest : ledger (fun _ k => k) 0 (pictured.edge (fun _ k => k) 0 (threeInTurn 0))
      ((List.range n).map fun n => threeInTurn (n + 1)) = [] := ledger_of_ne fun m hm => by
    rw [← stateAt_succ']
    exact h (m + 1) (Nat.succ_pos m) hm
  have hfirst : (pictured.request (threeInTurn 0)).toList
      = [(.encrypt, displaying.key (inTurn 0))] := rfl
  rw [thenInTurn, List.range_succ_eq_map, List.map_cons, List.map_map]
  exact congrArg₂ (· ++ ·) hfirst hrest

theorem kept_pictureTaken (n : ℕ) : Kept (fun _ k => k) 0 (displaying.key (inTurn 0))
    sleepingBoard (pictureTaken ++ thenInTurn n) := by
  have hheld : ∀ n, HeldEdge (displaying.key (inTurn 0))
      (stateAt (Board.edge · (fun _ k => k) 0) pictured threeInTurn n) (threeInTurn n) :=
    heldEdge_stateAt (b := pictured) (fun h => Fsm.noConfusion h) sameSwitches_threeInTurn
  -- the states of the picture belong to no chain
  have hidle : ∀ {s : System}, s.state ∈ [.sleep, .prep, .prep2, .run, .display] →
      ¬ InChains s := by
    intro s hs hin
    rw [InChains] at hin
    generalize s.state = st at hs hin
    cases st <;> first | exact absurd hs (by decide) | exact absurd hin (by decide)
  have hkept := kept_of_held hheld n
  -- the nine edges of the picture are outside the chains
  refine ⟨?_, ?_, ?_, ?_, ?_, ?_, ?_, ?_, ?_, hkept⟩
  all_goals exact fun h => absurd h (hidle (by decide))

/-- From power-up: a picture, an encryption, and `HIATUS`. -/
theorem session_refines_once : ∃ n,
    ledger (fun _ k => k) 0 (run (Board.edge · (fun _ k => k) 0) sleepingBoard pictureTaken)
      (thenInTurn n) = [(.encrypt, displaying.key (inTurn 0))] ∧
    (run (Board.edge · (fun _ k => k) 0) sleepingBoard (pictureTaken ++ thenInTurn n)).chip.frame
      = encrypt (displaying.key (inTurn 0))
          (run (Board.edge · (fun _ k => k) 0) sleepingBoard pictureTaken).chip.frame := by
  have hheld : ∀ n, HeldEdge (displaying.key (inTurn 0))
      (stateAt (Board.edge · (fun _ k => k) 0) pictured threeInTurn n) (threeInTurn n) :=
    heldEdge_stateAt (b := pictured) (fun h => Fsm.noConfusion h) sameSwitches_threeInTurn
  have hentered : Entered .display pictured.chip.frame pictured.chip :=
    ⟨rfl, rfl, rfl, rfl, rfl, rfl⟩
  have hfirst : pictured.chip.nextState (inTurn 0) = Op.encrypt.first := rfl
  obtain ⟨n, hleft, -, hchain⟩ := op_reaches threeInTurn hentered hfirst hheld
    interleaves_threeInTurn rfl
  have hledger := ledger_thenInTurn fun m hm hmn => (Op.inChains (hchain m hm hmn)).not_rest.2
  have hend : (run (Board.edge · (fun _ k => k) 0) sleepingBoard
      (pictureTaken ++ thenInTurn (n + 1))).chip.state = .hiatus := by
    rw [← hleft.state, stateAt_eq_run, pictured, ← run_append, List.append_assoc]
    rfl
  have hpaced : Paced false (pictureTaken ++ thenInTurn (n + 1)) := by
    have h := paced_threeInTurn 0 (n + 1)
    simp only [Nat.zero_add] at h
    exact ⟨rfl, rfl, rfl, rfl, h⟩
  have hunreset : ∀ e ∈ pictureTaken ++ thenInTurn (n + 1), Unreset e := by
    intro e he
    rw [List.mem_append, thenInTurn, List.mem_cons, List.mem_map] at he
    rcases he with he | rfl | ⟨m, -, rfl⟩
    · simp only [pictureTaken, List.mem_flatMap] at he
      obtain ⟨vsync, -, he⟩ := he
      simp only [List.mem_cons, List.not_mem_nil, or_false] at he
      rcases he with rfl | rfl <;> exact rfl
    · exact rfl
    · unfold threeInTurn
      split_ifs
      exacts [rfl, rfl, trivial]
  refine ⟨n + 1, hledger, ?_⟩
  rw [session_refines (fun _ k => k) 0 (.of_sleep rfl rfl rfl rfl rfl) hunreset hpaced
    (kept_pictureTaken (n + 1)) rfl (.inl hend), hledger]
  simp only [List.foldl_cons, List.foldl_nil, Op.cipher]

/-! ### After a reset -/

/-- Entered with the `block_counter` of its end, `ENCRYPT_HOR` does nothing. -/
theorem skipped_leadsTo (key : BitVec 80) (A : Frame) :
    LeadsTo System.tick (Held key) (InChain encryptChain)
      (fun s => s.state = .encryptHor ∧ s.regs.blockCounter = 60 ∧ s.frame = A)
      (Left .hiatus (encryptUnrotated key A)) := by
  have hW : ∀ st ∈ encryptChain, ∀ s : System, s.state = st → InChain encryptChain s :=
    fun st h => inChain_of_mem h
  -- `ENCRYPT_HOR` is left at once, for its block counter is at the end
  have hskip : LeadsTo System.tick (Held key) (InChain encryptChain)
      (fun s => s.state = .encryptHor ∧ s.regs.blockCounter = 60 ∧ s.frame = A)
      (Left .encryptInterval A) := by
    refine .of_step (fun s hs => hW _ (by decide) s hs.1) fun s i hs hheld => ?_
    obtain ⟨hst, hblock, hframe⟩ := hs
    have hmode : s.mode = .leaves := by simp [System.mode, hst, hblock]
    have hend : AtEnd s := ⟨fun h => by simp [hst] at h, fun h => by simp [hst] at h⟩
    refine ⟨?_, (view_tick_of_pins_eq (by rw [dataPath_of_leaves hmode hend])).trans hframe⟩
    rw [System.tick, hheld.1, System.nextState, hst]
    exact if_pos hblock
  -- the other phases run as in the encryption chain
  have hver := hskip.trans ((interval_leadsTo (interval_drives key rfl) (hW _ (by decide)) _).trans
    ((shift_leadsTo encryptVer_fits (encryptVer_drives key) (hW _ (by decide)) _).trans
      (interval_leadsTo (interval_drives key rfl) (hW _ (by decide)) _)))
  have hmix := hver.trans ((mix_leadsTo (encryptMix_drives key) (hW _ (by decide)) _).trans
    (interval_leadsTo (interval_drives key rfl) (hW _ (by decide)) _))
  have hcipher : mask key ((A ∘ shiftPerm key 80 columnLayout) ∘ mixPerm key)
      = encryptUnrotated key A := by
    rw [encryptUnrotated]
  rw [← hcipher]
  exact hmix.trans (xor_leadsTo (encryptXor_drives key) (hW _ (by decide)) _)

theorem skipped_reaches (inp : ℕ → ClockEdge) (hs : b.chip.state = .display)
    (hblock : b.chip.regs.blockCounter = 60) (hfirst : inp 0 = .camPclk i)
    (hrequest : EncryptRequest i)
    (hheld : ∀ n, HeldEdge key (stateAt (Board.edge · F seed) b inp n) (inp n))
    (hclocks : Interleaves ClockEdge.clock .camPclk .vgaClk inp) :
    ∃ n, Left .hiatus (encryptUnrotated key b.chip.frame)
      (stateAt (Board.edge · F seed) b inp (n + 1)).chip := by
  have hheld₀ := held_of_first hheld hfirst
  have hnext : (b.edge F seed (.camPclk i)).chip.state = .encryptHor := by
    rw [camPclk_state_of_unreset hheld₀.1]
    exact nextState_of_encryptRequest hs hrequest
  have hchain : LeadsTo System.tick (Held key) (InChain Op.encrypt.chain) _ _ :=
    skipped_leadsTo key b.chip.frame
  have hend : AtEnd (b.edge F seed (.camPclk i)).chip :=
    ⟨fun h => by simp [hnext] at h, fun h => by simp [hnext] at h⟩
  have hmode : (b.edge F seed (.camPclk i)).chip.mode ≠ .passes := by
    have hblock' : (b.edge F seed (.camPclk i)).chip.regs.blockCounter = 60 := hblock
    simp [System.mode, hnext, hblock']
  obtain ⟨n, hleft, -, -⟩ := board_from_display inp hchain hs ⟨hnext, hblock, rfl⟩ hend hmode hheld
    hclocks hfirst
  exact ⟨n, hleft⟩

/-- Nothing clears `block_counter` before the next request. -/
theorem block_edge (hs : b.chip.state ∈ [.sleep, .prep, .prep2, .run, .display]) :
    (b.edge F seed e).chip.regs.blockCounter = b.chip.regs.blockCounter := by
  cases e with
  | clk l => rfl
  | camPclk i => rfl
  | vgaClk i =>
    change (b.chip.dataPath (b.inputs i)).blockCounter = _
    unfold System.dataPath
    generalize b.chip.state = st at hs
    cases st <;> first | rfl | exact absurd hs (by decide)

theorem comp_shiftPerm_symm_eq_iff (A : Frame) :
    A ∘ (shiftPerm key 60 rowLayout).symm = A ↔
      ∀ (l : Fin 480) (q : Fin 640), Shifted key 60 l → A (l, q + 8) = A (l, q) := by
  rw [Equiv.comp_symm_eq]
  constructor
  -- line by line, eight columns further on
  · intro h l q hl
    have hpx := congrFun h (l, q)
    rw [show ((l, q) : Pixel) = rowLayout (l, q) from rfl, comp_shiftPerm, if_pos hl] at hpx
    exact hpx.symm
  · intro h
    funext px
    obtain ⟨⟨l, q⟩, rfl⟩ := rowLayout.surjective px
    rw [comp_shiftPerm]
    split
    · next hl => exact (h l q hl).symm
    · rfl

/-- **`Reset` does not clear the counters.** After a reset while `block_counter` is 60, as it is at
the end of `ENCRYPT_HOR` and in the middle of `ENCRYPT_VER`, the first encryption of the next
picture leaves its rows alone; and decryption, which rotates them back, gives the picture again
exactly when the rows that `ENCRYPT_HOR` rotates under the key had period 8. -/
theorem reset_skips_rows (F : Subkey.Map → Subkey.Key → Subkey.Key) (seed : BitVec 12)
    {inp : ℕ → ClockEdge} {n : ℕ} {j : Inputs}
    (hblock : b.chip.regs.blockCounter = 60) (hfirst : inp 0 = .camPclk i) (hreset : i.reset = true)
    (hclocks : Interleaves ClockEdge.clock .camPclk .vgaClk inp)
    (hbefore : ∀ m, 1 < m → m ≤ n → (stateAt (Board.edge · F seed) b inp m).chip.state ∈
      [.sleep, .prep, .prep2, .run, .display])
    (hdisplay : (stateAt (Board.edge · F seed) b inp n).chip.state = .display)
    (hedge : inp n = .camPclk j) (hrequest : EncryptRequest j)
    (hheld : ∀ m, HeldEdge key (stateAt (Board.edge · F seed) b inp (n + m)) (inp (n + m))) :
    ∃ m, n < m ∧ (stateAt (Board.edge · F seed) b inp m).chip.state = .hiatus ∧
      (stateAt (Board.edge · F seed) b inp m).chip.frame
        = encryptUnrotated key (stateAt (Board.edge · F seed) b inp n).chip.frame ∧
      (decrypt key (stateAt (Board.edge · F seed) b inp m).chip.frame
          = (stateAt (Board.edge · F seed) b inp n).chip.frame ↔
        ∀ (l : Fin 480) (q : Fin 640), Shifted key 60 l →
          (stateAt (Board.edge · F seed) b inp n).chip.frame (l, q + 8)
            = (stateAt (Board.edge · F seed) b inp n).chip.frame (l, q)) := by
  -- the chip goes from the reset to the display
  have hidle : ∀ m, 0 < m → m ≤ n → (stateAt (Board.edge · F seed) b inp m).chip.state ∈
      [.sleep, .prep, .prep2, .run, .display] := by
    intro m hm hmn
    rcases Nat.lt_or_eq_of_le hm with hm | rfl
    · exact hbefore m hm hmn
    · have hsleep : (stateAt (Board.edge · F seed) b inp 1).chip.state = .sleep := by
        rw [stateAt_succ, stateAt_zero, hfirst]
        exact if_pos hreset
      simp [hsleep]
  -- none of these states writes the block counter
  have hkept : ∀ m ≤ n, (stateAt (Board.edge · F seed) b inp m).chip.regs.blockCounter = 60 := by
    intro m hm
    induction m with
    | zero => exact hblock
    | succ m ih =>
      rcases Nat.eq_zero_or_pos m with rfl | hpos
      · rw [stateAt_succ, stateAt_zero, hfirst]
        exact hblock
      · rw [stateAt_succ, block_edge (hidle m hpos (by omega))]
        exact ih (by omega)
  -- so the next encryption finds it at the end of `ENCRYPT_HOR`
  obtain ⟨m, hleft⟩ := skipped_reaches (fun k => inp (n + k)) hdisplay (hkept n le_rfl) hedge
    hrequest (fun m => by rw [← stateAt_add]; exact hheld m) (hclocks.drop n)
  rw [← stateAt_add] at hleft
  refine ⟨n + (m + 1), by omega, hleft.state, hleft.frame, ?_⟩
  rw [hleft.frame, encryptUnrotated_eq, decrypt_encrypt]
  exact comp_shiftPerm_symm_eq_iff _

/-- `Run` and two frame syncs after a reset, with the three clocks in turn. -/
def retake (n : ℕ) : ClockEdge :=
  if n % 3 = 0 then
    .camPclk { sends (decide (n = 6 ∨ n = 12)) false 0 with reset := decide (n = 0) }
  else if n % 3 = 1 then .vgaClk (inTurn 0)
  else .clk fun _ => 0

theorem interleaves_retake : Interleaves ClockEdge.clock .camPclk .vgaClk retake := by
  refine interleaves_of_mod (fun n => ?_) fun n h => by simp [retake, h, ClockEdge.clock]
  unfold retake
  split_ifs with h0 h1 <;> simp [ClockEdge.clock, h0]

/-- Vertical stripes, eight pixels wide. -/
def stripes : Memory := fun a => (a.setWidth 3).setWidth 16

/-- A board at the end of `ENCRYPT_HOR`, with a striped picture. -/
def interruptedBoard : Board where
  chip := { entering .encryptHor stripes with
    regs := { displaying.regs with blockCounter := 60 } }
  module1 := generatorReset
  held := fun _ => rfl

theorem held_retake (m : ℕ) : HeldEdge (displaying.key (inTurn 0))
    (stateAt (Board.edge · (fun _ k => k) 0) interruptedBoard retake (15 + m))
    (retake (15 + m)) := by
  have hswitches : ∀ m, SameSwitches (inTurn 0) (retake (15 + m)) := by
    intro m
    unfold retake
    split_ifs
    exacts [⟨by simp, fun h => absurd h.2.1 (by simp [sends, inTurn]), rfl, rfl, rfl, rfl⟩,
      ⟨rfl, fun h => absurd h.2.1 (by decide), rfl, rfl, rfl, rfl⟩, trivial]
  rw [stateAt_add]
  exact heldEdge_stateAt (fun h => Fsm.noConfusion h) hswitches m

theorem frame_stripes (l : Fin 480) (q : Fin 640) :
    (stateAt (Board.edge · (fun _ k => k) 0) interruptedBoard retake 15).chip.frame (l, q)
      = BitVec.ofNat 16 (q % 8) := by
  change stripes (pixelAddr (l, q)) = _
  rw [stripes, pixelAddr]
  apply BitVec.eq_of_toNat_eq
  simp only [BitVec.toNat_setWidth, BitVec.toNat_ofNat]
  omega

/-- Stripes have period 8: the picture comes back, though its rows are not rotated. -/
theorem reset_skips_rows_stripes : ∃ m,
    (stateAt (Board.edge · (fun _ k => k) 0) interruptedBoard retake m).chip.state = .hiatus ∧
      (stateAt (Board.edge · (fun _ k => k) 0) interruptedBoard retake m).chip.frame
        = encryptUnrotated (displaying.key (inTurn 0))
            (stateAt (Board.edge · (fun _ k => k) 0) interruptedBoard retake 15).chip.frame ∧
      decrypt (displaying.key (inTurn 0))
        (stateAt (Board.edge · (fun _ k => k) 0) interruptedBoard retake m).chip.frame
          = (stateAt (Board.edge · (fun _ k => k) 0) interruptedBoard retake 15).chip.frame := by
  obtain ⟨m, -, hstate, hskipped, hiff⟩ := reset_skips_rows (fun _ k => k) 0
    (b := interruptedBoard) (n := 15) rfl rfl rfl interleaves_retake
    (fun m hm hmn => by interval_cases m <;> decide) rfl rfl ⟨rfl, rfl, rfl⟩ held_retake
  refine ⟨m, hstate, hskipped, hiff.mpr fun l q _ => ?_⟩
  -- the stripes have period 8
  have hcolumn : ((q + 8 : Fin 640) : ℕ) % 8 = q % 8 := by
    have h8 : ((q + 8 : Fin 640) : ℕ) = (q + 8) % 640 := rfl
    omega
  rw [frame_stripes, frame_stripes, hcolumn]

end Sram
end VideoEncryption
