import VideoEncryption.Live.Display

/-!
# The VRAM banks

`VRAM.v` wires up an `altsyncram` with a write port on `wrclock` and a read port on `rdclock`, both
its address and its output registered there. The megafunction itself is not among the sources, and
what its read port answers when the word is written between the two edges of `rdclock` is not
specified. So a bank is a parameter here (`Altsyncram`), with what `VRAM.v` relies on as its laws
(`Altsyncram.Lawful`): the last edge asked for an address, no edge of `wrclock` has written there
since (`Altsyncram.Asked`), and the next one answers.

`storeAll_stores` tells what the write ports of the three banks do at an edge of `Cam_pclk`.
-/

namespace VideoEncryption
namespace Live

/-! ### One bank -/

/-- A memory with the ports of `VRAM.v`: its states are those of `P`. -/
structure Altsyncram (P : Type*) where
  /-- A rising `wrclock` edge, with `wren`, `wraddress` and `data`. -/
  wrclock : P → Bool → BitVec 16 → BitVec 16 → P
  /-- A rising `rdclock` edge, with `rdaddress`. -/
  rdclock : P → BitVec 16 → P
  /-- The registers of the read port. -/
  port : P → ReadPort
  /-- The words held. -/
  contents : P → BitVec 16 → BitVec 16

namespace Altsyncram

variable {P : Type*} (V : Altsyncram P)

/-- The state asks for the address `a`, which held `w`, and `a` has not been written since. -/
inductive Asked (a w : BitVec 16) : P → Prop
  /-- The edge of `rdclock` that asks. -/
  | ask {m : P} (h : V.contents m a = w) : Asked a w (V.rdclock m a)
  /-- An edge of `wrclock` that leaves `a` alone. -/
  | keep {m : P} {wren : Bool} {wraddress : BitVec 16} (data : BitVec 16) (hm : Asked a w m)
      (h : ¬ (wren = true ∧ wraddress = a)) : Asked a w (V.wrclock m wren wraddress data)

/-- **What `VRAM.v` relies on.** -/
structure Lawful : Prop where
  contents_rdclock : ∀ m a, V.contents (V.rdclock m a) = V.contents m
  contents_wrclock : ∀ m wren a w, V.contents (V.wrclock m wren a w)
    = if wren then Function.update (V.contents m) a w else V.contents m
  /-- The output register is clocked by `rdclock`. -/
  q_wrclock : ∀ m wren a w, (V.port (V.wrclock m wren a w)).q = (V.port m).q
  /-- What was asked for at one edge of `rdclock` is answered at the next. -/
  q_rdclock : ∀ m a w b, V.Asked a w m → (V.port (V.rdclock m b)).q = w

/-- The memory that reads its array at the second edge of `rdclock`. -/
def array : Altsyncram ((BitVec 16 → BitVec 16) × ReadPort) where
  wrclock m wren a w := (if wren then Function.update m.1 a w else m.1, m.2)
  rdclock m a := (m.1, m.2.rdclock m.1 a)
  port m := m.2
  contents m := m.1

theorem asked_array {a w : BitVec 16} {m : (BitVec 16 → BitVec 16) × ReadPort}
    (h : array.Asked a w m) : m.2.addressReg = a ∧ m.1 a = w := by
  induction h with
  | ask h => exact ⟨rfl, h⟩
  | @keep m wren wraddress data hm h ih =>
    refine ⟨ih.1, ?_⟩
    change (if wren then Function.update m.1 wraddress data else m.1) a = w
    cases wren with
    | false => exact ih.2
    | true => exact (Function.update_of_ne (fun ha => h ⟨rfl, ha.symm⟩) _ _).trans ih.2

theorem lawful_array : array.Lawful where
  contents_rdclock _ _ := rfl
  contents_wrclock _ _ _ _ := rfl
  q_wrclock _ _ _ _ := rfl
  q_rdclock m a w b h := by
    obtain ⟨haddr, hw⟩ := asked_array h
    change m.1 m.2.addressReg = w
    rw [haddr, hw]

end Altsyncram

/-! ### The write ports of the three -/

theorem mem_stores {s : ImageInput} {b : Fin 3} (h : bankWren s b = true) :
    ⟨b, s.vramWraddress.extractLsb' 0 16, s.vramIn⟩ ∈ stores s :=
  List.mem_filterMap.mpr ⟨b, List.mem_finRange b, if_pos h⟩

/-- The stores of the banks `bs`, each at most one. -/
theorem storeAll_filterMap (s : ImageInput) (b : Fin 3) {bs : List (Fin 3)} (hbs : bs.Nodup)
    (v : Vram) :
    v.storeAll (bs.filterMap fun c =>
        if bankWren s c then some ⟨c, s.vramWraddress.extractLsb' 0 16, s.vramIn⟩ else none) b
      = if b ∈ bs ∧ bankWren s b then
          Function.update (v b) (s.vramWraddress.extractLsb' 0 16) s.vramIn
        else v b := by
  -- over the banks, whose stores go to different places
  induction bs generalizing v with
  | nil => rfl
  | cons c bs ih =>
    obtain ⟨hc, hbs⟩ := List.nodup_cons.mp hbs
    cases hw : bankWren s c with
    | false =>
      rw [List.filterMap_cons_none (by simp [hw]), ih hbs]
      -- bank `c` stores nothing, whether it is `b` or not
      refine if_congr ⟨fun h => ⟨List.mem_cons_of_mem _ h.1, h.2⟩, fun h => ⟨?_, h.2⟩⟩ rfl rfl
      refine (List.mem_cons.mp h.1).resolve_left fun hbc => ?_
      rw [hbc, hw] at h
      exact absurd h.2 (by decide)
    | true =>
      rw [List.filterMap_cons_some (by rw [hw]; rfl), Vram.storeAll, List.foldl_cons]
      refine (ih hbs (v.store ⟨c, s.vramWraddress.extractLsb' 0 16, s.vramIn⟩)).trans ?_
      -- bank `c` is `b`, and no later one is, or it is another
      obtain rfl | hne := eq_or_ne b c
      · rw [if_neg fun h => hc h.1, if_pos ⟨List.mem_cons_self, hw⟩]
        exact Function.update_self ..
      · have hother : v.store ⟨c, s.vramWraddress.extractLsb' 0 16, s.vramIn⟩ b = v b :=
          Function.update_of_ne hne _ _
        rw [hother]
        exact if_congr (and_congr_left' (by simp [hne])) rfl rfl

/-- **The stores of an edge** are each bank's own write. -/
theorem storeAll_stores (v : Vram) (s : ImageInput) (b : Fin 3) : v.storeAll (stores s) b
    = if bankWren s b then Function.update (v b) (s.vramWraddress.extractLsb' 0 16) s.vramIn
      else v b :=
  (storeAll_filterMap s b (List.nodup_finRange 3) v).trans
    (if_congr (and_iff_right (List.mem_finRange b)) rfl rfl)

end Live
end VideoEncryption
