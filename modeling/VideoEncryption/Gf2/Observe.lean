import VideoEncryption.Gf2.Linear

/-!
# Observing a linear machine

A machine over GF(2) whose state goes through the iterates of a linear map and that shows the `m`
low bits of every state. What it shows in `n` steps is again a linear map of the first state, so
the state can be computed from it as soon as that map has a left inverse.

* `observe` — the observations packed into one word, the first lowest;
* `apply_observe` — the state behind its observations.
-/

namespace Gf2

variable {f : ℕ → ℕ} {m n w x : ℕ}

/-- The `m` low bits of the words, packed into one word, the first lowest. -/
def pack (m : ℕ) : List ℕ → ℕ
  | [] => 0
  | x :: xs => x % 2 ^ m ^^^ 2 ^ m * pack m xs

/-- Only the low bits count. -/
theorem pack_map_congr {α : Type*} {g h : α → ℕ} (hgh : ∀ a, g a % 2 ^ m = h a % 2 ^ m)
    (l : List α) : pack m (l.map g) = pack m (l.map h) := by
  induction l with
  | nil => rfl
  | cons a l ih => rw [List.map_cons, List.map_cons, pack, pack, hgh, ih]

/-- What `n` iterates of `f` from `x` on show. -/
def observe (m : ℕ) (f : ℕ → ℕ) (n x : ℕ) : ℕ := pack m (List.iterate f x n)

theorem linear_observe (hf : Linear f) (m n : ℕ) : Linear (observe m f n) := by
  intro x y
  unfold observe
  induction n generalizing x y with
  | zero => exact (Nat.xor_self 0).symm
  | succ n ih =>
    -- shifting the packed observations is linear too
    have hshift : ∀ a b : ℕ, 2 ^ m * (a ^^^ b) = 2 ^ m * a ^^^ 2 ^ m * b := by
      intro a b
      have h := Nat.shiftLeft_xor_distrib (i := m) (a := a) (b := b)
      simpa only [Nat.shiftLeft_eq, Nat.mul_comm (2 ^ m)] using h
    rw [List.iterate, List.iterate, List.iterate, pack, pack, pack, hf, ih, hshift,
      Nat.xor_mod_two_pow]
    ac_rfl

/-- **The state behind its observations**: a left inverse, column by column, computes it. -/
theorem apply_observe (hf : Linear f) {B : List ℕ}
    (hB : mul B (columns (observe m f n) w) = columns id w) (hx : x < 2 ^ w) :
    apply B (observe m f n x) = x := by
  calc apply B (observe m f n x)
      = apply B (apply (columns (observe m f n) w) x) := by
        rw [← map_eq_apply (linear_observe hf m n) hx]
    _ = apply (columns id w) x := by rw [← apply_mul, hB]
    _ = x := (map_eq_apply (f := id) (fun _ _ => rfl) hx).symm

end Gf2
