import Mathlib

/-!
# Byte memories

A memory is a function from addresses to bytes.

* `overwrite m a n f` — the bytes `f 0, …, f (n - 1)` stand at `a`, all else is as in `m`;
* `overwrite_append` — two pieces, one after the other;
* `overwrite_succ` — one byte more, at the end: the step of every copying loop.
-/

namespace Xv6e.Library.ByteMemory

variable {β : Type*} {m : ℕ → β} {f : ℕ → β} {a n x : ℕ}

/-- The bytes `f 0, …, f (n - 1)` written at `a`. -/
def overwrite (m : ℕ → β) (a n : ℕ) (f : ℕ → β) : ℕ → β := fun x => if a ≤ x ∧ x < a + n then f
    (x - a) else m x

theorem overwrite_add {i : ℕ} (h : i < n) : overwrite m a n f (a + i) = f i := by
  rw [overwrite, if_pos ⟨Nat.le_add_right a i, Nat.add_lt_add_left h a⟩, Nat.add_sub_cancel_left]

theorem overwrite_outside (h : ¬ (a ≤ x ∧ x < a + n)) : overwrite m a n f x = m x := if_neg h

@[simp] theorem overwrite_zero : overwrite m a 0 f = m :=
  funext fun _ => overwrite_outside fun h => absurd h.2 (not_lt.mpr h.1)

theorem overwrite_congr {g : ℕ → β} (h : ∀ i < n, f i = g i) : overwrite m a n f = overwrite m a n g := by
  funext x
  by_cases hx : a ≤ x ∧ x < a + n
  · rw [overwrite, overwrite, if_pos hx, if_pos hx, h _ (by omega)]
  · rw [overwrite_outside hx, overwrite_outside hx]

/-- Two pieces, one after the other. -/
theorem overwrite_append {p : ℕ} :
    overwrite (overwrite m a p f) (a + p) n (fun i => f (p + i)) = overwrite m a (p + n) f := by
  funext x
  simp only [overwrite]
  split_ifs with h1 h2 h3 h4 h5
  · congr 1
    omega
  all_goals first | rfl | omega

/-- **One byte more**, at the end. -/
theorem overwrite_succ : overwrite m a (n + 1) f = Function.update (overwrite m a n f) (a + n) (f n) := by
  funext x
  by_cases hx : x = a + n
  · rw [hx, Function.update_self, overwrite_add (Nat.lt_succ_self n)]
  · rw [Function.update_of_ne hx, overwrite, overwrite]
    exact if_congr (by omega) rfl rfl

/-- **One byte more**, written first. -/
theorem overwrite_update : overwrite (Function.update m (a + n) (f n)) a n f = overwrite m a (n + 1) f := by
  rw [overwrite_succ]
  funext x
  by_cases hx : x = a + n
  · rw [hx, Function.update_self, overwrite_outside (by omega), Function.update_self]
  · rw [Function.update_of_ne hx, overwrite, overwrite, Function.update_of_ne hx]

end Xv6e.Library.ByteMemory
