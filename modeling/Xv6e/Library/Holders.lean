import Mathlib

/-!
# What all threads hold together

Every thread is at some place, and at a place it holds so many references.

* `held w f` — the number of references that the threads hold together, thread `p` being at `f p`;
* `held_update` — one thread goes to another place.
-/

namespace Xv6e.Library.Holders

variable {P κ : Type*} [Fintype P] {f : P → κ} {w : κ → ℕ} {p : P} {c : κ}

/-- The number of references that the threads hold together. -/
def held (w : κ → ℕ) (f : P → κ) : ℕ := ∑ p, w (f p)

theorem le_held (w : κ → ℕ) (f : P → κ) (p : P) : w (f p) ≤ held w f :=
  Finset.single_le_sum (f := fun p => w (f p)) (fun _ _ => Nat.zero_le _) (Finset.mem_univ p)

theorem held_eq_zero : held w f = 0 ↔ ∀ p, w (f p) = 0 := by
  rw [held, Finset.sum_eq_zero_iff]
  exact ⟨fun h p => h p (Finset.mem_univ p), fun h p _ => h p⟩

variable [DecidableEq P]

/-- **One thread goes to another place.** -/
theorem held_update (w : κ → ℕ) (f : P → κ) (p : P) (c : κ) :
    held w (Function.update f p c) + w (f p) = held w f + w c := by
  have hrest : ∑ q ∈ Finset.univ.erase p, w (Function.update f p c q) = ∑ q
      ∈ Finset.univ.erase p, w (f q) := by
    apply Finset.sum_congr rfl
    intro q hq
    rw [Function.update_of_ne (Finset.ne_of_mem_erase hq)]
  rw [held, held, ← Finset.add_sum_erase _ _ (Finset.mem_univ p), ← Finset.add_sum_erase _ _
    (Finset.mem_univ p), hrest, Function.update_self]
  omega

theorem held_update_same (h : w c = w (f p)) : held w (Function.update f p c) = held w f := by
  have := held_update w f p c
  omega

end Xv6e.Library.Holders
