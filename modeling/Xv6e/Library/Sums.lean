import Mathlib

/-!
# Sums over a table

A quantity summed over the cells of a table, and what a write to one cell does to it.  The quantities are
natural numbers; the rule is stated as an equation of sums, so that no subtraction is needed.

* `tally` — the sum over the cells below `n`;
* `tally_update` — a write to one cell.
-/

namespace Xv6e.Library.Sums

variable {α : Type*} {n i : ℕ} {f : ℕ → α} {g : α → ℕ}

/-- The sum of `g` over the cells of a table below `n`. -/
def tally (n : ℕ) (g : α → ℕ) (f : ℕ → α) : ℕ := ∑ j ∈ Finset.range n, g (f j)

/-- **Writing one cell** replaces its summand. -/
theorem tally_update (hi : i < n) (g : α → ℕ) (f : ℕ → α) (v : α) :
    tally n g (Function.update f i v) + g (f i) = tally n g f + g v := by
  have hmem : i ∈ Finset.range n := Finset.mem_range.mpr hi
  rw [tally, tally, ← Finset.add_sum_erase _ _ hmem, ← Finset.add_sum_erase (Finset.range n)
    (fun j => g (f j)) hmem]
  have hrest : ∑ j ∈ (Finset.range n).erase i, g (Function.update f i v j)
      = ∑ j ∈ (Finset.range n).erase i, g (f j) := by
    refine Finset.sum_congr rfl fun j hj => ?_
    rw [Function.update_of_ne (Finset.ne_of_mem_erase hj)]
  rw [hrest, Function.update_self]
  omega

theorem tally_congr {f' : ℕ → α} (h : ∀ j < n, g (f' j) = g (f j)) : tally n g f' = tally n g f :=
  Finset.sum_congr rfl fun j hj => h j (Finset.mem_range.mp hj)

theorem tally_mono {f' : ℕ → α} (h : ∀ j < n, g (f' j) ≤ g (f j)) : tally n g f' ≤ tally n g f :=
  Finset.sum_le_sum fun j hj => h j (Finset.mem_range.mp hj)

theorem tally_le_mul {g' : α → ℕ} {k : ℕ} (h : ∀ j < n, g (f j) ≤ k * g' (f j)) :
    tally n g f ≤ k * tally n g' f := by
  rw [tally, tally, Finset.mul_sum]
  exact Finset.sum_le_sum fun j hj => h j (Finset.mem_range.mp hj)

theorem tally_add {g' : α → ℕ} : tally n (fun a => g a + g' a) f = tally n g f + tally n g' f :=
  Finset.sum_add_distrib

theorem le_tally (hi : i < n) : g (f i) ≤ tally n g f :=
  Finset.single_le_sum (f := fun j => g (f j)) (fun _ _ => Nat.zero_le _) (Finset.mem_range.mpr hi)

theorem tally_eq_zero : tally n g f = 0 ↔ ∀ j < n, g (f j) = 0 := by
  rw [tally, Finset.sum_eq_zero_iff]
  exact forall_congr' fun j => by rw [Finset.mem_range]

theorem tally_pos : 0 < tally n g f ↔ ∃ j < n, 0 < g (f j) := by
  constructor
  · intro h
    by_contra hall
    push Not at hall
    exact absurd (tally_eq_zero.mpr fun j hj => Nat.le_zero.mp (hall j hj)) (Nat.pos_iff_ne_zero.mp h)
  · rintro ⟨j, hj, hpos⟩
    exact lt_of_lt_of_le hpos (le_tally hj)

/-- Two tables with the same summands. -/
theorem tally_ext {β : Type*} {f' : ℕ → β} {g' : β → ℕ} (h : ∀ j < n, g (f j) = g' (f' j)) :
    tally n g f = tally n g' f' :=
  Finset.sum_congr rfl fun j hj => h j (Finset.mem_range.mp hj)

theorem tally_single (hi : i < n) (k : ℕ) : tally n (fun j => if j = i then k else 0) id = k := by
  rw [tally, Finset.sum_eq_single i]
  · exact if_pos rfl
  · intro j _ hj
    exact if_neg hj
  · intro hi'
    exact absurd (Finset.mem_range.mpr hi) hi'

/-- The members of a list that have a property, sorted by a key below `n`. -/
theorem countP_eq_tally {β : Type*} (key : β → ℕ) (P : ℕ → Bool) (l : List β)
    (hl : ∀ b ∈ l, P (key b) = true → key b < n) :
    l.countP (fun b => P (key b))
      = tally n (fun c => if P c then l.countP (fun b => decide (key b = c)) else 0) id := by
  induction l with
  | nil =>
    rw [List.countP_nil, eq_comm, tally_eq_zero]
    intro j _
    simp
  | cons b rest ih =>
    have hone : tally n (fun c => if P c ∧ key b = c then 1 else 0) id = if P (key b) then 1 else 0 := by
      by_cases hP : P (key b) = true
      · rw [if_pos hP, tally, Finset.sum_eq_single (key b)]
        · simp [hP]
        · intro c _ hc
          exact if_neg fun h => hc h.2.symm
        · intro hc
          exact absurd (Finset.mem_range.mpr (hl b List.mem_cons_self hP)) hc
      · rw [if_neg hP, tally_eq_zero]
        intro c _
        refine if_neg ?_
        rintro ⟨hc, hb⟩
        exact hP (by rw [hb]; exact hc)
    have hsplit : tally n (fun c => if P c then (b :: rest).countP (fun b => decide (key b = c)) else 0) id
        = tally n (fun c => (if P c then rest.countP (fun b => decide (key b = c)) else 0)
          + if P c ∧ key b = c then 1 else 0) id := by
      refine Finset.sum_congr rfl fun c _ => ?_
      simp only [id_eq, List.countP_cons, decide_eq_true_eq]
      by_cases hP : P c = true
      · simp only [hP, if_true, true_and]
      · simp [hP]
    rw [hsplit, tally_add, ← ih fun b' hb' => hl b' (List.mem_cons_of_mem b hb'), hone, List.countP_cons]

-- sums over the tables of a program are not to be computed
attribute [irreducible] tally

end Xv6e.Library.Sums
