import Mathlib

/-!
# Write traces: a store, the writes issued to it, and what a crash leaves behind

A store is a function from addresses to contents.  A *trace* is the list of writes issued to it, oldest
first; `replay` carries them out.  Writes are atomic and reach the store in order, so a crash leaves the
store after some **prefix** of the trace, and every statement about crash points is a statement about
prefixes.

* `replay_of_notMem`, `replay_congr` — a replay only depends on, and only changes, the addresses it writes;
* `crash_in_append` — a crash inside `a ++ b` is a crash inside `a`, or inside `b` after all of `a`.
-/

namespace Xv6e.Library.WriteTrace

variable {κ β : Type*} [DecidableEq κ]

/-- Carry out a list of writes on a store, oldest first. -/
def replay : List (κ × β) → (κ → β) → κ → β
  | [], d => d
  | w :: ws, d => replay ws (Function.update d w.1 w.2)

@[simp] theorem replay_nil (d : κ → β) : replay [] d = d := rfl

@[simp] theorem replay_cons (w : κ × β) (ws : List (κ × β)) (d : κ → β) :
    replay (w :: ws) d = replay ws (Function.update d w.1 w.2) := rfl

theorem replay_append (ws vs : List (κ × β)) (d : κ → β) :
    replay (ws ++ vs) d = replay vs (replay ws d) := by
  induction ws generalizing d with
  | nil => rfl
  | cons w ws ih => simp only [List.cons_append, replay_cons, ih]

/-- An address that no write names keeps its contents. -/
theorem replay_of_notMem {ws : List (κ × β)} {x : κ} (h : x ∉ ws.map Prod.fst) (d : κ → β) :
    replay ws d x = d x := by
  induction ws generalizing d with
  | nil => rfl
  | cons w ws ih =>
    simp only [List.map_cons, List.mem_cons, not_or] at h
    rw [replay_cons, ih h.2, Function.update_of_ne h.1]

/-- Two stores that agree outside the written addresses agree everywhere after the replay. -/
theorem replay_congr {ws : List (κ × β)} {d e : κ → β} {x : κ}
    (h : x ∉ ws.map Prod.fst → d x = e x) : replay ws d x = replay ws e x := by
  induction ws generalizing d e with
  | nil => exact h (by simp)
  | cons w ws ih =>
    apply ih
    intro hx
    by_cases hw : x = w.1
    · subst hw
      simp
    · rw [Function.update_of_ne hw, Function.update_of_ne hw]
      exact h (by simp [hw, hx])

omit [DecidableEq κ] in
/-- A crash point inside `a ++ b` lies inside `a`, or inside `b` once all of `a` was written. -/
theorem crash_in_append {ws a b : List (κ × β)} (h : ws <+: a ++ b) :
    ws <+: a ∨ ∃ b', b' <+: b ∧ a ++ b' = ws := by
  induction a generalizing ws with
  | nil => exact Or.inr ⟨ws, h, rfl⟩
  | cons w a ih =>
    rw [List.cons_append, List.prefix_cons_iff] at h
    rcases h with rfl | ⟨vs, rfl, hvs⟩
    · exact Or.inl List.nil_prefix
    · rcases ih hvs with hin | ⟨b', hb', rfl⟩
      · exact Or.inl ((List.prefix_cons_inj w).mpr hin)
      · exact Or.inr ⟨b', hb', rfl⟩

end Xv6e.Library.WriteTrace
