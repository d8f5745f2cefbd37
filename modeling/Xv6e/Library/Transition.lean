import Mathlib

/-!
# Transition systems and their runs

A system has initial states and a partial step function on labelled events.  A run is the list of events
taken from an initial state, latest last, so that what has happened so far is a function of that list.

* `RunIf S C es s` — the events `es` lead to `s`, and each of them met the condition `C` on the history, the
  state before it and the event;
* `Reach S es s` — the same with no condition;
* `RunIf.induct` — the invariant rule: what holds initially and is kept by every step that meets `C` holds
  after every run;
* `runFrom`, `runIf_of_runFrom` — the executable form: a computed run is a run.
-/

namespace Xv6e.Library.Transition

universe u v

instance neZeroTwo : NeZero 2 := ⟨two_ne_zero⟩

instance neZeroThree : NeZero 3 := ⟨three_ne_zero⟩

/-- A transition system with states `σ` and events `ε`; a step that is not enabled is `none`. -/
structure System (σ : Type u) (ε : Type v) where
  init : σ → Prop
  step : σ → ε → Option σ

/-- What a guarded step says. -/
theorem guard_eq {σ : Type u} {c : Prop} [Decidable c] {s t : σ} :
    (if c then some s else none) = some t ↔ c ∧ s = t := by
  rw [Option.ite_none_right_eq_some, Option.some.injEq]

/-- What an updated function says at a point. -/
theorem update_cases {α : Type u} {β : Type v} [DecidableEq α] {f : α → β} {a x : α} {b y : β}
    (h : Function.update f a b x = y) : x = a ∧ b = y ∨ x ≠ a ∧ f x = y := by
  rwa [Function.update_apply, ite_eq_iff] at h

variable {σ : Type u} {ε : Type v} {S : System σ ε} {C D : List ε → σ → ε → Prop}

inductive RunIf (S : System σ ε) (C : List ε → σ → ε → Prop) : List ε → σ → Prop
  | init {s : σ} (h : S.init s) : RunIf S C [] s
  | step {es : List ε} {s t : σ} (e : ε) (hr : RunIf S C es s) (hc : C es s e)
      (hs : S.step s e = some t) : RunIf S C (es ++ [e]) t

/-- Runs with no condition on their steps. -/
def Reach (S : System σ ε) : List ε → σ → Prop := RunIf S fun _ _ _ => True

variable {es : List ε}

/-- **The invariant rule.**  What holds of the initial states, and is kept by every step that meets the
condition, holds after every run, of the history and the state. -/
theorem RunIf.induct {I : List ε → σ → Prop} (h0 : ∀ s, S.init s → I [] s)
    (hstep : ∀ es s e t, I es s → C es s e → S.step s e = some t → I (es ++ [e]) t)
    {s : σ} (hr : RunIf S C es s) : I es s := by
  induction hr with
  | init h => exact h0 _ h
  | step e _ hc hs ih => exact hstep _ _ _ _ ih hc hs

theorem RunIf.mono (h : ∀ es s e, RunIf S C es s → C es s e → D es s e) {s : σ}
    (hr : RunIf S C es s) : RunIf S D es s := by
  induction hr with
  | init h0 => exact RunIf.init h0
  | step e hr hc hs ih => exact RunIf.step e ih (h _ _ _ hr hc) hs

theorem RunIf.reach {s : σ} (hr : RunIf S C es s) : Reach S es s :=
  hr.mono fun _ _ _ _ _ => trivial

theorem RunIf.last {e : ε} {t : σ} (h : RunIf S C (es ++ [e]) t) :
    ∃ s, RunIf S C es s ∧ C es s e ∧ S.step s e = some t := by
  generalize hes : es ++ [e] = xs at h
  cases h with
  | init => simp at hes
  | step e' hr hc hs =>
    obtain ⟨rfl, hlast⟩ := List.append_inj' hes rfl
    obtain rfl := List.singleton_inj.mp hlast
    exact ⟨_, hr, hc, hs⟩

/-- The events of a run determine its state, if there is one initial state. -/
theorem RunIf.unique (h0 : ∀ s s', S.init s → S.init s' → s = s') {s s' : σ} (h : RunIf S C es s)
    (h' : RunIf S D es s') : s = s' := by
  induction h generalizing s' with
  | init hi =>
    generalize hes : ([] : List ε) = xs at h'
    cases h' with
    | init hi' => exact h0 _ _ hi hi'
    | step => simp at hes
  | step e hr hc hs ih =>
    obtain ⟨u, hu, _, hs'⟩ := h'.last
    rw [← ih hu, hs] at hs'
    exact Option.some.inj hs'

/-- Take a list of events from a state with a given history, as long as each step meets `C`. -/
def System.runFrom (S : System σ ε) (C : List ε → σ → ε → Prop) [∀ es s e, Decidable (C es s e)] :
    List ε → σ → List ε → Option σ
  | _, s, [] => some s
  | es, s, e :: rest =>
    if C es s e then (S.step s e).bind fun t => S.runFrom C (es ++ [e]) t rest else none

theorem runIf_append [∀ es s e, Decidable (C es s e)] {rest : List ε} {s t : σ}
    (hr : RunIf S C es s) (h : S.runFrom C es s rest = some t) : RunIf S C (es ++ rest) t := by
  induction rest generalizing es s with
  | nil =>
    rw [System.runFrom, Option.some.injEq] at h
    rw [List.append_nil, ← h]
    exact hr
  | cons e rest ih =>
    rw [System.runFrom] at h
    by_cases hc : C es s e
    · rw [if_pos hc, Option.bind_eq_some_iff] at h
      obtain ⟨u, hu, hrest⟩ := h
      have := ih (RunIf.step e hr hc hu) hrest
      rwa [List.append_assoc, List.singleton_append] at this
    · rw [if_neg hc] at h
      cases h

/-- **Computed runs are runs.** -/
theorem runIf_of_runFrom [∀ es s e, Decidable (C es s e)] {s t : σ} (h0 : S.init s)
    (h : S.runFrom C [] s es = some t) : RunIf S C es t := by
  have := runIf_append (RunIf.init h0) h
  rwa [List.nil_append] at this

/-- The form for evaluation: an observation of the state a computed run ends in. -/
theorem exists_runIf_of_map [∀ es s e, Decidable (C es s e)] {α : Type*} {f : σ → α} {s : σ} {y : α}
    (es : List ε) (h0 : S.init s) (h : (S.runFrom C [] s es).map f = some y) :
    ∃ t, RunIf S C es t ∧ f t = y := by
  obtain ⟨t, ht, hy⟩ := Option.map_eq_some_iff.mp h
  exact ⟨t, runIf_of_runFrom h0 ht, hy⟩

end Xv6e.Library.Transition
