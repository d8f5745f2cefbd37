import Mathlib

/-!
# Programs with locks

Kernel code as a tree of atomic sections: a program reads and changes a shared state, takes and releases
locks, and returns or panics.  One atomic section is what the code does while it holds a spin-lock or a
buffer, together with what it does there to data that a lock it already holds protects.

* `Prog` — programs, a monad;
* `Prog.run` — one program alone, on a state and the locks held;
* `Prog.wp` — its weakest precondition, with `wp_bind` for sequencing and `run_of_wp` for soundness;
* `Prog.returns` — it neither panics nor waits for ever, with `returns_seq` for sequencing.
-/

namespace Xv6e.Library.Locking

/-- Programs over states `σ` and locks `ℓ`; `τ` labels the places where a lock is taken, `ε` names the
panics. -/
inductive Prog (σ ℓ τ ε : Type) (α : Type) : Type
  /-- Return. -/
  | ret (a : α)
  /-- Panic. -/
  | panic (e : ε)
  /-- One atomic section: the state is changed by `f`; what is done next depends on the state before. -/
  | act (f : σ → σ) (k : σ → Prog σ ℓ τ ε α)
  /-- Wait until lock `l` is free, and take it. -/
  | acq (l : ℓ) (t : τ) (k : Prog σ ℓ τ ε α)
  /-- Release lock `l`; panic if it is not held. -/
  | rel (l : ℓ) (e : ε) (k : Prog σ ℓ τ ε α)

variable {σ ℓ τ ε α β : Type}

namespace Prog

def bind : Prog σ ℓ τ ε α → (α → Prog σ ℓ τ ε β) → Prog σ ℓ τ ε β
  | ret a, g => g a
  | panic e, _ => panic e
  | act f k, g => act f fun s => (k s).bind g
  | acq l t k, g => acq l t (k.bind g)
  | rel l e k, g => rel l e (k.bind g)

instance : Monad (Prog σ ℓ τ ε) where
  pure := ret
  bind := bind

@[simp]
theorem pure_eq (a : α) : (pure a : Prog σ ℓ τ ε α) = ret a := rfl

@[simp]
theorem bind_eq (c : Prog σ ℓ τ ε α) (g : α → Prog σ ℓ τ ε β) : c >>= g = c.bind g := rfl

def read (f : σ → α) : Prog σ ℓ τ ε α := act id fun s => ret (f s)

def modify (f : σ → σ) : Prog σ ℓ τ ε Unit := act f fun _ => ret ()

/-- An atomic section with a result, or a panic. -/
def atomic (f : σ → Except ε (α × σ)) : Prog σ ℓ τ ε α :=
  act (fun s => match f s with
      | .ok (_, t) => t
      | .error _ => s)
    fun s => match f s with
      | .ok (a, _) => ret a
      | .error e => panic e

def acquire (l : ℓ) (t : τ) : Prog σ ℓ τ ε Unit := acq l t (ret ())

def release (l : ℓ) (e : ε) : Prog σ ℓ τ ε Unit := rel l e (ret ())

/-! ### One program alone -/

inductive Outcome (σ ℓ ε α : Type) where
  /-- It returns, in a state and with some locks held. -/
  | done (a : α) (s : σ) (held : List ℓ)
  | panic (e : ε)
  /-- It waits for a lock that no one will release. -/
  | stuck

variable [DecidableEq ℓ]

/-- Run a program that nothing interferes with. -/
def run : Prog σ ℓ τ ε α → σ → List ℓ → Outcome σ ℓ ε α
  | ret a, s, held => .done a s held
  | panic e, _, _ => .panic e
  | act f k, s, held => (k s).run (f s) held
  | acq l _ k, s, held => if l ∈ held then .stuck else k.run s (l :: held)
  | rel l e k, s, held => if l ∈ held then k.run s (held.erase l) else .panic e

theorem run_bind (c : Prog σ ℓ τ ε α) (g : α → Prog σ ℓ τ ε β) (s : σ) (held : List ℓ) :
    (c >>= g).run s held = match c.run s held with
      | .done a t held' => (g a).run t held'
      | .panic e => .panic e
      | .stuck => .stuck := by
  show (c.bind g).run s held = _
  induction c generalizing s held with
  | ret a => rfl
  | panic e => rfl
  | act f k ih => exact ih s _ _
  | acq l t k ih =>
    rw [bind, run, run]
    split_ifs
    · rfl
    · exact ih _ _
  | rel l e k ih =>
    rw [bind, run, run]
    split_ifs
    · exact ih _ _
    · rfl

/-- **Weakest precondition**: if the program returns then `Q` holds of the result, the state and the locks
held; it panics only with `E`. -/
def wp (E : ε → Prop) : Prog σ ℓ τ ε α → (α → σ → List ℓ → Prop) → σ → List ℓ → Prop
  | ret a, Q, s, held => Q a s held
  | panic e, _, _, _ => E e
  | act f k, Q, s, held => (k s).wp E Q (f s) held
  | acq l _ k, Q, s, held => l ∉ held → k.wp E Q s (l :: held)
  | rel l e k, Q, s, held => (l ∈ held → k.wp E Q s (held.erase l)) ∧ (l ∉ held → E e)

variable {E : ε → Prop} {Q R : α → σ → List ℓ → Prop} {s : σ} {held : List ℓ}

/-- **The weakest precondition is sound** for runs. -/
theorem run_of_wp (c : Prog σ ℓ τ ε α) (h : c.wp E Q s held) :
    match c.run s held with
    | .done a t held' => Q a t held'
    | .panic e => E e
    | .stuck => True := by
  induction c generalizing s held with
  | ret a => exact h
  | panic e => exact h
  | act f k ih => exact ih s h
  | acq l t k ih =>
    rw [run]
    by_cases hl : l ∈ held
    · rw [if_pos hl]
      trivial
    · rw [if_neg hl]
      exact ih (h hl)
  | rel l e k ih =>
    rw [run]
    by_cases hl : l ∈ held
    · rw [if_pos hl]
      exact ih (h.1 hl)
    · rw [if_neg hl]
      exact h.2 hl

/-- The rule of consequence. -/
theorem wp_mono (hQ : ∀ a t held', Q a t held' → R a t held') (c : Prog σ ℓ τ ε α) (h : c.wp E Q s held) :
    c.wp E R s held := by
  induction c generalizing s held with
  | ret a => exact hQ a s held h
  | panic e => exact h
  | act f k ih => exact ih s h
  | acq l t k ih => exact fun hl => ih (h hl)
  | rel l e k ih => exact ⟨fun hl => ih (h.1 hl), h.2⟩

/-- **Sequencing.** -/
theorem wp_bind {Q : β → σ → List ℓ → Prop} (c : Prog σ ℓ τ ε α) (g : α → Prog σ ℓ τ ε β) :
    (c >>= g).wp E Q s held ↔ c.wp E (fun a t held' => (g a).wp E Q t held') s held := by
  show (c.bind g).wp E Q s held ↔ _
  induction c generalizing s held with
  | ret a => exact Iff.rfl
  | panic e => exact Iff.rfl
  | act f k ih => exact ih s
  | acq l t k ih => exact forall_congr' fun _ => ih
  | rel l e k ih => exact and_congr (forall_congr' fun _ => ih) Iff.rfl

/-- Sequencing from a specification of the first part. -/
theorem wp_seq {Q : β → σ → List ℓ → Prop} {c : Prog σ ℓ τ ε α} {g : α → Prog σ ℓ τ ε β}
    (hc : c.wp E R s held) (hg : ∀ a t held', R a t held' → (g a).wp E Q t held') : (c >>= g).wp E Q s held :=
  (wp_bind c g).mpr (wp_mono hg c hc)

@[simp]
theorem wp_read (f : σ → α) : (read f : Prog σ ℓ τ ε α).wp E Q s held ↔ Q (f s) s held := Iff.rfl

@[simp]
theorem wp_modify {Q : Unit → σ → List ℓ → Prop} (f : σ → σ) :
    (modify f : Prog σ ℓ τ ε Unit).wp E Q s held ↔ Q () (f s) held := Iff.rfl

theorem wp_atomic (f : σ → Except ε (α × σ)) :
    (atomic f : Prog σ ℓ τ ε α).wp E Q s held ↔
      match f s with
      | .ok (a, t) => Q a t held
      | .error e => E e := by
  rw [atomic, wp]
  cases hf : f s with
  | error e => exact Iff.rfl
  | ok r => exact Iff.rfl

@[simp]
theorem wp_acquire {Q : Unit → σ → List ℓ → Prop} (l : ℓ) (t : τ) :
    (acquire l t : Prog σ ℓ τ ε Unit).wp E Q s held ↔ (l ∉ held → Q () s (l :: held)) := Iff.rfl

@[simp]
theorem wp_release {Q : Unit → σ → List ℓ → Prop} (l : ℓ) (e : ε) :
    (release l e : Prog σ ℓ τ ε Unit).wp E Q s held
      ↔ (l ∈ held → Q () s (held.erase l)) ∧ (l ∉ held → E e) := Iff.rfl

/-! ### Programs that return -/

/-- The program returns: it does not panic, and does not wait for a lock that it holds. -/
def returns (c : Prog σ ℓ τ ε α) (s : σ) (held : List ℓ) : Prop := ∃ a t held', c.run s held = .done a t held'

/-- What is known of the result of a program that returns. -/
theorem run_done {c : Prog σ ℓ τ ε α} (hc : c.wp (fun _ => True) Q s held) (h : c.returns s held) :
    ∃ a t held', c.run s held = .done a t held' ∧ Q a t held' := by
  obtain ⟨a, t, held', hrun⟩ := h
  have hQ := run_of_wp c hc
  rw [hrun] at hQ
  exact ⟨a, t, held', hrun, hQ⟩

/-- **Sequencing**: both parts return, the second from where the first can leave off. -/
theorem returns_seq {c : Prog σ ℓ τ ε α} {g : α → Prog σ ℓ τ ε β} {C D : Prop}
    (hc : c.wp (fun _ => True) Q s held) (hret : c.returns s held ↔ C)
    (hg : ∀ a t held', Q a t held' → ((g a).returns t held' ↔ D)) : (c >>= g).returns s held ↔ C ∧ D := by
  have hQ := run_of_wp c hc
  rw [← hret, returns, returns, run_bind]
  cases hrun : c.run s held with
  | done a t held' =>
    rw [hrun] at hQ
    exact (hg a t held' hQ).trans ⟨fun h => ⟨⟨a, t, held', rfl⟩, h⟩, And.right⟩
  | _ => simp

theorem returns_ret (a : α) : (ret a : Prog σ ℓ τ ε α).returns s held := ⟨a, s, held, rfl⟩

theorem returns_map {c : Prog σ ℓ τ ε α} {g : α → β} :
    (c >>= fun a => pure (g a)).returns s held ↔ c.returns s held := by
  rw [returns, returns, run_bind]
  cases c.run s held with
  | done a t held' => exact iff_of_true ⟨g a, t, held', rfl⟩ ⟨a, t, held', rfl⟩
  | _ => simp

theorem returns_atomic (f : σ → Except ε (α × σ)) :
    (atomic f : Prog σ ℓ τ ε α).returns s held ↔ ∃ r, f s = .ok r := by
  rw [returns, atomic, run]
  cases hf : f s with
  | error e => simp [run]
  | ok r => simp [run]

end Prog

end Xv6e.Library.Locking
