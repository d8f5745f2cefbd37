import Xv6e.Library.Transition

/-!
# Monitors

Threads that run under one spin-lock, and give it up while they sleep on a channel.  `sleep` takes the lock of
the process table before it releases the monitor's lock, and the thread is asleep from when it has set its
state under the table's lock; `wakeup` and `kill` are sections under the table's lock.  Interrupt handlers are
threads that do not sleep.  The lock of the monitor may be that of the process table itself; then `sleep`
keeps it until the thread is asleep.

The code of a thread is given by its statements: `exec` says what a statement does with the data that the lock
protects.

* `Code`, `system` — a monitor and its transition system, `Step` — its steps, case by case;
* `Locks`, `Locks.step` — who has which lock;
* `entriesOf` — what one thread has added to a history;
* `Proof`, `Proof.run` — the rule for assertions on the data and on the places of threads.
-/

namespace Xv6e.Library.Monitor

open Transition
open Function (update update_self update_of_ne)

inductive Outcome (σ χ κ ρ : Type)
  /-- Change the data and go on. -/
  | goto (d : σ) (k : κ)
  /-- Call `wakeup(c)` and go on. -/
  | wakeup (c : χ) (k : κ)
  /-- Call `sleep(c, lk)` and go on, with the lock, when that returns. -/
  | sleep (c : χ) (k : κ)
  /-- Change the data, release the lock and return. -/
  | ret (d : σ) (r : ρ)

/-- Where a thread is; `k` is its next statement in the monitor. -/
inductive Thread (χ κ ρ : Type)
  | idle
  /-- Waits for the lock. -/
  | enter (k : κ)
  /-- Has the lock. -/
  | run (k : κ)
  /-- In `wakeup(c)`, with the lock. -/
  | waking (c : χ) (k : κ)
  /-- In `sleep(c, lk)`, with the lock, before `acquire(&ptable.lock)`. -/
  | sleepAcquire (c : χ) (k : κ)
  /-- In `sleep(c, lk)`, with both locks, before `release(lk)`. -/
  | sleepRelease (c : χ) (k : κ)
  /-- In `sleep(c, lk)`, with the table's lock, before its state is `SLEEPING`. -/
  | setSleeping (c : χ) (k : κ)
  /-- `SLEEPING` on `c`. -/
  | asleep (c : χ) (k : κ)
  /-- `RUNNABLE`, in `sleep`. -/
  | runnable (k : κ)
  | done (r : ρ)
  deriving DecidableEq

/-- The data, who holds the monitor's lock and the table's lock, and the threads. -/
structure State (P σ χ κ ρ : Type) where
  data : σ
  lock : Option P
  table : Option P
  thread : P → Thread χ κ ρ
  killed : P → Bool

inductive Event (P κ ε : Type)
  | start (p : P) (k : κ)
  | step (p : P)
  | kill (p : P)
  | env (e : ε)
  deriving DecidableEq

/-- The code of a monitor.  `start` says when a thread may call the monitor, with its first statement, and
what that does to the data; `env` is what happens to the data by itself; `same` says that the lock is that of
the process table. -/
structure Code (P σ χ κ ρ ε : Type) where
  exec : P → κ → Bool → σ → Outcome σ χ κ ρ
  start : State P σ χ κ ρ → P → κ → Option σ
  env : σ → ε → Option σ
  same : Bool

variable {P σ χ κ ρ ε : Type}

def Thread.wake [DecidableEq χ] (c : χ) : Thread χ κ ρ → Thread χ κ ρ
  | .asleep c' k => if c' = c then .runnable k else .asleep c' k
  | t => t

def Thread.rouse : Thread χ κ ρ → Thread χ κ ρ
  | .asleep _ k => .runnable k
  | t => t

/-- The next statement of a thread in the monitor. -/
def Thread.pc : Thread χ κ ρ → Option κ
  | .idle => none
  | .enter k => some k
  | .run k => some k
  | .waking _ k => some k
  | .sleepAcquire _ k => some k
  | .sleepRelease _ k => some k
  | .setSleeping _ k => some k
  | .asleep _ k => some k
  | .runnable k => some k
  | .done _ => none

def Thread.isOut : Thread χ κ ρ → Bool
  | .idle => true
  | .done _ => true
  | _ => false

variable {p q : P}

namespace State

variable [DecidableEq P]

def goto (s : State P σ χ κ ρ) (p : P) (t : Thread χ κ ρ) : State P σ χ κ ρ :=
  { s with thread := update s.thread p t }

@[simp]
theorem goto_self (s : State P σ χ κ ρ) (p : P) (x : Thread χ κ ρ) : (s.goto p x).thread p = x :=
  update_self ..

theorem goto_of_ne (s : State P σ χ κ ρ) (h : q ≠ p) (x : Thread χ κ ρ) :
    (s.goto p x).thread q = s.thread q := update_of_ne h ..

end State

section Steps

variable [DecidableEq P] [DecidableEq χ] (M : Code P σ χ κ ρ ε)

/-- What the statement `k` of thread `p` does. -/
def execStep (s : State P σ χ κ ρ) (p : P) (k : κ) : State P σ χ κ ρ :=
  match M.exec p k (s.killed p) s.data with
  | .goto d k => { s with data := d }.goto p (.run k)
  | .wakeup c k => s.goto p (.waking c k)
  | .sleep c k => if M.same then { s with lock := none }.goto p (.asleep c k)
      else s.goto p (.sleepAcquire c k)
  | .ret d r => { s with data := d, lock := none }.goto p (.done r)

def threadStep (s : State P σ χ κ ρ) (p : P) : Option (State P σ χ κ ρ) :=
  match s.thread p with
  | .idle => none
  | .enter k => if s.lock.isNone then some ({ s with lock := some p }.goto p (.run k)) else none
  | .run k => some (execStep M s p k)
  | .waking c k =>
    if s.table.isNone then some ({ s with thread := fun q => (s.thread q).wake c }.goto p (.run k)) else none
  | .sleepAcquire c k => if s.table.isNone then
      some ({ s with table := some p }.goto p (.sleepRelease c k)) else none
  | .sleepRelease c k => some ({ s with lock := none }.goto p (.setSleeping c k))
  | .setSleeping c k => some ({ s with table := none }.goto p (.asleep c k))
  | .asleep _ _ => none
  | .runnable k =>
    if M.same then
      if s.lock.isNone then some ({ s with lock := some p }.goto p (.run k)) else none
    else if s.table.isNone then some (s.goto p (.enter k)) else none
  | .done _ => none

def killStep (s : State P σ χ κ ρ) (p : P) : Option (State P σ χ κ ρ) :=
  if s.table.isNone && (!M.same || s.lock.isNone) then
    some ({ s with killed := update s.killed p true }.goto p (s.thread p).rouse)
  else none

def next (s : State P σ χ κ ρ) : Event P κ ε → Option (State P σ χ κ ρ)
  | .start p k => if (s.thread p).isOut then (M.start s p k).map fun d =>
    { s with data := d }.goto p (.enter k) else none
  | .step p => threadStep M s p
  | .kill p => killStep M s p
  | .env e => (M.env s.data e).map fun d => { s with data := d }

/-- The monitor: at the start no thread has called it, and the data meet `boot`. -/
def system (boot : σ → Prop) : System (State P σ χ κ ρ) (Event P κ ε) where
  init s := boot s.data ∧ s.lock = none ∧ s.table = none ∧ ∀ p, s.thread p = .idle
  step := next M

inductive Step (s : State P σ χ κ ρ) : Event P κ ε → State P σ χ κ ρ → Prop
  | start {p : P} {k : κ} {d : σ} (hout : (s.thread p).isOut = true) (hs : M.start s p k = some d) :
    Step s (.start p k) ({ s with data := d }.goto p (.enter k))
  | enter {p : P} {k : κ} (ht : s.thread p = .enter k) (hfree : s.lock = none) :
    Step s (.step p) ({ s with lock := some p }.goto p (.run k))
  | goto {p : P} {k k' : κ} {d : σ} (ht : s.thread p = .run k)
      (hx : M.exec p k (s.killed p) s.data = .goto d k') :
    Step s (.step p) ({ s with data := d }.goto p (.run k'))
  | wakeup {p : P} {k k' : κ} {c : χ} (ht : s.thread p = .run k)
      (hx : M.exec p k (s.killed p) s.data = .wakeup c k') : Step s (.step p) (s.goto p (.waking c k'))
  | sleep {p : P} {k k' : κ} {c : χ} (ht : s.thread p = .run k)
      (hx : M.exec p k (s.killed p) s.data = .sleep c k') (hsame : M.same = false) :
    Step s (.step p) (s.goto p (.sleepAcquire c k'))
  | sleepSame {p : P} {k k' : κ} {c : χ} (ht : s.thread p = .run k)
      (hx : M.exec p k (s.killed p) s.data = .sleep c k') (hsame : M.same = true) :
    Step s (.step p) ({ s with lock := none }.goto p (.asleep c k'))
  | ret {p : P} {k : κ} {d : σ} {r : ρ} (ht : s.thread p = .run k)
      (hx : M.exec p k (s.killed p) s.data = .ret d r) :
    Step s (.step p) ({ s with data := d, lock := none }.goto p (.done r))
  | wake {p : P} {c : χ} {k : κ} (ht : s.thread p = .waking c k) (hfree : s.table = none) :
    Step s (.step p) ({ s with thread := fun q => (s.thread q).wake c }.goto p (.run k))
  | sleepAcquire {p : P} {c : χ} {k : κ} (ht : s.thread p = .sleepAcquire c k) (hfree : s.table = none) :
    Step s (.step p) ({ s with table := some p }.goto p (.sleepRelease c k))
  | sleepRelease {p : P} {c : χ} {k : κ} (ht : s.thread p = .sleepRelease c k) :
    Step s (.step p) ({ s with lock := none }.goto p (.setSleeping c k))
  | setSleeping {p : P} {c : χ} {k : κ} (ht : s.thread p = .setSleeping c k) :
    Step s (.step p) ({ s with table := none }.goto p (.asleep c k))
  | resume {p : P} {k : κ} (ht : s.thread p = .runnable k) (hsame : M.same = false) (hfree : s.table = none) :
    Step s (.step p) (s.goto p (.enter k))
  | resumeSame {p : P} {k : κ} (ht : s.thread p = .runnable k) (hsame : M.same = true)
    (hfree : s.lock = none) : Step s (.step p) ({ s with lock := some p }.goto p (.run k))
  | kill {p : P} (hfree : s.table = none) (hlock : M.same = true → s.lock = none) :
    Step s (.kill p) ({ s with killed := update s.killed p true }.goto p (s.thread p).rouse)
  | env {e : ε} {d : σ} (he : M.env s.data e = some d) : Step s (.env e) { s with data := d }

variable {M} {s t : State P σ χ κ ρ} {e : Event P κ ε}

theorem step_of_exec {k : κ} (ht : s.thread p = .run k) : Step M s (.step p) (execStep M s p k) := by
  rw [execStep]
  cases hx : M.exec p k (s.killed p) s.data with
  | goto d k' => exact .goto ht hx
  | wakeup c k' => exact .wakeup ht hx
  | sleep c k' =>
    cases hsame : M.same with
    | false => exact .sleep ht hx hsame
    | true => exact .sleepSame ht hx hsame
  | ret d r => exact .ret ht hx

theorem step_of_thread (h : threadStep M s p = some t) : Step M s (.step p) t := by
  rw [threadStep] at h
  cases ht : s.thread p <;> rw [ht] at h <;>
    simp only [Option.isNone_iff_eq_none, Option.ite_none_right_eq_some, Option.some.injEq, reduceCtorEq] at h
  case enter k =>
    obtain ⟨hfree, rfl⟩ := h
    exact .enter ht hfree
  case run k =>
    subst h
    exact step_of_exec ht
  case waking c k =>
    obtain ⟨hfree, rfl⟩ := h
    exact .wake ht hfree
  case sleepAcquire c k =>
    obtain ⟨hfree, rfl⟩ := h
    exact .sleepAcquire ht hfree
  case sleepRelease c k =>
    subst h
    exact .sleepRelease ht
  case setSleeping c k =>
    subst h
    exact .setSleeping ht
  case runnable k =>
    cases hsame : M.same with
    | true =>
      rw [if_pos hsame, Option.ite_none_right_eq_some, Option.some.injEq] at h
      obtain ⟨hfree, rfl⟩ := h
      exact .resumeSame ht hsame hfree
    | false =>
      rw [if_neg (by rw [hsame]; exact Bool.false_ne_true), Option.ite_none_right_eq_some,
        Option.some.injEq] at h
      obtain ⟨hfree, rfl⟩ := h
      exact .resume ht hsame hfree

/-- **Inversion**: a step is one of those of `Step`. -/
theorem step_of_next (h : next M s e = some t) : Step M s e t := by
  cases e with
  | start p k =>
    rw [next, Option.ite_none_right_eq_some, Option.map_eq_some_iff] at h
    obtain ⟨hout, d, hs, rfl⟩ := h
    exact .start hout hs
  | step p => exact step_of_thread h
  | kill p =>
    rw [next, killStep, Option.ite_none_right_eq_some, Bool.and_eq_true, Option.isNone_iff_eq_none,
      Bool.or_eq_true, Option.isNone_iff_eq_none, Option.some.injEq] at h
    obtain ⟨⟨hfree, hor⟩, rfl⟩ := h
    refine .kill hfree fun hsame => ?_
    rcases hor with hno | hlock
    · rw [hsame] at hno
      cases hno
    · exact hlock
  | env e =>
    rw [next, Option.map_eq_some_iff] at h
    obtain ⟨d, he, rfl⟩ := h
    exact .env he

end Steps

/-! ### Locks -/

variable {M : Code P σ χ κ ρ ε} {s t : State P σ χ κ ρ} {e : Event P κ ε}

/-- The thread has the monitor's lock. -/
def Thread.holdsLock : Thread χ κ ρ → Bool
  | .run _ => true
  | .waking _ _ => true
  | .sleepAcquire _ _ => true
  | .sleepRelease _ _ => true
  | _ => false

/-- The thread has the lock of the process table, and not as the monitor's lock. -/
def Thread.holdsTable : Thread χ κ ρ → Bool
  | .sleepRelease _ _ => true
  | .setSleeping _ _ => true
  | _ => false

@[simp]
theorem holdsLock_wake [DecidableEq χ] (c : χ) (x : Thread χ κ ρ) : (x.wake c).holdsLock = x.holdsLock := by
  cases x with
  | asleep c' k =>
    rw [Thread.wake]
    split_ifs <;> rfl
  | _ => rfl

@[simp]
theorem holdsTable_wake [DecidableEq χ] (c : χ) (x : Thread χ κ ρ) :
    (x.wake c).holdsTable = x.holdsTable := by
  cases x with
  | asleep c' k =>
    rw [Thread.wake]
    split_ifs <;> rfl
  | _ => rfl

@[simp]
theorem holdsLock_rouse (x : Thread χ κ ρ) : x.rouse.holdsLock = x.holdsLock := by cases x <;> rfl

@[simp]
theorem holdsTable_rouse (x : Thread χ κ ρ) : x.rouse.holdsTable = x.holdsTable := by cases x <;> rfl

/-- The locks are with the threads that have them. -/
structure Locks (s : State P σ χ κ ρ) : Prop where
  lock : ∀ p, (s.thread p).holdsLock = true ↔ s.lock = some p
  table : ∀ p, (s.thread p).holdsTable = true ↔ s.table = some p

variable {x : Thread χ κ ρ}

theorem Locks.held (h : Locks s) (ht : s.thread p = x) (hx : x.holdsLock = true) :
    s.lock = some p := (h.lock p).mp (ht ▸ hx)

theorem Locks.other (h : Locks s) (hheld : s.lock = some p) (hq : q ≠ p) :
    (s.thread q).holdsLock = false := by
  rw [Bool.eq_false_iff]
  intro hlock
  rw [(h.lock q).mp hlock] at hheld
  exact hq (Option.some.inj hheld)

theorem Locks.free (h : Locks s) (hfree : s.lock = none) (p : P) : (s.thread p).holdsLock = false := by
  rw [Bool.eq_false_iff]
  intro hlock
  rw [(h.lock p).mp hlock] at hfree
  cases hfree

variable {f : P → Thread χ κ ρ} {l l' : Option P}

/-- A lock that one thread takes, keeps or gives up. -/
theorem holds_update [DecidableEq P] {g : Thread χ κ ρ → Bool}
    (h : ∀ q, g (f q) = true ↔ l = some q) (hp : g x = true ↔ l' = some p)
    (hother : ∀ q, q ≠ p → (l = some q ↔ l' = some q)) (q : P) :
    g (update f p x q) = true ↔ l' = some q := by
  by_cases hq : q = p
  · rw [hq, update_self]
    exact hp
  · rw [update_of_ne hq, h q]
    exact hother q hq

/-- Lock transitions of one thread: nobody else's are touched. -/
theorem other_iff (h : l = none ∨ l = some p) (h' : l' = none ∨ l' = some p) (q : P)
    (hq : q ≠ p) : l = some q ↔ l' = some q := by
  constructor
  · intro hl
    rcases h with h | h <;> rw [h] at hl
    · cases hl
    · exact absurd (Option.some.inj hl).symm hq
  · intro hl
    rcases h' with h' | h' <;> rw [h'] at hl
    · cases hl
    · exact absurd (Option.some.inj hl).symm hq

theorem holdsLock_of_isOut (h : x.isOut = true) : x.holdsLock = false ∧ x.holdsTable = false := by
  cases x <;> first | exact ⟨rfl, rfl⟩ | cases h

/-- **A step keeps the locks with their holders.** -/
theorem Locks.step [DecidableEq P] [DecidableEq χ] (h : Locks s) (hstep : Step M s e t) : Locks t := by
  have keepLock : ∀ {p : P} {x : Thread χ κ ρ}, x.holdsLock = (s.thread p).holdsLock → ∀ q,
      (update s.thread p x q).holdsLock = true ↔ s.lock = some q :=
    fun hx => holds_update h.lock (by rw [hx]; exact h.lock _) fun _ _ => Iff.rfl
  have keepTable : ∀ {p : P} {x : Thread χ κ ρ}, x.holdsTable = (s.thread p).holdsTable → ∀ q,
      (update s.thread p x q).holdsTable = true ↔ s.table = some q :=
    fun hx => holds_update h.table (by rw [hx]; exact h.table _) fun _ _ => Iff.rfl
  have take : ∀ {p : P} {x : Thread χ κ ρ}, s.lock = none → x.holdsLock = true → ∀ q,
      (update s.thread p x q).holdsLock = true ↔ some p = some q :=
    fun hfree hx => holds_update h.lock (by simp [hx]) (other_iff (Or.inl hfree) (Or.inr rfl))
  have give : ∀ {p : P} {x y : Thread χ κ ρ}, s.thread p = y → y.holdsLock = true → x.holdsLock = false → ∀ q,
      (update s.thread p x q).holdsLock = true ↔ none = some q :=
    fun ht hy hx => holds_update h.lock (by simp [hx]) (other_iff (Or.inr (h.held ht hy)) (Or.inl rfl))
  cases hstep with
  | start hout hs =>
    obtain ⟨hlock, htable⟩ := holdsLock_of_isOut hout
    exact ⟨keepLock hlock.symm, keepTable htable.symm⟩
  | enter ht hfree => exact ⟨take hfree rfl, keepTable (by rw [ht]; rfl)⟩
  | goto ht hx => exact ⟨keepLock (by rw [ht]; rfl), keepTable (by rw [ht]; rfl)⟩
  | wakeup ht hx => exact ⟨keepLock (by rw [ht]; rfl), keepTable (by rw [ht]; rfl)⟩
  | sleep ht hx hsame => exact ⟨keepLock (by rw [ht]; rfl), keepTable (by rw [ht]; rfl)⟩
  | sleepSame ht hx hsame => exact ⟨give ht rfl rfl, keepTable (by rw [ht]; rfl)⟩
  | ret ht hx => exact ⟨give ht rfl rfl, keepTable (by rw [ht]; rfl)⟩
  | @wake p c k ht hfree =>
    have hl : ∀ q, ((s.thread q).wake c).holdsLock = true ↔ s.lock = some q := fun q => by
      rw [holdsLock_wake]
      exact h.lock q
    have htb : ∀ q, ((s.thread q).wake c).holdsTable = true ↔ s.table = some q := fun q => by
      rw [holdsTable_wake]
      exact h.table q
    have hx : ((s.thread p).wake c).holdsLock = true ∧ ((s.thread p).wake c).holdsTable = false := by
      rw [ht]
      exact ⟨rfl, rfl⟩
    refine ⟨holds_update hl ?_ fun _ _ => Iff.rfl, holds_update htb ?_ fun _ _ => Iff.rfl⟩
    · exact ⟨fun _ => (hl p).mp hx.1, fun _ => rfl⟩
    · exact ⟨fun hf => absurd hf Bool.false_ne_true, fun hp => absurd (hfree.symm.trans hp)
        (Option.some_ne_none p).symm⟩
  | sleepAcquire ht hfree =>
    exact ⟨keepLock (by rw [ht]; rfl),
      holds_update h.table ⟨fun _ => rfl, fun _ => rfl⟩ (other_iff (Or.inl hfree) (Or.inr rfl))⟩
  | sleepRelease ht => exact ⟨give ht rfl rfl, keepTable (by rw [ht]; rfl)⟩
  | @setSleeping p c k ht =>
    have hheld : s.table = some p := (h.table p).mp (by rw [ht]; rfl)
    exact ⟨keepLock (by rw [ht]; rfl),
      holds_update h.table ⟨fun hf => (by cases hf), fun hf => (by cases hf)⟩
      (other_iff (Or.inr hheld) (Or.inl rfl))⟩
  | resume ht hsame hfree => exact ⟨keepLock (by rw [ht]; rfl), keepTable (by rw [ht]; rfl)⟩
  | resumeSame ht hsame hfree => exact ⟨take hfree rfl, keepTable (by rw [ht]; rfl)⟩
  | kill hfree hlock => exact ⟨keepLock (holdsLock_rouse _), keepTable (holdsTable_rouse _)⟩
  | env he => exact ⟨h.lock, h.table⟩

/-! ### Histories -/

section Histories

variable {α : Type} {h : List (P × α)} {p q : P} {m : ℕ}

theorem le_length_snoc (hm : m ≤ h.length) (x : P × α) : m ≤ (h ++ [x]).length := by
  rw [List.length_append]
  exact Nat.le_trans hm (Nat.le_add_right _ _)

variable [DecidableEq P]

/-- The entries of thread `p` in a history. -/
def entriesOf (p : P) (h : List (P × α)) : List α := (h.filter fun x => x.1 = p).map Prod.snd

theorem entriesOf_append (p : P) (h h' : List (P × α)) :
    entriesOf p (h ++ h') = entriesOf p h ++ entriesOf p h' := by
  rw [entriesOf, List.filter_append, List.map_append]
  rfl

/-- A thread adds an entry: its own entries since a place in the history grow. -/
theorem entriesOf_snoc_self (hm : m ≤ h.length) (x : α) :
    entriesOf p ((h ++ [(p, x)]).drop m) = entriesOf p (h.drop m) ++ [x] := by
  rw [List.drop_append_of_le_length hm, entriesOf_append]
  congr 1
  rw [entriesOf, List.filter_singleton]
  simp

/-- A thread adds an entry: those of the others stay. -/
theorem entriesOf_snoc_other (hq : q ≠ p) (hm : m ≤ h.length) (x : α) :
    entriesOf q ((h ++ [(p, x)]).drop m) = entriesOf q (h.drop m) := by
  rw [List.drop_append_of_le_length hm, entriesOf_append]
  have hnone : entriesOf q [(p, x)] = [] := by
    rw [entriesOf, List.filter_singleton]
    simp [Ne.symm hq]
  rw [hnone, List.append_nil]

theorem entriesOf_drop_length (p : P) (h : List (P × α)) : entriesOf p (h.drop h.length) = [] := by
  rw [List.drop_length]
  rfl

end Histories

/-! ### Assertions -/

section Assertions

/-- What the rest of a change of the data by thread `p` must leave alone: the assertions of the other
threads. -/
structure Frame (A : P → κ → σ → Prop) (B : P → ρ → σ → Prop) (p : P) (d d' : σ) : Prop where
  out : ∀ q, q ≠ p → ∀ k, A q k d → A q k d'
  done : ∀ q, q ≠ p → ∀ r, B q r d → B q r d'

theorem Frame.refl (A : P → κ → σ → Prop) (B : P → ρ → σ → Prop) (p : P) (d : σ) : Frame A B p d d :=
  ⟨fun _ _ _ h => h, fun _ _ _ h => h⟩

theorem Frame.trans {A : P → κ → σ → Prop} {B : P → ρ → σ → Prop} {d d' d'' : σ} (h : Frame A B p d d')
    (h' : Frame A B p d' d'') : Frame A B p d d'' :=
  ⟨fun q hq k hk => h'.out q hq k (h.out q hq k hk), fun q hq r hr => h'.done q hq r (h.done q hq r hr)⟩

/-- What is asserted of a thread: `H` at a statement with the lock, `A` without it, `B` after its return.  A
thread that sleeps on `c` goes on at a statement with `N c`. -/
def Assert (I : σ → Prop) (N : χ → κ → Prop) (H A : P → κ → σ → Prop) (B : P → ρ → σ → Prop) (p : P) (d : σ) :
    Thread χ κ ρ → Prop
  | .idle => True
  | .enter k => A p k d
  | .run k => H p k d
  | .waking _ k => H p k d
  | .sleepAcquire c k => I d ∧ A p k d ∧ N c k
  | .sleepRelease c k => I d ∧ A p k d ∧ N c k
  | .setSleeping c k => A p k d ∧ N c k
  | .asleep c k => A p k d ∧ N c k
  | .runnable k => A p k d
  | .done r => B p r d

/-- The invariant of the rule: `I` holds of the data while the lock is free. -/
structure Asserted (I : σ → Prop) (N : χ → κ → Prop) (H A : P → κ → σ → Prop) (B : P → ρ → σ → Prop)
    (s : State P σ χ κ ρ) : Prop where
  locks : Locks s
  data : s.lock = none → I s.data
  thread : ∀ p, Assert I N H A B p s.data (s.thread p)

/-- **The rule for assertions.**  Each statement leads from its assertion to the next one; a thread that gives
up the lock leaves `I`, and a thread that takes it finds `I`. -/
structure Proof (M : Code P σ χ κ ρ ε) (boot I : σ → Prop) (N : χ → κ → Prop) (H A : P → κ → σ → Prop)
    (B : P → ρ → σ → Prop) : Prop where
  boot : ∀ d, boot d → I d
  enter : ∀ p k d, I d → A p k d → H p k d
  goto : ∀ p k b d d' k', H p k d → M.exec p k b d = .goto d' k' → H p k' d' ∧ Frame A B p d d'
  wakeup : ∀ p k b d c k', H p k d → M.exec p k b d = .wakeup c k' → H p k' d
  sleep : ∀ p k b d c k', H p k d → M.exec p k b d = .sleep c k' → I d ∧ A p k' d ∧ N c k'
  ret : ∀ p k b d d' r, H p k d → M.exec p k b d = .ret d' r → I d' ∧ B p r d' ∧ Frame A B p d d'
  start : ∀ s p k d, Asserted I N H A B s → (s.thread p).isOut = true → M.start s p k = some d →
    A p k d ∧ (I s.data → I d) ∧ ∀ q, q ≠ p → Assert I N H A B q d (s.thread q)
  env : ∀ d e d', M.env d e = some d' →
    (I d → I d') ∧ (∀ q k, H q k d → H q k d') ∧ (∀ q k, A q k d → A q k d') ∧ ∀ q r, B q r d → B q r d'

variable {boot I : σ → Prop} {N : χ → κ → Prop} {H A : P → κ → σ → Prop} {B : P → ρ → σ → Prop} {p q : P}
    {d d' : σ} {x : Thread χ κ ρ}

theorem Assert.frame (h : Assert I N H A B q d x) (hx : x.holdsLock = false) (hf : Frame A B p d d')
    (hq : q ≠ p) :
    Assert I N H A B q d' x := by
  cases x with
  | idle => trivial
  | enter k => exact hf.out q hq k h
  | setSleeping c k => exact ⟨hf.out q hq k h.1, h.2⟩
  | asleep c k => exact ⟨hf.out q hq k h.1, h.2⟩
  | runnable k => exact hf.out q hq k h
  | done r => exact hf.done q hq r h
  | run k => cases hx
  | waking c k => cases hx
  | sleepAcquire c k => cases hx
  | sleepRelease c k => cases hx

/-- A change of the data that keeps what is asserted at the thread's own statement. -/
theorem Assert.mono (h : Assert I N H A B q d x) (hI : I d → I d')
    (hH : ∀ k, x.pc = some k → H q k d → H q k d') (hA : ∀ k, x.pc = some k → A q k d → A q k d')
    (hB : ∀ r, B q r d → B q r d') : Assert I N H A B q d' x := by
  cases x with
  | idle => trivial
  | enter k => exact hA k rfl h
  | setSleeping c k => exact ⟨hA k rfl h.1, h.2⟩
  | asleep c k => exact ⟨hA k rfl h.1, h.2⟩
  | runnable k => exact hA k rfl h
  | done r => exact hB r h
  | run k => exact hH k rfl h
  | waking c k => exact hH k rfl h
  | sleepAcquire c k => exact ⟨hI h.1, hA k rfl h.2.1, h.2.2⟩
  | sleepRelease c k => exact ⟨hI h.1, hA k rfl h.2.1, h.2.2⟩

theorem Assert.wake [DecidableEq χ] (h : Assert I N H A B q d x) (c : χ) :
    Assert I N H A B q d (x.wake c) := by
  cases x with
  | asleep c' k =>
    rw [Thread.wake]
    split_ifs
    · exact h.1
    · exact h
  | _ => exact h

theorem Assert.rouse (h : Assert I N H A B q d x) : Assert I N H A B q d x.rouse := by
  cases x with
  | asleep c k => exact h.1
  | _ => exact h

/-- The assertion of one thread changes, those of the others are framed. -/
theorem assert_update [DecidableEq P] (hp : Assert I N H A B p d' x)
    (hother : ∀ q, q ≠ p → Assert I N H A B q d' (f q)) (q : P) : Assert I N H A B q d' (update f p x q) := by
  by_cases hq : q = p
  · rw [hq, update_self]
    exact hp
  · rw [update_of_ne hq]
    exact hother q hq

/-- An assertion that holds at every statement holds while the lock is held. -/
theorem Asserted.always {K : σ → Prop} (ha : Asserted I N H A B s) (hI : ∀ d, I d → K d)
    (hH : ∀ p k d, H p k d → K d) : K s.data := by
  cases hlock : s.lock with
  | none => exact hI _ (ha.data hlock)
  | some p =>
    have hp := ha.thread p
    have hheld := (ha.locks.lock p).mpr hlock
    cases hx : s.thread p <;> rw [hx] at hp hheld <;>
      first | exact hH _ _ _ hp | exact hI _ hp.1 | cases hheld

variable [DecidableEq P] [DecidableEq χ]

/-- **One step of the rule.** -/
theorem Proof.step (h : Proof M boot I N H A B) (ha : Asserted I N H A B s) (hstep : Step M s e t) :
    Asserted I N H A B t := by
  have hlocks := ha.locks.step hstep
  have own : ∀ {p : P} {x : Thread χ κ ρ}, s.thread p = x → Assert I N H A B p s.data x :=
    fun {p} _ hx => hx ▸ ha.thread p
  have keep : ∀ {p : P} (q : P), q ≠ p → Assert I N H A B q s.data (s.thread q) := fun q _ => ha.thread q
  have framed : ∀ {p : P} {d : σ}, s.lock = some p → Frame A B p s.data d → ∀ q, q ≠ p →
      Assert I N H A B q d (s.thread q) := fun hheld hf q hq =>
    (ha.thread q).frame (ha.locks.other hheld hq) hf hq
  cases hstep with
  | @start p k d hout hs =>
    obtain ⟨hA, hI, hother⟩ := h.start s p k d ha hout hs
    exact ⟨hlocks, fun hfree => hI (ha.data hfree), assert_update hA hother⟩
  | @enter p k ht hfree =>
    exact ⟨hlocks, fun hx => (by cases hx), assert_update (h.enter p k s.data (ha.data hfree) (own ht)) keep⟩
  | @goto p k k' d ht hx =>
    have hheld := ha.locks.held ht rfl
    obtain ⟨hH, hf⟩ := h.goto p k _ s.data d k' (own ht) hx
    refine ⟨hlocks, fun hfree => ?_, assert_update hH (framed hheld hf)⟩
    rw [show s.lock = none from hfree] at hheld
    cases hheld
  | @wakeup p k k' c ht hx =>
    exact ⟨hlocks, ha.data, assert_update (h.wakeup p k _ s.data c k' (own ht) hx) keep⟩
  | @sleep p k k' c ht hx hsame =>
    exact ⟨hlocks, ha.data, assert_update (h.sleep p k _ s.data c k' (own ht) hx) keep⟩
  | @sleepSame p k k' c ht hx hsame =>
    obtain ⟨hI, hA⟩ := h.sleep p k _ s.data c k' (own ht) hx
    exact ⟨hlocks, fun _ => hI, assert_update hA keep⟩
  | @ret p k d r ht hx =>
    obtain ⟨hI, hB, hf⟩ := h.ret p k _ s.data d r (own ht) hx
    exact ⟨hlocks, fun _ => hI, assert_update hB (framed (ha.locks.held ht rfl) hf)⟩
  | @wake p c k ht hfree =>
    have hH : H p k s.data := own ht
    exact ⟨hlocks, ha.data, assert_update hH fun q _ => (ha.thread q).wake c⟩
  | @sleepAcquire p c k ht hfree =>
    have hIA : I s.data ∧ A p k s.data ∧ N c k := own ht
    exact ⟨hlocks, ha.data, assert_update hIA keep⟩
  | @sleepRelease p c k ht =>
    have hIA : I s.data ∧ A p k s.data ∧ N c k := own ht
    exact ⟨hlocks, fun _ => hIA.1, assert_update hIA.2 keep⟩
  | @setSleeping p c k ht =>
    have hA : A p k s.data ∧ N c k := own ht
    exact ⟨hlocks, ha.data, assert_update hA keep⟩
  | @resume p k ht hsame hfree =>
    have hA : A p k s.data := own ht
    exact ⟨hlocks, ha.data, assert_update hA keep⟩
  | @resumeSame p k ht hsame hfree =>
    exact ⟨hlocks, fun hx => (by cases hx), assert_update (h.enter p k s.data (ha.data hfree) (own ht)) keep⟩
  | @kill p hfree hlock => exact ⟨hlocks, ha.data, assert_update (ha.thread p).rouse keep⟩
  | @env e d he =>
    obtain ⟨hI, hH, hA, hB⟩ := h.env s.data e d he
    exact ⟨hlocks, fun hfree => hI (ha.data hfree), fun q => (ha.thread q).mono hI (fun k _ => hH q k)
      (fun k _ => hA q k) (hB q)⟩

theorem Proof.init (h : Proof M boot I N H A B) (h0 : (system M boot).init s) : Asserted I N H A B s := by
  obtain ⟨hboot, hlock, htable, hidle⟩ := h0
  refine ⟨⟨fun p => ?_, fun p => ?_⟩, fun _ => h.boot _ hboot, fun p => ?_⟩
  · rw [hidle p, hlock]
    exact ⟨fun hf => (by cases hf), fun hf => (by cases hf)⟩
  · rw [hidle p, htable]
    exact ⟨fun hf => (by cases hf), fun hf => (by cases hf)⟩
  · rw [hidle p]
    trivial

/-- **The rule for assertions, over runs.** -/
theorem Proof.run (h : Proof M boot I N H A B) {C : List (Event P κ ε) → State P σ χ κ ρ → Event P κ ε → Prop}
    {es : List (Event P κ ε)} (hr : RunIf (system M boot) C es s) : Asserted I N H A B s :=
  hr.induct (I := fun _ s => Asserted I N H A B s) (fun _ h0 => h.init h0)
    fun _ _ _ _ ha _ hs => h.step ha (step_of_next hs)

end Assertions

end Xv6e.Library.Monitor
