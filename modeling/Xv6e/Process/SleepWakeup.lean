import Xv6e.Process.Ptable
import Xv6e.Library.Transition

/-!
# `sleep` and `wakeup`

Consumers hold a lock `lk`, test a condition and call `sleep(chan, lk)` in a loop while it is false; producers
make it true while they hold `lk` and call `wakeup(chan)` before or after they release it.  Every acquire,
release, assignment and step of the scan of `wakeup1` is one step of the model, and `lk` may be `ptable.lock`
itself.  A producer that holds `ptable.lock` may call `wakeup1`, as `exit` does; if it calls `wakeup`,
`acquire` panics.

The threads are the processes, which have the slots below `n`, and any number of others that only produce,
such as interrupt handlers.  CPUs are not counted: a process that has been dispatched may run at any time.
One scheduler stands for those of all CPUs.

* `threadNext`, `next`, `system` — the steps;
* `Inv` — the invariant: while the condition is true, a process that is asleep or about to be has a producer
  that has not yet scanned its slot;
* `no_lost_wakeup` — the result.
-/

namespace Xv6e.Process.SleepWakeup

open Library.Transition Ptable
open Function (update update_self update_apply update_of_ne)

inductive Lock
  | ptable
  | other
  deriving DecidableEq, Repr

inductive Holder
  | thread (t : ℕ)
  | scheduler
  deriving DecidableEq, Repr

inductive Mode
  | before                -- `wakeup`, before it releases `lk`
  | after                 -- `wakeup`, after it has released `lk`
  | inner                 -- `wakeup1`, where `lk` is `ptable.lock`
  deriving DecidableEq, Repr

inductive Pc
  | idle
  -- a consumer
  | test                  -- the condition of the loop
  | sleepAcquire          -- `sleep`: `acquire(&ptable.lock)`
  | sleepRelease          -- `sleep`: `release(lk)`
  | setChan               -- `sleep`: `p->chan = chan`
  | setState              -- `sleep`: `p->state = SLEEPING`
  | sched                 -- `sleep`: `sched()`
  | off                   -- in `sched()`, until the scheduler comes back
  | tidy                  -- `sleep`: `p->chan = 0`
  | tidyRelease           -- `sleep`: `release(&ptable.lock)`
  | reacquire             -- `sleep`: `acquire(lk)`
  | critical              -- after the loop
  -- a producer
  | make                  -- make the condition true
  | made                  -- it has made the condition true
  | wakeAcquire (m : Mode)          -- `wakeup`: `acquire(&ptable.lock)`
  | scan (m : Mode) (i : ℕ)         -- `wakeup1`: slot `i`
  | wakeRelease (m : Mode)          -- `wakeup`: `release(&ptable.lock)`
  -- both
  | unlock                -- `release(lk)`
  deriving DecidableEq, Repr

inductive Panic
  | acquire
  | release
  deriving DecidableEq, Repr

/-- The channel, whether `lk` is `ptable.lock`, and the number of slots of the process table. -/
structure Config where
  chan : Chan
  same : Bool
  n : ℕ

def Config.lk (c : Config) : Lock := if c.same then .ptable else .other

structure State where
  cond : Bool
  lock : Lock → Option Holder
  proc : ℕ → Proc
  pc : ℕ → Pc
  panic : Option Panic

def State.goto (s : State) (t : ℕ) (x : Pc) : State := { s with pc := update s.pc t x }

def State.setProc (s : State) (t : ℕ) (q : Proc) : State := { s with proc := update s.proc t q }

def State.setLock (s : State) (l : Lock) (x : Option Holder) : State := { s with lock := update s.lock l x }

/-- `acquire`, with the statement after it. -/
def acquire (s : State) (l : Lock) (t : ℕ) (x : Pc) : Option State :=
  if s.lock l = some (.thread t) then some { s with panic := some .acquire }
  else if s.lock l = none then some ((s.setLock l (some (.thread t))).goto t x)
  else none

/-- `release`, with the statement after it. -/
def release (s : State) (l : Lock) (t : ℕ) (x : Pc) : Option State :=
  if s.lock l = some (.thread t) then some ((s.setLock l none).goto t x)
  else some { s with panic := some .release }

/-- What a thread does where its code leaves a choice. -/
inductive Choice
  | go
  | consume               -- become a consumer
  | produce               -- become a producer
  | take                  -- make the condition false after the loop
  | call (m : Mode)       -- how to call `wakeup`
  deriving DecidableEq, Repr

def threadNext (c : Config) (s : State) (t : ℕ) (x : Choice) : Option State :=
  match s.pc t, x with
  | .idle, .consume => if t < c.n then acquire s c.lk t .test else none
  | .idle, .produce => acquire s c.lk t .make
  | .test, .go => some (s.goto t (if s.cond then .critical else if c.same then .setChan else .sleepAcquire))
  | .sleepAcquire, .go => acquire s .ptable t .sleepRelease
  | .sleepRelease, .go => release s c.lk t .setChan
  | .setChan, .go => some ((s.setProc t { s.proc t with chan := some c.chan }).goto t .setState)
  | .setState, .go => some ((s.setProc t { s.proc t with state := .sleeping }).goto t .sched)
  | .sched, .go => some ((s.setLock .ptable (some .scheduler)).goto t .off)
  | .tidy, .go =>
    some ((s.setProc t { s.proc t with chan := none }).goto t (if c.same then .test else .tidyRelease))
  | .tidyRelease, .go => release s .ptable t .reacquire
  | .reacquire, .go => acquire s c.lk t .test
  | .critical, .go => some (s.goto t .unlock)
  | .critical, .take => some ({ s with cond := false }.goto t .unlock)
  | .make, .go => some ({ s with cond := true }.goto t .made)
  | .made, .call .before => some (s.goto t (.wakeAcquire .before))
  | .made, .call .after => release s c.lk t (.wakeAcquire .after)
  | .made, .call .inner => if c.same then some (s.goto t (.scan .inner 0)) else none
  | .wakeAcquire m, .go => acquire s .ptable t (.scan m 0)
  | .scan m i, .go =>
    if i < c.n then some ((s.setProc i (wake (some c.chan) (s.proc i))).goto t (.scan m (i + 1)))
    else some (s.goto t (if m = .inner then .unlock else .wakeRelease m))
  | .wakeRelease m, .go => release s .ptable t (if m = .before then .unlock else .idle)
  | .unlock, .go => release s c.lk t .idle
  | _, _ => none

inductive Event
  | thread (t : ℕ) (x : Choice)
  | enter                 -- `acquire(&ptable.lock)` in `scheduler`
  | dispatch (p : ℕ)      -- the scheduler chooses `p` and switches to it
  | leave                 -- `release(&ptable.lock)` in `scheduler`
  | kill (p : ℕ)          -- the locked section of `kill`
  deriving DecidableEq, Repr

def next (c : Config) (s : State) : Event → Option State
  | .thread t x => threadNext c s t x
  | .enter => if s.lock .ptable = none then some (s.setLock .ptable (some .scheduler)) else none
  | .dispatch p =>
    if s.lock .ptable = some .scheduler ∧ (s.proc p).state = .runnable ∧ s.pc p = .off then
      some (((s.setProc p { s.proc p with state := .running }).setLock .ptable
        (some (.thread p))).goto p .tidy)
    else none
  | .leave => if s.lock .ptable = some .scheduler then some (s.setLock .ptable none) else none
  | .kill p =>
    if s.lock .ptable = none then
      some (s.setProc p { s.proc p with
        killed := true, state := if (s.proc p).state = .sleeping then .runnable else (s.proc p).state })
    else none

/-- No thread has started, all processes run, and the condition has any value.  After a panic nothing
happens. -/
def system (c : Config) : System State Event where
  init := fun s => (∀ t, s.pc t = .idle) ∧ (∀ t, (s.proc t).state = .running) ∧ (∀ l, s.lock l = none)
    ∧ s.panic = none
  step := fun s e => if s.panic.isSome then none else next c s e

variable {c : Config} {s s' : State} {e : Event}

inductive Step (c : Config) (s : State) : State → Prop
  | panic (m : Panic) : Step c s { s with panic := some m }
  | consume {t : ℕ} (hpc : s.pc t = .idle) (ht : t < c.n) (hfree : s.lock c.lk = none) :
    Step c s ((s.setLock c.lk (some (.thread t))).goto t .test)
  | produce {t : ℕ} (hpc : s.pc t = .idle) (hfree : s.lock c.lk = none) :
    Step c s ((s.setLock c.lk (some (.thread t))).goto t .make)
  | found {t : ℕ} (hpc : s.pc t = .test) (hcond : s.cond = true) : Step c s (s.goto t .critical)
  | sleepSame {t : ℕ} (hpc : s.pc t = .test) (hcond : s.cond = false) (hsame : c.same = true) :
    Step c s (s.goto t .setChan)
  | sleepOther {t : ℕ} (hpc : s.pc t = .test) (hcond : s.cond = false) (hsame : c.same = false) :
    Step c s (s.goto t .sleepAcquire)
  | sleepAcquire {t : ℕ} (hpc : s.pc t = .sleepAcquire) (hfree : s.lock .ptable = none) :
    Step c s ((s.setLock .ptable (some (.thread t))).goto t .sleepRelease)
  | sleepRelease {t : ℕ} (hpc : s.pc t = .sleepRelease) : Step c s ((s.setLock c.lk none).goto t .setChan)
  | setChan {t : ℕ} (hpc : s.pc t = .setChan) :
    Step c s ((s.setProc t { s.proc t with chan := some c.chan }).goto t .setState)
  | setState {t : ℕ} (hpc : s.pc t = .setState) :
    Step c s ((s.setProc t { s.proc t with state := .sleeping }).goto t .sched)
  | sched {t : ℕ} (hpc : s.pc t = .sched) : Step c s ((s.setLock .ptable (some .scheduler)).goto t .off)
  | tidySame {t : ℕ} (hpc : s.pc t = .tidy) (hsame : c.same = true) :
    Step c s ((s.setProc t { s.proc t with chan := none }).goto t .test)
  | tidyOther {t : ℕ} (hpc : s.pc t = .tidy) (hsame : c.same = false) :
    Step c s ((s.setProc t { s.proc t with chan := none }).goto t .tidyRelease)
  | tidyRelease {t : ℕ} (hpc : s.pc t = .tidyRelease) : Step c s ((s.setLock .ptable none).goto t .reacquire)
  | reacquire {t : ℕ} (hpc : s.pc t = .reacquire) (hfree : s.lock c.lk = none) :
    Step c s ((s.setLock c.lk (some (.thread t))).goto t .test)
  | pass {t : ℕ} (hpc : s.pc t = .critical) : Step c s (s.goto t .unlock)
  | take {t : ℕ} (hpc : s.pc t = .critical) : Step c s ({ s with cond := false }.goto t .unlock)
  | make {t : ℕ} (hpc : s.pc t = .make) : Step c s ({ s with cond := true }.goto t .made)
  | callBefore {t : ℕ} (hpc : s.pc t = .made) : Step c s (s.goto t (.wakeAcquire .before))
  | callAfter {t : ℕ} (hpc : s.pc t = .made) : Step c s ((s.setLock c.lk none).goto t (.wakeAcquire .after))
  | callInner {t : ℕ} (hpc : s.pc t = .made) (hsame : c.same = true) : Step c s (s.goto t (.scan .inner 0))
  | wakeAcquire {t : ℕ} {m : Mode} (hpc : s.pc t = .wakeAcquire m) (hfree : s.lock .ptable = none) :
    Step c s ((s.setLock .ptable (some (.thread t))).goto t (.scan m 0))
  | scan {t i : ℕ} {m : Mode} (hpc : s.pc t = .scan m i) (hi : i < c.n) :
    Step c s ((s.setProc i (wake (some c.chan) (s.proc i))).goto t (.scan m (i + 1)))
  | scanInner {t i : ℕ} (hpc : s.pc t = .scan .inner i) (hi : c.n ≤ i) : Step c s (s.goto t .unlock)
  | scanned {t i : ℕ} {m : Mode} (hpc : s.pc t = .scan m i) (hi : c.n ≤ i) (hm : m ≠ .inner) :
    Step c s (s.goto t (.wakeRelease m))
  | wakeBefore {t : ℕ} (hpc : s.pc t = .wakeRelease .before) :
      Step c s ((s.setLock .ptable none).goto t .unlock)
  | wakeAfter {t : ℕ} {m : Mode} (hpc : s.pc t = .wakeRelease m) (hm : m ≠ .before) :
    Step c s ((s.setLock .ptable none).goto t .idle)
  | unlock {t : ℕ} (hpc : s.pc t = .unlock) : Step c s ((s.setLock c.lk none).goto t .idle)
  | enter (hfree : s.lock .ptable = none) : Step c s (s.setLock .ptable (some .scheduler))
  | dispatch {p : ℕ} (hheld : s.lock .ptable = some .scheduler) (hpc : s.pc p = .off)
      (hrun : (s.proc p).state = .runnable) :
    Step c s (((s.setProc p { s.proc p with state := .running }).setLock .ptable
      (some (.thread p))).goto p .tidy)
  | leave (hheld : s.lock .ptable = some .scheduler) : Step c s (s.setLock .ptable none)
  | kill {p : ℕ} (hfree : s.lock .ptable = none) :
    Step c s (s.setProc p { s.proc p with
      killed := true, state := if (s.proc p).state = .sleeping then .runnable else (s.proc p).state })

variable {l : Lock} {t p : ℕ} {x y : Pc}

theorem acquire_some (h : acquire s l t x = some s') :
    s' = { s with panic := some .acquire }
    ∨ s.lock l = none ∧ s' = (s.setLock l (some (.thread t))).goto t x := by
  rw [acquire] at h
  split_ifs at h with hown hfree
  · exact Or.inl (Option.some.inj h).symm
  · exact Or.inr ⟨hfree, (Option.some.inj h).symm⟩

theorem release_some (h : release s l t x = some s') :
    s' = { s with panic := some .release } ∨ s' = (s.setLock l none).goto t x := by
  rw [release] at h
  split_ifs at h with hown
  · exact Or.inr (Option.some.inj h).symm
  · exact Or.inl (Option.some.inj h).symm

theorem step_of_acquire (h : acquire s l t x = some s')
    (hstep : s.lock l = none → Step c s ((s.setLock l (some (.thread t))).goto t x)) : Step c s s' := by
  rcases acquire_some h with rfl | ⟨hfree, rfl⟩
  · exact .panic _
  · exact hstep hfree

theorem step_of_release (h : release s l t x = some s')
    (hstep : Step c s ((s.setLock l none).goto t x)) : Step c s s' := by
  rcases release_some h with rfl | rfl
  · exact .panic _
  · exact hstep

theorem step_of_thread {x : Choice} (h : threadNext c s t x = some s') : Step c s s' := by
  unfold threadNext at h
  split at h
  next hpc =>
    split_ifs at h with ht
    exact step_of_acquire h (.consume hpc ht)
  next hpc => exact step_of_acquire h (.produce hpc)
  next hpc =>
    cases h
    split_ifs with hcond hsame
    · exact .found hpc hcond
    · exact .sleepSame hpc (Bool.eq_false_of_not_eq_true hcond) hsame
    · exact .sleepOther hpc (Bool.eq_false_of_not_eq_true hcond) (Bool.eq_false_of_not_eq_true hsame)
  next hpc => exact step_of_acquire h (.sleepAcquire hpc)
  next hpc => exact step_of_release h (.sleepRelease hpc)
  next hpc => cases h; exact .setChan hpc
  next hpc => cases h; exact .setState hpc
  next hpc => cases h; exact .sched hpc
  next hpc =>
    cases h
    split_ifs with hsame
    · exact .tidySame hpc hsame
    · exact .tidyOther hpc (Bool.eq_false_of_not_eq_true hsame)
  next hpc => exact step_of_release h (.tidyRelease hpc)
  next hpc => exact step_of_acquire h (.reacquire hpc)
  next hpc => cases h; exact .pass hpc
  next hpc => cases h; exact .take hpc
  next hpc => cases h; exact .make hpc
  next hpc => cases h; exact .callBefore hpc
  next hpc => exact step_of_release h (.callAfter hpc)
  next hpc =>
    split_ifs at h with hsame
    cases h
    exact .callInner hpc hsame
  next m hpc => exact step_of_acquire h (.wakeAcquire hpc)
  next m i hpc =>
    split_ifs at h with hi hm
    · cases h
      exact .scan hpc hi
    · cases h
      exact .scanInner (hm ▸ hpc) (Nat.le_of_not_lt hi)
    · cases h
      exact .scanned hpc (Nat.le_of_not_lt hi) hm
  next m hpc =>
    by_cases hm : m = .before
    · rw [if_pos hm] at h
      exact step_of_release h (.wakeBefore (hm ▸ hpc))
    · rw [if_neg hm] at h
      exact step_of_release h (.wakeAfter hpc hm)
  next hpc => exact step_of_release h (.unlock hpc)
  · cases h

/-- **The inversion of a step.** -/
theorem step_cases (h : (system c).step s e = some s') : Step c s s' := by
  have hnext : next c s e = some s' := by
    rw [system] at h
    simp only at h
    split_ifs at h
    exact h
  cases e with
  | thread t x => exact step_of_thread hnext
  | enter =>
    rw [next] at hnext
    split_ifs at hnext with hfree
    cases hnext
    exact .enter hfree
  | dispatch p =>
    rw [next] at hnext
    split_ifs at hnext with hd
    cases hnext
    exact .dispatch hd.1 hd.2.2 hd.2.1
  | leave =>
    rw [next] at hnext
    split_ifs at hnext with hheld
    cases hnext
    exact .leave hheld
  | kill p =>
    rw [next] at hnext
    by_cases hfree : s.lock .ptable = none
    · rw [if_pos hfree] at hnext
      cases hnext
      exact .kill hfree
    · rw [if_neg hfree] at hnext
      cases hnext

/-! ### The invariant -/

/-- A thread at this statement holds `lk`. -/
def holdsLk : Pc → Bool
  | .test | .sleepAcquire | .sleepRelease | .critical | .make | .made | .unlock => true
  | .wakeAcquire m | .scan m _ | .wakeRelease m => decide (m ≠ .after)
  | _ => false

/-- A thread at this statement holds `ptable.lock`. -/
def holdsPtable : Pc → Bool
  | .sleepRelease | .setChan | .setState | .sched | .tidy | .tidyRelease | .scan _ _ | .wakeRelease _ => true
  | _ => false

/-- A thread at this statement holds the lock. -/
def owns (c : Config) (x : Pc) (l : Lock) : Prop := l = c.lk ∧ holdsLk x = true ∨ l = .ptable
      ∧ holdsPtable x = true

/-- Statements that no thread comes to if `lk` is `ptable.lock`. -/
def needsTwo : Pc → Bool
  | .sleepAcquire | .sleepRelease => true
  | .scan m _ | .wakeRelease m => decide (m = .before)
  | _ => false

/-- The thread has found the condition false, and holds `lk` since. -/
def sawFalse (c : Config) : Pc → Bool
  | .sleepAcquire | .sleepRelease => true
  | .setChan | .setState | .sched => c.same
  | _ => false

/-- The thread is in a call of `sleep`. -/
def inSleep : Pc → Bool
  | .sleepAcquire | .sleepRelease | .setChan | .setState | .sched | .off | .tidy | .tidyRelease
      | .reacquire => true
  | _ => false

/-- The thread will look at slot `p` in its call of `wakeup`. -/
def wakes (p : ℕ) : Pc → Bool
  | .made | .wakeAcquire _ => true
  | .scan _ i => decide (i ≤ p)
  | _ => false

/-- The thread is between making the condition true and the end of its scan. -/
def waking : Pc → Bool
  | .made | .wakeAcquire _ | .scan _ _ => true
  | _ => false

/-- A process that is asleep, or goes to sleep without another test. -/
def sleeper (s : State) (p : ℕ) : Prop := s.pc p = .setChan ∨ s.pc p = .setState
      ∨ (s.proc p).state = .sleeping

structure Inv (c : Config) (s : State) : Prop where
  /-- The locks that threads hold. -/
  locks : ∀ t l, owns c (s.pc t) l → s.lock l = some (.thread t)
  two : c.same = true → ∀ t, needsTwo (s.pc t) = false
  /-- Only processes sleep. -/
  slots : ∀ t, s.pc t = .test ∨ inSleep (s.pc t) = true → t < c.n
  channel : ∀ t, s.pc t = .setState ∨ (s.proc t).state = .sleeping → (s.proc t).chan = some c.chan
  asleep : ∀ t, (s.proc t).state = .sleeping → s.pc t = .sched ∨ s.pc t = .off
  tested : ∀ t, sawFalse c (s.pc t) = true → s.cond = false
  /-- Every sleeper has a producer that will look at its slot. -/
  woken : s.cond = true → ∀ p, sleeper s p → ∃ q, wakes p (s.pc q) = true

section

variable (h : Inv c s)
include h

theorem Inv.slots_step (hstep : Step c s s') (t : ℕ) :
    s'.pc t = .test ∨ inSleep (s'.pc t) = true → t < c.n := by
  have := h.slots
  cases hstep <;> simp only [State.goto, State.setLock, State.setProc, update_apply] <;> grind [inSleep]

theorem Inv.channel_step (hstep : Step c s s') (t : ℕ) :
    s'.pc t = .setState ∨ (s'.proc t).state = .sleeping → (s'.proc t).chan = some c.chan := by
  have := h.channel
  have := h.asleep
  cases hstep <;> simp only [State.goto, State.setLock, State.setProc, update_apply] <;> grind [wake]

theorem Inv.asleep_step (hstep : Step c s s') (t : ℕ) :
    (s'.proc t).state = .sleeping → s'.pc t = .sched ∨ s'.pc t = .off := by
  have := h.asleep
  cases hstep <;> simp only [State.goto, State.setLock, State.setProc, update_apply] <;> grind [wake]

/-- A step in which thread `t` moves and no lock that another thread holds changes. -/
theorem locks_move {lock : Lock → Option Holder} (hself : ∀ l, owns c y l → lock l = some (.thread t))
    (hother : ∀ u, u ≠ t → ∀ l, s.lock l = some (.thread u) → lock l = s.lock l) (u : ℕ) (l : Lock)
    (hu : owns c (update s.pc t y u) l) : lock l = some (.thread u) := by
  by_cases hut : u = t
  · rw [hut, update_self] at hu
    rw [hut]
    exact hself l hu
  · rw [update_of_ne hut] at hu
    have hold := h.locks u l hu
    rw [hother u hut l hold, hold]

theorem locks_keep (hy : ∀ l, owns c y l → owns c (s.pc t) l) (u : ℕ)
    (l : Lock) : owns c (update s.pc t y u) l → s.lock l = some (.thread u) :=
  locks_move h (fun l hl => h.locks t l (hy l hl)) (fun _ _ _ _ => rfl) u l

theorem locks_take {l₀ : Lock} (hfree : ∀ u, s.lock l₀ ≠ some (.thread u))
    (hy : ∀ l, l ≠ l₀ → owns c y l → owns c (s.pc t) l) (u : ℕ) (l : Lock) :
    owns c (update s.pc t y u) l →
      update s.lock l₀ (some (.thread t)) l = some (.thread u) := by
  refine locks_move h (fun l hl => ?_) (fun u _ l hu => ?_) u l
  · by_cases hl₀ : l = l₀
    · rw [hl₀, update_self]
    · rw [update_of_ne hl₀]
      exact h.locks t l (hy l hl₀ hl)
  · have hne : l ≠ l₀ := fun hl => hfree u (hl ▸ hu)
    rw [update_of_ne hne]

theorem locks_drop {l₀ : Lock} {z : Option Holder} (hheld : owns c (s.pc t) l₀)
    (hy : ∀ l, owns c y l → l ≠ l₀ ∧ owns c (s.pc t) l) (u : ℕ) (l : Lock) :
    owns c (update s.pc t y u) l → update s.lock l₀ z l = some (.thread u) := by
  refine locks_move h (fun l hl => ?_) (fun u hut l hu => ?_) u l
  · obtain ⟨hne, hx⟩ := hy l hl
    rw [update_of_ne hne]
    exact h.locks t l hx
  · have hne : l ≠ l₀ := fun hl => by
      rw [hl, h.locks t l₀ hheld, Option.some.injEq, Holder.thread.injEq] at hu
      exact hut hu.symm
    rw [update_of_ne hne]

theorem Inv.locks_step (hstep : Step c s s') (u : ℕ) (l : Lock) :
    owns c (s'.pc u) l → s'.lock l = some (.thread u) := by
  have hnone : ∀ {l₀ : Lock}, s.lock l₀ = none → ∀ u, s.lock l₀ ≠ some (.thread u) := fun hl u hu => by
    rw [hl] at hu
    cases hu
  have hsched : s.lock .ptable = some .scheduler → ∀ u, s.lock .ptable ≠ some (.thread u) := fun hl u hu => by
    rw [hl] at hu
    cases hu
  have htwo : ∀ t, needsTwo (s.pc t) = true → c.same = false := fun t ht => by
    by_contra hs
    rw [h.two (Bool.eq_true_of_not_eq_false hs) t] at ht
    cases ht
  cases hstep with
  | panic m => exact h.locks u l
  | consume hpc ht hfree =>
    exact locks_take h (hnone hfree) (by grind [owns, holdsLk, holdsPtable, Config.lk]) u l
  | produce hpc hfree =>
    exact locks_take h (hnone hfree) (by grind [owns, holdsLk, holdsPtable, Config.lk]) u l
  | reacquire hpc hfree =>
    exact locks_take h (hnone hfree) (by grind [owns, holdsLk, holdsPtable, Config.lk]) u l
  | sleepAcquire hpc hfree =>
    exact locks_take h (hnone hfree) (by grind [owns, holdsLk, holdsPtable, Config.lk]) u l
  | wakeAcquire hpc hfree =>
    exact locks_take h (hnone hfree) (by grind [owns, holdsLk, holdsPtable, Config.lk]) u l
  | dispatch hheld => exact locks_take h (hsched hheld) (by grind [owns, holdsLk, holdsPtable, Config.lk]) u l
  | @sleepRelease t hpc =>
    have hs := htwo t (by rw [hpc]; rfl)
    exact locks_drop h (by grind [owns, holdsLk, Config.lk])
      (by grind [owns, holdsLk, holdsPtable, Config.lk]) u l
  | @wakeBefore t hpc =>
    have hs := htwo t (by rw [hpc]; rfl)
    exact locks_drop h (by grind [owns, holdsPtable, Config.lk])
      (by grind [owns, holdsLk, holdsPtable, Config.lk]) u l
  | sched hpc =>
    exact locks_drop h (by grind [owns, holdsPtable, Config.lk])
      (by grind [owns, holdsLk, holdsPtable, Config.lk]) u l
  | tidyRelease hpc =>
    exact locks_drop h (by grind [owns, holdsPtable, Config.lk])
      (by grind [owns, holdsLk, holdsPtable, Config.lk]) u l
  | wakeAfter hpc =>
    exact locks_drop h (by grind [owns, holdsPtable, Config.lk])
      (by grind [owns, holdsLk, holdsPtable, Config.lk]) u l
  | callAfter hpc =>
    exact locks_drop h (by grind [owns, holdsLk, Config.lk])
      (by grind [owns, holdsLk, holdsPtable, Config.lk]) u l
  | unlock hpc =>
    exact locks_drop h (by grind [owns, holdsLk, Config.lk])
      (by grind [owns, holdsLk, holdsPtable, Config.lk]) u l
  | enter hfree =>
    intro hu
    have hold := h.locks u l hu
    have hne : l ≠ .ptable := fun hl => hnone hfree u (hl ▸ hold)
    exact (update_of_ne hne ..).trans hold
  | leave hheld =>
    intro hu
    have hold := h.locks u l hu
    have hne : l ≠ .ptable := fun hl => hsched hheld u (hl ▸ hold)
    exact (update_of_ne hne ..).trans hold
  | kill => exact h.locks u l
  | _ => exact locks_keep h (by grind [owns, holdsLk, holdsPtable, Config.lk]) u l

theorem Inv.two_step (hstep : Step c s s') (hs : c.same = true) (t : ℕ) : needsTwo (s'.pc t) = false := by
  have := h.two hs
  have := fun t => h.locks t .ptable
  cases hstep <;> simp only [State.goto, State.setLock, State.setProc, update_apply] <;>
    grind [needsTwo, owns, holdsLk, Config.lk]

theorem Inv.lk_of_sawFalse (ht : sawFalse c (s.pc t) = true) :
    s.lock c.lk = some (.thread t) := by
  refine h.locks t c.lk ?_
  cases hs : c.same <;> cases hpc : s.pc t <;> rw [hpc] at ht <;>
    simp_all [sawFalse, owns, Config.lk, holdsLk, holdsPtable]

theorem Inv.lk_of_make (ht : s.pc t = .make) : s.lock c.lk = some (.thread t) := by
  refine h.locks t c.lk ?_
  cases hs : c.same <;> simp [ht, hs, owns, Config.lk, holdsLk]

/-- One thread at a time is in code that holds `ptable.lock`. -/
theorem Inv.ptable_unique {u : ℕ} (ht : holdsPtable (s.pc t) = true) (hu : holdsPtable (s.pc u) = true) :
    t = u := by
  have hlt := h.locks t .ptable (Or.inr ⟨rfl, ht⟩)
  have hlu := h.locks u .ptable (Or.inr ⟨rfl, hu⟩)
  rw [hlt, Option.some.injEq, Holder.thread.injEq] at hlu
  exact hlu

theorem Inv.tested_step (hstep : Step c s s') (t : ℕ) : sawFalse c (s'.pc t) = true → s'.cond = false := by
  have := h.tested
  have := fun t => h.lk_of_sawFalse (t := t)
  have := fun t => h.lk_of_make (t := t)
  cases hstep <;> simp only [State.goto, State.setLock, State.setProc, update_apply] <;> grind [sawFalse]

/-- A step of thread `t` after which it still looks at the slots of all sleepers that it would have looked
at. -/
theorem woken_move {u : State} (hpc : u.pc = update s.pc t y) (hcond : s.cond = true)
    (hp : sleeper s p) (hw : wakes p (s.pc t) = true → wakes p y = true) : ∃ q, wakes p (u.pc q) = true := by
  obtain ⟨q, hq⟩ := h.woken hcond p hp
  refine ⟨q, ?_⟩
  by_cases hqt : q = t
  · rw [hpc, hqt, update_self]
    exact hw (hqt ▸ hq)
  · rwa [hpc, update_of_ne hqt]

/-- The scan makes the process in slot `i` runnable if it sleeps. -/
theorem not_sleeping_wake (i : ℕ) : (wake (some c.chan) (s.proc i)).state ≠ .sleeping := by
  rw [wake_eq]
  by_cases hs : (s.proc i).state = .sleeping
  · simp [hs, h.channel i (Or.inr hs)]
  · simp [hs]

/-- **The sleepers that a producer has passed are awake**: `sleep` takes `ptable.lock` before it releases
`lk`, so a process that has seen the condition false is asleep when the scan of the producer that makes it
true comes to its slot. -/
theorem Inv.woken_scan {i : ℕ} {m : Mode} (hpc : s.pc t = .scan m i) (hcond : s.cond = true)
    (hp : sleeper ((s.setProc i (wake (some c.chan) (s.proc i))).goto t (.scan m (i + 1))) p) :
    ∃ q, wakes p (update s.pc t (.scan m (i + 1)) q) = true := by
  have hscan : holdsPtable (s.pc t) = true := by rw [hpc]; rfl
  have hpt : p ≠ t := fun hpt => by
    have hst := h.asleep t
    rw [hpt] at hp
    simp only [sleeper, State.goto, State.setProc, update_self, update_apply] at hp
    grind [not_sleeping_wake h i]
  have hold : sleeper s p ∧ p ≠ i := by
    simp only [sleeper, State.goto, State.setProc, update_of_ne hpt] at hp
    rcases hp with hp | hp | hp
    · have := h.ptable_unique (t := p) (by rw [hp]; rfl) hscan
      exact absurd this hpt
    · have := h.ptable_unique (t := p) (by rw [hp]; rfl) hscan
      exact absurd this hpt
    · by_cases hpi : p = i
      · rw [hpi, update_self] at hp
        exact absurd hp (not_sleeping_wake h i)
      · rw [update_of_ne hpi] at hp
        exact ⟨Or.inr (Or.inr hp), hpi⟩
  refine woken_move (u := s.goto t (.scan m (i + 1))) h rfl hcond hold.1 fun hw => ?_
  rw [hpc, wakes, decide_eq_true_iff] at hw
  rw [wakes, decide_eq_true_iff]
  have := hold.2
  omega

theorem Inv.slot_of_sleeper (hp : sleeper s p) : p < c.n := by
  refine h.slots p (Or.inr ?_)
  rcases hp with hp | hp | hp
  · rw [hp]; rfl
  · rw [hp]; rfl
  · rcases h.asleep p hp with hp | hp <;> rw [hp] <;> rfl

theorem Inv.woken_step (hstep : Step c s s') (hcond : s'.cond = true) (p : ℕ) (hp : sleeper s' p) :
    ∃ q, wakes p (s'.pc q) = true := by
  cases hstep with
  | panic => exact h.woken hcond p hp
  | enter => exact h.woken hcond p hp
  | leave => exact h.woken hcond p hp
  | kill =>
    refine h.woken hcond p ?_
    simp only [sleeper, State.setProc, update_apply] at hp ⊢
    grind
  | @make t hpc =>
    -- this producer has still to look at every slot
    refine ⟨t, ?_⟩
    show wakes p (update s.pc t .made t) = true
    rw [update_self]
    rfl
  | take => cases hcond
  | @sleepSame t hpc hfalse =>
    rw [show s.cond = true from hcond] at hfalse
    cases hfalse
  | @sleepRelease t hpc =>
    have hfalse := h.tested t (by rw [hpc]; rfl)
    rw [show s.cond = true from hcond] at hfalse
    cases hfalse
  | scan hpc hi => exact h.woken_scan hpc hcond hp
  | @scanInner t i hpc hi =>
    have hold : sleeper s p := by
      simp only [sleeper, State.goto, update_apply] at hp ⊢
      grind
    have := h.slot_of_sleeper hold
    exact woken_move h rfl hcond hold (by rw [hpc, wakes, decide_eq_true_iff]; omega)
  | @scanned t i m hpc hi hm =>
    have hold : sleeper s p := by
      simp only [sleeper, State.goto, update_apply] at hp ⊢
      grind
    have := h.slot_of_sleeper hold
    exact woken_move h rfl hcond hold (by rw [hpc, wakes, decide_eq_true_iff]; omega)
  | _ =>
    -- no other step makes a process a sleeper, or takes a producer past a slot
    refine woken_move h rfl hcond ?_ (by grind [wakes])
    simp only [sleeper, State.goto, State.setLock, State.setProc, update_apply] at hp ⊢
    grind

theorem Inv.step (hstep : Step c s s') : Inv c s' :=
  ⟨h.locks_step hstep, h.two_step hstep, h.slots_step hstep, h.channel_step hstep, h.asleep_step hstep,
    h.tested_step hstep, h.woken_step hstep⟩

end

theorem inv_init (h : (system c).init s) : Inv c s := by
  obtain ⟨hpc, hrun, _, _⟩ := h
  constructor <;> simp [hpc, hrun, owns, holdsLk, holdsPtable, needsTwo, inSleep, sawFalse, sleeper]

theorem run_inv {es : List Event} (hr : Reach (system c) es s) : Inv c s := by
  refine hr.induct (I := fun _ s => Inv c s) ?_ ?_
  · exact fun _ h0 => inv_init h0
  · exact fun _ _ _ _ h _ hstep => h.step (step_cases hstep)

/-! ### The result -/

theorem waking_of_wakes (h : wakes p x = true) : waking x = true := by
  cases x <;> first | rfl | cases h

theorem test_of_return (hstep : Step c s s') (hin : inSleep (s.pc t) = true)
    (hout : inSleep (s'.pc t) = false) : s'.pc t = .test := by
  cases hstep <;> simp only [State.goto, State.setLock, State.setProc, update_apply] at hout ⊢ <;>
    grind [inSleep]

/-- **`sleep` and `wakeup` lose no wakeup**, for any number of consumers and producers in any interleaving,
and whether or not `lk` is `ptable.lock`: when the condition is true and no producer is between making it true
and the end of its scan, no process is asleep on the channel; and a consumer that returns from `sleep` holds
`lk`. -/
theorem no_lost_wakeup {es : List Event} (hr : Reach (system c) es s) :
    (s.cond = true → (∀ q, waking (s.pc q) = false) →
      ∀ p, ¬ ((s.proc p).state = .sleeping ∧ (s.proc p).chan = some c.chan))
    ∧ ∀ e s' t, (system c).step s e = some s' → inSleep (s.pc t) = true → inSleep (s'.pc t) = false →
      s'.lock c.lk = some (.thread t) := by
  have h := run_inv hr
  refine ⟨fun hcond hno p hp => ?_, fun e s' t hstep hin hout => ?_⟩
  · obtain ⟨q, hq⟩ := h.woken hcond p (Or.inr (Or.inr hp.1))
    exact absurd (waking_of_wakes hq) (by rw [hno q]; exact Bool.false_ne_true)
  · have hs := step_cases hstep
    have htest := test_of_return hs hin hout
    refine (h.step hs).locks t c.lk (Or.inl ⟨rfl, ?_⟩)
    rw [htest]
    rfl

/-- A condition that is false, and processes that run. -/
def start : State where
  cond := false
  lock := fun _ => none
  proc := fun i => ⟨.running, i + 1, none, none, false, true, true⟩
  pc := fun _ => .idle
  panic := none

/-- Process 0 goes to sleep; process 1 makes the condition true and calls `wakeup` after it has released
`lk`. -/
def sleepThenWake : List Event :=
  [.thread 0 .consume, .thread 0 .go, .thread 0 .go, .thread 0 .go, .thread 0 .go, .thread 0 .go,
    .thread 0 .go, .leave, .thread 1 .produce, .thread 1 .go, .thread 1 (.call .after), .thread 1 .go,
    .thread 1 .go, .thread 1 .go, .thread 1 .go, .thread 1 .go]

def mover : Event → Option ℕ
  | .thread t _ => some t
  | .dispatch p => some p
  | _ => none

theorem pc_of_not_mover {q : ℕ} (hstep : (system c).step s e = some s') (hq : mover e ≠ some q) :
    s'.pc q = s.pc q := by
  have hnext : next c s e = some s' := by
    simp only [system] at hstep
    split_ifs at hstep
    exact hstep
  cases e with
  | thread t x =>
    have hne : q ≠ t := fun h => hq (by rw [h]; rfl)
    have hgoto : ∀ {u : State} {y : Pc}, (u.goto t y).pc q = u.pc q := update_of_ne hne ..
    unfold next threadNext acquire release at hnext
    grind [State.setLock, State.setProc]
  | dispatch p =>
    have hne : q ≠ p := fun h => hq (by rw [h]; rfl)
    have hgoto : ∀ {u : State} {y : Pc}, (u.goto p y).pc q = u.pc q := update_of_ne hne ..
    unfold next at hnext
    grind [State.setLock, State.setProc]
  | _ =>
    unfold next at hnext
    grind [State.setLock, State.setProc]

theorem idle_of_not_moved {es : List Event} (hr : Reach (system c) es s) {q : ℕ}
    (hq : ∀ e ∈ es, mover e ≠ some q) : s.pc q = .idle := by
  induction hr with
  | init h0 => exact h0.1 q
  | step e _ _ hstep ih =>
    rw [pc_of_not_mover hstep (hq e (List.mem_append_right _ (List.mem_singleton_self e)))]
    exact ih fun e' he' => hq e' (List.mem_append_left _ he')

/-- The condition is true, process 1 is done and process 0, which has gone to sleep, sleeps no more. -/
theorem no_lost_wakeup_two : ∃ s, Reach (system ⟨.other 5, false, 2⟩) sleepThenWake s ∧ s.cond = true
    ∧ s.pc 0 = .off ∧ (s.proc 0).chan = some (.other 5) ∧ (s.proc 0).state ≠ .sleeping := by
  obtain ⟨s, hr, hs⟩ := exists_runIf_of_map (S := system ⟨.other 5, false, 2⟩) (C := fun _ _ _ => True)
    (f := fun s => (s.cond, s.pc 0, s.pc 1, (s.proc 0).chan))
    (y := (true, .off, .idle, some (.other 5))) (s := start)
    sleepThenWake ⟨fun _ => rfl, fun _ => rfl, fun _ => rfl, rfl⟩ (by decide +kernel)
  simp only [Prod.mk.injEq] at hs
  obtain ⟨hcond, hoff, hidle, hchan⟩ := hs
  have hmove : ∀ e ∈ sleepThenWake, ∀ t ∈ mover e, t < 2 := by decide
  have hno : ∀ q, waking (s.pc q) = false := fun q => by
    rcases q with _ | _ | q
    · rw [hoff]
      rfl
    · rw [hidle]
      rfl
    · rw [idle_of_not_moved hr fun e he hq => absurd (hmove e he _ hq) (by omega)]
      rfl
  exact ⟨s, hr, hcond, hoff, hchan, fun hsleep => (no_lost_wakeup hr).1 hcond hno 0 ⟨hsleep, hchan⟩⟩

end Xv6e.Process.SleepWakeup
