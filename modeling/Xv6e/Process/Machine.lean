import Xv6e.Library.Transition
import Xv6e.Process.Lifecycle

/-!
# CPUs and `ptable.lock`

Any number of CPUs run the scheduler and the kernel threads of processes.  A CPU executes on the stack of its
scheduler or of a process, and `swtch` changes from one to the other; `ptable.lock` is held by a CPU, so that
the thread that releases it may be another than the one that acquired it.  Each step of `scheduler`, and the
acquisition, the body, the call of `sched` and the release of each locked section of a process, are steps of
their own.

* `Phase` — where a process thread is with respect to the lock; `SchedPc` — where a scheduler is;
* `Event` — which CPU moves, and what it does;
* `check` — the checks of `acquire`, `release`, `sched` and `exit` that panic; `next` — what a step does
  otherwise;
* `machine` — the transition system, from the end of `userinit`.
-/

namespace Xv6e.Process.Machine

open Library.Transition Ptable

/-- The sections that a process thread executes with the lock. -/
inductive Action
  | alloc | publish | zombie | wait
  | kill (pid : ℤ)
  | yield
  | sleep (n : ℕ)
  | wakeup (n : ℕ)
  deriving DecidableEq, Repr

def Action.op : Action → Op
  | .alloc => .alloc
  | .publish => .publish
  | .zombie => .zombie
  | .wait => .wait
  | .kill pid => .kill pid
  | .yield => .yield
  | .sleep n => .sleep n
  | .wakeup n => .wakeup n

/-- Where `swtch` returns to in a process thread. -/
inductive Cont
  | forkret | yield | sleep | wait | exit
  deriving DecidableEq, Repr

inductive Phase
  | run                       -- without the lock
  | acquiring (a : Action)    -- in `acquire`
  | locked (a : Action)       -- about to execute the section
  | switching (k : Cont)      -- in `sched`, about to call `swtch`
  | resumed (k : Cont)        -- `swtch` will return, or has returned
  | releasing                 -- about to call `release`
  deriving DecidableEq, Repr

inductive SchedPc
  | idle                      -- before `acquire`
  | scan (i : ℕ)              -- about to look at slot `i`
  | chosen (i : ℕ)            -- about to call `swtch` to slot `i`
  | returned (i : ℕ)          -- `swtch` will return, or has returned, from slot `i`
  | irq (n : ℕ)               -- in `acquire` of `wakeup`, called by an interrupt
  | irqLocked (n : ℕ)         -- about to execute `wakeup1`
  | irqRelease                -- about to release the lock in `wakeup`
  deriving DecidableEq, Repr

/-- `struct cpu`, with the stack and the page table in use; `none` is the scheduler's. -/
structure Cpu where
  proc : Option ℕ
  stack : Option ℕ
  pgdir : Option ℕ
  deriving DecidableEq, Repr

inductive Panic
  | acquire | release | schedLock | schedRunning | zombieExit
  deriving DecidableEq, Repr

structure State where
  table : Table
  lock : Option ℕ
  cpu : ℕ → Cpu
  sched : ℕ → SchedPc
  thread : ℕ → Phase
  panic : Option Panic

inductive Event
  | enter (c : ℕ)                 -- the scheduler acquires the lock
  | look (c : ℕ)                  -- the scheduler looks at a slot
  | leave (c : ℕ)                 -- the scheduler releases the lock
  | swtchTo (c : ℕ)               -- the scheduler calls `swtch`
  | back (c : ℕ)                  -- the scheduler goes on after `swtch`
  | irq (c n : ℕ)                 -- an interrupt on the scheduler's stack calls `wakeup`
  | irqAcquire (c : ℕ)
  | irqBody (c : ℕ)
  | irqRelease (c : ℕ)
  | call (c : ℕ) (a : Action)     -- the process starts a section
  | acquire (c : ℕ)
  | body (c : ℕ) (a : Action)
  | swtch (c : ℕ)                 -- the process calls `swtch` in `sched`
  | resume (c : ℕ)                -- the process goes on after `swtch`
  | release (c : ℕ)
  | unlocked (c : ℕ) (op : Op)    -- the process executes a statement without the lock
  deriving DecidableEq, Repr

def State.setSched (s : State) (c : ℕ) (x : SchedPc) : State :=
  { s with sched := Function.update s.sched c x }

def State.setThread (s : State) (p : ℕ) (x : Phase) : State :=
  { s with thread := Function.update s.thread p x }

def State.setCpu (s : State) (c : ℕ) (x : Cpu) : State := { s with cpu := Function.update s.cpu c x }

/-- The places from which a section is called. -/
def callable (x : Place) : Action → Bool
  | .alloc | .kill _ => x = .user
  | .wait => x = .user
  | .publish => match x with
    | .publish _ => true
    | _ => false
  | .zombie => x = .exiting
  | .sleep _ => x = .user || x = .exiting
  | .yield | .wakeup _ => true

/-- The statements outside of locked sections. -/
def isUnlocked : Op → Bool
  | .kalloc _ | .copyuvm _ | .setParent | .exit | .fault => true
  | _ => false

/-- The section ends in `sched`, if it does. -/
def ends (l : Table) (p : ℕ) : Action → Option Cont
  | .zombie => some .exit
  | .yield => some .yield
  | .sleep _ => some .sleep
  | .wait => if l.place p = .waiting then some .wait else none
  | _ => none

/-- The phase after the body of a section. -/
def afterBody (l : Table) (p : ℕ) (a : Action) : Phase :=
  match ends l p a with
  | some k => .switching k
  | none => .releasing

/-- The thread of a slot: `allocproc` sets its context to return to `forkret`. -/
def newThread (s : State) (p : ℕ) : Op → ℕ → Phase
  | .kalloc true => match s.table.place p with
    | .stack np => Function.update s.thread np (.resumed .forkret)
    | _ => s.thread
  | _ => s.thread

def check (s : State) : Event → Option Panic
  | .enter c => if (s.cpu c).stack = none ∧ s.sched c = .idle ∧ s.lock = some c then some .acquire else none
  | .leave c => match (s.cpu c).stack, s.sched c with
    | none, .scan i => if ¬ i < NPROC ∧ s.lock ≠ some c then some .release else none
    | _, _ => none
  | .irqAcquire c => match (s.cpu c).stack, s.sched c with
    | none, .irq _ => if s.lock = some c then some .acquire else none
    | _, _ => none
  | .irqRelease c =>
    if (s.cpu c).stack = none ∧ s.sched c = .irqRelease ∧ s.lock ≠ some c then some .release else none
  | .acquire c => match (s.cpu c).stack with
    | some p => match s.thread p with
      | .acquiring _ => if s.lock = some c then some .acquire else none
      | _ => none
    | none => none
  | .swtch c => match (s.cpu c).stack with
    | some p => match s.thread p with
      | .switching _ => if s.lock ≠ some c then some .schedLock
        else if (s.table.proc p).state = .running then some .schedRunning else none
      | _ => none
    | none => none
  | .resume c => match (s.cpu c).stack with
    | some p => if s.thread p = .resumed .exit then some .zombieExit else none
    | none => none
  | .release c => match (s.cpu c).stack with
    | some p => if s.thread p = .releasing ∧ s.lock ≠ some c then some .release else none
    | none => none
  | _ => none

/-- A step of the scheduler of CPU `c`. -/
def schedNext (s : State) (c : ℕ) (e : Event) : Option State :=
  match e, s.sched c with
  | .enter _, .idle => if s.lock = none then some ({ s with lock := some c }.setSched c (.scan 0)) else none
  | .look _, .scan i =>
    if i < NPROC then
      if (s.table.proc i).state = .runnable then
        (exec s.table i .dispatch).map fun x =>
          ({ s with table := x.1 }.setCpu c ⟨some i, none, some i⟩).setSched c (.chosen i)
      else some (s.setSched c (.scan (i + 1)))
    else none
  | .leave _, .scan i => if i < NPROC then none else some ({ s with lock := none }.setSched c .idle)
  | .swtchTo _, .chosen i => some ((s.setCpu c { s.cpu c with stack := some i }).setSched c (.returned i))
  | .back _, .returned i => some ((s.setCpu c ⟨none, none, none⟩).setSched c (.scan (i + 1)))
  | .irq _ n, .idle => some (s.setSched c (.irq n))
  | .irqAcquire _, .irq n => if s.lock = none then
      some ({ s with lock := some c }.setSched c (.irqLocked n)) else none
  | .irqBody _, .irqLocked n =>
    some ({ s with table := wakeup1 (some (.other n)) s.table }.setSched c .irqRelease)
  | .irqRelease _, .irqRelease => some ({ s with lock := none }.setSched c .idle)
  | _, _ => none

def procNext (s : State) (c p : ℕ) (e : Event) : Option State :=
  match e, s.thread p with
  | .call _ a, .run => if callable (s.table.place p) a then some (s.setThread p (.acquiring a)) else none
  | .acquire _, .acquiring a => if s.lock = none then
      some ({ s with lock := some c }.setThread p (.locked a)) else none
  | .body _ a, .locked b =>
    if a = b then (exec s.table p a.op).map fun x =>
      { s with table := x.1 }.setThread p (afterBody x.1 p a)
    else none
  | .swtch _, .switching k => some ((s.setCpu c { s.cpu c with stack := none }).setThread p (.resumed k))
  | .resume _, .resumed k => match k with
    | .forkret | .yield => some (s.setThread p .releasing)
    | .sleep => (exec s.table p .tidy).map fun x => { s with table := x.1 }.setThread p .releasing
    | .wait => (exec s.table p .tidy).map fun x => { s with table := x.1 }.setThread p (.locked .wait)
    | .exit => none
  | .release _, .releasing => some ({ s with lock := none }.setThread p .run)
  | .unlocked _ op, .run =>
    if isUnlocked op then (exec s.table p op).map fun x =>
      { s with table := x.1, thread := newThread s p op } else none
  | _, _ => none

def Event.cpu : Event → ℕ
  | .enter c | .look c | .leave c | .swtchTo c | .back c | .irq c _ | .irqAcquire c | .irqBody c
      | .irqRelease c
  | .call c _ | .acquire c | .body c _ | .swtch c | .resume c | .release c | .unlocked c _ => c

def next (s : State) (e : Event) : Option State :=
  match (s.cpu e.cpu).stack with
  | none => schedNext s e.cpu e
  | some p => procNext s e.cpu p e

def step (s : State) (e : Event) : Option State :=
  if s.panic.isSome || s.table.panic.isSome then none
  else match check s e with
    | some m => some { s with panic := some m }
    | none => next s e

/-- The machine when `userinit` has made the first process and every CPU is about to run its scheduler. -/
def boot : State where
  table := booted
  lock := none
  cpu := fun _ => ⟨none, none, none⟩
  sched := fun _ => .idle
  thread := fun p => if p = initproc then .resumed .forkret else .run
  panic := none

def machine : System State Event where
  init := fun s => s = boot
  step := step

/-! ### Steps, case by case -/

inductive SchedStep (s : State) (c : ℕ) : Event → State → Prop
  | enter {c' : ℕ} (hpc : s.sched c = .idle) (hfree : s.lock = none) :
    SchedStep s c (.enter c') ({ s with lock := some c }.setSched c (.scan 0))
  | pick {c' i : ℕ} (hpc : s.sched c = .scan i) (hi : i < NPROC) (hrun : (s.table.proc i).state = .runnable) :
    SchedStep s c (.look c')
    (({ s with table := s.table.set i { s.table.proc i with state := .running } }.setCpu c
      ⟨some i, none, some i⟩).setSched c (.chosen i))
  | skip {c' i : ℕ} (hpc : s.sched c = .scan i) : SchedStep s c (.look c') (s.setSched c (.scan (i + 1)))
  | leave {c' i : ℕ} (hpc : s.sched c = .scan i) :
      SchedStep s c (.leave c') ({ s with lock := none }.setSched c .idle)
  | swtchTo {c' i : ℕ} (hpc : s.sched c = .chosen i) :
    SchedStep s c (.swtchTo c') ((s.setCpu c { s.cpu c with stack := some i }).setSched c (.returned i))
  | back {c' i : ℕ} (hpc : s.sched c = .returned i) :
    SchedStep s c (.back c') ((s.setCpu c ⟨none, none, none⟩).setSched c (.scan (i + 1)))
  | irq {c' n : ℕ} (hpc : s.sched c = .idle) : SchedStep s c (.irq c' n) (s.setSched c (.irq n))
  | irqAcquire {c' n : ℕ} (hpc : s.sched c = .irq n) (hfree : s.lock = none) :
    SchedStep s c (.irqAcquire c') ({ s with lock := some c }.setSched c (.irqLocked n))
  | irqBody {c' n : ℕ} (hpc : s.sched c = .irqLocked n) :
    SchedStep s c (.irqBody c') ({ s with table := wakeup1 (some (.other n)) s.table }.setSched c .irqRelease)
  | irqRelease {c' : ℕ} (hpc : s.sched c = .irqRelease) :
    SchedStep s c (.irqRelease c') ({ s with lock := none }.setSched c .idle)

theorem schedStep_of_next {s t : State} {c : ℕ} {e : Event} (h : schedNext s c e = some t) :
    SchedStep s c e t := by
  unfold schedNext at h
  split at h
  · rename_i hpc
    split_ifs at h with hfree
    cases h
    exact .enter hpc hfree
  · rename_i hpc
    split_ifs at h with hi hrun <;> cases h
    · exact .pick hpc hi hrun
    · exact .skip hpc
  · rename_i hpc
    split_ifs at h
    cases h
    exact .leave hpc
  · cases h
    exact .swtchTo ‹_›
  · cases h
    exact .back ‹_›
  · cases h
    exact .irq ‹_›
  · rename_i hpc
    split_ifs at h with hfree
    cases h
    exact .irqAcquire hpc hfree
  · cases h
    exact .irqBody ‹_›
  · cases h
    exact .irqRelease ‹_›
  · cases h

inductive ProcStep (s : State) (c p : ℕ) : Event → State → Prop
  | call {c' : ℕ} {a : Action} (hpc : s.thread p = .run) :
      ProcStep s c p (.call c' a) (s.setThread p (.acquiring a))
  | acquire {c' : ℕ} {a : Action} (hpc : s.thread p = .acquiring a) (hfree : s.lock = none) :
    ProcStep s c p (.acquire c') ({ s with lock := some c }.setThread p (.locked a))
  | body {c' : ℕ} {a : Action} {x : Table × Option ℤ} (hpc : s.thread p = .locked a)
    (hex : exec s.table p a.op = some x) :
    ProcStep s c p (.body c' a) ({ s with table := x.1 }.setThread p (afterBody x.1 p a))
  | swtch {c' : ℕ} {k : Cont} (hpc : s.thread p = .switching k) :
    ProcStep s c p (.swtch c') ((s.setCpu c { s.cpu c with stack := none }).setThread p (.resumed k))
  | resume {c' : ℕ} {k : Cont} (hpc : s.thread p = .resumed k) (hk : k = .forkret ∨ k = .yield) :
    ProcStep s c p (.resume c') (s.setThread p .releasing)
  | resumeSleep {c' : ℕ} {k : Cont} {x : Phase} (hpc : s.thread p = .resumed k)
    (hk : k = .sleep ∧ x = .releasing ∨ k = .wait ∧ x = .locked .wait) :
    ProcStep s c p (.resume c') ({ s with table := tidy s.table p }.setThread p x)
  | release {c' : ℕ} (hpc : s.thread p = .releasing) :
    ProcStep s c p (.release c') ({ s with lock := none }.setThread p .run)
  | unlocked {c' : ℕ} {op : Op} {x : Table × Option ℤ} (hpc : s.thread p = .run) (hop : isUnlocked op = true)
    (hex : exec s.table p op = some x) :
    ProcStep s c p (.unlocked c' op) { s with table := x.1, thread := newThread s p op }

theorem exec_tidy (l : Table) (p : ℕ) : exec l p .tidy = some (tidy l p, none) := by
  unfold exec
  rfl

theorem procStep_of_next {s t : State} {c p : ℕ} {e : Event} (h : procNext s c p e = some t) :
    ProcStep s c p e t := by
  unfold procNext at h
  split at h
  · rename_i hpc
    split_ifs at h
    cases h
    exact .call hpc
  · rename_i hpc
    split_ifs at h with hfree
    cases h
    exact .acquire hpc hfree
  · rename_i a b hpc
    split_ifs at h with hab
    obtain ⟨x, hex, rfl⟩ := Option.map_eq_some_iff.mp h
    exact .body (hab ▸ hpc) hex
  · cases h
    exact .swtch ‹_›
  · rename_i k hpc
    cases k <;> simp only [exec_tidy, Option.map_some, Option.some.injEq, reduceCtorEq] at h
    · rw [← h]
      exact .resume hpc (Or.inl rfl)
    · rw [← h]
      exact .resume hpc (Or.inr rfl)
    · rw [← h]
      exact .resumeSleep hpc (Or.inl ⟨rfl, rfl⟩)
    · rw [← h]
      exact .resumeSleep hpc (Or.inr ⟨rfl, rfl⟩)
  · cases h
    exact .release ‹_›
  · rename_i op hpc
    split_ifs at h with hop
    obtain ⟨x, hex, rfl⟩ := Option.map_eq_some_iff.mp h
    exact .unlocked hpc hop hex
  · cases h

/-- **A step** fails a check, or is one of the scheduler or of the process on the CPU. -/
theorem step_cases {s t : State} {e : Event} (h : step s e = some t) :
    (∃ m, check s e = some m ∧ t = { s with panic := some m })
    ∨ (s.cpu e.cpu).stack = none ∧ SchedStep s e.cpu e t
    ∨ ∃ p, (s.cpu e.cpu).stack = some p ∧ ProcStep s e.cpu p e t := by
  rw [step] at h
  split_ifs at h
  cases hcheck : check s e with
  | some m =>
    rw [hcheck] at h
    exact Or.inl ⟨m, rfl, (Option.some.inj h).symm⟩
  | none =>
    rw [hcheck] at h
    simp only [next] at h
    cases hstack : (s.cpu e.cpu).stack with
    | none =>
      rw [hstack] at h
      exact Or.inr (Or.inl ⟨rfl, schedStep_of_next h⟩)
    | some p =>
      rw [hstack] at h
      exact Or.inr (Or.inr ⟨p, rfl, procStep_of_next h⟩)

end Xv6e.Process.Machine
