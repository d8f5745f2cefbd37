import Xv6e.Params

/-!
# The process table

The functions of `proc.c` as operations on the process table.  Each operation is one section that holds
`ptable.lock`, or one statement between sections: `fork` allocates a slot under the lock, fills it without the
lock, and makes it `RUNNABLE` under the lock again.  `Place` says how far a process has come in `fork`, `exit`
or `wait`.

Slots stand for their addresses; slot `initproc` is the one that `userinit` takes.  The memory behind `kstack`
and `pgdir` is left out but for whether the pointers are set; `sz`, the trap frame, the name and the files of
a process are not read by these functions.

* `allocproc`, `kalloc`, `copyuvm`, `setParent`, `publish` — the parts of `fork`;
* `exit`, `zombie` — the two parts of `exit`; `wait`, `kill`, `yield`, `sleep`, `tidy`, `wakeup`, `dispatch`;
* `exec l p op` — process `p` performs `op`, with the value that the system call returns if it ends there;
  `Does` — the same, case by case.
-/

namespace Xv6e.Process.Ptable

def initproc : ℕ := 0

inductive ProcState
  | unused | embryo | sleeping | runnable | running | zombie
  deriving DecidableEq, Repr

/-- What a process sleeps on: a process, as in `wait`, or something else. -/
inductive Chan
  | proc (i : ℕ)
  | other (n : ℕ)
  deriving DecidableEq, Repr

structure Proc where
  state : ProcState
  pid : ℤ
  parent : Option ℕ
  chan : Option Chan
  killed : Bool
  kstack : Bool
  pgdir : Bool
  deriving DecidableEq, Repr

/-- How far a process has come in a system call. -/
inductive Place
  | user                  -- none of the below
  | stack (np : ℕ)        -- in `allocproc` of `fork`: about to allocate the kernel stack of `np`
  | copy (np : ℕ)         -- in `fork`: about to copy the page table
  | parent (np : ℕ)       -- in `fork`: about to set the parent
  | publish (np : ℕ)      -- in `fork`: about to make `np` runnable
  | exiting               -- in `exit`: closing files
  | waiting               -- in `wait`: has called `sleep`
  | dead                  -- in `exit`: a zombie
  deriving DecidableEq, Repr

inductive Panic
  | initExiting           -- "init exiting"
  deriving DecidableEq, Repr

structure Table where
  proc : ℕ → Proc
  nextpid : ℤ
  place : ℕ → Place
  panic : Option Panic

def int32 (z : ℤ) : ℤ := z.bmod (2 ^ 32)

def Table.set (l : Table) (i : ℕ) (q : Proc) : Table := { l with proc := Function.update l.proc i q }

def Table.move (l : Table) (p : ℕ) (x : Place) : Table := { l with place := Function.update l.place p x }

/-! ### `fork` -/

def findUnused (l : Table) : Option ℕ := (List.range NPROC).find? fun i => decide ((l.proc i).state = .unused)

/-- The locked section of `allocproc`. -/
def allocproc (l : Table) (p : ℕ) : Table × Option ℤ :=
  match findUnused l with
  | none => (l, some (-1))
  | some np =>
    ((({ l with nextpid := int32 (l.nextpid + 1) }.set np
      { l.proc np with state := .embryo, pid := l.nextpid }).move np .user).move p (.stack np), none)

/-- The allocation of the kernel stack in `allocproc`. -/
def kalloc (l : Table) (p np : ℕ) (ok : Bool) : Table × Option ℤ :=
  if ok then ((l.set np { l.proc np with kstack := true }).move p (.copy np), none)
  else ((l.set np { l.proc np with kstack := false, state := .unused }).move p .user, some (-1))

/-- The copy of the page table in `fork`. -/
def copyuvm (l : Table) (p np : ℕ) (ok : Bool) : Table × Option ℤ :=
  if ok then ((l.set np { l.proc np with pgdir := true }).move p (.parent np), none)
  else ((l.set np { l.proc np with pgdir := false, kstack := false, state := .unused }).move p
    .user, some (-1))

def setParent (l : Table) (p np : ℕ) : Table :=
  (l.set np { l.proc np with parent := some p }).move p (.publish np)

/-- The last locked section of `fork`. -/
def publish (l : Table) (p np : ℕ) : Table × Option ℤ :=
  ((l.set np { l.proc np with state := .runnable }).move p .user, some (l.proc np).pid)

/-! ### `sleep` and `wakeup` -/

/-- A process that sleeps on `chan` is made runnable. -/
def wake (chan : Option Chan) (q : Proc) : Proc :=
  if q.state = .sleeping ∧ q.chan = chan then { q with state := .runnable } else q

def wakeup1 (chan : Option Chan) (l : Table) : Table :=
  { l with proc := fun i => if i < NPROC then wake chan (l.proc i) else l.proc i }

/-- The part of `sleep` before `sched`. -/
def sleep (l : Table) (p : ℕ) (chan : Chan) : Table :=
  l.set p { l.proc p with chan := some chan, state := .sleeping }

/-- The part of `sleep` after `sched`. -/
def tidy (l : Table) (p : ℕ) : Table := l.set p { l.proc p with chan := none }

/-! ### `exit`, `wait` and `kill` -/

def exit (l : Table) (p : ℕ) : Table :=
  if p = initproc then { l with panic := some .initExiting } else l.move p .exiting

def adopt (l : Table) (i : ℕ) : Table := l.set i { l.proc i with parent := some initproc }

/-- One round of the loop of `exit` that passes the children of `p` to `initproc`. -/
def passChild (p : ℕ) (l : Table) (i : ℕ) : Table :=
  if (l.proc i).parent = some p then
    if ((adopt l i).proc i).state = .zombie then wakeup1 (some (.proc initproc)) (adopt l i) else adopt l i
  else l

def zombie (l : Table) (p : ℕ) : Table :=
  let l := wakeup1 ((l.proc p).parent.map Chan.proc) l
  let l := (List.range NPROC).foldl (passChild p) l
  (l.set p { l.proc p with state := .zombie }).move p .dead

/-- How a round of the loop of `wait` ends. -/
inductive Found
  | child (i : ℕ)
  | none
  | sleep
  deriving DecidableEq, Repr

/-- The scan of `wait` for an exited child. -/
def scanChildren (l : Table) (p : ℕ) : List ℕ → Bool → Found
  | [], havekids => if !havekids || (l.proc p).killed then .none else .sleep
  | i :: rest, havekids =>
    if (l.proc i).parent ≠ some p then scanChildren l p rest havekids
    else if (l.proc i).state = .zombie then .child i
    else scanChildren l p rest true

def wait (l : Table) (p : ℕ) : Table × Option ℤ :=
  match scanChildren l p (List.range NPROC) false with
  | .child i =>
    ((l.set i { l.proc i with
      kstack := false, pid := 0, parent := none, killed := false, state := .unused }).move p .user,
      some (l.proc i).pid)
  | .none => (l.move p .user, some (-1))
  | .sleep => ((sleep l p (.proc p)).move p .waiting, none)

def kill (l : Table) (pid : ℤ) : Table × Option ℤ :=
  match (List.range NPROC).find? fun i => decide ((l.proc i).pid = pid) with
  | none => (l, some (-1))
  | some i =>
    (l.set i { l.proc i with
      killed := true, state := if (l.proc i).state = .sleeping then .runnable else (l.proc i).state }, some 0)

/-! ### Operations -/

inductive Op
  | alloc
  | kalloc (ok : Bool)
  | copyuvm (ok : Bool)
  | setParent
  | publish
  | exit
  | zombie
  | wait
  | kill (pid : ℤ)
  | fault                 -- an exception in user space
  | yield
  | sleep (n : ℕ)
  | tidy
  | wakeup (n : ℕ)
  | dispatch              -- the scheduler chooses the process
  deriving DecidableEq, Repr

/-- Process `p` performs an operation, if it has come to the place for it; with what its system call
returns. -/
def exec (l : Table) (p : ℕ) (op : Op) : Option (Table × Option ℤ) :=
  match op, l.place p with
  | .alloc, .user => some (allocproc l p)
  | .kalloc ok, .stack np => some (kalloc l p np ok)
  | .copyuvm ok, .copy np => some (copyuvm l p np ok)
  | .setParent, .parent np => some (setParent l p np, none)
  | .publish, .publish np => some (publish l p np)
  | .exit, .user => some (exit l p, none)
  | .zombie, .exiting => some (zombie l p, none)
  | .wait, .user => some (wait l p)
  | .wait, .waiting => some (wait l p)
  | .kill pid, .user => some (kill l pid)
  | .fault, .user => some (l.set p { l.proc p with killed := true }, none)
  | .yield, _ => some (l.set p { l.proc p with state := .runnable }, none)
  | .sleep n, .user => some (sleep l p (.other n), none)
  | .sleep n, .exiting => some (sleep l p (.other n), none)
  | .tidy, _ => some (tidy l p, none)
  | .wakeup n, _ => some (wakeup1 (some (.other n)) l, none)
  | .dispatch, _ => some (l.set p { l.proc p with state := .running }, none)
  | _, _ => none

inductive Does (l : Table) (p : ℕ) : Op → Table → Option ℤ → Prop
  | alloc (h : l.place p = .user) : Does l p .alloc (allocproc l p).1 (allocproc l p).2
  | kalloc {np : ℕ} (ok : Bool) (h : l.place p = .stack np) :
    Does l p (.kalloc ok) (Ptable.kalloc l p np ok).1 (Ptable.kalloc l p np ok).2
  | copyuvm {np : ℕ} (ok : Bool) (h : l.place p = .copy np) :
    Does l p (.copyuvm ok) (Ptable.copyuvm l p np ok).1 (Ptable.copyuvm l p np ok).2
  | setParent {np : ℕ} (h : l.place p = .parent np) : Does l p .setParent (Ptable.setParent l p np) none
  | publish {np : ℕ} (h : l.place p = .publish np) :
    Does l p .publish (Ptable.publish l p np).1 (Ptable.publish l p np).2
  | exit (h : l.place p = .user) : Does l p .exit (Ptable.exit l p) none
  | zombie (h : l.place p = .exiting) : Does l p .zombie (Ptable.zombie l p) none
  | wait (h : l.place p = .user ∨ l.place p = .waiting) :
      Does l p .wait (Ptable.wait l p).1 (Ptable.wait l p).2
  | kill (pid : ℤ) (h : l.place p = .user) : Does l p (.kill pid) (Ptable.kill l pid).1 (Ptable.kill l pid).2
  | fault (h : l.place p = .user) : Does l p .fault (l.set p { l.proc p with killed := true }) none
  | yield : Does l p .yield (l.set p { l.proc p with state := .runnable }) none
  | sleep (n : ℕ) (h : l.place p = .user ∨ l.place p = .exiting) :
      Does l p (.sleep n) (Ptable.sleep l p (.other n)) none
  | tidy : Does l p .tidy (Ptable.tidy l p) none
  | wakeup (n : ℕ) : Does l p (.wakeup n) (wakeup1 (some (.other n)) l) none
  | dispatch : Does l p .dispatch (l.set p { l.proc p with state := .running }) none

theorem does_of_exec {l : Table} {p : ℕ} {op : Op} {x : Table × Option ℤ} (h : exec l p op = some x) :
    Does l p op x.1 x.2 := by
  unfold exec at h
  split at h <;> cases h
  · exact .alloc ‹_›
  · exact .kalloc _ ‹_›
  · exact .copyuvm _ ‹_›
  · exact .setParent ‹_›
  · exact .publish ‹_›
  · exact .exit ‹_›
  · exact .zombie ‹_›
  · exact .wait (Or.inl ‹_›)
  · exact .wait (Or.inr ‹_›)
  · exact .kill _ ‹_›
  · exact .fault ‹_›
  · exact .yield
  · exact .sleep _ (Or.inl ‹_›)
  · exact .sleep _ (Or.inr ‹_›)
  · exact .tidy
  · exact .wakeup _
  · exact .dispatch

/-- The table when the first process has been made. -/
def booted : Table where
  proc := fun i =>
    if i = initproc then ⟨.runnable, 1, none, none, false, true, true⟩
      else ⟨.unused, 0, none, none, false, false, false⟩
  nextpid := 2
  place := fun _ => .user
  panic := none

/-! ### What the operations do to a slot -/

variable {l : Table} {p i np : ℕ}

@[simp] theorem Table.set_proc (q : Proc) : (l.set i q).proc = Function.update l.proc i q := rfl
@[simp] theorem Table.set_place (q : Proc) : (l.set i q).place = l.place := rfl
@[simp] theorem Table.set_nextpid (q : Proc) : (l.set i q).nextpid = l.nextpid := rfl
@[simp] theorem Table.move_proc (x : Place) : (l.move p x).proc = l.proc := rfl
@[simp] theorem Table.move_place (x : Place) : (l.move p x).place = Function.update l.place p x := rfl
@[simp] theorem Table.move_nextpid (x : Place) : (l.move p x).nextpid = l.nextpid := rfl

theorem findUnused_some (h : findUnused l = some np) : np < NPROC ∧ (l.proc np).state = .unused := by
  have hmem := List.mem_of_find?_eq_some h
  have hstate := List.find?_some h
  exact ⟨List.mem_range.mp hmem, of_decide_eq_true hstate⟩

theorem wake_eq (chan : Option Chan) (q : Proc) :
    wake chan q = { q with state := if q.state = .sleeping ∧ q.chan = chan then .runnable else q.state } := by
  rw [wake]
  split_ifs <;> rfl

theorem scanChildren_spec (l : Table) (p : ℕ) (xs : List ℕ) (havekids : Bool) :
    match scanChildren l p xs havekids with
    | .child i => i ∈ xs ∧ (l.proc i).parent = some p ∧ (l.proc i).state = .zombie
    | .none => (havekids = false ∧ ∀ i ∈ xs, (l.proc i).parent ≠ some p) ∨ (l.proc p).killed = true
    | .sleep => ∀ i ∈ xs, (l.proc i).parent = some p → (l.proc i).state ≠ .zombie := by
  induction xs generalizing havekids with
  | nil =>
    rw [scanChildren]
    cases havekids <;> cases hk : (l.proc p).killed <;> simp
  | cons i rest ih =>
    rw [scanChildren]
    by_cases hparent : (l.proc i).parent = some p
    · rw [if_neg (not_not.mpr hparent)]
      by_cases hz : (l.proc i).state = .zombie
      · rw [if_pos hz]
        exact ⟨List.mem_cons_self, hparent, hz⟩
      · rw [if_neg hz]
        have := ih true
        cases hscan : scanChildren l p rest true with
        | child j =>
          rw [hscan] at this
          exact ⟨List.mem_cons_of_mem i this.1, this.2⟩
        | none =>
          rw [hscan] at this
          exact Or.inr (this.resolve_left fun h => by cases h.1)
        | sleep =>
          rw [hscan] at this
          intro j hj hjp
          rcases List.mem_cons.mp hj with rfl | hj
          · exact hz
          · exact this j hj hjp
    · rw [if_pos hparent]
      have := ih havekids
      cases hscan : scanChildren l p rest havekids with
      | child j =>
        rw [hscan] at this
        exact ⟨List.mem_cons_of_mem i this.1, this.2⟩
      | none =>
        rw [hscan] at this
        rcases this with ⟨h1, h2⟩ | h
        · refine Or.inl ⟨h1, fun j hj => ?_⟩
          rcases List.mem_cons.mp hj with rfl | hj
          · exact hparent
          · exact h2 j hj
        · exact Or.inr h
      | sleep =>
        rw [hscan] at this
        intro j hj hjp
        rcases List.mem_cons.mp hj with rfl | hj
        · exact absurd hjp hparent
        · exact this j hj hjp

end Xv6e.Process.Ptable
