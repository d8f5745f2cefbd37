import Xv6e.Params
import Xv6e.Library.Transition
import Xv6e.Log.Commit

/-!
# The group-commit protocol: `begin_op`, `log_write`, `end_op`

Any number of processes run FS system calls.  Each section of `log.c` that holds `log.lock` is one atomic
step, as is the unlocked capacity check of `log_write` and the unlocked call of `commit()`; everything else
interleaves.  A process is at one of seven places (`Pc`), and an `Event` names the process and the section
it executes:

* `enter` — `begin_op()` is called; the process is about to take `log.lock`;
* `grant`, `sleep` — one round of the loop of `begin_op`, by the outcome of its tests;
* `check`, `append` — the two halves of `log_write(b)`;
* `endOp` — the first locked section of `end_op`, which sets `committing` for the last operation;
* `commit`, `finish` — `commit()` and the second locked section of `end_op`;
* `kill` — a sleeping process is made runnable from outside, as `kill()` does.

A panic freezes the kernel, so a state with `panic` set has no further step.  `lh` is the list of the live
entries `block[0..n)`; how many there can be is the subject of `Xv6e.Log.Reservation`.
-/

namespace Xv6e.Log.Protocol

open Library.Transition Commit

inductive Panic
  | tooBig          -- "too big a transaction"
  | outsideTrans    -- "log_write outside of trans"
  | logCommitting   -- "log.committing"
  deriving DecidableEq, Repr

inductive Pc
  | idle                  -- outside the log's functions, no operation open
  | begin                 -- in the loop of `begin_op`, runnable
  | asleep                -- in `begin_op`, `SLEEPING` on `&log`
  | inOp                  -- between `begin_op` and `end_op`
  | appending (b : ℕ)     -- in `log_write(b)`, past the checks
  | doCommit              -- in `end_op` with `do_commit = 1`
  | committed             -- in `end_op`, `commit()` has returned
  deriving DecidableEq, Repr

inductive Event (P : Type)
  | enter (p : P)
  | grant (p : P)
  | sleep (p : P)
  | check (p : P) (b : ℕ)
  | append (p : P) (b : ℕ)
  | endOp (p : P)
  | commit (p : P)
  | finish (p : P)
  | kill (p : P)
  deriving DecidableEq, Repr

/-- `struct log` without its place on the disk, and the processes. -/
structure State (P : Type) where
  outstanding : ℤ
  committing : Bool
  lh : Header
  pc : P → Pc
  panic : Option Panic

variable {P : Type} [DecidableEq P]

/-- `begin_op` has to wait: a commit is running, or this operation might exhaust the log space. -/
def State.mustWait (s : State P) : Prop :=
  s.committing = true ∨ (s.lh.length : ℤ) + (s.outstanding + 1) * MAXOPBLOCKS > LOGSIZE

instance (s : State P) : Decidable s.mustWait := by unfold State.mustWait; infer_instance

def State.move (s : State P) (p : P) (c : Pc) : State P := { s with pc := Function.update s.pc p c }

def State.fail (s : State P) (m : Panic) : State P := { s with panic := some m }

def State.wakeup (s : State P) : State P :=
  { s with pc := fun q => if s.pc q = .asleep then .begin else s.pc q }

/-- One round of the loop in `begin_op`. -/
def beginOp (s : State P) (p : P) : State P :=
  if s.mustWait then s.move p .asleep
  else { s with outstanding := s.outstanding + 1 }.move p .inOp

/-- The checks of `log_write`, made without `log.lock`. -/
def logWriteCheck (log : LogArea) (s : State P) (p : P) (b : ℕ) : State P :=
  if (s.lh.length : ℤ) ≥ LOGSIZE ∨ (s.lh.length : ℤ) ≥ (log.size : ℤ) - 1 then s.fail .tooBig
  else if s.outstanding < 1 then s.fail .outsideTrans
  else s.move p (.appending b)

/-- The locked section of `log_write`: absorb the block or append it. -/
def logWriteAppend (s : State P) (p : P) (b : ℕ) : State P :=
  if b ∈ s.lh then s.move p .inOp
  else { s with lh := s.lh ++ [b] }.move p .inOp

/-- The first locked section of `end_op`. -/
def endOp (s : State P) (p : P) : State P :=
  let s' := { s with outstanding := s.outstanding - 1 }
  if s'.committing = true then s'.fail .logCommitting
  else if s'.outstanding = 0 then { s' with committing := true }.move p .doCommit
  else (s'.move p .idle).wakeup

/-- The second locked section of `end_op`. -/
def endCommit (s : State P) (p : P) : State P :=
  ({ s with committing := false }.move p .idle).wakeup

/-- One step of one process.  `commit()` ends with `log.lh.n = 0`. -/
def step (log : LogArea) (s : State P) (e : Event P) : Option (State P) :=
  if s.panic ≠ none then none else
  match e with
  | .enter p => if s.pc p = .idle then some (s.move p .begin) else none
  | .grant p => if s.pc p = .begin ∧ ¬ s.mustWait then some (beginOp s p) else none
  | .sleep p => if s.pc p = .begin ∧ s.mustWait then some (beginOp s p) else none
  | .check p b => if s.pc p = .inOp then some (logWriteCheck log s p b) else none
  | .append p b => if s.pc p = .appending b then some (logWriteAppend s p b) else none
  | .endOp p => if s.pc p = .inOp then some (endOp s p) else none
  | .commit p => if s.pc p = .doCommit then some ({ s with lh := [] }.move p .committed) else none
  | .finish p => if s.pc p = .committed then some (endCommit s p) else none
  | .kill p => if s.pc p = .asleep then some (s.move p .begin) else none

/-- After `initlog`: recovery has left `lh.n = 0`. -/
def initial : State P := ⟨0, false, [], fun _ => .idle, none⟩

def system (log : LogArea) (P : Type) [DecidableEq P] : System (State P) (Event P) where
  init s := s = initial
  step := step log

/-! ### Small facts about the state updates -/

/-- The process is between `begin_op` and `end_op`. -/
def Pc.inOperation : Pc → Bool
  | .inOp => true
  | .appending _ => true
  | _ => false

/-- The process is the one that runs `commit()`. -/
def Pc.isCommitter : Pc → Bool
  | .doCommit => true
  | .committed => true
  | _ => false

@[simp] theorem move_pc (s : State P) (p q : P) (c : Pc) :
    (s.move p c).pc q = if q = p then c else s.pc q := by
  simp only [State.move, Function.update_apply]

omit [DecidableEq P] in
@[simp] theorem wakeup_pc (s : State P) (q : P) :
    s.wakeup.pc q = if s.pc q = .asleep then .begin else s.pc q := rfl

omit [DecidableEq P] in
theorem wakeup_inOperation (s : State P) (q : P) :
    (s.wakeup.pc q).inOperation = (s.pc q).inOperation := by
  rw [wakeup_pc]
  split
  · rename_i h
    rw [h]
    rfl
  · rfl

omit [DecidableEq P] in
theorem wakeup_isCommitter (s : State P) (q : P) :
    (s.wakeup.pc q).isCommitter = (s.pc q).isCommitter := by
  rw [wakeup_pc]
  split
  · rename_i h
    rw [h]
    rfl
  · rfl

omit [DecidableEq P] in
theorem wakeup_ne_asleep (s : State P) (q : P) : s.wakeup.pc q ≠ .asleep := by
  rw [wakeup_pc]
  split
  · simp
  · assumption

/-! ### What a run has logged -/

/-- The blocks `log_write` has recorded since the last commit. -/
def logged (es : List (Event P)) : Finset ℕ :=
  es.foldl (fun acc e => match e with
    | .append _ b => insert b acc
    | .commit _ => ∅
    | _ => acc) ∅

omit [DecidableEq P] in
theorem logged_snoc (es : List (Event P)) (e : Event P) :
    logged (es ++ [e]) = match e with
      | .append _ b => insert b (logged es)
      | .commit _ => ∅
      | _ => logged es := by
  rw [logged, List.foldl_append]
  cases e <;> rfl

end Xv6e.Log.Protocol
