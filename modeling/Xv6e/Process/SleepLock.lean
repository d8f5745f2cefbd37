import Xv6e.Library.MonitorSleep

/-!
# Sleep-locks

`acquiresleep`, `releasesleep` and `holdingsleep`, statement by statement, for any number of processes with
pids of their own.  The inner spin-lock is the lock of a monitor, `sleep(lk, &lk->lk)` and `wakeup(lk)` are
those of the monitor, and a process may be killed while it sleeps.  Any process may call `acquiresleep` and
`holdingsleep` at any time, one that has the lock too; only a process that has it calls `releasesleep`.

With the lock the model keeps the process that set `locked`.

* `exec`, `start`, `code` — the statements and the calls;
* `holds` — the process is between its return from `acquiresleep` and its call of `releasesleep`; `owns` — it
  is between the assignments `locked = 1` and `locked = 0`;
* `sleeplock_safe` — at most one process holds the lock, `locked` and `pid` say which one owns it, and nobody
  sleeps without need; `locked_without_holder` — `locked` is 1 before `acquiresleep` returns.
-/

namespace Xv6e.Process.SleepLock

open Library.Transition Library.Monitor

/-- `struct sleeplock` without its inner lock, and the process that set `locked`. -/
structure Sleeplock (P : Type) where
  locked : Bool
  pid : ℕ
  owner : Option P

/-- The next statement of a call; `mine` says that the caller had the lock when it called. -/
inductive Pc
  | test (mine : Bool)      -- `acquiresleep`: `while (lk->locked)`
  | setLocked               -- `lk->locked = 1`
  | setPid                  -- `lk->pid = myproc()->pid`
  | acquired                -- `release(&lk->lk)`
  | clear                   -- `releasesleep`: `lk->locked = 0`
  | clearPid                -- `lk->pid = 0`
  | wake                    -- `wakeup(lk)`
  | released                -- `release(&lk->lk)`
  | query (mine : Bool)     -- `holdingsleep`: `r = lk->locked && (lk->pid == myproc()->pid)`
  | answer (mine r : Bool)  -- `release(&lk->lk)`, `return r`
  deriving DecidableEq, Repr

inductive Ret
  | acquired
  | released
  | answer (mine r : Bool)
  deriving DecidableEq, Repr

variable {P : Type} (pid : P → ℕ)

/-- What a statement of process `p` does. -/
def exec (p : P) (k : Pc) (_ : Bool) (d : Sleeplock P) : Outcome (Sleeplock P) Unit Pc Ret :=
  match k with
  | .test mine => if d.locked then .sleep () (.test mine) else .goto d .setLocked
  | .setLocked => .goto { d with locked := true, owner := some p } .setPid
  | .setPid => .goto { d with pid := pid p } .acquired
  | .acquired => .ret d .acquired
  | .clear => .goto { d with locked := false, owner := none } .clearPid
  | .clearPid => .goto { d with pid := 0 } .wake
  | .wake => .wakeup () .released
  | .released => .ret d .released
  | .query mine => .goto d (.answer mine (d.locked && decide (d.pid = pid p)))
  | .answer mine r => .ret d (.answer mine r)

/-! ### Who has the lock -/

/-- The caller has returned from `acquiresleep` and not yet called `releasesleep`. -/
def Pc.holds : Pc → Bool
  | .test mine => mine
  | .query mine => mine
  | .answer mine _ => mine
  | _ => false

/-- The caller has set `locked` and not yet cleared it. -/
def Pc.owns : Pc → Bool
  | .setPid => true
  | .acquired => true
  | .clear => true
  | k => k.holds

def Ret.holds : Ret → Bool
  | .acquired => true
  | .released => false
  | .answer mine _ => mine

/-- A process between its return from `acquiresleep` and its call of `releasesleep`. -/
def holds : Thread Unit Pc Ret → Bool
  | .idle => false
  | .done r => r.holds
  | x => x.pc.elim false Pc.holds

/-- A process between the assignments `locked = 1` and `locked = 0`. -/
def owns : Thread Unit Pc Ret → Bool
  | .idle => false
  | .done r => r.holds
  | x => x.pc.elim false Pc.owns

/-- Calls: only a process that holds the lock releases it. -/
def start (s : State P (Sleeplock P) Unit Pc Ret) (p : P) : Pc → Option (Sleeplock P)
  | .test mine => if mine = holds (s.thread p) then some s.data else none
  | .clear => if holds (s.thread p) then some s.data else none
  | .query mine => if mine = holds (s.thread p) then some s.data else none
  | _ => none

def code : Code P (Sleeplock P) Unit Pc Ret Empty where
  exec := exec pid
  start := start
  env _ _ := none
  same := false

def Boot (d : Sleeplock P) : Prop := d.locked = false ∧ d.pid = 0 ∧ d.owner = none

/-- Processes that use one sleep-lock. -/
def locks [DecidableEq P] : System (State P (Sleeplock P) Unit Pc Ret) (Event P Pc Empty) :=
  system (code pid) Boot

variable {pid : P → ℕ} {s t : State P (Sleeplock P) Unit Pc Ret} {e : Event P Pc Empty}
  {es : List (Event P Pc Empty)} {p : P} {d d' : Sleeplock P}

variable {x : Thread Unit Pc Ret}

theorem owns_of_isOut (h : x.isOut = true) : owns x = holds x := by
  cases x <;> first | rfl | cases h

theorem owns_of_holds (h : holds x = true) : owns x = true := by
  have hpc : ∀ k : Pc, k.holds = true → k.owns = true :=
    fun k hk => by cases k <;> first | exact hk | cases hk
  cases x <;> first | exact h | exact hpc _ h

@[simp]
theorem owns_wake (c : Unit) (x : Thread Unit Pc Ret) : owns (x.wake c) = owns x := by
  cases x with
  | asleep c' k =>
    rw [Thread.wake]
    split_ifs <;> rfl
  | _ => rfl

@[simp]
theorem owns_rouse (x : Thread Unit Pc Ret) : owns x.rouse = owns x := by cases x <;> rfl

theorem done_of_wake {c : Unit} {r : Ret} (h : x.wake c = .done r) : x = .done r := by
  cases x with
  | asleep c' k =>
    rw [Thread.wake] at h
    split_ifs at h
  | _ => exact h

theorem done_of_rouse {r : Ret} (h : x.rouse = .done r) : x = .done r := by
  cases x with
  | asleep c k => cases h
  | _ => exact h

theorem start_some {k : Pc} (h : start s p k = some d) : d = s.data ∧ k.owns = holds (s.thread p) := by
  cases k with
  | test mine =>
    obtain ⟨hm, hd⟩ := Option.ite_none_right_eq_some.mp h
    exact ⟨(Option.some.inj hd).symm, hm⟩
  | clear =>
    obtain ⟨hm, hd⟩ := Option.ite_none_right_eq_some.mp h
    exact ⟨(Option.some.inj hd).symm, hm.symm⟩
  | query mine =>
    obtain ⟨hm, hd⟩ := Option.ite_none_right_eq_some.mp h
    exact ⟨(Option.some.inj hd).symm, hm⟩
  | _ => cases h

/-! ### The data -/

/-- `locked` says that the lock has an owner, and `pid` which one. -/
structure Good (pid : P → ℕ) (d : Sleeplock P) : Prop where
  locked : d.locked = true ↔ d.owner.isSome
  pid : ∀ p, d.owner = some p → d.pid = pid p

def Here (pid : P → ℕ) (p : P) (k : Pc) (d : Sleeplock P) : Prop :=
  match k with
  | .setLocked => d.locked = false ∧ d.owner = none
  | .setPid => d.locked = true ∧ d.owner = some p
  | .clearPid => d.locked = false ∧ d.owner = none
  | .answer _ r => Good pid d ∧ (r = true ↔ d.owner = some p)
  | _ => Good pid d

theorem Good.unowned (h : Good pid d) (hl : d.locked = false) : d.owner = none := by
  rw [← Option.not_isSome_iff_eq_none, ← h.locked, hl]
  exact Bool.false_ne_true

theorem good_of_unowned (hl : d.locked = false) (ho : d.owner = none) : Good pid d :=
  ⟨by rw [hl, ho]; rfl, fun p hp => by rw [ho] at hp; cases hp⟩

theorem Good.query (hpid : Function.Injective pid) (h : Good pid d) :
    (d.locked && decide (d.pid = pid p)) = true ↔ d.owner = some p := by
  rw [Bool.and_eq_true, decide_eq_true_iff, h.locked, Option.isSome_iff_exists]
  constructor
  · rintro ⟨⟨q, hq⟩, hp⟩
    rw [hq, hpid ((h.pid q hq).symm.trans hp)]
  · intro ho
    exact ⟨⟨p, ho⟩, h.pid p ho⟩

/-- The first statement of a call, and the one after `sleep`. -/
def Pc.entry : Pc → Bool
  | .test _ => true
  | .clear => true
  | .query _ => true
  | _ => false

/-- What a statement does, case by case. -/
inductive Does (pid : P → ℕ) (p : P) (d : Sleeplock P) : Pc → Outcome (Sleeplock P) Unit Pc Ret → Prop
  | sleep {mine : Bool} (hl : d.locked = true) : Does pid p d (.test mine) (.sleep () (.test mine))
  | free {mine : Bool} (hl : d.locked = false) : Does pid p d (.test mine) (.goto d .setLocked)
  | setLocked : Does pid p d .setLocked (.goto { d with locked := true, owner := some p } .setPid)
  | setPid : Does pid p d .setPid (.goto { d with pid := pid p } .acquired)
  | acquired : Does pid p d .acquired (.ret d .acquired)
  | clear : Does pid p d .clear (.goto { d with locked := false, owner := none } .clearPid)
  | clearPid : Does pid p d .clearPid (.goto { d with pid := 0 } .wake)
  | wake : Does pid p d .wake (.wakeup () .released)
  | released : Does pid p d .released (.ret d .released)
  | query {mine : Bool} :
      Does pid p d (.query mine) (.goto d (.answer mine (d.locked && decide (d.pid = pid p))))
  | answer {mine r : Bool} : Does pid p d (.answer mine r) (.ret d (.answer mine r))

theorem does_exec {k : Pc} {b : Bool} {o : Outcome (Sleeplock P) Unit Pc Ret}
    (h : (code pid).exec p k b d = o) :
    Does pid p d k o := by
  replace h : exec pid p k b d = o := h
  subst h
  cases k with
  | test mine =>
    rw [exec]
    split_ifs with hl
    · exact .sleep hl
    · exact .free (Bool.eq_false_of_not_eq_true hl)
  | _ => constructor

theorem lockProof (hpid : Function.Injective pid) : Proof (code pid) Boot (Good pid)
    (fun _ _ => True) (Here pid) (fun _ k _ => k.entry = true) (fun _ _ _ => True) where
  boot d hd := good_of_unowned hd.1 hd.2.2
  enter p k d hI hA := by
    cases k <;> first | exact hI | cases hA
  goto p k b d d' k' hH hx := by
    refine ⟨?_, ⟨fun _ _ _ h => h, fun _ _ _ h => h⟩⟩
    cases does_exec hx with
    | free hl => exact ⟨hl, Good.unowned hH hl⟩
    | setLocked => exact ⟨rfl, rfl⟩
    | setPid =>
      obtain ⟨hl, ho⟩ := hH
      refine ⟨by rw [hl, ho]; rfl, fun q hq => ?_⟩
      rw [show d.owner = some q from hq] at ho
      rw [Option.some.inj ho]
    | clear => exact ⟨rfl, rfl⟩
    | clearPid => exact good_of_unowned hH.1 hH.2
    | query => exact ⟨hH, hH.query hpid⟩
  wakeup p k b d c k' hH hx := by
    cases does_exec hx with
    | wake => exact hH
  sleep p k b d c k' hH hx := by
    cases does_exec hx with
    | sleep hl => exact ⟨hH, rfl, trivial⟩
  ret p k b d d' r hH hx := by
    refine ⟨?_, trivial, ?_⟩
    · cases does_exec hx with
      | acquired => exact hH
      | released => exact hH
      | answer => exact hH.1
    · cases does_exec hx <;> exact Frame.refl ..
  start s p k d ha _ hs := by
    have hk : k.entry = true := by cases k <;> first | rfl | cases hs
    obtain ⟨rfl, _⟩ := start_some hs
    exact ⟨hk, id, fun q _ => ha.thread q⟩
  env _ e _ _ := e.elim

/-! ### Sleepers -/

/-- The code from a statement on wakes whoever sleeps on the lock. -/
def Owes (k : Pc) (_ : Unit) : Prop := k = .clearPid ∨ k = .wake

/-- **A process sleeps on a lock that is taken**, or that is about to be announced free. -/
theorem waitProof : WaitProof (code pid) (fun _ _ _ => True) (fun _ => True)
    (fun _ d => d.locked = true) Owes where
  same := rfl
  goto _ s p k d k' c _ _ _ hx _ hor := by
    cases does_exec hx with
    | free hl => exact Or.inl (hor.resolve_right fun ho => by rcases ho with ho | ho <;> cases ho)
    | setLocked => exact Or.inl rfl
    | setPid => exact Or.inl (hor.resolve_right fun ho => by rcases ho with ho | ho <;> cases ho)
    | clear => exact Or.inr (Or.inl rfl)
    | clearPid => exact Or.inr (Or.inr rfl)
    | query => exact Or.inl (hor.resolve_right fun ho => by rcases ho with ho | ho <;> cases ho)
  wakeup _ s p k c' k' c _ _ _ hx _ _ := Or.inr (Or.inl rfl)
  sleep _ s p k c' k' _ _ _ hx := by
    cases does_exec hx with
    | sleep hl => exact ⟨hl, fun _ _ _ => hl⟩
  ret _ s p k d r c _ _ _ hx _ hor := by
    cases does_exec hx <;> exact hor.resolve_right fun ho => by rcases ho with ho | ho <;> cases ho
  start s p k d c _ hs hr := by
    obtain ⟨rfl, _⟩ := start_some hs
    exact hr
  env _ e _ _ _ := e.elim

/-! ### Owners -/

variable [DecidableEq P]

/-- The data name the process that owns the lock, and `holdingsleep` has returned whether its caller holds
it. -/
structure Owners (s : State P (Sleeplock P) Unit Pc Ret) : Prop where
  owner : ∀ p, owns (s.thread p) = true ↔ s.data.owner = some p
  answer : ∀ p mine r, s.thread p = .done (.answer mine r) → r = mine

theorem Owners.move (h : Owners s) (hd : t.data.owner = s.data.owner)
    (ht : t.thread = Function.update s.thread p x) (hx : owns x = owns (s.thread p))
    (hans : ∀ mine r, x = .done (.answer mine r) → r = mine) : Owners t := by
  refine ⟨fun q => ?_, fun q mine r hq => ?_⟩
  · rw [ht, hd]
    exact holds_update h.owner (by rw [hx]; exact h.owner p) (fun _ _ => Iff.rfl) q
  · rw [ht] at hq
    obtain ⟨hqp, hq⟩ | ⟨hqp, hq⟩ := update_cases hq
    · exact hans mine r hq
    · exact h.answer q mine r hq

theorem Owners.pass (h : Owners s) (ht : t.thread = Function.update s.thread p x)
    (hs : s.data.owner = none ∨ s.data.owner = some p) (hd : t.data.owner = none ∨ t.data.owner = some p)
    (hx : owns x = true ↔ t.data.owner = some p) (hans : ∀ r, x ≠ .done r) : Owners t := by
  refine ⟨fun q => ?_, fun q mine r hq => ?_⟩
  · rw [ht]
    exact holds_update h.owner hx (other_iff hs hd) q
  · rw [ht] at hq
    obtain ⟨hqp, hq⟩ | ⟨hqp, hq⟩ := update_cases hq
    · exact absurd hq (hans _)
    · exact h.answer q mine r hq

theorem Owners.step (h : Owners s)
    (ha : Asserted (Good pid) (fun _ _ => True) (Here pid) (fun _ k _ => k.entry = true)
      (fun _ _ _ => True) s) (hstep : Step (code pid) s e t) : Owners t := by
  have here : ∀ {p : P} {k : Pc}, s.thread p = .run k → Here pid p k s.data := fun {p _} hk => by
    have := ha.thread p
    rwa [hk] at this
  cases hstep with
  | start hout hs =>
    obtain ⟨rfl, hk⟩ := start_some hs
    exact h.move rfl rfl (hk.trans (owns_of_isOut hout).symm) fun _ _ hc => by cases hc
  | enter ht hfree => exact h.move rfl rfl (by rw [ht]; rfl) fun _ _ hc => by cases hc
  | @goto p k k' d ht hx =>
    have hk := here ht
    cases does_exec hx with
    | free hl =>
      -- the lock is free, so the caller has not got it
      refine h.move rfl rfl ?_ fun _ _ hc => by cases hc
      have hno : owns (s.thread p) ≠ true := fun hown => by
        rw [h.owner p, Good.unowned hk hl] at hown
        cases hown
      exact (Bool.eq_false_of_not_eq_true hno).symm
    | setLocked =>
      exact h.pass rfl (Or.inl hk.2) (Or.inr rfl) ⟨fun _ => rfl, fun _ => rfl⟩ fun _ hc => by cases hc
    | setPid => exact h.move rfl rfl (by rw [ht]; rfl) fun _ _ hc => by cases hc
    | clear =>
      have hown : s.data.owner = some p := (h.owner p).mp (by rw [ht]; rfl)
      exact h.pass rfl (Or.inr hown) (Or.inl rfl) ⟨fun hc => (by cases hc), fun hc => (by cases hc)⟩
        fun _ hc => by cases hc
    | clearPid => exact h.move rfl rfl (by rw [ht]; rfl) fun _ _ hc => by cases hc
    | query => exact h.move rfl rfl (by rw [ht]; rfl) fun _ _ hc => by cases hc
  | wakeup ht hx =>
    cases does_exec hx with
    | wake => exact h.move rfl rfl (by rw [ht]; rfl) fun _ _ hc => by cases hc
  | sleep ht hx hsame =>
    cases does_exec hx with
    | sleep hl => exact h.move rfl rfl (by rw [ht]; rfl) fun _ _ hc => by cases hc
  | sleepSame ht hx hsame => cases hsame
  | @ret p k d r ht hx =>
    have hk := here ht
    cases does_exec hx with
    | acquired => exact h.move rfl rfl (by rw [ht]; rfl) fun _ _ hc => by cases hc
    | released => exact h.move rfl rfl (by rw [ht]; rfl) fun _ _ hc => by cases hc
    | @answer mine r =>
      refine h.move rfl rfl (by rw [ht]; rfl) fun mine' r' hc => ?_
      cases hc
      have hmine : mine = true ↔ s.data.owner = some p := by
        have := h.owner p
        rwa [ht] at this
      exact Bool.eq_iff_iff.mpr (hk.2.trans hmine.symm)
  | @wake p c k ht hfree =>
    have hwoken : Owners { s with thread := fun q => (s.thread q).wake c } := by
      refine ⟨fun q => ?_, fun q mine r hq => h.answer q mine r (done_of_wake hq)⟩
      show owns ((s.thread q).wake c) = true ↔ _
      rw [owns_wake]
      exact h.owner q
    refine hwoken.move rfl rfl ?_ fun _ _ hc => by cases hc
    show _ = owns ((s.thread p).wake c)
    rw [owns_wake, ht]
    rfl
  | sleepAcquire ht hfree => exact h.move rfl rfl (by rw [ht]; rfl) fun _ _ hc => by cases hc
  | sleepRelease ht => exact h.move rfl rfl (by rw [ht]; rfl) fun _ _ hc => by cases hc
  | setSleeping ht => exact h.move rfl rfl (by rw [ht]; rfl) fun _ _ hc => by cases hc
  | resume ht hsame hfree => exact h.move rfl rfl (by rw [ht]; rfl) fun _ _ hc => by cases hc
  | resumeSame ht hsame hfree => cases hsame
  | @kill p hfree hlock =>
    exact h.move rfl rfl (owns_rouse _) fun mine r hc => h.answer p mine r (done_of_rouse hc)
  | @env e d he => exact e.elim

/-! ### The sleep-lock -/

/-- The process is `SLEEPING` on the lock. -/
def Sleeping (s : State P (Sleeplock P) Unit Pc Ret) (p : P) : Prop := ∃ k, s.thread p = .asleep () k

structure Safe (pid : P → ℕ) (s : State P (Sleeplock P) Unit Pc Ret) : Prop where
  /-- At most one process is between its return from `acquiresleep` and its call of `releasesleep`. -/
  one : ∀ p q, holds (s.thread p) = true → holds (s.thread q) = true → p = q
  /-- The lock is taken exactly while a process is between its `locked = 1` and its `locked = 0`. -/
  locked : s.data.locked = true ↔ ∃ p, owns (s.thread p) = true
  /-- While the inner lock is free, such a process has returned from `acquiresleep`, and has not called
  `releasesleep` or has not got to `locked = 0` there. -/
  free : s.lock = none →
    (s.data.locked = true ↔ ∃ p, holds (s.thread p) = true ∨ (s.thread p).pc = some .clear)
  /-- Its pid is in the lock from the assignment on. -/
  pid : ∀ p, owns (s.thread p) = true → (s.thread p).pc ≠ some .setPid → s.data.pid = pid p
  /-- `holdingsleep` returns whether its caller holds the lock. -/
  answer : ∀ p mine r, s.thread p = .done (.answer mine r) → r = mine
  /-- Nobody is asleep while the lock and the inner lock are free. -/
  awake : s.lock = none → s.data.locked = false → ∀ p, ¬ Sleeping s p

theorem owners_run (hpid : Function.Injective pid) (hr : Reach (locks pid) es s) : Owners s := by
  induction hr with
  | init h0 =>
    obtain ⟨⟨_, _, howner⟩, _, _, hidle⟩ := h0
    refine ⟨fun p => ?_, fun p mine r hp => ?_⟩
    · rw [hidle p, howner]
      exact ⟨fun hc => (by cases hc), fun hc => (by cases hc)⟩
    · rw [hidle p] at hp
      cases hp
  | step e hr hc hs ih => exact ih.step ((lockProof hpid).run hr) (step_of_next hs)

/-- Outside the sections of the inner lock a process owns the sleep-lock only if it holds it or is going to
clear it. -/
theorem holds_or_clear (hx : ∀ k, x.pc = some k → k.entry = true) (h : owns x = true) :
    holds x = true ∨ x.pc = some .clear := by
  have hpc : ∀ k : Pc, k.entry = true → k.owns = true → k.holds = true ∨ k = .clear := fun k hk ho => by
    cases k <;> first | exact Or.inl ho | exact Or.inr rfl | cases hk
  cases x <;> first | exact Or.inl h | exact (hpc _ (hx _ rfl) h).imp id (congrArg some)

theorem owns_of_clear (h : x.pc = some .clear) : owns x = true := by
  cases x <;> cases h <;> rfl

/-- **Sleep-locks exclude and do not strand.** -/
theorem sleeplock_safe (hpid : Function.Injective pid) (hr : Reach (locks pid) es s) : Safe pid s := by
  have ha := (lockProof hpid).run hr
  have ho := owners_run hpid hr
  have hw : Waits (fun _ d => d.locked = true) Owes s :=
    waitProof.run (fun _ _ hr => ⟨((lockProof hpid).run hr).locks, trivial⟩) hr
  have hsome : s.data.locked = true ↔ s.data.owner.isSome := by
    refine ha.always (K := fun d => d.locked = true ↔ d.owner.isSome)
      (fun _ hI => hI.locked) fun p k d hH => ?_
    cases k <;> first | exact hH.locked | exact hH.1.locked | (rw [hH.1, hH.2]; rfl)
  have hlocked : s.data.locked = true ↔ ∃ p, owns (s.thread p) = true := by
    simp only [hsome, Option.isSome_iff_exists, ho.owner]
  refine ⟨fun p q hp hq => ?_, hlocked, fun hfree => ?_, fun p hp hpc => ?_, ho.answer,
    fun hfree hno p hp => ?_⟩
  · have hp' := (ho.owner p).mp (owns_of_holds hp)
    rw [(ho.owner q).mp (owns_of_holds hq)] at hp'
    exact (Option.some.inj hp').symm
  · rw [hlocked]
    refine exists_congr fun p => ⟨fun hown => ?_, fun hor => hor.elim owns_of_holds owns_of_clear⟩
    have hlock := ha.locks.free hfree p
    refine holds_or_clear (fun k hk => ?_) hown
    have hp := ha.thread p
    cases hx : s.thread p <;> rw [hx] at hp hk hlock <;> cases hk <;>
      first | exact hp | exact hp.1 | cases hlock
  · have hown := (ho.owner p).mp hp
    cases hlock : s.lock with
    | none => exact (ha.data hlock).pid p hown
    | some q =>
      -- the holder of the inner lock is at a statement at which the data are in order, or at one of its own
      have hq := ha.thread q
      have hheld := (ha.locks.lock q).mpr hlock
      have hhere : ∀ k, (s.thread q).pc = some k → Here pid q k s.data → s.data.pid = pid p :=
          fun k hk hH => by
        cases k with
        | setLocked =>
          rw [hH.2] at hown
          cases hown
        | setPid =>
          rw [hH.2] at hown
          rw [Option.some.inj hown] at hk
          exact absurd hk hpc
        | clearPid =>
          rw [hH.2] at hown
          cases hown
        | answer mine r => exact hH.1.pid p hown
        | _ => exact hH.pid p hown
      cases hx : s.thread q <;> rw [hx] at hq hheld hhere <;>
        first | exact hhere _ rfl hq | exact hq.1.pid p hown | cases hheld
  · obtain ⟨k, hk⟩ := hp
    have hwait : Waiting s () := ⟨p, by rw [hk]; rfl⟩
    rw [hw.free hfree hwait] at hno
    cases hno

/-- Two processes before they use the lock. -/
def unused : State (Fin 2) (Sleeplock (Fin 2)) Unit Pc Ret :=
  ⟨⟨false, 0, none⟩, none, none, fun _ => .idle, fun _ => false⟩

theorem unused_init : (locks (P := Fin 2) fun p => p.val + 1).init unused :=
  ⟨⟨rfl, rfl, rfl⟩, rfl, rfl, fun _ => rfl⟩

theorem succ_injective : Function.Injective fun p : Fin 2 => p.val + 1 := fun _ _ h => Fin.ext
    (Nat.succ.inj h)

/-- Process 0 takes the lock, process 1 goes to sleep on it, process 0 releases it. -/
def handOver : List (Event (Fin 2) Pc Empty) :=
  [.start 0 (.test false), .step 0, .step 0, .step 0, .step 0, .step 0,
    .start 1 (.test false), .step 1, .step 1, .step 1, .step 1, .step 1,
    .start 0 .clear, .step 0, .step 0, .step 0, .step 0, .step 0, .step 0]

/-- The lock after it has been handed over: it is free, and process 1 is awake. -/
theorem sleeplock_safe_handOver : ∃ s, Reach (locks (P := Fin 2) fun p => p.val + 1) handOver s
    ∧ s.lock = none ∧ s.data.locked = false ∧ s.thread 1 = .runnable (.test false)
    ∧ Safe (fun p => p.val + 1) s := by
  obtain ⟨s, hr, hs⟩ := exists_runIf_of_map (S := locks (P := Fin 2) fun p => p.val + 1)
    (C := fun _ _ _ => True)
    (f := fun s => decide (s.lock = none ∧ s.data.locked = false ∧ s.thread 1 = .runnable (.test false)))
    (y := true) handOver unused_init (by decide +kernel)
  obtain ⟨hlock, hfree, hawake⟩ := of_decide_eq_true hs
  exact ⟨s, hr, hlock, hfree, hawake, sleeplock_safe succ_injective hr⟩

/-- **`locked` is 1 before `acquiresleep` returns**: then no process is between its `acquiresleep` and its
`releasesleep`. -/
theorem locked_without_holder : ∃ es s, Reach (locks (P := Fin 2) fun p => p.val + 1) es s
    ∧ s.data.locked = true ∧ ∀ p, holds (s.thread p) = false := by
  obtain ⟨s, hr, hs⟩ := exists_runIf_of_map (S := locks (P := Fin 2) fun p => p.val + 1)
    (C := fun _ _ _ => True)
    (f := fun s => decide (s.data.locked = true ∧ ∀ p, holds (s.thread p) = false)) (y := true)
    [.start 0 (.test false), .step 0, .step 0, .step 0] unused_init (by decide +kernel)
  exact ⟨_, s, hr, of_decide_eq_true hs⟩

end Xv6e.Process.SleepLock
