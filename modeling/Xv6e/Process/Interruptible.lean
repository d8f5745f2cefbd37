import Xv6e.Process.Kill
import Xv6e.Files.PipeRuns
import Xv6e.Device.ConsoleRuns

/-!
# Interruptible waits

The waits that give up when their process is killed: `piperead`, `pipewrite`, `consoleread`, `sys_sleep` and
`wait`.  Each tests `killed` and then goes to sleep.  The first four hold a lock of their own at the test, and
`kill` takes only `ptable.lock`: so it can come after the test and before `sleep` has taken `ptable.lock`, and
then finds nobody to wake.  `wait` holds `ptable.lock` from the test until it sleeps.

* `Ticks.code` — `sys_sleep` and the timer interrupt;
* `pastPipe`, `pastConsole`, `Ticks.past` — the statements after the test;
* `WaitsAlive`, `waitsAlive_run` — `wait`, in runs of the machine of `Xv6e.Process.Machine`;
* `killed_not_asleep` — the result; `killed_while_sleeping` — the run in which `kill` comes too early.
-/

namespace Xv6e.Process.Interruptible

open Library.Transition Library.Monitor

/-! ### `sys_sleep` -/

namespace Ticks

/-- The one channel, the address of `ticks`. -/
inductive Chan
  | ticks
  deriving DecidableEq, Repr

/-- The next statement of `sys_sleep` or of the timer interrupt. -/
inductive Pc
  | begin (n : BitVec 32)             -- `ticks0 = ticks`
  | test (n ticks0 : BitVec 32)       -- `while(ticks - ticks0 < n)`
  | check (n ticks0 : BitVec 32)      -- `if(myproc()->killed)`
  | tick                              -- `ticks++`
  | tickWake                          -- `wakeup(&ticks)`
  | tickDone                          -- `release(&tickslock)`
  deriving DecidableEq, Repr

/-- What a statement does; the data are `ticks`. -/
def exec {P : Type} (_ : P) (k : Pc) (killed : Bool) (ticks : BitVec 32) : Outcome (BitVec 32) Chan Pc ℤ :=
  match k with
  | .begin n => .goto ticks (.test n ticks)
  | .test n ticks0 => if ticks - ticks0 < n then .goto ticks (.check n ticks0) else .ret ticks 0
  | .check n ticks0 => if killed then .ret ticks (-1) else .sleep .ticks (.test n ticks0)
  | .tick => .goto (ticks + 1) .tickWake
  | .tickWake => .wakeup .ticks .tickDone
  | .tickDone => .ret ticks 0

/-- The monitor of the clock; its lock is `tickslock`. -/
def code {P : Type} : Code P (BitVec 32) Chan Pc ℤ Empty where
  exec := exec
  start := fun s _ k =>
    match k with
    | .begin _ => some s.data
    | .tick => some s.data
    | _ => none
  env := fun _ e => nomatch e
  same := false

/-- No statement is between the test and `sleep`. -/
def past : Pc → Bool := fun _ => false

end Ticks

/-! ### After the test -/

/-- The statements of `pipewrite` between the test of `killed` and `sleep`. -/
def pastPipe : Files.Pipes.Pc → Bool
  | .writeSleep _ _ => true
  | _ => false

/-- `consoleread` calls `sleep` right after its test. -/
def pastConsole : Device.Console.Pc → Bool := fun _ => false

theorem killProof_pipe {P : Type} [DecidableEq P] [Fintype P] :
    KillProof (Files.Pipes.code (P := P)) pastPipe where
  goto := fun p k b d d' k' hx hpast => by
    cases Files.Pipes.does_exec hx <;> cases hpast
  wakeup := fun p k b d c k' hx hpast => by
    cases Files.Pipes.does_exec hx with
    | wakeReaders hopen halive => exact Or.inl halive
    | written => cases hpast
    | copied hend => cases hpast
    | closeWake => cases hpast
  sleep := fun p k b d c k' hx => by
    cases Files.Pipes.does_exec hx with
    | writeSleep => exact ⟨Or.inr rfl, rfl⟩
    | readSleep halive => exact ⟨Or.inl halive, rfl⟩
  start := fun s p k d hs => by
    replace hs : Files.Pipes.start s p k = some d := hs
    cases k with
    | writeSleep all rest => cases hs
    | _ => rfl

theorem killProof_console {P : Type} [DecidableEq P] :
    KillProof (Device.Console.code (P := P)) pastConsole where
  goto := fun p k b d d' k' hx hpast => by cases hpast
  wakeup := fun p k b d c k' hx hpast => by cases hpast
  sleep := fun p k b d c k' hx => by
    cases Device.Console.does_exec hx with
    | sleep halive => exact ⟨Or.inl halive, rfl⟩
  start := fun s p k d hs => rfl

theorem killProof_ticks {P : Type} : KillProof (Ticks.code (P := P)) Ticks.past where
  goto := fun p k b d d' k' hx hpast => by cases hpast
  wakeup := fun p k b d c k' hx hpast => by cases hpast
  sleep := fun p k b d c k' hx => by
    replace hx : Ticks.exec p k b d = .sleep c k' := hx
    cases k with
    | check n ticks0 =>
      cases b with
      | true => cases hx
      | false => exact ⟨Or.inl rfl, rfl⟩
    | test n ticks0 =>
      rw [Ticks.exec] at hx
      split_ifs at hx
    | _ => cases hx
  start := fun s p k d hs => rfl

/-! ### `wait` -/

section Wait

open Ptable Lifecycle Machine Dispatch TableSteps

variable {l l' : Table} {p : ℕ} {op : Op} {r : Option ℤ}

/-- A process that sleeps in `wait` has not been killed. -/
def WaitsAlive (l : Table) : Prop :=
  ∀ i, l.place i = .waiting → (l.proc i).state = .sleeping → (l.proc i).killed = false

/-- `wait` goes to sleep only after it has found `killed` clear. -/
theorem scanChildren_sleep {xs : List ℕ} {havekids : Bool} (h : scanChildren l p xs havekids = .sleep) :
    (l.proc p).killed = false := by
  induction xs generalizing havekids with
  | nil =>
    rw [scanChildren] at h
    split_ifs at h with hstop
    rw [Bool.or_eq_true, not_or, Bool.not_eq_true, Bool.not_eq_true] at hstop
    exact hstop.2
  | cons i rest ih =>
    rw [scanChildren] at h
    split_ifs at h
    · exact ih h
    · exact ih h

theorem WaitsAlive.set (h : WaitsAlive l) {np : ℕ} {q : Proc}
    (hq : l.place np = .waiting → q.state = .sleeping → q.killed = false) : WaitsAlive (l.set np q) := by
  intro i hplace hstate
  rw [Table.set_proc] at hstate ⊢
  by_cases hi : i = np
  · rw [hi, Function.update_self] at hstate ⊢
    exact hq (hi ▸ hplace) hstate
  · rw [Function.update_of_ne hi] at hstate ⊢
    exact h i hplace hstate

theorem WaitsAlive.move (h : WaitsAlive l) (p : ℕ) {x : Place} (hx : x ≠ .waiting) :
    WaitsAlive (l.move p x) := by
  intro i hplace hstate
  rw [Table.move_place] at hplace
  obtain ⟨hi, hplace⟩ | ⟨hi, hplace⟩ := update_cases hplace
  · exact absurd hplace hx
  · exact h i hplace hstate

theorem WaitsAlive.woken (h : WaitsAlive l) (hw : Woken l l') : WaitsAlive l' := by
  intro i hplace hstate
  rw [hw.place] at hplace
  rw [(hw.slot i).2.2]
  rcases hw.state i with hs | ⟨_, hs⟩
  · exact h i hplace (hs ▸ hstate)
  · rw [hs] at hstate
    cases hstate

/-- **The operations on the table** leave nobody asleep in `wait` who has been killed. -/
theorem WaitsAlive.does (h : WaitsAlive l) (hok : Ok l) (hdoes : Does l p op l' r) : WaitsAlive l' := by
  have same : ∀ {np : ℕ} {q : Proc}, q.state = (l.proc np).state → q.killed = (l.proc np).killed →
      WaitsAlive (l.set np q) := fun {np q} hs hk => h.set fun hplace hstate => hk ▸ h np hplace (hs ▸ hstate)
  have awake : ∀ {np : ℕ} {q : Proc}, q.state ≠ .sleeping → WaitsAlive (l.set np q) :=
    fun hs => h.set fun _ hstate => absurd hstate hs
  cases hdoes with
  | alloc hplace =>
    rw [allocproc]
    cases hfind : findUnused l with
    | none => exact h
    | some np =>
      have hset : WaitsAlive ({ l with nextpid := int32 (l.nextpid + 1) }.set np
          { l.proc np with state := .embryo, pid := l.nextpid }) :=
        WaitsAlive.set (l := { l with nextpid := int32 (l.nextpid + 1) }) h fun _ hs => by cases hs
      exact (hset.move np (by simp)).move p (by simp)
  | @kalloc np ok hplace =>
    rw [kalloc]
    split_ifs
    · refine WaitsAlive.move (same ?_ ?_) p fun hx => ?_
      · rfl
      · rfl
      · cases hx
    · exact (awake (by simp)).move p (by simp)
  | @copyuvm np ok hplace =>
    rw [copyuvm]
    split_ifs
    · refine WaitsAlive.move (same ?_ ?_) p fun hx => ?_
      · rfl
      · rfl
      · cases hx
    · exact (awake (by simp)).move p (by simp)
  | setParent hplace =>
    refine WaitsAlive.move (same ?_ ?_) p fun hx => ?_
    · rfl
    · rfl
    · cases hx
  | publish hplace => exact (awake (by simp)).move p (by simp)
  | exit hplace =>
    rw [Ptable.exit]
    split_ifs
    · exact h
    · exact h.move p (by simp)
  | zombie hplace =>
    obtain ⟨l₂, hl, hw, _⟩ := zombie_spec hok fun hpi => hok.init.2.2 (hpi ▸ hplace)
    rw [hl]
    exact ((h.woken hw).set fun _ hs => by cases hs).move p (by simp)
  | wait hplace =>
    rw [Ptable.wait]
    cases hscan : scanChildren l p (List.range NPROC) false with
    | child i => exact (awake (by simp)).move p (by simp)
    | none => exact h.move p (by simp)
    | sleep =>
      -- the test and the change to `SLEEPING` are in one section
      have hkilled := scanChildren_sleep hscan
      intro i hpi hstate
      by_cases hi : i = p
      · rw [hi, Table.move_proc, Ptable.sleep, Table.set_proc, Function.update_self]
        exact hkilled
      · rw [Table.move_place, Function.update_of_ne hi] at hpi
        rw [Table.move_proc, Ptable.sleep, Table.set_proc, Function.update_of_ne hi] at hstate ⊢
        exact h i hpi hstate
  | kill pid hplace =>
    rcases kill_spec l pid with ⟨j, _, _, hkill⟩ | ⟨_, hkill⟩
    · rw [hkill]
      refine awake fun hs => ?_
      by_cases hj : (l.proc j).state = .sleeping
      · simp only [hj, if_true, reduceCtorEq] at hs
      · simp only [hj, if_false] at hs
    · rw [hkill]
      exact h
  | fault hplace =>
    refine h.set fun hwait => ?_
    rw [hplace] at hwait
    cases hwait
  | yield => exact awake (by simp)
  | sleep n hplace =>
    refine h.set fun hwait => ?_
    rcases hplace with hplace | hplace <;> rw [hplace] at hwait <;> cases hwait
  | tidy => exact same rfl rfl
  | wakeup n => exact h.woken (woken_wakeup1 _ l)
  | dispatch => exact awake (by simp)

theorem waitsAlive_run {es : List Machine.Event} {s : Machine.State} (hr : Reach machine es s) :
    WaitsAlive s.table := by
  have hall : Reach machine es s ∧ WaitsAlive s.table := by
    refine hr.induct (I := fun es s => Reach machine es s ∧ WaitsAlive s.table) ?_ ?_
    · rintro s rfl
      refine ⟨RunIf.init rfl, fun i hplace => ?_⟩
      cases hplace
    · rintro es s e t ⟨hr, h⟩ _ hstep
      refine ⟨RunIf.step e hr trivial hstep, ?_⟩
      rcases table_step (run_inv hr) hstep with htab | ⟨p, op, r, _, _, hdoes⟩
      · rw [htab]
        exact h
      · exact h.does (run_inv hr).ok hdoes
  exact hall.2

end Wait

/-! ### The result -/

/-- No `kill` comes between the target's test of `killed` and the `acquire(&ptable.lock)` of its `sleep`. -/
def KillOutside {P σ χ κ ρ : Type} (past : κ → Bool) (s : Library.Monitor.State P σ χ κ ρ) :
    Library.Monitor.Event P κ Empty → Prop
  | .kill p => (s.thread p).inWindow past = false
  | _ => True

instance {P σ χ κ ρ : Type} (past : κ → Bool) (s : Library.Monitor.State P σ χ κ ρ)
    (e : Library.Monitor.Event P κ Empty) : Decidable (KillOutside past s e) :=
  match e with
  | .kill p => inferInstanceAs (Decidable ((s.thread p).inWindow past = false))
  | .start _ _ => inferInstanceAs (Decidable True)
  | .step _ => inferInstanceAs (Decidable True)
  | .env _ => inferInstanceAs (Decidable True)

/-- A thread that has been killed is not asleep. -/
def KilledAwake {P σ χ κ ρ : Type} (s : Library.Monitor.State P σ χ κ ρ) : Prop :=
  ∀ p c k, s.killed p = true → s.thread p ≠ .asleep c k

theorem killedAwake_of_roused {P σ χ κ ρ : Type} {past : κ → Bool} {s : Library.Monitor.State P σ χ κ ρ}
    (h : Roused past s) :
    KilledAwake s := by
  intro p c k hk hp
  have := h.killed p hk
  rw [hp] at this
  cases this

/-- **A killed process is not left asleep.**  In every run in which no `kill` comes between the target's test
and its `sleep`, a process that has been killed does not sleep in `piperead`, `pipewrite`, `consoleread` or
`sys_sleep`; and it does not sleep in `wait` in any run. -/
theorem killed_not_asleep (P : Type) [DecidableEq P] [Fintype P] :
    (∀ es (s : Library.Monitor.State P (Files.Pipes.Pipe P) Files.Pipes.Chan Files.Pipes.Pc Files.Pipes.Ret),
      RunIf (system Files.Pipes.code Files.Pipes.Fresh) (fun _ s e => KillOutside pastPipe s e) es s
      → KilledAwake s)
    ∧ (∀ es (s : Library.Monitor.State P (Device.Console.Input P) Device.Console.Chan Device.Console.Pc
      Device.Console.Ret),
      RunIf (system Device.Console.code Device.Console.Fresh) (fun _ s e => KillOutside pastConsole s e) es s
        → KilledAwake s)
    ∧ (∀ es (s : Library.Monitor.State P (BitVec 32) Ticks.Chan Ticks.Pc ℤ),
      RunIf (system Ticks.code fun _ => True) (fun _ s e => KillOutside Ticks.past s e) es s → KilledAwake s)
    ∧ ∀ es (s : Machine.State), Reach Machine.machine es s → ∀ i, s.table.place i = .waiting →
      (s.table.proc i).killed = true → (s.table.proc i).state ≠ .sleeping := by
  refine ⟨fun es s hr => ?_, fun es s hr => ?_, fun es s hr => ?_, fun es s hr i hplace hkilled hstate => ?_⟩
  · exact killedAwake_of_roused (killProof_pipe.run (fun _ _ _ hc => hc) hr)
  · exact killedAwake_of_roused (killProof_console.run (fun _ _ _ hc => hc) hr)
  · exact killedAwake_of_roused (killProof_ticks.run (fun _ _ _ hc => hc) hr)
  · rw [waitsAlive_run hr i hplace hstate] at hkilled
    cases hkilled

/-- A reader of an empty pipe goes to sleep and is killed. -/
def killedAsleep : List (Library.Monitor.Event (Fin 1) Files.Pipes.Pc Empty) :=
  [.start 0 (.read 1), .step 0, .step 0, .step 0, .step 0, .step 0, .step 0, .kill 0]

/-- The killed reader is runnable again. -/
theorem killed_not_asleep_reader :
    ∃ s : Library.Monitor.State (Fin 1) (Files.Pipes.Pipe (Fin 1)) Files.Pipes.Chan
    Files.Pipes.Pc Files.Pipes.Ret,
    RunIf (system Files.Pipes.code Files.Pipes.Fresh) (fun _ s e => KillOutside pastPipe s e) killedAsleep s
    ∧ s.killed 0 = true ∧ s.thread 0 = .runnable (.read 1) ∧ KilledAwake s := by
  obtain ⟨s, hr, hs⟩ := exists_runIf_of_map (S := system Files.Pipes.code Files.Pipes.Fresh)
    (C := fun _ s e => KillOutside pastPipe s e) (f := fun s => (s.killed 0, s.thread 0))
    (y := (true, .runnable (.read 1))) killedAsleep Files.PipeRuns.init_newState (by decide)
  rw [Prod.mk.injEq] at hs
  exact ⟨s, hr, hs.1, hs.2, (killed_not_asleep (Fin 1)).1 killedAsleep s hr⟩

/-- A reader of an empty pipe tests `killed`, is killed, and then goes to sleep. -/
def killedAtTest : List (Library.Monitor.Event (Fin 1) Files.Pipes.Pc Empty) :=
  [.start 0 (.read 1), .step 0, .step 0, .step 0, .kill 0, .step 0, .step 0, .step 0]

/-- **A killed process is left asleep**: `kill` has come after the reader's test, and found nobody to wake. -/
theorem killed_while_sleeping :
    ∃ s : Library.Monitor.State (Fin 1) (Files.Pipes.Pipe (Fin 1)) Files.Pipes.Chan Files.Pipes.Pc
    Files.Pipes.Ret, Reach (system Files.Pipes.code Files.Pipes.Fresh) killedAtTest s ∧ s.table = none
    ∧ s.killed 0 = true ∧ s.thread 0 = .asleep .nread (.read 1) := by
  obtain ⟨s, hr, hs⟩ := exists_runIf_of_map (S := system Files.Pipes.code Files.Pipes.Fresh)
    (C := fun _ _ _ => True)
    (f := fun s => (s.table, s.killed 0, s.thread 0))
    (y := (none, true, .asleep .nread (.read 1))) killedAtTest Files.PipeRuns.init_newState (by decide)
  simp only [Prod.mk.injEq] at hs
  exact ⟨s, hr, hs⟩

end Xv6e.Process.Interruptible
