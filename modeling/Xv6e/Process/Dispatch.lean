import Xv6e.Process.Machine

/-!
# A process runs on one CPU

In every state of the machine, a process that is `RUNNING` is the process of one CPU, and a CPU that does not
hold `ptable.lock` executes on the stack of a process that is `RUNNING`, or of its scheduler.  The invariant
is broken for the CPU that holds the lock only: between the change of the state of a process and `swtch`, and
between `swtch` and `switchkvm`, it is on the stack or the page table of a process that is not `RUNNING`.

* `Holds` — whether a CPU holds the lock, by where it is; `CpuOk` — what is on a CPU;
* `Inv` — the invariant of the machine;
* `runs_on_one_cpu` — the result; `checks_pass` — nothing panics.
-/

namespace Xv6e.Process.Dispatch

open Library.Transition Ptable Lifecycle Machine
open Function (update update_self update_of_ne)

def Holds (s : State) (c : ℕ) : Prop :=
  match (s.cpu c).stack with
  | none => match s.sched c with
    | .idle | .irq _ => False
    | _ => True
  | some p => match s.thread p with
    | .run | .acquiring _ => False
    | _ => True

/-- The state of a process that has given up its CPU. -/
def Parked (x : ProcState) : Prop := x = .runnable ∨ x = .sleeping ∨ x = .zombie

def CpuOk (s : State) (c : ℕ) : Prop :=
  match (s.cpu c).stack with
  | none => match s.sched c with
    | .chosen i => (s.cpu c).proc = some i ∧ (s.cpu c).pgdir = some i ∧ (s.table.proc i).state = .running
      ∧ ∃ k, k ≠ .exit ∧ s.thread i = .resumed k
    | .returned i => (s.cpu c).proc = some i ∧ (s.cpu c).pgdir = some i ∧ Parked (s.table.proc i).state
    | _ => (s.cpu c).proc = none ∧ (s.cpu c).pgdir = none
  | some p => (s.cpu c).proc = some p ∧ (s.cpu c).pgdir = some p ∧ s.sched c = .returned p
      ∧ match s.thread p with
    | .switching _ => Parked (s.table.proc p).state
    | .resumed k => (s.table.proc p).state = .running ∧ k ≠ .exit
    | _ => (s.table.proc p).state = .running

/-- The slot `np` of a `fork` at place `x` has a context. -/
def Born (x : Place) (np : ℕ) : Prop := x = .copy np ∨ x = .parent np ∨ x = .publish np

/-- **The invariant of the machine.** -/
structure Inv (s : State) : Prop where
  ok : Ok s.table
  panic : s.panic = none
  lock : ∀ c, s.lock = some c ↔ Holds s c
  cpus : ∀ c, CpuOk s c
  one : ∀ c c' p, (s.cpu c).proc = some p → (s.cpu c').proc = some p → c = c'
  runs : ∀ p, (s.table.proc p).state = .running → ∃ c, (s.cpu c).proc = some p
  /-- A process that can be run again will return from `swtch`. -/
  saved : ∀ p, Alive (s.table.proc p).state → (s.table.proc p).state ≠ .running →
    ∃ k, k ≠ .exit ∧ (s.thread p = .switching k ∨ s.thread p = .resumed k)
  switching : ∀ p k, s.thread p = .switching k → ∃ c, (s.cpu c).stack = some p
  /-- A new process will start in `forkret`. -/
  born : ∀ p np, Born (s.table.place p) np → s.thread np = .resumed .forkret

variable {s t : State} {c p : ℕ} {e : Event}

/-- A scheduler is not about to call `swtch`, or to return from it. -/
def between : SchedPc → Bool
  | .chosen _ | .returned _ => false
  | _ => true

def locks : SchedPc → Bool
  | .idle | .irq _ => false
  | _ => true

/-- A process thread holds the lock there. -/
def threadLocks : Phase → Bool
  | .run | .acquiring _ => false
  | _ => true

/-- The state of the process whose thread a CPU executes. -/
def PhaseOk (x : ProcState) : Phase → Prop
  | .switching _ => Parked x
  | .resumed k => x = .running ∧ k ≠ .exit
  | _ => x = .running

def Elsewhere (s : State) (c q : ℕ) : Prop := ∃ c', c' ≠ c ∧ (s.cpu c').proc = some q

/-! ### One CPU -/

theorem holds_sched (hstack : (s.cpu c).stack = none) : Holds s c ↔ locks (s.sched c) = true := by
  rw [Holds, hstack]
  cases s.sched c <;> simp [locks]

theorem holds_thread (hstack : (s.cpu c).stack = some p) : Holds s c ↔ threadLocks (s.thread p) = true := by
  rw [Holds, hstack]
  simp only
  cases s.thread p <;> simp [threadLocks]

theorem cpuOk_between (hstack : (s.cpu c).stack = none) (hx : between (s.sched c) = true) :
    CpuOk s c ↔ (s.cpu c).proc = none ∧ (s.cpu c).pgdir = none := by
  rw [CpuOk, hstack]
  cases hpc : s.sched c <;> rw [hpc] at hx <;> cases hx

theorem cpuOk_thread (hstack : (s.cpu c).stack = some p) : CpuOk s c ↔ (s.cpu c).proc = some p
    ∧ (s.cpu c).pgdir = some p ∧ s.sched c = .returned p ∧ PhaseOk (s.table.proc p).state (s.thread p) := by
  rw [CpuOk, hstack]
  simp only
  cases s.thread p <;> exact Iff.rfl

theorem not_parked_running : ¬ Parked .running := by
  rintro (h | h | h) <;> cases h

/-- The process of a CPU is running, or the CPU holds the lock and the process has given it up. -/
theorem CpuOk.proc (h : CpuOk s c) (hp : (s.cpu c).proc = some p) :
    (s.table.proc p).state = .running ∨ Holds s c ∧ Parked (s.table.proc p).state := by
  cases hstack : (s.cpu c).stack with
  | none =>
    rw [holds_sched hstack]
    rw [CpuOk, hstack] at h
    cases hsched : s.sched c <;> rw [hsched] at h <;> rw [h.1] at hp <;> cases hp
    · exact Or.inl h.2.2.1
    · exact Or.inr ⟨rfl, h.2.2⟩
  | some q =>
    rw [holds_thread hstack]
    obtain ⟨hproc, _, _, hphase⟩ := (cpuOk_thread hstack).mp h
    rw [hproc] at hp
    cases hp
    cases hthread : s.thread p <;> rw [hthread] at hphase
    case switching => exact Or.inr ⟨rfl, hphase⟩
    case resumed => exact Or.inl hphase.1
    all_goals exact Or.inl hphase

theorem CpuOk.uses (h : CpuOk s c) (hp : (s.cpu c).stack = some p ∨ (s.cpu c).pgdir = some p) :
    (s.cpu c).proc = some p := by
  cases hstack : (s.cpu c).stack with
  | none =>
    rw [CpuOk, hstack] at h
    have hp := hp.resolve_left (by rw [hstack]; exact (Option.some_ne_none p).symm)
    cases hsched : s.sched c <;> rw [hsched] at h
    case chosen => rw [h.1, ← h.2.1, hp]
    case returned => rw [h.1, ← h.2.1, hp]
    all_goals rw [h.2] at hp
    all_goals cases hp
  | some q =>
    obtain ⟨hproc, hpgdir, _⟩ := (cpuOk_thread hstack).mp h
    rcases hp with hp | hp
    · rw [hproc, ← hstack, hp]
    · rw [hproc, ← hpgdir, hp]

theorem CpuOk.frame (h : CpuOk s c) (hcpu : t.cpu c = s.cpu c) (hsched : t.sched c = s.sched c)
    (hthread : ∀ q, (s.cpu c).proc = some q → t.thread q = s.thread q)
    (hrun : ∀ q, (s.cpu c).proc = some q → (s.table.proc q).state = .running
      → (t.table.proc q).state = .running) (hpark : ∀ q, (s.cpu c).proc = some q → Holds s c
      → Parked (s.table.proc q).state → Parked (t.table.proc q).state) :
    CpuOk t c ∧ (Holds t c ↔ Holds s c) := by
  cases hstack : (s.cpu c).stack with
  | none =>
    refine ⟨?_, by rw [holds_sched (by rw [hcpu, hstack]), holds_sched hstack, hsched]⟩
    rw [CpuOk, hstack] at h
    rw [CpuOk, hcpu, hstack, hsched]
    cases hpc : s.sched c <;> rw [hpc] at h
    case chosen i =>
      obtain ⟨h1, h2, h3, k, hk, h4⟩ := h
      exact ⟨h1, h2, hrun i h1 h3, k, hk, by rw [hthread i h1, h4]⟩
    case returned i => exact ⟨h.1, h.2.1, hpark i h.1 ((holds_sched hstack).mpr (by rw [hpc]; rfl)) h.2.2⟩
    all_goals exact h
  | some q =>
    have hstack' : (t.cpu c).stack = some q := by rw [hcpu, hstack]
    obtain ⟨hproc, hpgdir, hret, hphase⟩ := (cpuOk_thread hstack).mp h
    have hth := hthread q hproc
    refine ⟨(cpuOk_thread hstack').mpr ⟨by rw [hcpu, hproc], by rw [hcpu, hpgdir], by rw [hsched, hret], ?_⟩,
      by rw [holds_thread hstack', holds_thread hstack, hth]⟩
    rw [hth]
    cases hpc : s.thread q <;> rw [hpc] at hphase
    case switching k => exact hpark q hproc ((holds_thread hstack).mpr (by rw [hpc]; rfl)) hphase
    case resumed k => exact ⟨hrun q hproc hphase.1, hphase.2⟩
    all_goals exact hrun q hproc hphase

/-! ### Steps -/

/-- **A step of CPU `c`** keeps the invariant, if it does for `c` and does nothing to what is on the other
CPUs. -/
theorem Inv.step (h : Inv s) (c : ℕ) (hok : Ok t.table) (hpanic : t.panic = none)
    (hother : ∀ c', c' ≠ c → t.cpu c' = s.cpu c' ∧ t.sched c' = s.sched c'
      ∧ (t.lock = some c' ↔ s.lock = some c')) (hthread : ∀ q, Elsewhere s c q → t.thread q = s.thread q)
      (hrun : ∀ q, Elsewhere s c q → (s.table.proc q).state = .running → (t.table.proc q).state = .running)
      (hpark : s.lock ≠ some c → ∀ q, Elsewhere s c q → Parked (s.table.proc q).state
        → Parked (t.table.proc q).state) (hown : CpuOk t c) (hlock : t.lock = some c ↔ Holds t c)
        (hone : ∀ q, (t.cpu c).proc = some q → ¬ Elsewhere s c q)
        (hruns : ∀ q, (t.table.proc q).state = .running → (t.cpu c).proc = some q ∨ Elsewhere s c q)
        (hsaved : ∀ q, Alive (t.table.proc q).state → (t.table.proc q).state ≠ .running →
      ∃ k, k ≠ .exit ∧ (t.thread q = .switching k ∨ t.thread q = .resumed k))
    (hswitching : ∀ q k, t.thread q = .switching k → (t.cpu c).stack = some q ∨ ∃ c', c' ≠ c
      ∧ (s.cpu c').stack = some q)
    (hborn : ∀ q np, Born (t.table.place q) np → t.thread np = .resumed .forkret) : Inv t := by
  have hframe : ∀ c', c' ≠ c → CpuOk t c' ∧ (Holds t c' ↔ Holds s c') := fun c' hc' =>
    (h.cpus c').frame (hother c' hc').1 (hother c' hc').2.1 (fun q hq => hthread q ⟨c', hc', hq⟩)
      (fun q hq => hrun q ⟨c', hc', hq⟩) fun q hq hh => hpark (fun hl => hc' (Option.some.inj
        (((h.lock c').mpr hh).symm.trans hl))) q ⟨c', hc', hq⟩
  refine ⟨hok, hpanic, fun c' => ?_, fun c' => ?_, fun c₁ c₂ q h1 h2 => ?_, fun q hq => ?_, hsaved,
    fun q k hk => ?_, hborn⟩
  · by_cases hc' : c' = c
    · rw [hc']
      exact hlock
    · rw [(hother c' hc').2.2, (hframe c' hc').2]
      exact h.lock c'
  · by_cases hc' : c' = c
    · rw [hc']
      exact hown
    · exact (hframe c' hc').1
  · by_cases hc₁ : c₁ = c
    · by_cases hc₂ : c₂ = c
      · rw [hc₁, hc₂]
      · rw [(hother c₂ hc₂).1] at h2
        exact absurd ⟨c₂, hc₂, h2⟩ (hone q (hc₁ ▸ h1))
    · rw [(hother c₁ hc₁).1] at h1
      by_cases hc₂ : c₂ = c
      · exact absurd ⟨c₁, hc₁, h1⟩ (hone q (hc₂ ▸ h2))
      · rw [(hother c₂ hc₂).1] at h2
        exact h.one c₁ c₂ q h1 h2
  · rcases hruns q hq with hq | ⟨c', hc', hq⟩
    · exact ⟨c, hq⟩
    · exact ⟨c', by rw [(hother c' hc').1, hq]⟩
  · rcases hswitching q k hk with hq | ⟨c', hc', hq⟩
    · exact ⟨c, hq⟩
    · exact ⟨c', by rw [(hother c' hc').1, hq]⟩

theorem lock_other {x y : Option ℕ} (hx : x = none ∨ x = some c) (hy : y = none ∨ y = some c) {c' : ℕ}
    (hc' : c' ≠ c) : y = some c' ↔ x = some c' := by
  rcases hx with rfl | rfl <;> rcases hy with rfl | rfl <;> simp [hc'.symm]

theorem Inv.not_elsewhere (h : Inv s) (hp : (s.cpu c).proc = some p) : ¬ Elsewhere s c p := by
  rintro ⟨c', hc', hp'⟩
  exact hc' (h.one c' c p hp' hp)

variable {q np : ℕ}

theorem Inv.running_at (h : Inv s) (c : ℕ) (hq : (s.table.proc q).state = .running) :
    (s.cpu c).proc = some q ∨ Elsewhere s c q := by
  obtain ⟨c', hc'⟩ := h.runs q hq
  by_cases hcc : c' = c
  · exact Or.inl (hcc ▸ hc')
  · exact Or.inr ⟨c', hcc, hc'⟩

theorem Inv.switching_at (h : Inv s) (c : ℕ) {k : Cont} (hq : s.thread q = .switching k) :
    (s.cpu c).stack = some q ∨ ∃ c', c' ≠ c ∧ (s.cpu c').stack = some q := by
  obtain ⟨c', hc'⟩ := h.switching q k hq
  by_cases hcc : c' = c
  · exact Or.inl (hcc ▸ hc')
  · exact Or.inr ⟨c', hcc, hc'⟩

theorem Inv.holds_of_switching (h : Inv s) {k : Cont} (hp : s.thread p = .switching k) :
    ∃ c', (s.cpu c').stack = some p ∧ s.lock = some c' := by
  obtain ⟨c', hc'⟩ := h.switching p k hp
  exact ⟨c', hc', (h.lock c').mpr ((holds_thread hc').mpr (by rw [hp]; rfl))⟩

/-- A step that changes only the lock and the place of a scheduler between two processes. -/
theorem Inv.schedQuiet (h : Inv s) (hstack : (s.cpu c).stack = none)
    (hnone : (s.cpu c).proc = none ∧ (s.cpu c).pgdir = none) {x : SchedPc} {y : Option ℕ}
    (hother : ∀ c', c' ≠ c → (y = some c' ↔ s.lock = some c')) (hx : between x = true)
    (hlock : y = some c ↔ locks x = true) : Inv ({ s with lock := y }.setSched c x) := by
  have hself : ({ s with lock := y }.setSched c x).sched c = x := update_self ..
  have hstack' : (({ s with lock := y }.setSched c x).cpu c).stack = none := hstack
  refine h.step c h.ok h.panic (fun c' hc' => ⟨rfl, update_of_ne hc' .., hother c' hc'⟩) (fun _ _ => rfl)
    (fun _ _ hq => hq) (fun _ _ _ hq => hq) ((cpuOk_between hstack' (by rw [hself, hx])).mpr hnone)
    (by rw [holds_sched hstack', hself]; exact hlock) (fun q hq => ?_) (fun q hq => h.running_at c hq) h.saved
    (fun q k hk => h.switching_at c hk) h.born
  cases hnone.1.symm.trans hq

theorem Inv.schedStep (h : Inv s) (hstack : (s.cpu c).stack = none) (hstep : SchedStep s c e t) : Inv t := by
  have hlock := (h.lock c).trans (holds_sched hstack)
  have hbetween : between (s.sched c) = true → (s.cpu c).proc = none ∧ (s.cpu c).pgdir = none :=
    fun hx => (cpuOk_between hstack hx).mp (h.cpus c)
  have hcpu := h.cpus c
  rw [CpuOk, hstack] at hcpu
  have hsame : ∀ {x : SchedPc} {c'}, c' ≠ c → update s.sched c x c' = s.sched c' :=
    fun hc' => update_of_ne hc' ..
  -- no process switches on this CPU
  have hswitching : ∀ q k, s.thread q = .switching k → ∃ c', c' ≠ c
      ∧ (s.cpu c').stack = some q := fun q k hq =>
    (h.switching_at c hq).resolve_left (by rw [hstack]; exact (Option.some_ne_none q).symm)
  cases hstep with
  | enter hpc hfree =>
    exact h.schedQuiet hstack (hbetween (by rw [hpc]; rfl))
      (fun c' => lock_other (Or.inl hfree) (Or.inr rfl)) rfl (iff_of_true rfl rfl)
  | @pick _ i hpc hi hrun =>
    rw [hpc] at hcpu hlock
    have hheld : s.lock = some c := hlock.mpr rfl
    -- no other CPU has the process: it would run it, or hold the lock
    have hfree : ∀ q, Elsewhere s c q → q ≠ i := by
      rintro q ⟨c', hc', hq⟩ rfl
      rcases (h.cpus c').proc hq with hr | ⟨hh, _⟩
      · rw [hrun] at hr
        cases hr
      · rw [← h.lock c', hheld] at hh
        exact hc' (Option.some.inj hh).symm
    obtain ⟨k, hk, hthread⟩ := h.saved i (hrun ▸ alive_runnable) (by simp [hrun])
    have hthread : s.thread i = .resumed k := hthread.resolve_left fun hsw => by
      obtain ⟨c', hc', hl⟩ := h.holds_of_switching hsw
      rw [hheld] at hl
      rw [← Option.some.inj hl, hstack] at hc'
      cases hc'
    have hstate : ∀ q, q ≠ i → ((s.table.set i { s.table.proc i with state := .running }).proc q)
        = s.table.proc q :=
      fun q hq => update_of_ne hq ..
    have hstatei : ((s.table.set i { s.table.proc i with state := .running }).proc i).state = .running := by
      rw [Table.set_proc, update_self]
    refine h.step c (Ok.does h.ok (show Ready _ i .dispatch from hrun) Does.dispatch) h.panic
      (fun c' hc' => ⟨update_of_ne hc' .., hsame hc', Iff.rfl⟩) (fun _ _ => rfl) (fun q hq hr => ?_)
      (fun hl => absurd hheld hl) ?_ ?_ (fun q hq hq' => ?_) (fun q hq => ?_) (fun q hq hq' => ?_)
      (fun q k hk => Or.inr (hswitching q k hk)) h.born
    · simp only [State.setSched, State.setCpu, hstate q (hfree q hq)]
      exact hr
    · simp only [CpuOk, State.setSched, State.setCpu, update_self]
      exact ⟨trivial, trivial, hstatei, k, hk, hthread⟩
    · simp only [Holds, State.setSched, State.setCpu, update_self, iff_true]
      exact hheld
    · simp only [State.setSched, State.setCpu, update_self, Option.some.injEq] at hq
      exact hfree q hq' hq.symm
    · simp only [State.setSched, State.setCpu, update_self]
      by_cases hqi : q = i
      · exact Or.inl (by rw [hqi])
      · simp only [State.setSched, State.setCpu, hstate q hqi] at hq
        exact Or.inr ((h.running_at c hq).resolve_left (by rw [hcpu.1]; exact (Option.some_ne_none q).symm))
    · have hqi : q ≠ i := fun hqi => hq' (by rw [hqi]; exact hstatei)
      simp only [State.setSched, State.setCpu, hstate q hqi] at hq hq'
      exact h.saved q hq hq'
  | @skip _ i hpc =>
    exact h.schedQuiet hstack (hbetween (by rw [hpc]; rfl)) (fun _ _ => Iff.rfl) rfl
      (iff_of_true (hlock.mpr (by rw [hpc]; rfl)) rfl)
  | leave hpc | irqRelease hpc =>
    exact h.schedQuiet hstack (hbetween (by rw [hpc]; rfl))
      (fun c' => lock_other (Or.inr (hlock.mpr (by rw [hpc]; rfl))) (Or.inl rfl)) rfl
      (iff_of_false (Option.some_ne_none c).symm Bool.noConfusion)
  | @swtchTo _ i hpc =>
    rw [hpc] at hcpu hlock
    obtain ⟨h1, h2, h3, k, hk, hthread⟩ := hcpu
    refine h.step c h.ok h.panic (fun c' hc' => ⟨update_of_ne hc' .., hsame hc', Iff.rfl⟩) (fun _ _ => rfl)
      (fun _ _ hq => hq) (fun _ _ _ hq => hq) ?_ ?_ ?_ ?_ h.saved
      (fun q k hk => Or.inr (hswitching q k hk)) h.born
    · simp only [CpuOk, State.setSched, State.setCpu, update_self, hthread]
      exact ⟨h1, h2, trivial, h3, hk⟩
    · simp only [Holds, State.setSched, State.setCpu, update_self, hthread, iff_true]
      exact hlock.mpr rfl
    · simp only [State.setSched, State.setCpu, update_self]
      exact fun q => h.not_elsewhere
    · simp only [State.setSched, State.setCpu, update_self]
      exact fun q => h.running_at c
  | @back _ i hpc =>
    rw [hpc] at hcpu hlock
    obtain ⟨h1, _, hparked⟩ := hcpu
    refine h.step c h.ok h.panic (fun c' hc' => ⟨update_of_ne hc' .., hsame hc', Iff.rfl⟩) (fun _ _ => rfl)
      (fun _ _ hq => hq) (fun _ _ _ hq => hq) ?_ ?_ (fun q hq => ?_) (fun q hq => ?_) h.saved
      (fun q k hk => Or.inr (hswitching q k hk)) h.born
    · simp only [CpuOk, State.setSched, State.setCpu, update_self]
      exact ⟨trivial, trivial⟩
    · simp only [Holds, State.setSched, State.setCpu, update_self, iff_true]
      exact hlock.mpr rfl
    · simp only [State.setSched, State.setCpu, update_self, reduceCtorEq] at hq
    · -- the process that was on this CPU does not run
      refine Or.inr ((h.running_at c hq).resolve_left fun hc => ?_)
      rw [h1, Option.some.injEq] at hc
      rw [hc, show (s.table.proc q).state = .running from hq] at hparked
      exact not_parked_running hparked
  | irq hpc =>
    exact h.schedQuiet hstack (hbetween (by rw [hpc]; rfl)) (fun _ _ => Iff.rfl) rfl (by rw [hlock, hpc]; rfl)
  | irqAcquire hpc hfree =>
    exact h.schedQuiet hstack (hbetween (by rw [hpc]; rfl))
      (fun c' => lock_other (Or.inl hfree) (Or.inr rfl)) rfl (iff_of_true rfl rfl)
  | @irqBody _ n hpc =>
    have hheld : s.lock = some c := hlock.mpr (by rw [hpc]; rfl)
    have hnone := hbetween (by rw [hpc]; rfl)
    have hw := woken_wakeup1 (some (.other n)) s.table
    have hrun : ∀ q, ((wakeup1 (some (.other n)) s.table).proc q).state = .running
        ↔ (s.table.proc q).state = .running := by
      intro q
      rcases hw.state q with hq | ⟨hq, hq'⟩
      · rw [hq]
      · rw [hq, hq']
        decide
    have hstack' : (({ s with table := wakeup1 (some (.other n)) s.table } : State).cpu c).stack
      = none := hstack
    have h' : Inv { s with table := wakeup1 (some (.other n)) s.table } := by
      refine h.step c (Ok.does h.ok (show Ready _ 0 (.wakeup n) from trivial) (Does.wakeup n)) h.panic
        (fun c' hc' => ⟨rfl, rfl, Iff.rfl⟩) (fun _ _ => rfl) (fun q _ hq => (hrun q).mpr hq)
        (fun hl => absurd hheld hl)
        ((cpuOk_between hstack' (by rw [hpc]; rfl)).mpr hnone) ?_ (fun q => h.not_elsewhere)
        (fun q hq => h.running_at c ((hrun q).mp hq)) (fun q hq hq' => ?_)
        (fun q k hk => h.switching_at c hk) h.born
      · exact hlock.trans (holds_sched hstack').symm
      · exact h.saved q (hw.alive.mp hq) fun hr => hq' ((hrun q).mpr hr)
    exact h'.schedQuiet hstack hnone (fun _ _ => Iff.rfl) rfl (iff_of_true hheld rfl)

/-! ### Steps of processes -/

theorem Born.forking {x : Place} (h : Born x np) : forking x = some np := by
  rcases h with rfl | rfl | rfl <;> rfl

variable {l l' : Table} {r : Option ℤ}

theorem does_born {op : Op} (hdoes : Does l p op l' r) (hb : Born (l'.place p) np) :
    op = .kalloc true ∧ l.place p = .stack np ∨ Born (l.place p) np := by
  have hmove : ∀ {m : Table} {x : Place}, Born ((m.move p x).place p) np → Born x np := fun {m x} hb => by
    rwa [Table.move_place, update_self] at hb
  have hno : ∀ {x : Place}, forking x = none → ¬ Born x np := fun hx hb => by
    rw [hb.forking] at hx
    cases hx
  cases hdoes with
  | alloc hplace =>
    rw [allocproc] at hb
    cases hfind : findUnused l with
    | none =>
      rw [hfind] at hb
      exact Or.inr hb
    | some k =>
      rw [hfind] at hb
      rcases hmove hb with hx | hx | hx <;> cases hx
  | @kalloc k ok hplace =>
    rw [kalloc] at hb
    split_ifs at hb with hok
    · rcases hmove hb with hx | hx | hx
      · cases hx
        exact Or.inl ⟨by rw [hok], hplace⟩
      · cases hx
      · cases hx
    · exact absurd (hmove hb) (hno rfl)
  | @copyuvm k ok hplace =>
    rw [copyuvm] at hb
    split_ifs at hb
    · rcases hmove hb with hx | hx | hx <;> cases hx
      exact Or.inr (Or.inl hplace)
    · exact absurd (hmove hb) (hno rfl)
  | setParent hplace =>
    rcases hmove hb with hx | hx | hx <;> cases hx
    exact Or.inr (Or.inr (Or.inl hplace))
  | publish hplace => exact absurd (hmove hb) (hno rfl)
  | exit hplace =>
    rw [Ptable.exit] at hb
    split_ifs at hb
    · exact Or.inr hb
    · exact absurd (hmove hb) (hno rfl)
  | zombie hplace =>
    rw [Ptable.zombie] at hb
    exact absurd (hmove hb) (hno rfl)
  | wait hplace =>
    rw [Ptable.wait] at hb
    cases hscan : scanChildren l p (List.range NPROC) false <;> rw [hscan] at hb <;>
      exact absurd (hmove hb) (hno rfl)
  | kill pid hplace =>
    rcases kill_spec l pid with ⟨i, _, _, hk⟩ | ⟨_, hk⟩ <;> rw [hk] at hb <;> exact Or.inr hb
  | fault | yield | sleep | tidy | wakeup | dispatch => exact Or.inr hb

/-- Without the lock, a process changes the state of the slot it fills only. -/
theorem shift_unlocked {op : Op} (h : Ok l) (hop : isUnlocked op = true) (hdoes : Does l p op l' r)
    (hq : q ≠ p) : (l'.proc q).state = (l.proc q).state ∨ (l.proc q).state = .embryo := by
  have hturn := h.turn hdoes q
  generalize l'.proc q = y at hturn
  cases hturn with
  | same => exact Or.inl rfl
  | own hqp => exact absurd hqp hq
  | fill _ _ _ hstate => exact Or.inl hstate
  | undo _ hfork _ _ => exact Or.inr (h.forks p q hfork)
  | woken hx => rcases hx with rfl | ⟨n, rfl⟩ <;> cases hop
  | take hx | publish hx | reap hx | kill hx =>
    rw [hx] at hop
    cases hop

/-- How a section ends says in which state it leaves the process. -/
theorem ends_spec (l : Table) (p : ℕ) (a : Action) :
    match ends l p a with
    | some k => Parked (after (l.place p) a.op) ∧ (k = .exit → after (l.place p) a.op = .zombie)
    | none => after (l.place p) a.op = .running := by
  cases a with
  | wait =>
    rw [ends]
    by_cases hw : l.place p = .waiting
    · rw [if_pos hw]
      refine ⟨?_, fun hk => by cases hk⟩
      rw [Action.op, after, if_pos hw]
      exact Or.inr (Or.inl rfl)
    · rw [if_neg hw]
      show after (l.place p) .wait = .running
      rw [after, if_neg hw]
  | zombie => exact ⟨Or.inr (Or.inr rfl), fun _ => rfl⟩
  | yield => exact ⟨Or.inl rfl, fun hk => by cases hk⟩
  | sleep n => exact ⟨Or.inr (Or.inl rfl), fun hk => by cases hk⟩
  | alloc | publish | kill | wakeup => rfl

variable {l' : Table} {op : Op} {r : Option ℤ}

/-- The process on a CPU that executes an operation, and what that does to the others. -/
theorem Inv.does (h : Inv s) (hrun : (s.table.proc p).state = .running)
    (hdoes : Does s.table p op l' r) :
    (∀ q, q ≠ p → ((l'.proc q).state = .running ↔ (s.table.proc q).state = .running))
    ∧ (∀ q, q ≠ p → Alive (l'.proc q).state → (l'.proc q).state ≠ .running →
      ∃ k, k ≠ .exit ∧ (s.thread q = .switching k ∨ s.thread q = .resumed k))
    ∧ (∀ q np, Born (l'.place q) np → np ≠ p ∧ (s.thread np = .resumed .forkret
      ∨ op = .kalloc true ∧ s.table.place p = .stack np)) := by
  refine ⟨fun q hqp => ?_, fun q hqp hq hq' => ?_, fun q np hb => ?_⟩
  · have hshift := h.ok.shift hdoes hqp
    generalize (l'.proc q).state = y at hshift ⊢
    generalize (s.table.proc q).state = x at hshift ⊢
    cases hshift
    case same => exact Iff.rfl
    all_goals exact iff_of_false (by simp) (by simp)
  · have hshift := h.ok.shift hdoes hqp
    have hold := h.saved q
    generalize (l'.proc q).state = y at *
    generalize (s.table.proc q).state = x at *
    cases hshift with
    | same => exact hold hq hq'
    | wake => exact hold (Or.inl rfl) (by simp)
    | take => exact absurd hq not_alive_embryo
    | publish hpub =>
      exact ⟨.forkret, Cont.noConfusion, Or.inr (h.born p q (Or.inr (Or.inr hpub)))⟩
    | undo => exact absurd hq not_alive_unused
    | reap => exact absurd hq not_alive_unused
  · have hnp : ∀ {q}, forking (s.table.place q) = some np → np ≠ p := fun {q} hq hnp => by
      have := h.ok.forks q np hq
      rw [hnp, hrun] at this
      cases this
    by_cases hqp : q = p
    · rw [hqp] at hb
      rcases does_born hdoes hb with ⟨hop, hplace⟩ | hb
      · exact ⟨hnp (by rw [hplace]; rfl), Or.inr ⟨hop, hplace⟩⟩
      · exact ⟨hnp hb.forking, Or.inl (h.born p np hb)⟩
    · rcases does_place hdoes hqp with hsame | ⟨_, huser⟩
      · rw [hsame] at hb
        exact ⟨hnp hb.forking, Or.inl (h.born q np hb)⟩
      · rw [huser] at hb
        rcases hb with hx | hx | hx <;> cases hx

theorem newThread_cases (s : State) (p : ℕ) (op : Op) : newThread s p op = s.thread
      ∧ ¬ (op = .kalloc true ∧ ∃ np, s.table.place p = .stack np)
    ∨ ∃ np, s.table.place p = .stack np ∧ newThread s p op = update s.thread np (.resumed .forkret) := by
  by_cases hop : op = .kalloc true
  · rw [hop, newThread]
    cases hplace : s.table.place p with
    | stack np => exact Or.inr ⟨np, rfl, rfl⟩
    | _ => exact Or.inl ⟨rfl, by rintro ⟨_, np, hnp⟩; cases hnp⟩
  · refine Or.inl ⟨?_, fun hc => hop hc.1⟩
    cases op with
    | kalloc ok =>
      cases ok with
      | false => rfl
      | true => exact absurd rfl hop
    | _ => rfl

theorem Inv.not_embryo (h : Inv s) (hq : (s.cpu c).proc = some q) :
    (s.table.proc q).state ≠ .embryo := fun he => by
  rcases (h.cpus c).proc hq with hr | ⟨_, hr⟩ <;> rw [he] at hr
  · cases hr
  · rcases hr with hx | hx | hx <;> cases hx

/-- **An operation of the process on a CPU** keeps the invariant, if the thread is then where it should be: it
may make the context of an embryo, and without the lock it changes the state of embryos only. -/
theorem Inv.operation (h : Inv s) (hstack : (s.cpu c).stack = some p)
    (hrun : (s.table.proc p).state = .running) (hready : Ready s.table p op) (hdoes : Does s.table p op l' r)
    {th : ℕ → Phase}
    (hth : ∀ q, q ≠ p → th q = s.thread q ∨ th q = .resumed .forkret ∧ (s.table.proc q).state = .embryo)
    (hnew : op = .kalloc true → ∀ np, s.table.place p = .stack np → th np = .resumed .forkret)
    (hphase : PhaseOk (l'.proc p).state (th p))
    (hexit : th p = .switching .exit → (l'.proc p).state = .zombie)
    (hlock : s.lock = some c ↔ threadLocks (th p) = true)
    (hstate : s.lock ≠ some c → ∀ q, q ≠ p → (l'.proc q).state = (s.table.proc q).state
    ∨ (s.table.proc q).state = .embryo) : Inv { s with table := l', thread := th } := by
  obtain ⟨hproc, hpgdir, hsched, _⟩ := (cpuOk_thread hstack).mp (h.cpus c)
  obtain ⟨hruns, hsaved, hborn⟩ := h.does hrun hdoes
  have hstack' : (({ s with table := l', thread := th } : State).cpu c).stack = some p := hstack
  have hother : ∀ q, Elsewhere s c q → q ≠ p ∧ (s.table.proc q).state ≠ .embryo := by
    rintro q ⟨c', hc', hq⟩
    exact ⟨fun hqp => hc' (h.one c' c p (hqp ▸ hq) hproc), h.not_embryo hq⟩
  refine h.step c (h.ok.does hready hdoes) h.panic (fun c' hc' => ⟨rfl, rfl, Iff.rfl⟩)
    (fun q hq => (hth q (hother q hq).1).resolve_right fun hx => (hother q hq).2 hx.2)
    (fun q hq hr => (hruns q (hother q hq).1).mpr hr) (fun hl q hq hpark => ?_)
    ((cpuOk_thread hstack').mpr ⟨hproc, hpgdir, hsched, hphase⟩) (hlock.trans (holds_thread hstack').symm)
    (fun q => h.not_elsewhere) (fun q hq => ?_) (fun q hq hq' => ?_) (fun q k hk => ?_) (fun q np hb => ?_)
  · show Parked (l'.proc q).state
    rw [(hstate hl q (hother q hq).1).resolve_right (hother q hq).2]
    exact hpark
  · by_cases hqp : q = p
    · exact Or.inl (by rw [hqp]; exact hproc)
    · exact h.running_at c ((hruns q hqp).mp hq)
  · by_cases hqp : q = p
    · -- the process has given up the CPU
      subst hqp
      show ∃ k, k ≠ .exit ∧ (th q = .switching k ∨ th q = .resumed k)
      cases hpc : th q <;> rw [hpc] at hphase hexit
      case switching k =>
        refine ⟨k, fun hk => ?_, Or.inl rfl⟩
        rw [hk] at hexit
        exact not_alive_zombie (hexit rfl ▸ hq)
      case resumed k => exact absurd hphase.1 hq'
      all_goals exact absurd hphase hq'
    · rcases hth q hqp with hs | ⟨hs, _⟩
      · simp only [hs]
        exact hsaved q hqp hq hq'
      · exact ⟨.forkret, Cont.noConfusion, Or.inr hs⟩
  · by_cases hqp : q = p
    · exact Or.inl (by rw [hqp]; exact hstack)
    · rcases hth q hqp with hs | ⟨hs, _⟩
      · exact h.switching_at c (hs.symm.trans hk)
      · cases hs.symm.trans hk
  · obtain ⟨hnp, hb | ⟨hop, hplace⟩⟩ := hborn q np hb
    · rcases hth np hnp with hs | ⟨hs, _⟩
      · exact hs.trans hb
      · exact hs
    · exact hnew hop np hplace

theorem Inv.procStep (h : Inv s) (hstack : (s.cpu c).stack = some p)
    (hstep : ProcStep s c p e t) : Inv t := by
  obtain ⟨hproc, hpgdir, hsched, hphase⟩ := (cpuOk_thread hstack).mp (h.cpus c)
  have hlock := (h.lock c).trans (holds_thread hstack)
  have hsame : ∀ {x : Phase} q, Elsewhere s c q → update s.thread p x q = s.thread q := fun q hq =>
    update_of_ne (fun hqp : q = p => h.not_elsewhere hproc (hqp ▸ hq)) ..
  have hborn : ∀ {x : Phase} q np, Born (s.table.place q) np → update s.thread p x np = .resumed .forkret :=
    fun q np hb => by
      have hnp : np ≠ p := fun hnp => h.not_embryo hproc (hnp ▸ h.ok.forks q np hb.forking)
      rw [update_of_ne hnp]
      exact h.born q np hb
  -- the steps that change only the lock and the thread of the process, which keeps running
  have hquiet : ∀ {x : Phase} {y : Option ℕ}, (s.table.proc p).state = .running →
      (∀ c', c' ≠ c → (y = some c' ↔ s.lock = some c')) → PhaseOk .running x
      → (y = some c ↔ threadLocks x = true) →
      Inv ({ s with lock := y }.setThread p x) := fun {x y} hrun hy hx hl => by
    have hself : ({ s with lock := y }.setThread p x).thread p = x := update_self ..
    have hstack' : (({ s with lock := y }.setThread p x).cpu c).stack = some p := hstack
    refine h.step c h.ok h.panic (fun c' hc' => ⟨rfl, rfl, hy c' hc'⟩) hsame (fun _ _ hq => hq)
      (fun _ _ _ hq => hq)
      ((cpuOk_thread hstack').mpr ⟨hproc, hpgdir, hsched, by rw [hself]; exact hrun.symm ▸ hx⟩)
      (by rw [holds_thread hstack', hself]; exact hl) (fun q => h.not_elsewhere)
      (fun q hq => h.running_at c hq) (fun q hq hq' => ?_) (fun q k hk => ?_) hborn
    · have hqp : q ≠ p := fun hqp => hq' (show (s.table.proc q).state = .running by rw [hqp, hrun])
      simp only [State.setThread, update_of_ne hqp]
      exact h.saved q hq hq'
    · by_cases hqp : q = p
      · exact Or.inl (by rw [hqp]; exact hstack)
      · simp only [State.setThread, update_of_ne hqp] at hk
        exact h.switching_at c hk
  have hkeep : ∀ {x : Phase} q, q ≠ p → update s.thread p x q = s.thread q
      ∨ update s.thread p x q = .resumed .forkret ∧ (s.table.proc q).state = .embryo :=
    fun q hq => Or.inl (update_of_ne hq ..)
  cases hstep with
  | call hpc =>
    rw [hpc] at hphase hlock
    exact hquiet (y := s.lock) hphase (fun _ _ => Iff.rfl) rfl hlock
  | acquire hpc hfree =>
    rw [hpc] at hphase
    exact hquiet hphase (fun c' hc' => lock_other (Or.inl hfree) (Or.inr rfl) hc') rfl (iff_of_true rfl rfl)
  | @body _ a x hpc hex =>
    rw [hpc] at hphase hlock
    have hdoes := does_of_exec hex
    have hready : Ready s.table p a.op := by cases a <;> first | exact hphase | trivial
    have hself := h.ok.self hphase hdoes
    have hends := ends_spec x.1 p a
    rw [← hself] at hends
    refine h.operation hstack hphase hready hdoes hkeep (fun hop => by cases a <;> cases hop) ?_ ?_ ?_
      (fun hl => absurd (hlock.mpr rfl) hl) <;> rw [update_self, afterBody] <;> cases hk : ends x.1 p a <;>
      rw [hk] at hends
    · exact hends
    · exact hends.1
    · simp
    · exact fun hx => hends.2 (Phase.switching.inj hx)
    · exact hlock
    · exact hlock
  | @swtch _ k hpc =>
    rw [hpc] at hphase hlock
    have hparked : Parked (s.table.proc p).state := hphase
    refine h.step c h.ok h.panic (fun c' hc' => ⟨update_of_ne hc' .., rfl, Iff.rfl⟩) hsame (fun _ _ hq => hq)
      (fun _ _ _ hq => hq) ?_ ?_ ?_ ?_ (fun q hq hq' => ?_) (fun q k' hk => ?_) hborn
    · simp only [CpuOk, State.setThread, State.setCpu, update_self, hsched]
      exact ⟨hproc, hpgdir, hparked⟩
    · simp only [Holds, State.setThread, State.setCpu, update_self, hsched, iff_true]
      exact hlock.mpr rfl
    · simp only [State.setThread, State.setCpu, update_self]
      exact fun q => h.not_elsewhere
    · simp only [State.setThread, State.setCpu, update_self]
      exact fun q => h.running_at c
    · obtain ⟨k', hk', hth⟩ := h.saved q hq hq'
      by_cases hqp : q = p
      · rw [hqp, hpc] at hth
        simp only [State.setThread, State.setCpu, hqp, update_self]
        rcases hth with hth | hth <;> cases hth
        exact ⟨k, hk', Or.inr rfl⟩
      · simp only [State.setThread, State.setCpu, update_of_ne hqp]
        exact ⟨k', hk', hth⟩
    · by_cases hqp : q = p
      · simp only [State.setThread, State.setCpu, hqp, update_self, reduceCtorEq] at hk
      · simp only [State.setThread, State.setCpu, update_of_ne hqp] at hk
        refine Or.inr ((h.switching_at c hk).resolve_left fun hc => hqp ?_)
        rw [hstack] at hc
        exact (Option.some.inj hc).symm
  | @resume _ k hpc hk =>
    rw [hpc] at hphase hlock
    exact hquiet (y := s.lock) hphase.1 (fun _ _ => Iff.rfl) rfl hlock
  | @resumeSleep _ k x hpc hk =>
    rw [hpc] at hphase hlock
    have hrun : (s.table.proc p).state = .running := hphase.1
    have hself : ((tidy s.table p).proc p).state = .running := h.ok.self hrun Does.tidy
    have hx : x = .releasing ∨ x = .locked .wait := hk.imp And.right And.right
    refine h.operation hstack hrun (show Ready _ p .tidy from hrun) Does.tidy hkeep (by simp) ?_ ?_ ?_
      (fun hl => absurd (hlock.mpr rfl) hl) <;> rw [update_self] <;> rcases hx with rfl | rfl
    · exact hself
    · exact hself
    · simp
    · simp
    · exact hlock
    · exact hlock
  | release hpc =>
    rw [hpc] at hphase hlock
    exact hquiet hphase (fun c' hc' => lock_other (Or.inr (hlock.mpr rfl)) (Or.inl rfl) hc') rfl
      (iff_of_false (Option.some_ne_none c).symm Bool.noConfusion)
  | @unlocked _ op x hpc hop hex =>
    rw [hpc] at hphase hlock
    have hdoes := does_of_exec hex
    have hready : Ready s.table p op := by cases op <;> first | exact hphase | cases hop
    have hself : (x.1.proc p).state = .running := by
      rw [h.ok.self hphase hdoes]
      cases op <;> first | rfl | cases hop
    -- the context that is made is that of an embryo
    have hth : ∀ q, newThread s p op q = s.thread q
        ∨ newThread s p op q = .resumed .forkret ∧ (s.table.proc q).state = .embryo := fun q => by
      rcases newThread_cases s p op with ⟨hsame, _⟩ | ⟨np, hplace, hnew⟩
      · exact Or.inl (by rw [hsame])
      · rw [hnew]
        by_cases hq : q = np
        · rw [hq, update_self]
          exact Or.inr ⟨rfl, h.ok.forks p np (by rw [hplace]; rfl)⟩
        · exact Or.inl (update_of_ne hq ..)
    have hthp : newThread s p op p = .run := by
      rw [(hth p).resolve_right fun hx => h.not_embryo hproc hx.2, hpc]
    refine h.operation hstack hphase hready hdoes (fun q _ => hth q) (fun hkal np hplace => ?_) ?_ ?_ ?_
      (fun _ q hq => shift_unlocked h.ok hop hdoes hq)
    · rcases newThread_cases s p op with ⟨_, hno⟩ | ⟨np', hplace', hnew⟩
      · exact absurd ⟨hkal, np, hplace⟩ hno
      · rw [hplace] at hplace'
        cases hplace'
        rw [hnew, update_self]
    · rw [hthp]
      exact hself
    · rw [hthp]
      simp
    · rw [hthp]
      exact hlock

theorem Inv.check (h : Inv s) (e : Event) : check s e = none := by
  have hcpu := h.cpus e.cpu
  have hlock := h.lock e.cpu
  rw [CpuOk] at hcpu
  rw [Holds] at hlock
  cases e <;> simp only [Event.cpu] at hcpu hlock <;> simp only [Machine.check]
  case enter c =>
    rw [if_neg]
    rintro ⟨hstack, hpc, hl⟩
    rw [hstack, hpc] at hlock
    exact hlock.mp hl
  case leave c =>
    split
    · rename_i i hstack hpc
      rw [hstack, hpc] at hlock
      rw [if_neg fun hc => hc.2 (hlock.mpr trivial)]
    · rfl
  case irqAcquire c =>
    split
    · rename_i n hstack hpc
      rw [hstack, hpc] at hlock
      rw [if_neg fun hc => hlock.mp hc]
    · rfl
  case irqRelease c =>
    rw [if_neg]
    rintro ⟨hstack, hpc, hl⟩
    rw [hstack, hpc] at hlock
    exact hl (hlock.mpr trivial)
  case acquire c =>
    split
    · rename_i p hstack
      rw [hstack] at hlock
      split
      · rename_i a hpc
        simp only [hpc] at hlock
        rw [if_neg fun hc => hlock.mp hc]
      · rfl
    · rfl
  case swtch c =>
    split
    · rename_i p hstack
      rw [hstack] at hlock hcpu
      split
      · rename_i k hpc
        simp only [hpc] at hlock hcpu
        rw [if_neg (not_not.mpr (hlock.mpr trivial)), if_neg]
        intro hr
        rw [hr] at hcpu
        rcases hcpu.2.2.2 with hx | hx | hx <;> cases hx
      · rfl
    · rfl
  case resume c =>
    split
    · rename_i p hstack
      rw [hstack] at hcpu
      rw [if_neg]
      intro hpc
      simp only [hpc] at hcpu
      exact hcpu.2.2.2.2 rfl
    · rfl
  case release c =>
    split
    · rename_i p hstack
      rw [hstack] at hlock
      rw [if_neg]
      rintro ⟨hpc, hl⟩
      simp only [hpc] at hlock
      exact hl (hlock.mpr trivial)
    · rfl

theorem inv_boot : Inv boot := by
  refine ⟨ok_booted, rfl, fun c => ⟨fun hl => (by cases hl), fun hh => (by cases hh)⟩, fun c => ⟨rfl, rfl⟩,
    fun c c' p hp => (by cases hp), fun p hp => ?_, fun p hp _ => ?_, fun p k hk => ?_, fun p np hb => ?_⟩
  · by_cases hpi : p = initproc
    · rw [hpi] at hp
      cases hp
    · simp only [boot, booted, if_neg hpi] at hp
      cases hp
  · by_cases hpi : p = initproc
    · exact ⟨.forkret, Cont.noConfusion, Or.inr (if_pos hpi)⟩
    · simp only [boot, booted, if_neg hpi] at hp
      exact absurd hp not_alive_unused
  · simp only [boot] at hk
    split_ifs at hk
  · rcases hb with hx | hx | hx <;> cases hx

/-- **Every step keeps the invariant**, and with it no check ever fails. -/
theorem Inv.machineStep (h : Inv s) (hstep : machine.step s e = some t) : Inv t := by
  rcases step_cases hstep with ⟨m, hm, _⟩ | ⟨hstack, hsched⟩ | ⟨p, hstack, hproc⟩
  · rw [h.check e] at hm
    cases hm
  · exact h.schedStep hstack hsched
  · exact h.procStep hstack hproc

variable {es : List Event}

theorem run_inv (hr : Reach machine es s) : Inv s := by
  refine hr.induct (I := fun _ s => Inv s) ?_ ?_
  · rintro s rfl
    exact inv_boot
  · exact fun _ _ _ _ h _ hstep => h.machineStep hstep

/-! ### The result -/

/-- The slot whose stack and page table the next step of a process in `wait` frees. -/
def reaps (s : State) (c i : ℕ) : Prop :=
  ∃ p, (s.cpu c).stack = some p ∧ s.thread p = .locked .wait
    ∧ scanChildren s.table p (List.range NPROC) false = .child i

/-- The slot that the next step of a scheduler runs. -/
def dispatches (s : State) (c i : ℕ) : Prop :=
  (s.cpu c).stack = none ∧ s.sched c = .scan i ∧ (s.table.proc i).state = .runnable

/-- **A process runs on one CPU.**  In every state in which the lock is free, a process is `RUNNING` if and
only if it is the process of exactly one CPU, and the stacks and page tables in use are those of running
processes.  In every state, a process that a scheduler is about to run is on no CPU, and a slot that `wait` is
about to free is in use by none. -/
theorem runs_on_one_cpu (hr : Reach machine es s) :
    (s.lock = none →
      (∀ p, (s.table.proc p).state = .running ↔ ∃! c, (s.cpu c).proc = some p)
      ∧ ∀ c p, (s.cpu c).stack = some p ∨ (s.cpu c).pgdir = some p → (s.table.proc p).state = .running)
    ∧ (∀ c i, dispatches s c i → ∀ c', (s.cpu c').proc ≠ some i)
    ∧ ∀ c i, reaps s c i → ∀ c', (s.cpu c').proc ≠ some i ∧ (s.cpu c').stack ≠ some i
    ∧ (s.cpu c').pgdir ≠ some i := by
  have h := run_inv hr
  -- a CPU that does not hold the lock has a running process
  have hrunning : ∀ c p, s.lock ≠ some c → (s.cpu c).proc = some p → (s.table.proc p).state = .running := by
    intro c p hl hp
    exact ((h.cpus c).proc hp).resolve_right fun hh => hl ((h.lock c).mpr hh.1)
  refine ⟨fun hfree => ⟨fun p => ⟨fun hp => ?_, ?_⟩, fun c p hp => ?_⟩, ?_, ?_⟩
  · obtain ⟨c, hc⟩ := h.runs p hp
    exact ⟨c, hc, fun c' hc' => h.one c' c p hc' hc⟩
  · rintro ⟨c, hc, _⟩
    exact hrunning c p (by rw [hfree]; exact (Option.some_ne_none c).symm) hc
  · exact hrunning c p (by rw [hfree]; exact (Option.some_ne_none c).symm) ((h.cpus c).uses hp)
  · rintro c i ⟨hstack, hpc, hrun⟩ c' hc'
    have hheld : s.lock = some c := (h.lock c).mpr (by rw [Holds, hstack, hpc]; trivial)
    by_cases hcc : c' = c
    · have hcpu := h.cpus c
      rw [CpuOk, hstack, hpc] at hcpu
      rw [hcc, hcpu.1] at hc'
      cases hc'
    · have := hrunning c' i (by rw [hheld]; exact fun hx => hcc (Option.some.inj hx).symm) hc'
      rw [hrun] at this
      cases this
  · rintro c i ⟨p, hstack, hpc, hscan⟩ c'
    have hheld : s.lock = some c := (h.lock c).mpr (by rw [Holds, hstack]; simp only [hpc])
    have hzombie : (s.table.proc i).state = .zombie := by
      have hspec := scanChildren_spec s.table p (List.range NPROC) false
      rw [hscan] at hspec
      exact hspec.2.2
    have hnone : ∀ c', (s.cpu c').proc ≠ some i := fun c' hc' => by
      have hrun : (s.table.proc i).state = .running := by
        by_cases hcc : c' = c
        · -- the caller of `wait` is running
          have hcpu := h.cpus c
          rw [CpuOk, hstack] at hcpu
          simp only [hpc] at hcpu
          rw [hcc, hcpu.1] at hc'
          rw [← Option.some.inj hc']
          exact hcpu.2.2.2
        · exact hrunning c' i (by rw [hheld]; exact fun hx => hcc (Option.some.inj hx).symm) hc'
      rw [hzombie] at hrun
      cases hrun
    exact ⟨hnone c', fun hs => hnone c' ((h.cpus c').uses (Or.inl hs)),
      fun hs => hnone c' ((h.cpus c').uses (Or.inr hs))⟩

def startInit : List Event := [.enter 0, .look 0, .swtchTo 0, .resume 0, .release 0]

/-- The first process runs on CPU 0 and on no other. -/
theorem runs_on_one_cpu_init : ∃ s, Reach machine startInit s ∧ s.lock = none
    ∧ (s.table.proc initproc).state = .running ∧ ∃! c, (s.cpu c).proc = some initproc := by
  obtain ⟨s, hr, hs⟩ := exists_runIf_of_map (S := machine) (C := fun _ _ _ => True)
    (f := fun s => (s.lock, (s.table.proc initproc).state)) (y := (none, .running)) startInit rfl
    (by decide +kernel)
  obtain ⟨hfree, hrun⟩ := Prod.mk.injEq .. ▸ hs
  exact ⟨s, hr, hfree, hrun, (((runs_on_one_cpu hr).1 hfree).1 initproc).mp hrun⟩

/-- **No check fails.**  In every state, no step makes `acquire`, `release`, `sched` or `exit` panic, and the
lock is held by the CPU that is in a locked section, if there is one. -/
theorem checks_pass (hr : Reach machine es s) :
    s.panic = none ∧ (∀ e, check s e = none) ∧ ∀ c, s.lock = some c ↔ Holds s c :=
  ⟨(run_inv hr).panic, (run_inv hr).check, (run_inv hr).lock⟩

/-- The first process forks. -/
def forkInit : List Event :=
  startInit ++
  ([.call 0 .alloc, .acquire 0, .body 0 .alloc, .release 0, .unlocked 0 (.kalloc true),
    .unlocked 0 (.copyuvm true), .unlocked 0 .setParent, .call 0 .publish, .acquire 0, .body 0 .publish,
    .release 0] : List Event)

/-- It waits, and the child exits. -/
def forkExitWait : List Event :=
  forkInit ++
  ([.call 0 .wait, .acquire 0, .body 0 .wait, .swtch 0, .back 0,
    .look 0, .swtchTo 0, .resume 0, .release 0, .unlocked 0 .exit, .call 0 .zombie, .acquire 0,
    .body 0 .zombie] : List Event)

/-- `exit` has called `sched`, whose checks pass. -/
theorem checks_pass_exit : ∃ s, Reach machine forkExitWait s ∧ s.thread 1 = .switching .exit ∧ Holds s 0
    ∧ check s (.swtch 0) = none := by
  obtain ⟨s, hr, hs⟩ := exists_runIf_of_map (S := machine) (C := fun _ _ _ => True)
    (f := fun s => (s.lock, s.thread 1)) (y := (some 0, .switching .exit)) forkExitWait rfl
    (by decide +kernel)
  obtain ⟨hlock, hthread⟩ := Prod.mk.injEq .. ▸ hs
  obtain ⟨_, hcheck, hholds⟩ := checks_pass hr
  exact ⟨s, hr, hthread, (hholds 0).mp hlock, hcheck _⟩

end Xv6e.Process.Dispatch
