import Xv6e.Process.TableSteps

/-!
# `kill`

`kill` looks for an identifier in all slots, also in those that are `UNUSED`: free slots have identifier 0 at
first and after `wait`, and after a `fork` that failed the one it gave them.  The flag that `kill` sets there
stays, and the next process in the slot starts with it.  As long as no `kill` names a free slot, and no `fork`
fails after its slot has been killed, `kill` does what it should.

* `KillRight` — what a call of `kill` should do; `Careful` — the condition on steps;
* `killed_by` — the result; `kill_free_slot` — a run in which `kill(0)` reaches the next process.
-/

namespace Xv6e.Process.Kill

open Library.Transition Ptable Lifecycle Machine Dispatch
open TableSteps
open Function (update_self update_of_ne)

def NoStale (l : Table) (pid : ℤ) : Prop := ∀ i < NPROC, (l.proc i).state = .unused → (l.proc i).pid ≠ pid

instance (l : Table) (pid : ℤ) : Decidable (NoStale l pid) :=
  inferInstanceAs (Decidable (∀ i < NPROC, (l.proc i).state = .unused → (l.proc i).pid ≠ pid))

def Names (l : Table) (pid : ℤ) (i : ℕ) : Prop := i < NPROC ∧ (l.proc i).state ≠ .unused
      ∧ (l.proc i).pid = pid

/-- **What `kill` should do**: it returns 0 if and only if a process has the identifier, and then sets
`killed` for that process and changes no other; otherwise it returns -1 and changes nothing. -/
def KillRight (l : Table) (pid : ℤ) : Prop :=
  ((kill l pid).2 = some 0 ↔ ∃ i, Names l pid i)
  ∧ ((kill l pid).2 = some 0 → ∃ i, Names l pid i ∧ ((kill l pid).1.proc i).killed = true
    ∧ ∀ j, j ≠ i → (kill l pid).1.proc j = l.proc j)
  ∧ ((kill l pid).2 ≠ some 0 → (kill l pid).2 = some (-1) ∧ (kill l pid).1 = l)

theorem kill_right {l : Table} {pid : ℤ} (h : NoStale l pid) : KillRight l pid := by
  rcases kill_spec l pid with ⟨i, hi, hpid, hk⟩ | ⟨hno, hk⟩
  · have hname : Names l pid i := ⟨hi, fun hu => h i hi hu hpid, hpid⟩
    rw [KillRight, hk]
    refine ⟨⟨fun _ => ⟨i, hname⟩, fun _ => rfl⟩, fun _ => ⟨i, hname, ?_, fun j hj => update_of_ne hj ..⟩,
      fun hne => absurd rfl hne⟩
    rw [Table.set_proc, update_self]
  · rw [KillRight, hk]
    refine ⟨⟨fun h0 => ?_, ?_⟩, fun h0 => ?_, fun _ => ⟨rfl, rfl⟩⟩
    · cases h0
    · rintro ⟨i, hi, _, hpid⟩
      exact absurd hpid (hno i hi)
    · cases h0

/-- A `kill` names no free slot, and a `fork` that fails gives back a slot that has not been killed. -/
def Careful (s : State) : Event → Prop
  | .body _ (.kill pid) => NoStale s.table pid
  | .unlocked c op => op = .kalloc false ∨ op = .copyuvm false →
    ∀ p ∈ (s.cpu c).stack, ∀ np ∈ forking (s.table.place p), (s.table.proc np).killed = false
  | _ => True

instance (s : State) (e : Event) : Decidable (Careful s e) := by
  unfold Careful
  split <;> infer_instance

/-! ### Who is killed -/

variable {l l' : Table} {p i : ℕ} {op : Op} {r : Option ℤ}

/-- The operation is a `fork` that fails and gives slot `i` back. -/
def GivesBack (l : Table) (p : ℕ) (op : Op) (i : ℕ) : Prop :=
  (op = .kalloc false ∨ op = .copyuvm false) ∧ forking (l.place p) = some i

/-- A slot after an operation that neither sets its flag nor frees it, unless a `fork` gives it back. -/
def KeepsFlag (l : Table) (p : ℕ) (op : Op) (l' : Table) (i : ℕ) : Prop :=
  (l'.proc i).killed = (l.proc i).killed
    ∧ ((l'.proc i).state = .unused → (l.proc i).state = .unused ∨ GivesBack l p op i)

/-- The operation is a `kill` with the identifier of slot `i`, or a fault of its process. -/
def SetsFlag (l : Table) (p : ℕ) (op : Op) (i : ℕ) : Prop := op = .kill (l.proc i).pid ∧ i < NPROC
      ∨ op = .fault ∧ i = p

/-- **The flag of a slot** is kept, or cleared, or set by a `kill` with the identifier of the slot or by a
fault of its process. -/
theorem does_flag (h : Ok l) (hdoes : Does l p op l' r) (i : ℕ) : KeepsFlag l p op l' i
      ∨ (l'.proc i).killed = false
    ∨ SetsFlag l p op i ∧ ((l'.proc i).state = .unused → (l.proc i).state = .unused) := by
  have hturn := h.turn hdoes i
  rw [KeepsFlag]
  generalize l'.proc i = q at hturn
  cases hturn with
  | same => exact Or.inl ⟨rfl, Or.inl⟩
  | own hip _ _ hkilled hstate =>
    rcases hkilled with hkilled | hop
    · exact Or.inl ⟨hkilled, fun hu => Or.inl (hstate hu)⟩
    · exact Or.inr (Or.inr ⟨Or.inr ⟨hop, hip⟩, hstate⟩)
  | woken _ _ hkilled hstate =>
    refine Or.inl ⟨hkilled, fun hu => Or.inl ?_⟩
    rcases hstate with hs | ⟨_, hs⟩
    · rw [← hs, hu]
    · rw [hs] at hu
      cases hu
  | take => exact Or.inl ⟨rfl, fun hu => by cases hu⟩
  | fill _ _ hkilled hstate => exact Or.inl ⟨hkilled, fun hu => Or.inl (hstate ▸ hu)⟩
  | undo hop hfork hkilled _ => exact Or.inl ⟨hkilled, fun _ => Or.inr ⟨hop, hfork⟩⟩
  | publish => exact Or.inl ⟨rfl, fun hu => by cases hu⟩
  | reap => exact Or.inr (Or.inl rfl)
  | kill hop hi =>
    refine Or.inr (Or.inr ⟨Or.inl ⟨hop, hi⟩, fun hu => ?_⟩)
    simp only at hu
    split_ifs at hu
    exact hu

/-! ### Runs -/

variable {s t : State} {e : Event} {es : List Event}

def Clean (l : Table) : Prop := ∀ i, (l.proc i).state = .unused → (l.proc i).killed = false

/-- The event kills the process in slot `i`: a call of `kill` with its identifier, or a fault of its own. -/
def Kills (s : State) (e : Event) (i : ℕ) : Prop :=
  ∃ c, e = .body c (.kill (s.table.proc i).pid) ∨ e = .unlocked c .fault ∧ (s.cpu c).stack = some i

theorem performs_kill {p : ℕ} {pid : ℤ} (h : Performs s e p (.kill pid)) : ∃ c, e = .body c (.kill pid) := by
  generalize hop : Op.kill pid = op at h
  cases h with
  | @body c p a =>
    cases a <;> cases hop
    exact ⟨c, rfl⟩
  | @unlocked c p op _ hun =>
    rw [← hop] at hun
    cases hun
  | _ => cases hop

theorem performs_unlocked {p : ℕ} {op : Op} (h : Performs s e p op) (hun : isUnlocked op = true) :
    ∃ c, e = .unlocked c op ∧ (s.cpu c).stack = some p := by
  cases h with
  | @body c p a => cases a <;> cases hun
  | @unlocked c p op hstack => exact ⟨c, rfl, hstack⟩
  | _ => cases hun

/-- **One step and the flags**: a process that has been killed was so before, in the same slot with the same
identifier, or is killed by this step; free slots stay clean. -/
theorem flag_step (h : Inv s) (hc : Clean s.table) (hcare : Careful s e) (hstep : machine.step s e = some t)
    (i : ℕ) (hk : (t.table.proc i).killed = true) : (s.table.proc i).state ≠ .unused
      ∧ (t.table.proc i).state ≠ .unused
      ∧ (t.table.proc i).pid = (s.table.proc i).pid ∧ ((s.table.proc i).killed = true ∨ Kills s e i) := by
  rcases table_step h hstep with htab | ⟨p, op, r, hperf, hready, hdoes⟩
  · rw [htab] at hk ⊢
    have hlive : (s.table.proc i).state ≠ .unused := fun hu => by
      rw [hc i hu] at hk
      cases hk
    exact ⟨hlive, hlive, rfl, Or.inl hk⟩
  have hflag : (s.table.proc i).state ≠ .unused ∧ (t.table.proc i).state ≠ .unused
      ∧ ((s.table.proc i).killed = true ∨ Kills s e i) := by
    rcases does_flag h.ok hdoes i with ⟨hsame, hfree⟩ | hfalse | ⟨hset, hfree⟩
    · rw [hsame] at hk
      have hlive : (s.table.proc i).state ≠ .unused := fun hu => by
        rw [hc i hu] at hk
        cases hk
      refine ⟨hlive, fun hu => ?_, Or.inl hk⟩
      rcases hfree hu with hu | ⟨hop, hfork⟩
      · exact hlive hu
      · have hun : isUnlocked op = true := by rcases hop with rfl | rfl <;> rfl
        obtain ⟨c, rfl, hstack⟩ := performs_unlocked hperf hun
        rw [hcare hop p hstack i hfork] at hk
        cases hk
    · rw [hfalse] at hk
      cases hk
    · rcases hset with ⟨rfl, hi⟩ | ⟨rfl, rfl⟩
      · obtain ⟨c, rfl⟩ := performs_kill hperf
        have hlive : (s.table.proc i).state ≠ .unused := fun hu => hcare i hi hu rfl
        exact ⟨hlive, fun hu => hlive (hfree hu), Or.inr ⟨c, Or.inl rfl⟩⟩
      · obtain ⟨c, rfl, hstack⟩ := performs_unlocked hperf rfl
        have hlive : (s.table.proc i).state ≠ .unused := fun hu => by
          have hrun : (s.table.proc i).state = .running := hready
          rw [hrun] at hu
          cases hu
        exact ⟨hlive, fun hu => hlive (hfree hu), Or.inr ⟨c, Or.inr ⟨rfl, hstack⟩⟩⟩
  obtain ⟨hlive, hlive', hwhy⟩ := hflag
  refine ⟨hlive, hlive', ?_, hwhy⟩
  rcases does_pid h.ok hready hdoes with ⟨_, hsame⟩ | ⟨_, np, hunused, _, _, _, hother⟩
  · exact (hsame i hlive').2
  · by_cases hin : i = np
    · exact absurd (hin ▸ hunused) hlive
    · rw [hother i hin]

theorem clean_step (h : Inv s) (hc : Clean s.table) (hcare : Careful s e)
    (hstep : machine.step s e = some t) : Clean t.table := fun i hu => by
  by_contra hk
  exact (flag_step h hc hcare hstep i (Bool.eq_true_of_not_eq_false hk)).2.1 hu

/-- The process in slot `i` has been killed: at some point of the run it was there, and has been since, with
the same identifier, and the event at that point killed it. -/
def WasKilled (es : List Event) (i : ℕ) : Prop :=
  ∃ es₁ e es₂ s₁, es = es₁ ++ e :: es₂ ∧ Reach machine es₁ s₁ ∧ (s₁.table.proc i).state ≠ .unused
    ∧ Kills s₁ e i ∧ ∀ es₃ s₃, es₃ <+: es₂ → Reach machine (es₁ ++ e :: es₃) s₃ →
      (s₃.table.proc i).state ≠ .unused ∧ (s₃.table.proc i).pid = (s₁.table.proc i).pid

theorem wasKilled_now {i : ℕ} (hr : Reach machine es s) (hstep : machine.step s e = some t)
    (hlive : (s.table.proc i).state ≠ .unused) (hlive' : (t.table.proc i).state ≠ .unused)
    (hpid : (t.table.proc i).pid = (s.table.proc i).pid) (hkills : Kills s e i) :
    WasKilled (es ++ [e]) i := by
  refine ⟨es, e, [], s, rfl, hr, hlive, hkills, fun es₃ s₃ hpre hr₃ => ?_⟩
  obtain rfl := List.prefix_nil.mp hpre
  rw [hr₃.unique boot_unique (RunIf.step (C := fun _ _ _ => True) e hr trivial hstep)]
  exact ⟨hlive', hpid⟩

theorem wasKilled_before {i : ℕ} (hr : Reach machine es s) (hstep : machine.step s e = some t)
    (hlive' : (t.table.proc i).state ≠ .unused) (hpid : (t.table.proc i).pid = (s.table.proc i).pid)
    (h : WasKilled es i) : WasKilled (es ++ [e]) i := by
  obtain ⟨es₁, e₁, es₂, s₁, hes, hr₁, hlive₁, hkills, hsince⟩ := h
  refine ⟨es₁, e₁, es₂ ++ [e], s₁, by rw [hes, List.append_assoc, List.cons_append], hr₁, hlive₁, hkills, ?_⟩
  intro es₃ s₃ hpre hr₃
  rcases List.prefix_concat_iff.mp hpre with hall | hpre
  · have hlast : es₁ ++ e₁ :: es₃ = es ++ [e] := by rw [hall, hes, List.append_assoc, List.cons_append]
    rw [hlast] at hr₃
    rw [hr₃.unique boot_unique (RunIf.step (C := fun _ _ _ => True) e hr trivial hstep), hpid]
    exact ⟨hlive', (hsince es₂ s List.prefix_rfl (hes ▸ hr)).2⟩
  · exact hsince es₃ s₃ hpre hr₃

theorem run_killed (hr : RunIf machine (fun _ s e => Careful s e) es s) :
    Clean s.table ∧ ∀ i, (s.table.proc i).killed = true → WasKilled es i := by
  have hboot : ∀ i, (boot.table.proc i).killed = false := fun i => by
    rw [boot, booted]
    simp only
    split_ifs <;> rfl
  have hall : Reach machine es s ∧ Clean s.table ∧ ∀ i, (s.table.proc i).killed = true → WasKilled es i := by
    refine hr.induct (I := fun es s => Reach machine es s ∧ Clean s.table
      ∧ ∀ i, (s.table.proc i).killed = true → WasKilled es i) ?_ ?_
    · intro s h0
      obtain rfl : s = boot := h0
      exact ⟨RunIf.init rfl, fun i _ => hboot i,
        fun i hk => absurd hk (by rw [hboot i]; exact Bool.false_ne_true)⟩
    · intro es s e t h hcare hstep
      obtain ⟨hr, hc, hwas⟩ := h
      have hinv := run_inv hr
      refine ⟨RunIf.step e hr trivial hstep, clean_step hinv hc hcare hstep, fun i hk => ?_⟩
      obtain ⟨hlive, hlive', hpid, hold | hnow⟩ := flag_step hinv hc hcare hstep i hk
      · exact wasKilled_before hr hstep hlive' hpid (hwas i hold)
      · exact wasKilled_now hr hstep hlive hlive' hpid hnow
  exact hall.2

/-! ### The result -/

/-- **`kill` affects the process it names, and no other**, in every run in which no `kill` names a free slot
and no `fork` gives back a slot that has been killed: a `kill` of an identifier that no free slot has does
what it should; a process that a step creates has not been killed; and a process that has been killed was so
by a `kill` with its identifier, or a fault of its own, since its creation. -/
theorem killed_by (hr : RunIf machine (fun _ s e => Careful s e) es s) :
    (∀ pid, NoStale s.table pid → KillRight s.table pid)
    ∧ (∀ e t i, machine.step s e = some t → (s.table.proc i).state = .unused
      → (t.table.proc i).state ≠ .unused → (t.table.proc i).killed = false)
    ∧ ∀ i, (s.table.proc i).killed = true → WasKilled es i := by
  have hinv := run_inv hr.reach
  obtain ⟨hclean, hwas⟩ := run_killed hr
  refine ⟨fun pid => kill_right, fun e t i hstep hu hu' => ?_, hwas⟩
  rcases table_step hinv hstep with htab | ⟨p, op, r, _, hready, hdoes⟩
  · rw [htab] at hu'
    exact absurd hu hu'
  rcases does_pid hinv.ok hready hdoes with ⟨_, hsame⟩ | ⟨_, np, _, _, hk, _, hother⟩
  · exact absurd hu (hsame i hu').1
  · by_cases hin : i = np
    · rw [hin, hk]
      exact hclean np (hin ▸ hu)
    · rw [hother i hin] at hu'
      exact absurd hu hu'

/-- The first process forks and kills its child. -/
def forkKill : List Event :=
  forkInit ++ ([.call 0 (.kill 2), .acquire 0, .body 0 (.kill 2)] : List Event)

/-- The child has been killed by that call, and one more `kill` would find it again. -/
theorem killed_by_parent : ∃ s, RunIf machine (fun _ s e => Careful s e) forkKill s
    ∧ (s.table.proc 1).killed = true ∧ WasKilled forkKill 1 ∧ NoStale s.table 2 ∧ KillRight s.table 2 := by
  obtain ⟨s, hr, hs⟩ := exists_runIf_of_map (S := machine) (C := fun _ s e => Careful s e)
    (f := fun s => ((s.table.proc 1).killed, decide (NoStale s.table 2))) (y := (true, true)) forkKill rfl
    (by decide +kernel)
  obtain ⟨hk, hstale⟩ := Prod.mk.injEq .. ▸ hs
  obtain ⟨hright, _, hwas⟩ := killed_by hr
  exact ⟨s, hr, hk, hwas 1 hk, of_decide_eq_true hstale, hright 2 (of_decide_eq_true hstale)⟩

/-- The first process calls `kill(0)`; no process has that identifier. -/
def killZero : List Event := startInit ++ ([.call 0 (.kill 0), .acquire 0] : List Event)

/-- After `kill(0)` the first process forks. -/
def killZeroFork : List Event :=
  killZero ++ ([.body 0 (.kill 0), .release 0, .call 0 .alloc, .acquire 0, .body 0 .alloc] : List Event)

/-- **`kill(0)` finds a free slot.**  It returns 0 although no process has the identifier 0, and the next
process that `allocproc` makes, with identifier 2, has been killed from the start. -/
theorem kill_free_slot : (∃ s, Reach machine killZero s ∧ (∀ i < NPROC, ¬ Names s.table 0 i)
      ∧ (kill s.table 0).2 = some 0)
    ∧ ∃ t, Reach machine killZeroFork t ∧ (t.table.proc 1).state = .embryo ∧ (t.table.proc 1).pid = 2
      ∧ (t.table.proc 1).killed = true := by
  obtain ⟨s, hr, hs⟩ := exists_runIf_of_map (S := machine) (C := fun _ _ _ => True)
    (f := fun s => (decide (∀ i < NPROC, ¬ ((s.table.proc i).state ≠ .unused ∧ (s.table.proc i).pid = 0)),
      (kill s.table 0).2)) (y := (true, some 0)) killZero rfl (by decide +kernel)
  obtain ⟨t, hrt, ht⟩ := exists_runIf_of_map (S := machine) (C := fun _ _ _ => True)
    (f := fun t => ((t.table.proc 1).state, (t.table.proc 1).pid, (t.table.proc 1).killed))
    (y := (.embryo, 2, true)) killZeroFork rfl (by decide +kernel)
  simp only [Prod.mk.injEq] at hs ht
  exact ⟨⟨s, hr, fun i hi hname => of_decide_eq_true hs.1 i hi hname.2, hs.2⟩, t, hrt, ht⟩

end Xv6e.Process.Kill
