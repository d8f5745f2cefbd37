import Xv6e.Process.TableSteps

/-!
# Parents and children

`fork`, `exit` and `wait` over whole runs of the machine: what `wait` returns, to whom, and how often, and
that no process sleeps in `wait` next to a child that has exited.

* `waitReturns` — the value that `wait` returns in a step, and the process it returns it to;
* `zombie_step` — a zombie stays one until its parent's `wait` returns it;
* `parent_child` — the result.
-/

namespace Xv6e.Process.ParentChild

open Library.Transition Ptable Lifecycle Machine Dispatch
open TableSteps

/-- The process that executes a round of the loop of `wait` in a step, and what its call returns, if it
does. -/
def waitReturns (s : State) : Event → Option (ℕ × ℤ)
  | .body c .wait => (s.cpu c).stack.bind fun p =>
    if s.thread p = .locked .wait then ((exec s.table p .wait).bind Prod.snd).map fun v => (p, v) else none
  | _ => none

variable {s t : State} {e : Event} {es : List Event} {p i : ℕ} {v : ℤ}

theorem exec_wait {l : Table} {x : Table × Option ℤ} (h : exec l p .wait = some x) : x = Ptable.wait l p := by
  unfold exec at h
  cases hplace : l.place p <;> rw [hplace] at h <;> first | exact (Option.some.inj h).symm | cases h

theorem waitReturns_cases (h : waitReturns s e = some (p, v)) :
    ∃ c, e = .body c .wait ∧ (s.cpu c).stack = some p ∧ s.thread p = .locked .wait
      ∧ (Ptable.wait s.table p).2 = some v := by
  unfold waitReturns at h
  split at h
  · rename_i c
    obtain ⟨q, hstack, h⟩ := Option.bind_eq_some_iff.mp h
    split_ifs at h with hpc
    obtain ⟨w, hw, hv⟩ := Option.map_eq_some_iff.mp h
    obtain ⟨x, hex, hx⟩ := Option.bind_eq_some_iff.mp hw
    cases hv
    rw [exec_wait hex] at hx
    exact ⟨c, rfl, hstack, hpc, hx⟩
  · cases h

theorem table_of_waitReturns (h : Inv s) (hw : waitReturns s e = some (p, v))
    (hstep : machine.step s e = some t) : t.table = (Ptable.wait s.table p).1 := by
  obtain ⟨c, rfl, hstack, _, _⟩ := waitReturns_cases hw
  have hstep : step s (.body c .wait) = some t := hstep
  rcases step_cases hstep with ⟨m, hm, _⟩ | ⟨hnone, _⟩ | ⟨q, hq, hproc⟩
  · rw [h.check] at hm
    cases hm
  · rw [show (s.cpu (Event.body c .wait).cpu).stack = some p from hstack] at hnone
    cases hnone
  · rw [show (s.cpu (Event.body c .wait).cpu).stack = some p from hstack] at hq
    cases hq
    cases hproc with
    | body hpc hex =>
      rw [← exec_wait hex]
      rfl

/-- **What `wait` returns**: the identifier of an exited child, or -1 if there is no child or the caller is
killed. -/
theorem wait_value {l : Table} (h : (Ptable.wait l p).2 = some v) :
    (∃ i < NPROC, (l.proc i).parent = some p ∧ (l.proc i).state = .zombie ∧ (l.proc i).pid = v
      ∧ ((Ptable.wait l p).1.proc i).state = .unused ∧ ∀ j, j ≠ i → (Ptable.wait l p).1.proc j = l.proc j)
    ∨ v = -1 ∧ ((∀ i < NPROC, (l.proc i).parent ≠ some p) ∨ (l.proc p).killed = true) := by
  have hspec := scanChildren_spec l p (List.range NPROC) false
  rw [Ptable.wait] at h ⊢
  cases hscan : scanChildren l p (List.range NPROC) false with
  | child i =>
    rw [hscan] at h hspec
    refine Or.inl ⟨i, List.mem_range.mp hspec.1, hspec.2.1, hspec.2.2, Option.some.inj h, ?_, fun j hj => ?_⟩
    · simp only [Table.move_proc, Table.set_proc, Function.update_self]
    · simp only [Table.move_proc, Table.set_proc, Function.update_of_ne hj]
  | none =>
    rw [hscan] at h hspec
    refine Or.inr ⟨(Option.some.inj h).symm, hspec.imp (fun hno i hi => hno.2 i (List.mem_range.mpr hi)) id⟩
  | sleep =>
    rw [hscan] at h
    cases h

theorem does_zombie {l l' : Table} {op : Op} {r : Option ℤ} (h : Ok l) (hready : Ready l p op)
    (hdoes : Does l p op l' r) (hz : (l.proc i).state = .zombie) : (l'.proc i).state = .zombie
      ∨ op = .wait ∧ (l'.proc i).state = .unused ∧ (l.proc i).parent = some p
        ∧ (Ptable.wait l p).2 = some (l.proc i).pid := by
  have hturn := h.turn hdoes i
  generalize l'.proc i = q at hturn
  cases hturn with
  | same => exact Or.inl hz
  | own hip hop _ _ _ => exact absurd (hz ▸ hip ▸ hready.alive hop) not_alive_zombie
  | woken _ _ _ hstate =>
    rcases hstate with hs | ⟨hs, _⟩
    · exact Or.inl (hs.trans hz)
    · rw [hz] at hs
      cases hs
  | take _ hfree =>
    rw [hz] at hfree
    cases hfree
  | fill _ _ _ hstate => exact Or.inl (hstate.trans hz)
  | undo _ hfork _ _ =>
    rw [h.forks p i hfork] at hz
    cases hz
  | publish _ hplace =>
    rw [h.forks p i (by rw [hplace]; rfl)] at hz
    cases hz
  | reap hop hparent _ hv => exact Or.inr ⟨hop, rfl, hparent, hv⟩
  | kill =>
    refine Or.inl ?_
    simp only [hz, reduceCtorEq, if_false]

/-- The step in which a process executes a round of the loop of `wait`. -/
theorem waitReturns_of_does {l' : Table} {r : Option ℤ} (hperf : Performs s e p .wait)
    (hdoes : Does s.table p .wait l' r) (hv : (Ptable.wait s.table p).2 = some v) :
    waitReturns s e = some (p, v) := by
  generalize hop : Op.wait = op at hperf
  cases hperf with
  | @body c _ a hstack hpc =>
    cases a <;> cases hop
    have hex : exec s.table p .wait = some (Ptable.wait s.table p) := by
      cases hdoes with
      | wait hplace =>
        unfold exec
        rcases hplace with hpl | hpl <;> rw [hpl]
    rw [waitReturns, hstack, Option.bind_some, if_pos hpc, hex, Option.bind_some, hv, Option.map_some]
  | unlocked _ hun =>
    rw [← hop] at hun
    cases hun
  | _ => cases hop

/-- **A zombie stays one** until the `wait` of its parent returns it. -/
theorem zombie_step (h : Inv s) (hstep : machine.step s e = some t) (hz : (s.table.proc i).state = .zombie) :
    (t.table.proc i).state = .zombie ∧ (t.table.proc i).pid = (s.table.proc i).pid
    ∨ (t.table.proc i).state = .unused
      ∧ ∃ p, (s.table.proc i).parent = some p ∧ waitReturns s e = some (p, (s.table.proc i).pid) := by
  rcases table_step h hstep with htab | ⟨p, op, r, hperf, hready, hdoes⟩
  · rw [htab]
    exact Or.inl ⟨hz, rfl⟩
  · rcases does_zombie h.ok hready hdoes hz with hz' | ⟨rfl, hu, hparent, hv⟩
    · refine Or.inl ⟨hz', ?_⟩
      rcases does_pid h.ok hready hdoes with ⟨_, hsame⟩ | ⟨_, np, hfree, _, _, _, hother⟩
      · exact (hsame i (by simp [hz'])).2
      · rw [hother i]
        rintro rfl
        rw [hz] at hfree
        cases hfree
    · exact Or.inr ⟨hu, p, hparent, waitReturns_of_does hperf hdoes hv⟩

/-! ### Runs -/

/-- The identifier `v` is not in use and will not be given out. -/
def Spent (v n : ℤ) (l : Table) : Prop := v < n ∧ ∀ i, (l.proc i).state ≠ .unused → (l.proc i).pid ≠ v

/-- What `wait` has returned in a run is spent. -/
def Reaped (es : List Event) (l : Table) : Prop :=
  allocs es < 2 ^ 31 - 1 → ∃ n : ℤ, n ≤ 2 + allocs es ∧ Pids n l ∧ ∀ es₁ e es₂ s₁ p v, es = es₁ ++ e :: es₂ →
    Reach machine es₁ s₁ → waitReturns s₁ e = some (p, v) → v ≠ -1 → Spent v n l

theorem spent_of_returns {n m : ℤ} (h : Inv s) (hp : Pids n s.table) (hm : n ≤ m)
    (hstep : machine.step s e = some t) (hkeep : ∀ i, (t.table.proc i).state ≠ .unused →
      (s.table.proc i).state ≠ .unused ∧ (t.table.proc i).pid = (s.table.proc i).pid
      ∨ (t.table.proc i).pid = n)
    (hw : waitReturns s e = some (p, v)) (hv : v ≠ -1) : Spent v m t.table := by
  obtain ⟨c, he, hstack, hpc, hval⟩ := waitReturns_cases hw
  have htab := table_of_waitReturns h hw hstep
  rcases wait_value hval with ⟨i, _, _, hz, hpid, hu, _⟩ | ⟨hneg, _⟩
  · have hlive : (s.table.proc i).state ≠ .unused := by simp [hz]
    have hlt := (hp.bounds i hlive).2
    refine ⟨by omega, fun j hj hjv => ?_⟩
    rcases hkeep j hj with ⟨hold, hsame⟩ | hnew
    · have hji := hp.distinct j i hold hlive (by rw [← hsame, hjv, hpid])
      rw [htab, hji] at hj
      exact hj hu
    · omega
  · exact absurd hneg hv

theorem reaped_step (h : Inv s) (hr : Reach machine es s) (hp : Reaped es s.table)
    (hstep : machine.step s e = some t) : Reaped (es ++ [e]) t.table := by
  intro hfew
  have hfew' : allocs es < 2 ^ 31 - 1 := by
    rw [allocs_append] at hfew
    omega
  obtain ⟨n, hn, hpids, hspent⟩ := hp hfew'
  obtain ⟨m, hnm, hm, hpids', hkeep⟩ := pids_step h hpids hn hfew hstep
  refine ⟨m, hm, hpids', fun es₁ e' es₂ s₁ p v hes hr₁ hw hv => ?_⟩
  rcases List.eq_nil_or_concat es₂ with rfl | ⟨rest, last, rfl⟩
  · -- the last step
    obtain ⟨rfl, he⟩ := List.append_inj' hes rfl
    obtain rfl := List.singleton_inj.mp he
    rw [hr₁.unique boot_unique hr] at hw
    exact spent_of_returns h hpids hnm hstep hkeep hw hv
  · have hes : es = es₁ ++ e' :: rest := by
      rw [List.concat_eq_append, ← List.cons_append, ← List.append_assoc] at hes
      exact (List.append_inj' hes rfl).1
    obtain ⟨hlt, hfree⟩ := hspent es₁ e' rest s₁ p v hes hr₁ hw hv
    refine ⟨by omega, fun i hi hiv => ?_⟩
    rcases hkeep i hi with ⟨hold, hsame⟩ | hnew
    · exact hfree i hold (by rw [← hsame, hiv])
    · omega

theorem run_reaped (hr : Reach machine es s) : Reaped es s.table := by
  have hinv : ∀ {es s}, Reach machine es s → Inv s := fun hr => run_inv hr
  induction hr with
  | init h =>
    rw [show _ = boot from h]
    refine fun _ => ⟨2, by rw [allocs, List.countP_nil]; decide, pids_booted, fun es₁ e es₂ s₁ p v hes => ?_⟩
    cases es₁ <;> cases hes
  | step e hr _ hs ih => exact reaped_step (hinv hr) hr ih hs

/-- **Parents and children.**  In every run with fewer than 2³¹ - 1 calls of `allocproc`:

* processes have distinct positive identifiers;
* every process but the first, and every zombie, has a parent that is neither free nor a zombie;
* a zombie stays one until the `wait` of its parent returns it;
* `wait` returns the identifier of a zombie child of the caller, which no other `wait` returns, or -1 if the
  caller has no child or is killed;
* no process is asleep in `wait` while it has a zombie child. -/
theorem parent_child (hr : Reach machine es s) (hfew : allocs es < 2 ^ 31 - 1) :
    (∀ i, (s.table.proc i).state ≠ .unused → 0 < (s.table.proc i).pid)
    ∧ (∀ i j, (s.table.proc i).state ≠ .unused → (s.table.proc j).state ≠ .unused →
      (s.table.proc i).pid = (s.table.proc j).pid → i = j)
    ∧ (∀ i, (s.table.proc i).state ≠ .unused → (s.table.proc i).state ≠ .embryo → i ≠ initproc →
      ∃ q, (s.table.proc i).parent = some q ∧ (s.table.proc q).state ≠ .unused
      ∧ (s.table.proc q).state ≠ .zombie)
    ∧ (∀ e t i, machine.step s e = some t → (s.table.proc i).state = .zombie →
      (t.table.proc i).state = .zombie ∧ (t.table.proc i).pid = (s.table.proc i).pid
      ∨ (t.table.proc i).state = .unused
        ∧ ∃ p, (s.table.proc i).parent = some p ∧ waitReturns s e = some (p, (s.table.proc i).pid))
    ∧ (∀ e p v, waitReturns s e = some (p, v) →
      (∃ i, (s.table.proc i).parent = some p ∧ (s.table.proc i).state = .zombie ∧ (s.table.proc i).pid = v)
      ∨ v = -1 ∧ ((∀ i < NPROC, (s.table.proc i).parent ≠ some p) ∨ (s.table.proc p).killed = true))
    ∧ (∀ es₁ e₁ es₂ s₁ p₁ p₂ e₂ v, es = es₁ ++ e₁ :: es₂ → Reach machine es₁ s₁
      → waitReturns s₁ e₁ = some (p₁, v) → waitReturns s e₂ = some (p₂, v) → v = -1)
    ∧ ∀ p, s.table.place p = .waiting → (s.table.proc p).state = .sleeping →
      ∀ i, (s.table.proc i).parent = some p → (s.table.proc i).state ≠ .zombie := by
  have h := run_inv hr
  obtain ⟨n, _, hpids, hspent⟩ := run_reaped hr hfew
  refine ⟨fun i hi => (hpids.bounds i hi).1, hpids.distinct, fun i hi hi' hroot => ?_,
    fun e t i hstep hz => ?_, fun e p v hw => ?_, fun es₁ e₁ es₂ s₁ p₁ p₂ e₂ v hes hr₁ hw₁ hw₂ => ?_,
    fun p hp hs => (h.ok.waiting p hp hs).2⟩
  · have halive : Alive (s.table.proc i).state ∨ (s.table.proc i).state = .zombie := by
      cases hst : (s.table.proc i).state <;> first | exact absurd hst hi | exact absurd hst hi' | decide
    obtain ⟨q, hq, hqa⟩ := h.ok.parents i hroot halive
    exact ⟨q, hq, fun hu => not_alive_unused (hu ▸ hqa), fun hz => not_alive_zombie (hz ▸ hqa)⟩
  · exact zombie_step h hstep hz
  · obtain ⟨_, _, _, _, hval⟩ := waitReturns_cases hw
    rcases wait_value hval with ⟨i, _, hparent, hz, hpid, _⟩ | hno
    · exact Or.inl ⟨i, hparent, hz, hpid⟩
    · exact Or.inr hno
  · by_contra hv
    obtain ⟨_, hfree⟩ := hspent es₁ e₁ es₂ s₁ p₁ v hes hr₁ hw₁ hv
    obtain ⟨_, _, _, _, hval⟩ := waitReturns_cases hw₂
    rcases wait_value hval with ⟨i, _, _, hz, hpid, _⟩ | ⟨hneg, _⟩
    · exact hfree i (by simp [hz]) hpid
    · exact hv hneg

/-- The child is a zombie with its parent, and the parent has been woken. -/
theorem parent_child_exit : ∃ s, Reach machine forkExitWait s ∧ (s.table.proc 1).state = .zombie
    ∧ (∃ q, (s.table.proc 1).parent = some q ∧ (s.table.proc q).state ≠ .unused
      ∧ (s.table.proc q).state ≠ .zombie)
    ∧ s.table.place initproc = .waiting ∧ (s.table.proc initproc).state ≠ .sleeping := by
  obtain ⟨s, hr, hs⟩ := exists_runIf_of_map (S := machine) (C := fun _ _ _ => True)
    (f := fun s => ((s.table.proc 1).state, (s.table.proc 1).parent, s.table.place initproc))
    (y := (.zombie, some initproc, .waiting)) forkExitWait rfl (by decide +kernel)
  simp only [Prod.mk.injEq] at hs
  obtain ⟨hz, hparent, hplace⟩ := hs
  obtain ⟨_, _, hparents, _, _, _, hwait⟩ := parent_child hr (by decide +kernel)
  refine ⟨s, hr, hz, hparents 1 (by rw [hz]; decide) (by rw [hz]; decide) (by decide), hplace,
    fun hsleep => ?_⟩
  exact hwait initproc hplace hsleep 1 hparent hz

end Xv6e.Process.ParentChild
