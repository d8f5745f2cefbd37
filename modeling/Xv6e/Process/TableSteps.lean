import Xv6e.Process.Dispatch

/-!
# The process table in runs of the machine

A step of the machine leaves the process table as it is, or performs one operation of a process that is
running.  So an invariant of the table holds in every run if the operations keep it.

* `Performs` — the operation that an event performs;
* `table_step` — steps as operations on the table;
* `Pids` — process identifiers are distinct and below the next one; `pids_step` — they stay so.
-/

namespace Xv6e.Process.TableSteps

open Library.Transition Ptable Lifecycle Machine Dispatch

/-- The operation that an event performs, and the process that performs it. -/
inductive Performs (s : State) : Event → ℕ → Op → Prop
  | dispatch {c i : ℕ} : Performs s (.look c) i .dispatch
  | wakeup {c n : ℕ} (p : ℕ) : Performs s (.irqBody c) p (.wakeup n)
  | body {c p : ℕ} {a : Action} (hstack : (s.cpu c).stack = some p) (hpc : s.thread p = .locked a) :
    Performs s (.body c a) p a.op
  | tidy {c p : ℕ} : Performs s (.resume c) p .tidy
  | unlocked {c p : ℕ} {op : Op} (hstack : (s.cpu c).stack = some p) (hop : isUnlocked op = true) :
    Performs s (.unlocked c op) p op

variable {s t : State} {e : Event} {es : List Event}

/-- **Steps as operations on the table.** -/
theorem table_step (h : Inv s) (hstep : machine.step s e = some t) :
    t.table = s.table ∨ ∃ p op r, Performs s e p op ∧ Ready s.table p op ∧ Does s.table p op t.table r := by
  rcases step_cases hstep with ⟨m, hm, _⟩ | ⟨_, hsched⟩ | ⟨p, hstack, hproc⟩
  · rw [h.check e] at hm
    cases hm
  · cases hsched with
    | pick hpc hi hrun => exact Or.inr ⟨_, _, _, .dispatch, hrun, .dispatch⟩
    | irqBody hpc => exact Or.inr ⟨0, _, _, .wakeup 0, trivial, .wakeup _⟩
    | _ => exact Or.inl rfl
  · have hcpu := h.cpus e.cpu
    rw [CpuOk, hstack] at hcpu
    have hthread := hcpu.2.2.2
    cases hproc with
    | @body c a x hpc hex =>
      rw [hpc] at hthread
      refine Or.inr ⟨p, a.op, x.2, .body hstack hpc, ?_, does_of_exec hex⟩
      cases a <;> first | exact hthread | trivial
    | resumeSleep hpc hk =>
      rw [hpc] at hthread
      exact Or.inr ⟨p, _, _, .tidy, hthread.1, .tidy⟩
    | @unlocked c op x hpc hop hex =>
      rw [hpc] at hthread
      refine Or.inr ⟨p, op, x.2, .unlocked hstack hop, ?_, does_of_exec hex⟩
      cases op <;> first | exact hthread | cases hop
    | _ => exact Or.inl rfl

theorem boot_unique (s s' : State) (h : machine.init s) (h' : machine.init s') : s = s' := by
  rw [show s = boot from h, show s' = boot from h']

/-! ### Process identifiers -/

variable {l l' : Table} {p : ℕ} {op : Op} {r : Option ℤ}

theorem does_nextpid (hdoes : Does l p op l' r) (hop : op ≠ .alloc) : l'.nextpid = l.nextpid := by
  cases hdoes with
  | alloc => exact absurd rfl hop
  | kalloc ok => cases ok <;> rfl
  | copyuvm ok => cases ok <;> rfl
  | exit =>
    rw [Ptable.exit]
    split_ifs <;> rfl
  | zombie =>
    simp only [Ptable.zombie, Table.move_nextpid, Table.set_nextpid]
    exact (woken_reparent p (List.range NPROC) _).nextpid
  | wait =>
    rw [Ptable.wait]
    split <;> rfl
  | kill pid => rcases kill_spec l pid with ⟨_, _, _, hk⟩ | ⟨_, hk⟩ <;> rw [hk]; rfl
  | _ => rfl

/-- An operation gives no process another identifier; only `allocproc` takes a slot. -/
theorem does_pid (h : Ok l) (hready : Ready l p op) (hdoes : Does l p op l' r) :
    l'.nextpid = l.nextpid ∧ (∀ j, (l'.proc j).state ≠ .unused →
      (l.proc j).state ≠ .unused ∧ (l'.proc j).pid = (l.proc j).pid)
    ∨ op = .alloc ∧ ∃ np, (l.proc np).state = .unused ∧ (l'.proc np).pid = l.nextpid
      ∧ (l'.proc np).killed = (l.proc np).killed ∧ l'.nextpid = int32 (l.nextpid + 1) ∧ ∀ j, j ≠ np
      → l'.proc j = l.proc j := by
  by_cases hop : op = .alloc
  · subst hop
    cases hdoes
    rw [allocproc]
    cases hfind : findUnused l with
    | none => exact Or.inl ⟨rfl, fun j hj => ⟨hj, rfl⟩⟩
    | some np =>
      refine Or.inr ⟨rfl, np, (findUnused_some hfind).2, ?_, ?_, rfl, fun j hj => Function.update_of_ne hj ..⟩
      · simp only [Table.move_proc, Table.set_proc, Function.update_self]
      · simp only [Table.move_proc, Table.set_proc, Function.update_self]
  · refine Or.inl ⟨does_nextpid hdoes hop, fun j => ?_⟩
    have hturn := h.turn hdoes j
    generalize l'.proc j = q at hturn
    intro hj
    cases hturn with
    | same => exact ⟨hj, rfl⟩
    | own hjp hop' hpid _ _ => exact ⟨fun hu => not_alive_unused (hu ▸ hjp ▸ hready.alive hop'), hpid⟩
    | woken _ hpid _ hstate =>
      refine ⟨fun hu => hj ?_, hpid⟩
      rcases hstate with hs | ⟨hs, _⟩
      · rw [hs, hu]
      · rw [hs] at hu
        cases hu
    | take hop' => exact absurd hop' hop
    | fill _ hpid _ hstate => exact ⟨hstate ▸ hj, hpid⟩
    | undo _ _ _ hstate => exact absurd hstate hj
    | publish _ hplace =>
      refine ⟨?_, rfl⟩
      rw [h.forks p j (by rw [hplace]; rfl)]
      simp
    | reap => exact absurd rfl hj
    | kill =>
      refine ⟨fun hu => hj ?_, rfl⟩
      simp only [hu, reduceCtorEq, if_false]

/-- The identifiers of processes are positive, distinct and below `n`, and the next one is `n` as an `int`. -/
structure Pids (n : ℤ) (l : Table) : Prop where
  next : l.nextpid = int32 n ∧ 2 ≤ n
  bounds : ∀ i, (l.proc i).state ≠ .unused → 0 < (l.proc i).pid ∧ (l.proc i).pid < n
  distinct : ∀ i j, (l.proc i).state ≠ .unused → (l.proc j).state ≠ .unused
    → (l.proc i).pid = (l.proc j).pid → i = j

def isAlloc : Event → Bool
  | .body _ .alloc => true
  | _ => false

/-- The calls of `allocproc` in a run. -/
def allocs (es : List Event) : ℕ := es.countP isAlloc

theorem allocs_append (es : List Event) (e : Event) :
    allocs (es ++ [e]) = allocs es + if isAlloc e then 1 else 0 := by
  rw [allocs, List.countP_append, List.countP_singleton]
  rfl

theorem int32_of_lt {n : ℤ} (h0 : 0 ≤ n) (h : n < 2 ^ 31) : int32 n = n := by
  rw [int32, Int.bmod_def]
  omega

theorem Pids.same {n : ℤ} (h : Pids n l) (hnext : l'.nextpid = l.nextpid)
    (hsame : ∀ j, (l'.proc j).state ≠ .unused → (l.proc j).state ≠ .unused
      ∧ (l'.proc j).pid = (l.proc j).pid) :
    Pids n l' := by
  refine ⟨by rw [hnext]; exact h.next, fun i hi => ?_, fun i j hi hj hij => ?_⟩
  · obtain ⟨hold, hpid⟩ := hsame i hi
    rw [hpid]
    exact h.bounds i hold
  · obtain ⟨hi, hpi⟩ := hsame i hi
    obtain ⟨hj, hpj⟩ := hsame j hj
    exact h.distinct i j hi hj (by rw [← hpi, hij, hpj])

/-- **A new identifier is distinct** from those in use, while `nextpid` does not overflow. -/
theorem Pids.alloc {n : ℤ} {np : ℕ} (h : Pids n l) (hn : n < 2 ^ 31) (hpid : (l'.proc np).pid = l.nextpid)
    (hnext : l'.nextpid = int32 (l.nextpid + 1)) (hother : ∀ j, j ≠ np → l'.proc j = l.proc j) :
    Pids (n + 1) l' := by
  have hn0 := h.next.2
  have hl : l.nextpid = n := by rw [h.next.1, int32_of_lt (by omega) hn]
  refine ⟨⟨by rw [hnext, hl], by omega⟩, fun i hi => ?_, fun i j hi hj hij => ?_⟩
  · by_cases hin : i = np
    · rw [hin, hpid, hl]
      omega
    · rw [hother i hin] at hi ⊢
      have := h.bounds i hi
      omega
  · have hne : ∀ k, k ≠ np → (l'.proc k).state ≠ .unused → (l'.proc k).pid ≠ (l'.proc np).pid :=
        fun k hk hu hkp => by
      rw [hpid, hl, hother k hk] at hkp
      rw [hother k hk] at hu
      have := h.bounds k hu
      omega
    by_cases hin : i = np
    · by_cases hjn : j = np
      · rw [hin, hjn]
      · exact absurd (hin ▸ hij.symm) (hne j hjn hj)
    · by_cases hjn : j = np
      · exact absurd (hjn ▸ hij) (hne i hin hi)
      · rw [hother i hin] at hi hij
        rw [hother j hjn] at hj hij
        exact h.distinct i j hi hj hij

/-- **One step of the identifiers**: the processes of before keep theirs, and a new one gets `n`. -/
theorem pids_step {n : ℤ} (h : Inv s) (hp : Pids n s.table) (hn : n ≤ 2 + allocs es)
    (hfew : allocs (es ++ [e]) < 2 ^ 31 - 1) (hstep : machine.step s e = some t) :
    ∃ m : ℤ, n ≤ m ∧ m ≤ 2 + allocs (es ++ [e]) ∧ Pids m t.table ∧ ∀ i, (t.table.proc i).state ≠ .unused →
      (s.table.proc i).state ≠ .unused ∧ (t.table.proc i).pid = (s.table.proc i).pid
      ∨ (t.table.proc i).pid = n := by
  rw [allocs_append] at hfew ⊢
  rcases table_step h hstep with htab | ⟨p, op, r, hperf, hready, hdoes⟩
  · rw [htab]
    exact ⟨n, le_refl n, by push_cast; split_ifs <;> omega, hp, fun i hi => Or.inl ⟨hi, rfl⟩⟩
  · rcases does_pid h.ok hready hdoes with ⟨hnext, hsame⟩ | ⟨rfl, np, _, hpid, _, hnext, hother⟩
    · exact ⟨n, le_refl n, by push_cast; split_ifs <;> omega, hp.same hnext hsame,
        fun i hi => Or.inl (hsame i hi)⟩
    · have hal : isAlloc e = true := by
        generalize hop : Op.alloc = op at hperf
        cases hperf with
        | @body c p a => cases a <;> first | rfl | cases hop
        | @unlocked c p op _ hun =>
          rw [← hop] at hun
          cases hun
        | _ => cases hop
      rw [if_pos hal] at hfew ⊢
      have hn0 := hp.next.2
      refine ⟨n + 1, by omega, by push_cast; omega, hp.alloc (by omega) hpid hnext hother, fun i hi => ?_⟩
      by_cases hin : i = np
      · right
        rw [hin, hpid, hp.next.1, int32_of_lt (by omega) (by omega)]
      · rw [hother i hin] at hi ⊢
        exact Or.inl ⟨hi, rfl⟩

theorem pids_booted : Pids 2 booted := by
  have hone : ∀ {i}, (booted.proc i).state ≠ .unused → i = initproc := fun {i} hi => by
    by_contra hne
    exact hi (by rw [booted]; simp only [if_neg hne])
  refine ⟨⟨rfl, le_refl 2⟩, fun i hi => ?_, fun i j hi hj _ => ?_⟩
  · rw [hone hi]
    exact ⟨Int.one_pos, by decide⟩
  · rw [hone hi, hone hj]

end Xv6e.Process.TableSteps
