import Xv6e.Process.Ptable

/-!
# What the operations on the process table keep

A slot goes from `UNUSED` over `EMBRYO` to a live process, then to `ZOMBIE` and back.  The invariant ties the
slots to the places of the processes that work on them: an embryo belongs to one `fork`, the parent of a live
process or a zombie is alive, and a process that is asleep in `wait` has no zombie child.

* `Alive` — `SLEEPING`, `RUNNABLE` or `RUNNING`; `forking` — the slot that a `fork` fills;
* `Ok` — the invariant; `Woken` — what `wakeup1` may change;
* `Ok.does` — every operation of a running process keeps it.
-/

namespace Xv6e.Process.Lifecycle

open Ptable
open Function (update update_self update_apply update_of_ne)

/-- Neither free nor unfinished nor exited. -/
def Alive (x : ProcState) : Prop := x = .sleeping ∨ x = .runnable ∨ x = .running

instance (x : ProcState) : Decidable (Alive x) := inferInstanceAs (Decidable (_ ∨ _ ∨ _))

def forking : Place → Option ℕ
  | .stack np | .copy np | .parent np | .publish np => some np
  | _ => none

/-- **The invariant of the process table.** -/
structure Ok (l : Table) : Prop where
  range : ∀ i, (l.proc i).state ≠ .unused → i < NPROC
  /-- The slot that a `fork` fills is an embryo, and no other `fork` fills it. -/
  forks : ∀ p np, forking (l.place p) = some np → (l.proc np).state = .embryo
  once : ∀ p q np, forking (l.place p) = some np → forking (l.place q) = some np → p = q
  /-- A process in the middle of a call is alive. -/
  busy : ∀ p, l.place p ≠ .user → l.place p ≠ .dead → Alive (l.proc p).state
  publishing : ∀ p np, l.place p = .publish np → (l.proc np).parent = some p
  orphan : ∀ i, (l.proc i).state = .unused → (l.proc i).parent = none
  embryo : ∀ i q, (l.proc i).state = .embryo → (l.proc i).parent = some q → l.place q = .publish i
  /-- The parent of a process is alive. -/
  parents : ∀ i, i ≠ initproc → Alive (l.proc i).state ∨ (l.proc i).state = .zombie →
    ∃ q, (l.proc i).parent = some q ∧ Alive (l.proc q).state
  irrefl : ∀ i, (l.proc i).parent ≠ some i
  init : Alive (l.proc initproc).state ∧ (l.proc initproc).parent = none ∧ l.place initproc ≠ .exiting
  /-- A process asleep in `wait` has no zombie child. -/
  waiting : ∀ p, l.place p = .waiting → (l.proc p).state = .sleeping →
    (l.proc p).chan = some (.proc p) ∧ ∀ i, (l.proc i).parent = some p → (l.proc i).state ≠ .zombie

variable {l l' : Table} {p i np : ℕ}

theorem alive_running : Alive .running := Or.inr (Or.inr rfl)

theorem alive_runnable : Alive .runnable := Or.inr (Or.inl rfl)

theorem not_alive_embryo : ¬ Alive .embryo := by decide

theorem not_alive_unused : ¬ Alive .unused := by decide

theorem not_alive_zombie : ¬ Alive .zombie := by decide

theorem ok_booted : Ok booted := by
  have hstate : ∀ {i}, (booted.proc i).state ≠ .unused → i = initproc := fun {i} hi => by
    by_contra hne
    exact hi (by rw [booted]; simp only [if_neg hne])
  have hinit : booted.proc initproc = ⟨.runnable, 1, none, none, false, true, true⟩ := rfl
  have hparent : ∀ i, (booted.proc i).parent = none := fun i => by
    rw [booted]
    simp only
    split_ifs <;> rfl
  have hplace : ∀ p, booted.place p = .user := fun _ => rfl
  refine ⟨fun i hi => ?_, fun p np hp => ?_, fun p q np hp => ?_, fun p hp => absurd (hplace p) hp,
    fun p np hp => ?_, fun i _ => hparent i, fun i q _ hq => ?_, fun i hi halive => ?_, fun i hi => ?_, ?_,
    fun p hp => ?_⟩
  · rw [hstate hi]
    decide
  · rw [hplace] at hp
    cases hp
  · rw [hplace] at hp
    cases hp
  · rw [hplace] at hp
    cases hp
  · rw [hparent] at hq
    cases hq
  · refine absurd (hstate fun hu => ?_) hi
    rw [hu] at halive
    exact absurd halive (by decide)
  · rw [hparent] at hi
    cases hi
  · rw [hinit]
    exact ⟨alive_runnable, rfl, Place.noConfusion⟩
  · rw [hplace] at hp
    cases hp

/-! ### Changes among the live -/

section

variable (h : Ok l)
include h

/-- **Live processes change state or move**, and no parent and no `fork` changes. -/
theorem Ok.shuffle (hfork : ∀ q np, forking (l'.place q) = some np → forking (l.place q) = some np)
    (hpub : ∀ q np, l'.place q = .publish np ↔ l.place q = .publish np)
    (hbusy : ∀ q, l'.place q ≠ .user → l'.place q ≠ .dead → Alive (l.proc q).state)
    (hexit : l'.place initproc ≠ .exiting) (hparent : ∀ i, (l'.proc i).parent = (l.proc i).parent)
    (hstate : ∀ i, (l'.proc i).state = (l.proc i).state ∨ Alive (l.proc i).state ∧ Alive (l'.proc i).state)
    (hsleep : ∀ i, l'.place i = .waiting → (l'.proc i).state = .sleeping →
      l.place i = .waiting ∧ (l.proc i).state = .sleeping ∧ (l'.proc i).chan = (l.proc i).chan
      ∨ (l'.proc i).chan = some (.proc i) ∧ ∀ j, (l.proc j).parent = some i
      → (l.proc j).state ≠ .zombie) : Ok l' := by
  have halive : ∀ i, Alive (l'.proc i).state ↔ Alive (l.proc i).state := fun i => by
    rcases hstate i with hi | ⟨h1, h2⟩
    · rw [hi]
    · exact ⟨fun _ => h1, fun _ => h2⟩
  have hdead : ∀ i x, ¬ Alive x → ((l'.proc i).state = x ↔ (l.proc i).state = x) := fun i x hx => by
    rcases hstate i with hi | ⟨h1, h2⟩
    · rw [hi]
    · exact ⟨fun hi => absurd (hi ▸ h2) hx, fun hi => absurd (hi ▸ h1) hx⟩
  refine ⟨fun i hi => ?_, fun p np hp => ?_, fun p q np hp hq => ?_, fun p hp hp' => ?_, fun p np hp => ?_,
    fun i hi => ?_, fun i q hi hq => ?_, fun i hi halive' => ?_, fun i hi => ?_, ⟨?_, ?_, hexit⟩,
    fun p hp hs => ?_⟩
  · exact h.range i fun hu => hi ((hdead i _ not_alive_unused).mpr hu)
  · exact (hdead np _ not_alive_embryo).mpr (h.forks p np (hfork p np hp))
  · exact h.once p q np (hfork p np hp) (hfork q np hq)
  · exact (halive p).mpr (hbusy p hp hp')
  · rw [hparent]
    exact h.publishing p np ((hpub p np).mp hp)
  · rw [hparent]
    exact h.orphan i ((hdead i _ not_alive_unused).mp hi)
  · rw [hparent] at hq
    exact (hpub q i).mpr (h.embryo i q ((hdead i _ not_alive_embryo).mp hi) hq)
  · obtain ⟨q, hq, hqa⟩ := h.parents i hi (halive'.imp (halive i).mp (hdead i _ not_alive_zombie).mp)
    exact ⟨q, by rw [hparent, hq], (halive q).mpr hqa⟩
  · rw [hparent] at hi
    exact h.irrefl i hi
  · exact (halive initproc).mpr h.init.1
  · rw [hparent]
    exact h.init.2.1
  · have hwait : (l'.proc p).chan = some (.proc p) ∧ ∀ j, (l.proc j).parent = some p
        → (l.proc j).state ≠ .zombie := by
      rcases hsleep p hp hs with ⟨hp', hs', hchan⟩ | hnew
      · rw [hchan]
        exact h.waiting p hp' hs'
      · exact hnew
    refine ⟨hwait.1, fun i hi hzi => ?_⟩
    rw [hparent] at hi
    exact hwait.2 i hi ((hdead i _ not_alive_zombie).mp hzi)

theorem Ok.stay (hplace : l'.place = l.place) (hparent : ∀ i, (l'.proc i).parent = (l.proc i).parent)
    (hstate : ∀ i, (l'.proc i).state = (l.proc i).state ∨ Alive (l.proc i).state ∧ Alive (l'.proc i).state)
    (hsleep : ∀ i, l.place i = .waiting → (l'.proc i).state = .sleeping →
      (l.proc i).state = .sleeping ∧ (l'.proc i).chan = (l.proc i).chan
      ∨ (l'.proc i).chan = some (.proc i) ∧ ∀ j, (l.proc j).parent = some i
      → (l.proc j).state ≠ .zombie) : Ok l' := by
  refine h.shuffle ?_ ?_ ?_ ?_ hparent hstate ?_ <;> rw [hplace]
  · exact fun _ _ => id
  · exact fun _ _ => Iff.rfl
  · exact h.busy
  · exact h.init.2.2
  · exact fun i hi hs => (hsleep i hi hs).imp_left fun hold => ⟨hi, hold⟩

/-- **A process moves on**, and no slot changes but in fields that the invariant does not read. -/
theorem Ok.moveTo {x : Place} (hplace : l'.place = update l.place p x)
    (hproc : ∀ i, (l'.proc i).state = (l.proc i).state ∧ (l'.proc i).parent = (l.proc i).parent
      ∧ (l'.proc i).chan = (l.proc i).chan)
    (hfork : ∀ np, forking x = some np → forking (l.place p) = some np) (hbusy : Alive (l.proc p).state)
    (hpub : ∀ np, x ≠ .publish np) (hpub' : ∀ np, l.place p ≠ .publish np)
    (hwait : x = .waiting → (l.proc p).state ≠ .sleeping) (hexit : x = .exiting → p ≠ initproc) : Ok l' := by
  have hother : ∀ q, q ≠ p → l'.place q = l.place q := fun q hq => by rw [hplace, update_of_ne hq]
  have hself : l'.place p = x := by rw [hplace, update_self]
  refine h.shuffle (fun q np hq => ?_) (fun q np => ?_) (fun q hq hq' => ?_) (fun hx => ?_)
    (fun i => (hproc i).2.1) (fun i => Or.inl (hproc i).1) fun q hq hs => Or.inl ?_
  · by_cases hqp : q = p
    · rw [hqp, hself] at hq
      exact hqp ▸ hfork np hq
    · rwa [hother q hqp] at hq
  · by_cases hqp : q = p
    · rw [hqp, hself]
      exact iff_of_false (hpub np) (hpub' np)
    · rw [hother q hqp]
  · by_cases hqp : q = p
    · exact hqp ▸ hbusy
    · rw [hother q hqp] at hq hq'
      exact h.busy q hq hq'
  · by_cases hip : initproc = p
    · rw [hip, hself] at hx
      exact hexit hx hip.symm
    · rw [hother initproc hip] at hx
      exact h.init.2.2 hx
  · rw [(hproc q).1] at hs
    have hqp : q ≠ p := fun hqp => hwait (by rw [← hself, ← hqp, hq]) (hqp ▸ hs)
    rw [hother q hqp] at hq
    exact ⟨hq, hs, (hproc q).2.2⟩

/-! ### `fork` -/

theorem Ok.no_parent (hp : forking (l.place p) = some np) (hne : l.place p ≠ .publish np) :
    (l.proc np).parent = none := by
  cases hparent : (l.proc np).parent with
  | none => rfl
  | some q =>
    have hq := h.embryo np q (h.forks p np hp) hparent
    have hqp := h.once p q np hp (by rw [hq]; rfl)
    exact absurd (hqp ▸ hq) hne

/-- **A slot that is not alive changes**, by the hand of process `p`. -/
theorem Ok.fill (hlive : Alive (l.proc p).state) (hslot : ∀ i, i ≠ np → l'.proc i = l.proc i)
    (hplace : ∀ q, q ≠ p → l'.place q = l.place q ∨ q = np ∧ l'.place q = .user) (hlt : np < NPROC)
    (hdead : ¬ Alive (l.proc np).state) (hother : ∀ q, q ≠ p → forking (l.place q) ≠ some np)
    (hpub' : ∀ k, l.place p = .publish k → k = np)
    (hfork : ∀ k, forking (l'.place p) = some k → k = np ∧ (l'.proc np).state = .embryo)
    (hpub : ∀ k, l'.place p = .publish k → (l'.proc np).parent = some p)
    (hwait : l'.place p ≠ .waiting ∧ l'.place p ≠ .exiting) (hnew : (l'.proc np).state ≠ .zombie)
    (horphan : (l'.proc np).state = .unused → (l'.proc np).parent = none)
    (hembryo : ∀ q, (l'.proc np).state = .embryo → (l'.proc np).parent = some q → q = p
      ∧ l'.place p = .publish np) (hparent : Alive (l'.proc np).state → (l'.proc np).parent = some p)
      (hirrefl : (l'.proc np).parent ≠ some np) :
    Ok l' := by
  have hne : p ≠ np := fun hpn => hdead (hpn ▸ hlive)
  have hp := hslot p hne
  have hinit := hslot initproc fun hi => hdead (hi ▸ h.init.1)
  constructor
  · intro i hi
    by_cases hin : i = np
    · rw [hin]
      exact hlt
    · rw [hslot i hin] at hi
      exact h.range i hi
  · intro q k hq
    have := h.forks q k
    grind [forking]
  · intro q r k hq hr
    have := h.once q r k
    grind [forking]
  · intro q hq hq'
    have := h.busy q
    grind
  · intro q k hq
    have := h.publishing q k
    grind [forking]
  · intro i hi
    have := h.orphan i
    grind
  · intro i q hi hq
    by_cases hin : i = np
    · rw [hin] at hi hq ⊢
      obtain ⟨rfl, hpub⟩ := hembryo q hi hq
      exact hpub
    · rw [hslot i hin] at hi hq
      have hold := h.embryo i q hi hq
      have hqp : q ≠ p := fun hqp => hin (hpub' i (hqp ▸ hold))
      rcases hplace q hqp with hq | ⟨hqn, _⟩
      · rw [hq, hold]
      · -- a slot that is not alive is not in the middle of a `fork`
        rw [hqn] at hold
        exact absurd (h.busy np (by simp [hold]) (by simp [hold])) hdead
  · intro i hi halive
    by_cases hin : i = np
    · rw [hin] at halive ⊢
      exact ⟨p, hparent (halive.resolve_right hnew), by rw [hp]; exact hlive⟩
    · rw [hslot i hin] at halive ⊢
      obtain ⟨q, hq, hqa⟩ := h.parents i hi halive
      exact ⟨q, hq, by rw [hslot q fun hqn => hdead (hqn ▸ hqa)]; exact hqa⟩
  · intro i
    by_cases hin : i = np
    · rw [hin]
      exact hirrefl
    · rw [hslot i hin]
      exact h.irrefl i
  · rw [hinit]
    refine ⟨h.init.1, h.init.2.1, fun hx => ?_⟩
    by_cases hip : initproc = p
    · exact hwait.2 (hip ▸ hx)
    · rcases hplace initproc hip with hsame | ⟨_, huser⟩
      · rw [hsame] at hx
        exact h.init.2.2 hx
      · rw [huser] at hx
        cases hx
  · intro q hq hs
    have hqp : q ≠ p := fun hqp => hwait.1 (hqp ▸ hq)
    have hold : l.place q = .waiting := by
      rcases hplace q hqp with hsame | ⟨_, huser⟩
      · rw [← hsame, hq]
      · rw [huser] at hq
        cases hq
    have hqn : q ≠ np := fun hqn => by
      rw [hqn] at hold
      exact hdead (h.busy np (by simp [hold]) (by simp [hold]))
    rw [hslot q hqn] at hs ⊢
    obtain ⟨hc, hz⟩ := h.waiting q hold hs
    refine ⟨hc, fun i hi => ?_⟩
    by_cases hin : i = np
    · rw [hin]
      exact hnew
    · rw [hslot i hin] at hi ⊢
      exact hz i hi

theorem Ok.alloc (hp : Alive (l.proc p).state) (hplace : l.place p = .user) : Ok (allocproc l p).1 := by
  rw [allocproc]
  cases hfind : findUnused l with
  | none => exact h
  | some np =>
    obtain ⟨hlt, hfree⟩ := findUnused_some hfind
    have hnone := h.orphan np hfree
    have hother : ∀ q, forking (l.place q) ≠ some np := fun q hq => by
      have := h.forks q np hq
      rw [hfree] at this
      cases this
    refine h.fill hp (fun i hi => update_of_ne hi ..) (fun q hq => ?_) hlt
      (by rw [hfree]; exact not_alive_unused) (fun q _ => hother q)
      (fun k hk => by rw [hplace] at hk; cases hk) ?_ ?_ ?_ ?_ ?_ ?_ ?_ ?_
    all_goals simp only [Table.set_proc, Table.move_proc, Table.set_place, Table.move_place, update_self]
    · rw [update_of_ne hq]
      by_cases hqn : q = np
      · rw [hqn, update_self]
        exact Or.inr ⟨rfl, rfl⟩
      · exact Or.inl (update_of_ne hqn ..)
    · exact fun k hk => ⟨(Option.some.inj hk).symm, trivial⟩
    · exact fun k hk => by cases hk
    · exact ⟨Place.noConfusion, by simp⟩
    · simp
    · simp
    · exact fun q _ hq => by rw [hnone] at hq; cases hq
    · exact fun ha => absurd ha not_alive_embryo
    · rw [hnone]
      exact (Option.some_ne_none _).symm

/-- **A slot that is not alive is freed, published or given a parent** by process `p`, which goes on to
`x`. -/
theorem Ok.setSlot {q : Proc} {x : Place} (hlive : Alive (l.proc p).state) (hlt : np < NPROC)
    (hdead : ¬ Alive (l.proc np).state) (hother : ∀ r, r ≠ p → forking (l.place r) ≠ some np)
    (hpub : ∀ k, l.place p = .publish k → k = np)
    (hcase : x = .user ∧ (q.state = .unused ∧ q.parent = none ∨ q.state = .runnable ∧ q.parent = some p)
      ∨ x = .publish np ∧ q.state = .embryo ∧ q.parent = some p) : Ok ((l.set np q).move p x) := by
  have hne : p ≠ np := fun hpn => hdead (hpn ▸ hlive)
  refine h.fill hlive (fun i hi => update_of_ne hi ..) (fun r hr => Or.inl (update_of_ne hr ..)) hlt
    hdead hother hpub ?_ ?_ ?_ ?_ ?_ ?_ ?_ ?_
  all_goals simp only [Table.set_proc, Table.move_proc, Table.set_place, Table.move_place, update_self]
  all_goals rcases hcase with ⟨rfl, ⟨hs, hq⟩ | ⟨hs, hq⟩⟩ | ⟨rfl, hs, hq⟩ <;>
    simp [forking, hs, hq, hne, Alive, eq_comm]

theorem Ok.refill {q : Proc} {x : Place} (hp : Alive (l.proc p).state) (hfork : forking (l.place p) = some np)
    (hcase : x = .user ∧ (q.state = .unused ∧ q.parent = none ∨ q.state = .runnable ∧ q.parent = some p)
      ∨ x = .publish np ∧ q.state = .embryo ∧ q.parent = some p) : Ok ((l.set np q).move p x) := by
  have hembryo := h.forks p np hfork
  refine h.setSlot hp (h.range np ?_) ?_ (fun r hr hr' => hr (h.once r p np hr' hfork)) (fun k hk => ?_) hcase
  · rw [hembryo]
    simp
  · rw [hembryo]
    exact not_alive_embryo
  · rw [hk] at hfork
    exact Option.some.inj hfork

theorem Ok.undo (hp : Alive (l.proc p).state) (hfork : forking (l.place p) = some np)
    (hne : l.place p ≠ .publish np) {q : Proc} (hstate : q.state = .unused)
    (hparent : q.parent = (l.proc np).parent) : Ok ((l.set np q).move p .user) :=
  h.refill hp hfork (Or.inl ⟨rfl, Or.inl ⟨hstate, by rw [hparent, h.no_parent hfork hne]⟩⟩)

theorem Ok.setParent (hp : Alive (l.proc p).state) (hplace : l.place p = .parent np) :
    Ok (Ptable.setParent l p np) := by
  have hfork : forking (l.place p) = some np := by rw [hplace]; rfl
  exact h.refill hp hfork (Or.inr ⟨rfl, h.forks p np hfork, rfl⟩)

theorem Ok.publish (hp : Alive (l.proc p).state) (hplace : l.place p = .publish np) :
    Ok (Ptable.publish l p np).1 :=
  h.refill hp (by rw [hplace]; rfl) (Or.inl ⟨rfl, Or.inr ⟨rfl, h.publishing p np hplace⟩⟩)

/-! ### `wait` -/

theorem Ok.wait (hp : (l.proc p).state = .running) (hplace : l.place p = .user ∨ l.place p = .waiting) :
    Ok (Ptable.wait l p).1 := by
  have halive : Alive (l.proc p).state := hp ▸ alive_running
  have hfork : forking (l.place p) = none := by
    rcases hplace with hpl | hpl <;> rw [hpl] <;> rfl
  have hpub : ∀ k, l.place p ≠ .publish k := fun k hk => by
    rw [hk] at hfork
    cases hfork
  have hspec := scanChildren_spec l p (List.range NPROC) false
  rw [Ptable.wait]
  cases hscan : scanChildren l p (List.range NPROC) false with
  | child i =>
    rw [hscan] at hspec
    obtain ⟨hmem, _, hz⟩ := hspec
    have hother : ∀ q, forking (l.place q) ≠ some i := fun q hq => by
      have := h.forks q i hq
      rw [hz] at this
      cases this
    exact h.setSlot halive (List.mem_range.mp hmem) (by rw [hz]; exact not_alive_zombie) (fun q _ => hother q)
      (fun k hk => absurd hk (hpub k)) (Or.inl ⟨rfl, Or.inl ⟨rfl, rfl⟩⟩)
  | none =>
    exact h.moveTo (x := .user) rfl (fun _ => ⟨rfl, rfl, rfl⟩) (fun k hk => by cases hk) halive
      (fun _ => by simp) hpub (by simp) fun hx => by cases hx
  | sleep =>
    rw [hscan] at hspec
    have hmoved : Ok (l.move p .waiting) := h.moveTo (x := .waiting) rfl (fun _ => ⟨rfl, rfl, rfl⟩)
      (fun k hk => by cases hk) halive (fun _ => by simp) hpub
      (fun _ hs => by rw [hp] at hs; cases hs) fun hx => by cases hx
    refine hmoved.stay rfl (fun i => ?_) (fun i => ?_) fun i hi hs => ?_
    all_goals simp only [Ptable.sleep, Table.set_proc, Table.move_proc]
    · by_cases hip : i = p
      · rw [hip, update_self]
      · rw [update_of_ne hip]
    · by_cases hip : i = p
      · rw [hip, update_self]
        exact Or.inr ⟨halive, Or.inl rfl⟩
      · rw [update_of_ne hip]
        exact Or.inl rfl
    · by_cases hip : i = p
      · rw [hip, update_self]
        refine Or.inr ⟨rfl, fun j hj hz => ?_⟩
        exact hspec j (List.mem_range.mpr (h.range j (by simp [hz]))) hj hz
      · simp only [Ptable.sleep, Table.set_proc, Table.move_proc, update_of_ne hip] at hs ⊢
        exact Or.inl ⟨hs, trivial⟩

end

/-! ### `wakeup1` and `exit` -/

/-- Sleeping processes are made runnable, and nothing changes but states and parents. -/
structure Woken (l l' : Table) : Prop where
  place : l'.place = l.place
  nextpid : l'.nextpid = l.nextpid
  panic : l'.panic = l.panic
  slot : ∀ i, (l'.proc i).pid = (l.proc i).pid ∧ (l'.proc i).chan = (l.proc i).chan
    ∧ (l'.proc i).killed = (l.proc i).killed
  state : ∀ i, (l'.proc i).state = (l.proc i).state ∨ (l.proc i).state = .sleeping
    ∧ (l'.proc i).state = .runnable

theorem Woken.refl (l : Table) : Woken l l := ⟨rfl, rfl, rfl, fun _ => ⟨rfl, rfl, rfl⟩, fun _ => Or.inl rfl⟩

theorem Woken.trans {l'' : Table} (h : Woken l l') (h' : Woken l' l'') : Woken l l'' := by
  refine ⟨h'.place.trans h.place, h'.nextpid.trans h.nextpid, h'.panic.trans h.panic,
    fun i => ?_, fun i => ?_⟩
  · obtain ⟨h1, h2, h3⟩ := h.slot i
    obtain ⟨h1', h2', h3'⟩ := h'.slot i
    exact ⟨h1'.trans h1, h2'.trans h2, h3'.trans h3⟩
  · rcases h.state i with hs | ⟨hs, hr⟩
    · rw [← hs]
      exact h'.state i
    · rcases h'.state i with hs' | ⟨hs', _⟩
      · exact Or.inr ⟨hs, hs'.trans hr⟩
      · rw [hr] at hs'
        cases hs'

theorem Woken.same (h : Woken l l') (hi : (l.proc i).state ≠ .sleeping) :
    (l'.proc i).state = (l.proc i).state :=
  (h.state i).resolve_right fun hs => hi hs.1

theorem Woken.asleep (h : Woken l l') (hi : (l'.proc i).state = .sleeping) :
    (l.proc i).state = .sleeping := by
  rcases h.state i with hs | ⟨hs, _⟩
  · rw [← hs, hi]
  · exact hs

theorem Woken.alive (h : Woken l l') : Alive (l'.proc i).state ↔ Alive (l.proc i).state := by
  rcases h.state i with hs | ⟨hs, hr⟩
  · rw [hs]
  · rw [hs, hr]
    decide

theorem woken_wakeup1 (chan : Option Chan) (l : Table) : Woken l (wakeup1 chan l) := by
  refine ⟨rfl, rfl, rfl, fun i => ?_, fun i => ?_⟩ <;> simp only [wakeup1, wake_eq]
  · split_ifs <;> exact ⟨rfl, rfl, rfl⟩
  · by_cases hw : i < NPROC ∧ (l.proc i).state = .sleeping ∧ (l.proc i).chan = chan
    · rw [if_pos hw.1, if_pos hw.2]
      exact Or.inr ⟨hw.2.1, rfl⟩
    · refine Or.inl ?_
      by_cases hi : i < NPROC
      · rw [if_pos hi, if_neg fun hc => hw ⟨hi, hc⟩]
      · rw [if_neg hi]

theorem wakeup1_parent (chan : Option Chan) (l : Table) (i : ℕ) :
    ((wakeup1 chan l).proc i).parent = (l.proc i).parent := by
  simp only [wakeup1, wake_eq]
  split_ifs <;> rfl

/-- **`wakeup1` leaves nobody asleep** on the channel. -/
theorem wakeup1_awake {chan : Option Chan} (hi : i < NPROC) (hchan : (l.proc i).chan = chan) :
    ((wakeup1 chan l).proc i).state ≠ .sleeping := by
  simp only [wakeup1, wake_eq, if_pos hi]
  by_cases hs : (l.proc i).state = .sleeping
  · rw [if_pos ⟨hs, hchan⟩]
    simp
  · rwa [if_neg fun hc => hs hc.1]

theorem woken_adopt (l : Table) (i : ℕ) : Woken l (adopt l i) := by
  refine ⟨rfl, rfl, rfl, fun j => ?_, fun j => ?_⟩ <;> rw [adopt, Table.set_proc] <;> by_cases hj : j = i
  · rw [hj, update_self]
    exact ⟨rfl, rfl, rfl⟩
  · rw [update_of_ne hj]
    exact ⟨rfl, rfl, rfl⟩
  · rw [hj, update_self]
    exact Or.inl rfl
  · rw [update_of_ne hj]
    exact Or.inl rfl

theorem adopt_parent (l : Table) (i j : ℕ) :
    ((adopt l i).proc j).parent = if j = i then some initproc else (l.proc j).parent := by
  rw [adopt, Table.set_proc, update_apply]
  split_ifs <;> rfl

theorem woken_passChild (p : ℕ) (l : Table) (i : ℕ) : Woken l (passChild p l i) := by
  rw [passChild]
  split_ifs
  · exact (woken_adopt l i).trans (woken_wakeup1 _ _)
  · exact woken_adopt l i
  · exact Woken.refl l

theorem passChild_parent (p : ℕ) (l : Table) (i j : ℕ) : ((passChild p l i).proc j).parent
    = if j = i ∧ (l.proc j).parent = some p then some initproc else (l.proc j).parent := by
  rw [passChild]
  by_cases hp : (l.proc i).parent = some p
  · rw [if_pos hp]
    have hadopt : ((adopt l i).proc j).parent
        = if j = i ∧ (l.proc j).parent = some p then some initproc else (l.proc j).parent := by
      rw [adopt_parent]
      by_cases hj : j = i
      · rw [if_pos hj, hj, if_pos ⟨rfl, hp⟩]
      · rw [if_neg hj, if_neg fun hc => hj hc.1]
    rw [← hadopt, apply_ite (fun t : Table => (t.proc j).parent), wakeup1_parent, ite_self]
  · rw [if_neg hp, if_neg]
    rintro ⟨rfl, hc⟩
    exact hp hc

theorem passChild_awake (hp : (l.proc i).parent = some p) (hz : (l.proc i).state = .zombie)
    (hc : (l.proc initproc).chan = some (.proc initproc)) :
    ((passChild p l i).proc initproc).state ≠ .sleeping := by
  have hadopt := woken_adopt l i
  have hstate : ((adopt l i).proc i).state = .zombie := by
    rw [hadopt.same (by simp [hz]), hz]
  rw [passChild, if_pos hp, if_pos hstate]
  exact wakeup1_awake (by decide) (by rw [(hadopt.slot initproc).2.1, hc])

theorem woken_reparent (p : ℕ) (xs : List ℕ) (l : Table) : Woken l (xs.foldl (passChild p) l) := by
  induction xs generalizing l with
  | nil => exact Woken.refl l
  | cons i rest ih => exact (woken_passChild p l i).trans (ih _)

/-- **The loop of `exit`**: the children of `p` are passed to `initproc`, which is woken if one of them is a
zombie. -/
theorem reparent_spec (hp : p ≠ initproc) (xs : List ℕ) (l : Table) :
    (∀ j, ((xs.foldl (passChild p) l).proc j).parent
        = if j ∈ xs ∧ (l.proc j).parent = some p then some initproc else (l.proc j).parent)
    ∧ ((l.proc initproc).chan = some (.proc initproc) →
        (∃ j ∈ xs, (l.proc j).parent = some p ∧ (l.proc j).state = .zombie) →
        ((xs.foldl (passChild p) l).proc initproc).state ≠ .sleeping) := by
  induction xs generalizing l with
  | nil =>
    refine ⟨fun j => ?_, ?_⟩
    · rw [if_neg fun hc => by cases hc.1]
      rfl
    · rintro _ ⟨j, hj, _⟩
      cases hj
  | cons i rest ih =>
    rw [List.foldl_cons]
    have hpass := woken_passChild p l i
    have hw := woken_reparent p rest (passChild p l i)
    obtain ⟨hparent, hawake⟩ := ih (passChild p l i)
    refine ⟨fun j => ?_, ?_⟩
    · rw [hparent j, passChild_parent]
      have hinit : some initproc ≠ some p := fun hc => hp (Option.some.inj hc).symm
      by_cases hj : (l.proc j).parent = some p
      · by_cases hji : j = i
        · rw [if_pos (⟨hji, hj⟩ : j = i ∧ _), if_neg fun hc => hinit hc.2,
            if_pos ⟨hji ▸ List.mem_cons_self, hj⟩]
        · rw [if_neg (fun hc => hji hc.1 : ¬ (j = i ∧ (l.proc j).parent = some p))]
          simp only [List.mem_cons, hji, false_or]
      · rw [if_neg (fun hc => hj hc.2 : ¬ (j = i ∧ (l.proc j).parent = some p)), if_neg fun hc => hj hc.2,
          if_neg fun hc => hj hc.2]
    · rintro hchan ⟨j, hj, hjp, hjz⟩ hs
      rcases List.mem_cons.mp hj with rfl | hj
      · exact passChild_awake hjp hjz hchan (hw.asleep hs)
      · have hchan' : ((passChild p l i).proc initproc).chan = some (.proc initproc) := by
          rw [(hpass.slot initproc).2.1, hchan]
        by_cases hji : j = i
        · exact passChild_awake (hji ▸ hjp) (hji ▸ hjz) hchan (hw.asleep hs)
        · refine hawake hchan' ⟨j, hj, ?_, ?_⟩ hs
          · rw [passChild_parent, if_neg fun hc => hji hc.1, hjp]
          · rw [hpass.same (by simp [hjz]), hjz]

/-- What the locked section of `exit` does to the other slots. -/
theorem zombie_spec (h : Ok l) (hp : p ≠ initproc) :
    ∃ l₂ : Table, Ptable.zombie l p = (l₂.set p { l₂.proc p with state := .zombie }).move p .dead ∧ Woken l l₂
      ∧ (∀ j, (l₂.proc j).parent = if (l.proc j).parent = some p then some initproc else (l.proc j).parent)
      ∧ (∀ q, (l.proc p).parent = some q → (l.proc q).chan = some (.proc q)
      → (l₂.proc q).state ≠ .sleeping ∨ NPROC ≤ q) ∧ ((l.proc initproc).chan = some (.proc initproc) →
        (∃ j, (l.proc j).parent = some p ∧ (l.proc j).state = .zombie) → (l₂.proc initproc).state
        ≠ .sleeping) := by
  have hw := woken_wakeup1 ((l.proc p).parent.map Chan.proc) l
  have hw' := woken_reparent p (List.range NPROC) (wakeup1 ((l.proc p).parent.map Chan.proc) l)
  obtain ⟨hparent, hinit⟩ := reparent_spec hp (List.range NPROC) (wakeup1 ((l.proc p).parent.map Chan.proc) l)
  refine ⟨_, rfl, hw.trans hw', fun j => ?_, fun q hq hc => ?_, fun hc hz => ?_⟩
  · rw [hparent j, wakeup1_parent]
    by_cases hj : (l.proc j).parent = some p
    · have hused : (l.proc j).state ≠ .unused := fun hu => by
        rw [h.orphan j hu] at hj
        cases hj
      rw [if_pos ⟨List.mem_range.mpr (h.range j hused), hj⟩, if_pos hj]
    · rw [if_neg fun hc => hj hc.2, if_neg hj]
  · by_cases hlt : q < NPROC
    · refine Or.inl fun hs => ?_
      have hs := hw'.asleep hs
      rw [hq] at hs
      exact wakeup1_awake hlt hc hs
    · exact Or.inr (not_lt.mp hlt)
  · obtain ⟨j, hj, hjz⟩ := hz
    have hused : (l.proc j).state ≠ .unused := by simp [hjz]
    refine hinit (by rw [(hw.slot initproc).2.1, hc]) ⟨j, List.mem_range.mpr (h.range j hused), ?_, ?_⟩
    · rw [wakeup1_parent, hj]
    · rw [hw.same (by simp [hjz]), hjz]

theorem Ok.zombie (h : Ok l) (hp : (l.proc p).state = .running) (hplace : l.place p = .exiting) :
    Ok (Ptable.zombie l p) := by
  have hne : p ≠ initproc := fun hpi => h.init.2.2 (hpi ▸ hplace)
  obtain ⟨l₂, hl, hw, hparent, hawake, hinit⟩ := zombie_spec h hne
  rw [hl]
  have hother : ∀ i, i ≠ p → ((l₂.set p { l₂.proc p with state := .zombie }).move p .dead).proc i
      = l₂.proc i :=
    fun i hi => update_of_ne hi ..
  have hself : ((l₂.set p { l₂.proc p with state := .zombie }).move p .dead).proc p
      = { l₂.proc p with state := .zombie } := update_self ..
  have hplaces : ∀ q, q ≠ p → ((l₂.set p { l₂.proc p with state := .zombie }).move p .dead).place q
      = l.place q :=
    fun q hq => (update_of_ne hq ..).trans (congrFun hw.place q)
  have hplacep : ((l₂.set p { l₂.proc p with state := .zombie }).move p .dead).place p = .dead :=
    update_self ..
  generalize (l₂.set p { l₂.proc p with state := .zombie }).move p .dead = l' at *
  have hparents : ∀ i, (l'.proc i).parent = if (l.proc i).parent = some p then some initproc
      else (l.proc i).parent := by
    intro i
    rw [← hparent i]
    by_cases hi : i = p
    · rw [hi, hself]
    · rw [hother i hi]
  -- the live processes other than `p` are the same
  have halive : ∀ i, i ≠ p → (Alive (l'.proc i).state ↔ Alive (l.proc i).state) := fun i hi => by
    rw [hother i hi, hw.alive]
  have hdead : ∀ i x, i ≠ p → x ≠ .sleeping → x ≠ .runnable
      → ((l'.proc i).state = x ↔ (l.proc i).state = x) := by
    intro i x hi hx hx'
    rw [hother i hi]
    rcases hw.state i with hs | ⟨hs, hr⟩
    · rw [hs]
    · rw [hs, hr]
      exact ⟨fun hc => absurd hc.symm hx', fun hc => absurd hc.symm hx⟩
  have hforks : ∀ q np, forking (l'.place q) = some np → q ≠ p ∧ forking (l.place q) = some np :=
      fun q np hq => by
    by_cases hqp : q = p
    · rw [hqp, hplacep] at hq
      cases hq
    · rw [hplaces q hqp] at hq
      exact ⟨hqp, hq⟩
  have hkeep : ∀ i q, (l.proc i).parent = some q → q ≠ p → (l'.proc i).parent = some q := fun i q hi hq => by
    rw [hparents, hi, if_neg fun hc => hq (Option.some.inj hc)]
  constructor
  · intro i hi
    by_cases hip : i = p
    · rw [hip]
      exact h.range p (by simp [hp])
    · exact h.range i fun hu => hi ((hdead i _ hip (by simp) (by simp)).mpr hu)
  · intro q np hq
    obtain ⟨_, hq⟩ := hforks q np hq
    have hembryo := h.forks q np hq
    refine (hdead np _ ?_ (by simp) (by simp)).mpr hembryo
    rintro rfl
    rw [hp] at hembryo
    cases hembryo
  · intro q r np hq hr
    exact h.once q r np (hforks q np hq).2 (hforks r np hr).2
  · intro q hq hq'
    have hqp : q ≠ p := fun hqp => hq' (hqp ▸ hplacep)
    rw [hplaces q hqp] at hq hq'
    exact (halive q hqp).mpr (h.busy q hq hq')
  · intro q np hq
    obtain ⟨hqp, _⟩ := hforks q np (by rw [hq]; rfl)
    rw [hplaces q hqp] at hq
    exact hkeep np q (h.publishing q np hq) hqp
  · intro i hi
    have hip : i ≠ p := fun hip => by
      rw [hip, hself] at hi
      cases hi
    have hu := h.orphan i ((hdead i _ hip (by simp) (by simp)).mp hi)
    rw [hparents, hu, if_neg (Option.some_ne_none p).symm]
  · intro i q hi hq
    have hip : i ≠ p := fun hip => by
      rw [hip, hself] at hi
      cases hi
    have hi := (hdead i _ hip (by simp) (by simp)).mp hi
    rw [hparents] at hq
    have hip' : (l.proc i).parent ≠ some p := fun hc => by
      have := h.embryo i p hi hc
      rw [hplace] at this
      cases this
    rw [if_neg hip'] at hq
    rw [hplaces q fun hqp => hip' (hqp ▸ hq)]
    exact h.embryo i q hi hq
  · intro i hi hlive
    have hinit' : Alive (l'.proc initproc).state := (halive initproc hne.symm).mpr h.init.1
    by_cases hchild : (l.proc i).parent = some p
    · exact ⟨initproc, by rw [hparents, if_pos hchild], hinit'⟩
    · have hold : Alive (l.proc i).state ∨ (l.proc i).state = .zombie := by
        by_cases hip : i = p
        · rw [hip, hp]
          exact Or.inl alive_running
        · exact hlive.imp (halive i hip).mp (hdead i _ hip (by simp) (by simp)).mp
      obtain ⟨q, hq, hqa⟩ := h.parents i hi hold
      have hqp : q ≠ p := fun hqp => hchild (hqp ▸ hq)
      exact ⟨q, hkeep i q hq hqp, (halive q hqp).mpr hqa⟩
  · intro i hi
    rw [hparents] at hi
    split_ifs at hi with hchild
    · have := h.init.2.1
      rw [Option.some.inj hi, hchild] at this
      cases this
    · exact h.irrefl i hi
  · refine ⟨(halive initproc hne.symm).mpr h.init.1, ?_, ?_⟩
    · rw [hparents, h.init.2.1, if_neg (Option.some_ne_none p).symm]
    · rw [hplaces initproc hne.symm]
      exact h.init.2.2
  · intro q hq hs
    have hqp : q ≠ p := fun hqp => by
      rw [hqp, hplacep] at hq
      cases hq
    rw [hplaces q hqp] at hq
    rw [hother q hqp] at hs ⊢
    obtain ⟨hc, hz⟩ := h.waiting q hq (hw.asleep hs)
    refine ⟨by rw [(hw.slot q).2.1, hc], fun i hi hiz => ?_⟩
    rw [hparents] at hi
    by_cases hip : i = p
    · -- the exiting process: its parent has been woken
      have hself' : (l.proc p).parent ≠ some p := h.irrefl p
      rw [hip, if_neg hself'] at hi
      have hlt := h.range q (by rw [hw.asleep hs]; exact by simp)
      rcases hawake q hi hc with hn | hn
      · exact hn hs
      · omega
    · have hiz := (hdead i _ hip (by simp) (by simp)).mp hiz
      by_cases hchild : (l.proc i).parent = some p
      · -- a zombie passed to `initproc`, which has been woken
        rw [if_pos hchild] at hi
        obtain rfl := Option.some.inj hi
        exact hinit hc ⟨i, hchild, hiz⟩ hs
      · rw [if_neg hchild] at hi
        exact hz i hi hiz

/-! ### All operations -/

theorem kill_spec (l : Table) (pid : ℤ) :
    (∃ i < NPROC, (l.proc i).pid = pid ∧ Ptable.kill l pid = (l.set i { l.proc i with
      killed := true, state := if (l.proc i).state = .sleeping then .runnable
      else (l.proc i).state }, some 0))
    ∨ (∀ i < NPROC, (l.proc i).pid ≠ pid) ∧ Ptable.kill l pid = (l, some (-1)) := by
  rw [Ptable.kill]
  cases hfind : (List.range NPROC).find? fun i => decide ((l.proc i).pid = pid) with
  | none =>
    refine Or.inr ⟨fun i hi hpid => ?_, rfl⟩
    have := List.find?_eq_none.mp hfind i (List.mem_range.mpr hi)
    exact this (decide_eq_true hpid)
  | some i =>
    have hpid := List.find?_some hfind
    exact Or.inl ⟨i, List.mem_range.mp (List.mem_of_find?_eq_some hfind), of_decide_eq_true hpid, rfl⟩

theorem sameSlot_set {q : Proc} (h : q.state = (l.proc np).state ∧ q.parent = (l.proc np).parent
    ∧ q.chan = (l.proc np).chan) (i : ℕ) : ((l.set np q).proc i).state = (l.proc i).state
      ∧ ((l.set np q).proc i).parent = (l.proc i).parent ∧ ((l.set np q).proc i).chan = (l.proc i).chan := by
  rw [Table.set_proc]
  by_cases hi : i = np
  · rw [hi, update_self]
    exact h
  · rw [update_of_ne hi]
    exact ⟨rfl, rfl, rfl⟩

theorem Ok.setAlive (h : Ok l) {q : Proc} (hparent : q.parent = (l.proc i).parent)
    (hstate : q.state = (l.proc i).state ∨ Alive (l.proc i).state ∧ Alive q.state)
    (hsleep : l.place i = .waiting → q.state = .sleeping → (l.proc i).state = .sleeping
    ∧ q.chan = (l.proc i).chan) : Ok (l.set i q) := by
  refine h.stay rfl (fun j => ?_) (fun j => ?_) fun j hj hs => Or.inl ?_
  all_goals rw [Table.set_proc] at *
  all_goals by_cases hji : j = i
  · rw [hji, update_self, hparent]
  · rw [update_of_ne hji]
  · rw [hji, update_self]
    exact hstate
  · rw [update_of_ne hji]
    exact Or.inl rfl
  · rw [hji, update_self] at hs ⊢
    exact hsleep (hji ▸ hj) hs
  · rw [update_of_ne hji] at hs ⊢
    exact ⟨hs, rfl⟩

theorem Ok.kill (h : Ok l) (pid : ℤ) : Ok (Ptable.kill l pid).1 := by
  rcases kill_spec l pid with ⟨i, _, _, hk⟩ | ⟨_, hk⟩
  · rw [hk]
    refine h.setAlive rfl ?_ fun _ hs => ?_
    · by_cases hs : (l.proc i).state = .sleeping
      · simp only [if_pos hs]
        exact Or.inr ⟨Or.inl hs, alive_runnable⟩
      · simp only [if_neg hs]
        exact Or.inl trivial
    · simp only at hs
      split_ifs at hs with hs'
      exact absurd hs hs'
  · rw [hk]
    exact h

/-- The state of the process that performs an operation. -/
def Ready (l : Table) (p : ℕ) : Op → Prop
  | .wakeup _ => True
  | .dispatch => (l.proc p).state = .runnable
  | _ => (l.proc p).state = .running

/-- **Every operation of a running process keeps the invariant.** -/
theorem Ok.does (h : Ok l) {op : Op} {r : Option ℤ} (hready : Ready l p op)
    (hdoes : Does l p op l' r) : Ok l' := by
  have hrun : ∀ {x}, (l.proc p).state = x → x = .running → Alive (l.proc p).state := fun hx hr => by
    rw [hx, hr]
    exact alive_running
  cases hdoes with
  | alloc hplace => exact h.alloc (hrun hready rfl) hplace
  | @kalloc np ok hplace =>
    have hfork : forking (l.place p) = some np := by rw [hplace]; rfl
    have hne : ∀ k, l.place p ≠ .publish k := fun k hk => by rw [hplace] at hk; cases hk
    cases ok with
    | false => exact h.undo (hrun hready rfl) hfork (hne np) rfl rfl
    | true =>
      refine h.moveTo (x := .copy np) rfl (fun i => ?_) (fun k hk => hk ▸ hfork) (hrun hready rfl)
        (fun _ => by simp) hne (by simp) fun hx => by cases hx
      exact sameSlot_set (q := { l.proc np with kstack := true }) ⟨rfl, rfl, rfl⟩ i
  | @copyuvm np ok hplace =>
    have hfork : forking (l.place p) = some np := by rw [hplace]; rfl
    have hne : ∀ k, l.place p ≠ .publish k := fun k hk => by rw [hplace] at hk; cases hk
    cases ok with
    | false => exact h.undo (hrun hready rfl) hfork (hne np) rfl rfl
    | true =>
      refine h.moveTo (x := .parent np) rfl (fun i => ?_) (fun k hk => hk ▸ hfork) (hrun hready rfl)
        (fun _ => by simp) hne (by simp) fun hx => by cases hx
      exact sameSlot_set (q := { l.proc np with pgdir := true }) ⟨rfl, rfl, rfl⟩ i
  | setParent hplace => exact h.setParent (hrun hready rfl) hplace
  | publish hplace => exact h.publish (hrun hready rfl) hplace
  | exit hplace =>
    rw [Ptable.exit]
    split_ifs with hp
    · exact h.stay rfl (fun _ => rfl) (fun _ => Or.inl rfl) fun _ _ hs => Or.inl ⟨hs, rfl⟩
    · exact h.moveTo (x := .exiting) rfl (fun _ => ⟨rfl, rfl, rfl⟩) (fun k hk => by cases hk)
        (hrun hready rfl)
        (fun _ => by simp) (fun k hk => by rw [hplace] at hk; cases hk) (by simp) fun _ => hp
  | zombie hplace => exact h.zombie hready hplace
  | wait hplace => exact h.wait hready hplace
  | kill pid hplace => exact h.kill pid
  | fault hplace => exact h.setAlive rfl (Or.inl rfl) fun _ hs => ⟨hs, rfl⟩
  | yield => exact h.setAlive rfl (Or.inr ⟨hrun hready rfl, alive_runnable⟩) fun _ hs => by cases hs
  | sleep n hplace =>
    refine h.setAlive rfl (Or.inr ⟨hrun hready rfl, Or.inl rfl⟩) fun hw => ?_
    rcases hplace with hp | hp <;> rw [hp] at hw <;> cases hw
  | tidy =>
    refine h.setAlive rfl (Or.inl rfl) fun _ hs => ?_
    have hready : (l.proc p).state = .running := hready
    have hs : (l.proc p).state = .sleeping := hs
    rw [hready] at hs
    cases hs
  | wakeup n =>
    have hw := woken_wakeup1 (some (.other n)) l
    refine h.stay rfl (wakeup1_parent _ l) (fun i => ?_) fun i _ hs => Or.inl ⟨hw.asleep hs, (hw.slot i).2.1⟩
    rcases hw.state i with hs | ⟨hs, hr⟩
    · exact Or.inl hs
    · exact Or.inr ⟨Or.inl hs, hr ▸ alive_runnable⟩
  | dispatch =>
    have hready : (l.proc p).state = .runnable := hready
    exact h.setAlive rfl (Or.inr ⟨hready ▸ alive_runnable, alive_running⟩) fun _ hs => by cases hs

/-! ### What an operation does to a slot -/

variable {P : Prop} {j : ℕ} {op : Op} {r : Option ℤ}

/-- **What an operation of process `p` makes of slot `j`.** -/
inductive Turn (l : Table) (p j : ℕ) (op : Op) : Proc → Prop
  | same : Turn l p j op (l.proc j)
  | own {q : Proc} (hj : j = p) (hop : ∀ n, op ≠ .wakeup n) (hpid : q.pid = (l.proc j).pid)
    (hkilled : q.killed = (l.proc j).killed ∨ op = .fault)
    (hstate : q.state = .unused → (l.proc j).state = .unused) : Turn l p j op q
  | woken {q : Proc} (hop : op = .zombie ∨ ∃ n, op = .wakeup n) (hpid : q.pid = (l.proc j).pid)
    (hkilled : q.killed = (l.proc j).killed)
    (hstate : q.state = (l.proc j).state ∨ (l.proc j).state = .sleeping ∧ q.state = .runnable) :
    Turn l p j op q
  | take (hop : op = .alloc) (hfree : (l.proc j).state = .unused) :
    Turn l p j op { l.proc j with state := .embryo, pid := l.nextpid }
  | fill {q : Proc} (hfork : forking (l.place p) = some j) (hpid : q.pid = (l.proc j).pid)
    (hkilled : q.killed = (l.proc j).killed) (hstate : q.state = (l.proc j).state) : Turn l p j op q
  | undo {q : Proc} (hop : op = .kalloc false ∨ op = .copyuvm false) (hfork : forking (l.place p) = some j)
    (hkilled : q.killed = (l.proc j).killed) (hstate : q.state = .unused) : Turn l p j op q
  | publish (hop : op = .publish) (hplace : l.place p = .publish j) :
      Turn l p j op { l.proc j with state := .runnable }
  | reap (hop : op = .wait) (hparent : (l.proc j).parent = some p) (hz : (l.proc j).state = .zombie)
    (hv : (Ptable.wait l p).2 = some (l.proc j).pid) :
    Turn l p j op { l.proc j with
      kstack := false, pid := 0, parent := none, killed := false, state := .unused }
  | kill (hop : op = .kill (l.proc j).pid) (hj : j < NPROC) :
    Turn l p j op { l.proc j with
      killed := true, state := if (l.proc j).state = .sleeping then .runnable else (l.proc j).state }

theorem turn_set {q : Proc} (h : j = np → Turn l p j op q) : Turn l p j op ((l.set np q).proc j) := by
  rw [Table.set_proc]
  by_cases hj : j = np
  · rw [hj, update_self, ← hj]
    exact h hj
  · rw [update_of_ne hj]
    exact .same

theorem Woken.turn (h : Woken l l') (hop : op = .zombie ∨ ∃ n, op = .wakeup n) : Turn l p j op (l'.proc j) :=
  .woken hop (h.slot j).1 (h.slot j).2.2 (h.state j)

/-- **Every operation turns slots.** -/
theorem Ok.turn (h : Ok l) (hdoes : Does l p op l' r) (j : ℕ) : Turn l p j op (l'.proc j) := by
  have hown : ∀ {q : Proc}, (∀ n, op ≠ .wakeup n) → q.pid = (l.proc p).pid
    → (q.killed = (l.proc p).killed ∨ op = .fault) →
      (q.state = .unused → (l.proc p).state = .unused) → Turn l p j op ((l.set p q).proc j) :=
    fun hop hpid hkilled hstate => turn_set fun hj => .own hj hop (hj ▸ hpid) (hj ▸ hkilled) (hj ▸ hstate)
  cases hdoes with
  | alloc hplace =>
    rw [allocproc]
    cases hfind : findUnused l with
    | none => exact .same
    | some np =>
      refine turn_set (l := { l with nextpid := _ }) ?_
      rintro rfl
      exact .take rfl (findUnused_some hfind).2
  | @kalloc np ok hplace =>
    have hfork : forking (l.place p) = some np := by rw [hplace]; rfl
    cases ok with
    | true => exact turn_set fun hj => .fill (hj ▸ hfork) (hj ▸ rfl) (hj ▸ rfl) (hj ▸ rfl)
    | false => exact turn_set fun hj => .undo (Or.inl rfl) (hj ▸ hfork) (hj ▸ rfl) rfl
  | @copyuvm np ok hplace =>
    have hfork : forking (l.place p) = some np := by rw [hplace]; rfl
    cases ok with
    | true => exact turn_set fun hj => .fill (hj ▸ hfork) (hj ▸ rfl) (hj ▸ rfl) (hj ▸ rfl)
    | false => exact turn_set fun hj => .undo (Or.inr rfl) (hj ▸ hfork) (hj ▸ rfl) rfl
  | @setParent np hplace =>
    have hfork : forking (l.place p) = some np := by rw [hplace]; rfl
    exact turn_set fun hj => .fill (hj ▸ hfork) (hj ▸ rfl) (hj ▸ rfl) (hj ▸ rfl)
  | publish hplace =>
    refine turn_set ?_
    rintro rfl
    exact .publish rfl hplace
  | exit hplace =>
    rw [Ptable.exit]
    split_ifs <;> exact .same
  | zombie hplace =>
    obtain ⟨l₂, hl, hw, _⟩ := zombie_spec h fun hpi => h.init.2.2 (hpi ▸ hplace)
    rw [hl]
    by_cases hj : j = p
    · rw [Table.move_proc, Table.set_proc, hj, update_self]
      exact .own rfl (by simp) (hw.slot p).1 (Or.inl (hw.slot p).2.2) fun hu => by cases hu
    · rw [Table.move_proc, Table.set_proc, update_of_ne hj]
      exact hw.turn (Or.inl rfl)
  | wait hplace =>
    have hspec := scanChildren_spec l p (List.range NPROC) false
    cases hscan : scanChildren l p (List.range NPROC) false with
    | child i =>
      rw [hscan] at hspec
      have hv : (Ptable.wait l p).2 = some (l.proc i).pid := by rw [Ptable.wait, hscan]
      rw [Ptable.wait, hscan]
      refine turn_set ?_
      rintro rfl
      exact .reap rfl hspec.2.1 hspec.2.2 hv
    | none =>
      rw [Ptable.wait, hscan]
      exact .same
    | sleep =>
      rw [Ptable.wait, hscan]
      exact hown (by simp) rfl (Or.inl rfl) fun hu => by cases hu
  | kill pid hplace =>
    rcases kill_spec l pid with ⟨i, hi, rfl, hk⟩ | ⟨_, hk⟩ <;> rw [hk]
    · refine turn_set ?_
      rintro rfl
      exact .kill rfl hi
    · exact .same
  | fault hplace => exact hown (by simp) rfl (Or.inr rfl) id
  | tidy => exact hown (by simp) rfl (Or.inl rfl) id
  | yield | sleep | dispatch => exact hown (by simp) rfl (Or.inl rfl) fun hu => by cases hu
  | wakeup n => exact (woken_wakeup1 _ l).turn (Or.inr ⟨n, rfl⟩)

theorem Ready.alive (h : Ready l p op) (hop : ∀ n, op ≠ .wakeup n) : Alive (l.proc p).state := by
  cases op with
  | wakeup n => exact absurd rfl (hop n)
  | dispatch => exact Or.inr (Or.inl h)
  | _ => exact Or.inr (Or.inr h)

/-- The states of a slot before and after an operation of another process, which has finished it if `P`. -/
inductive Shift (P : Prop) : ProcState → ProcState → Prop
  | same (x : ProcState) : Shift P x x
  | wake : Shift P .sleeping .runnable
  | take : Shift P .unused .embryo
  | publish (h : P) : Shift P .embryo .runnable
  | undo : Shift P .embryo .unused
  | reap : Shift P .zombie .unused

theorem shift_kill (x : ProcState) : Shift P x (if x = .sleeping then .runnable else x) := by
  split_ifs with hx
  · rw [hx]
    exact .wake
  · exact .same _

/-- **The other slots** when a process performs an operation. -/
theorem Ok.shift (h : Ok l) (hdoes : Does l p op l' r) (hj : j ≠ p) :
    Shift (l.place p = .publish j) (l.proc j).state (l'.proc j).state := by
  have hturn := h.turn hdoes j
  generalize l'.proc j = q at hturn
  cases hturn with
  | same => exact .same _
  | own hjp => exact absurd hjp hj
  | woken _ _ _ hstate =>
    rcases hstate with hs | ⟨hs, hr⟩
    · rw [hs]
      exact .same _
    · rw [hs, hr]
      exact .wake
  | take _ hfree =>
    rw [hfree]
    exact .take
  | fill _ _ _ hstate =>
    rw [hstate]
    exact .same _
  | undo _ hfork _ hstate =>
    rw [h.forks p j hfork, hstate]
    exact .undo
  | publish _ hplace =>
    rw [h.forks p j (by rw [hplace]; rfl)]
    exact .publish hplace
  | reap _ _ hz =>
    rw [hz]
    exact .reap
  | kill => exact shift_kill _

/-- The slot that a `fork` fills, and the places of the other processes. -/
theorem does_place (hdoes : Does l p op l' r) (hj : j ≠ p) :
    l'.place j = l.place j ∨ (l.proc j).state = .unused ∧ l'.place j = .user := by
  have hmove : ∀ (m : Table) (x : Place), m.place = l.place → (m.move p x).place j = l.place j :=
      fun m x hm => by
    rw [Table.move_place, update_of_ne hj, hm]
  cases hdoes with
  | alloc hplace =>
    rw [allocproc]
    cases hfind : findUnused l with
    | none => exact Or.inl rfl
    | some np =>
      simp only [Table.move_place, Table.set_place, update_of_ne hj]
      by_cases hjn : j = np
      · rw [hjn, update_self]
        exact Or.inr ⟨(findUnused_some hfind).2, rfl⟩
      · exact Or.inl (update_of_ne hjn ..)
  | kalloc ok hplace =>
    rw [kalloc]
    split_ifs <;> exact Or.inl (hmove _ _ rfl)
  | copyuvm ok hplace =>
    rw [copyuvm]
    split_ifs <;> exact Or.inl (hmove _ _ rfl)
  | setParent hplace => exact Or.inl (hmove _ _ rfl)
  | publish hplace => exact Or.inl (hmove _ _ rfl)
  | exit hplace =>
    rw [Ptable.exit]
    split_ifs
    · exact Or.inl rfl
    · exact Or.inl (hmove _ _ rfl)
  | zombie hplace =>
    have hw := (woken_wakeup1 ((l.proc p).parent.map Chan.proc) l).trans
      (woken_reparent p (List.range NPROC) _)
    simp only [Ptable.zombie, Table.move_place, Table.set_place, update_of_ne hj]
    exact Or.inl (congrFun hw.place j)
  | wait hplace =>
    rw [Ptable.wait]
    cases scanChildren l p (List.range NPROC) false <;> exact Or.inl (hmove _ _ rfl)
  | kill pid hplace =>
    rcases kill_spec l pid with ⟨i, _, _, hk⟩ | ⟨_, hk⟩ <;> rw [hk] <;> exact Or.inl rfl
  | fault | yield | sleep | tidy | wakeup | dispatch => exact Or.inl rfl

/-- The state of a running process after an operation that brings it to place `x`. -/
def after (x : Place) : Op → ProcState
  | .yield => .runnable
  | .sleep _ => .sleeping
  | .zombie => .zombie
  | .wait => if x = .waiting then .sleeping else .running
  | _ => .running

/-- **The state of the process itself** after an operation. -/
theorem Ok.self (h : Ok l) (hrun : (l.proc p).state = .running) (hdoes : Does l p op l' r) :
    (l'.proc p).state = after (l'.place p) op := by
  have hset : ∀ {np : ℕ} {q : Proc}, np ≠ p → ((l.set np q).proc p).state = .running := fun {np q} hne => by
    rw [Table.set_proc, update_of_ne hne.symm, hrun]
  have hne : ∀ {np : ℕ} {x : ProcState}, (l.proc np).state = x → x ≠ .running → np ≠ p := by
    rintro np x rfl hx rfl
    exact hx hrun
  have hfork : ∀ {np : ℕ}, forking (l.place p) = some np → np ≠ p := fun {np} hnp =>
    hne (h.forks p np hnp) (by simp)
  cases hdoes with
  | alloc hplace =>
    show ((allocproc l p).1.proc p).state = .running
    rw [allocproc]
    cases hfind : findUnused l with
    | none => exact hrun
    | some np => exact hset (hne (findUnused_some hfind).2 (by simp))
  | kalloc ok hplace =>
    have hnp := hfork (by rw [hplace]; rfl)
    show ((Ptable.kalloc l p _ ok).1.proc p).state = .running
    rw [kalloc]
    split_ifs <;> exact hset hnp
  | copyuvm ok hplace =>
    have hnp := hfork (by rw [hplace]; rfl)
    show ((Ptable.copyuvm l p _ ok).1.proc p).state = .running
    rw [copyuvm]
    split_ifs <;> exact hset hnp
  | setParent hplace => exact hset (hfork (by rw [hplace]; rfl))
  | publish hplace => exact hset (hfork (by rw [hplace]; rfl))
  | exit hplace =>
    show ((Ptable.exit l p).proc p).state = .running
    rw [Ptable.exit]
    split_ifs <;> exact hrun
  | zombie hplace =>
    simp only [Ptable.zombie, Table.move_proc, Table.set_proc, update_self, after]
  | wait hplace =>
    have hspec := scanChildren_spec l p (List.range NPROC) false
    rw [after, Ptable.wait]
    cases hscan : scanChildren l p (List.range NPROC) false with
    | child i =>
      rw [hscan] at hspec
      simp only [Table.move_place, update_self, reduceCtorEq, if_false]
      exact hset (hne hspec.2.2 (by simp))
    | none =>
      simp only [Table.move_place, update_self, reduceCtorEq, if_false]
      exact hrun
    | sleep =>
      simp only [Ptable.sleep, Table.move_place, Table.move_proc, Table.set_proc, update_self, if_true]
  | kill pid hplace =>
    show ((Ptable.kill l pid).1.proc p).state = .running
    rcases kill_spec l pid with ⟨i, _, _, hk⟩ | ⟨_, hk⟩ <;> rw [hk]
    · by_cases hip : i = p
      · simp only [hip, Table.set_proc, update_self, hrun, reduceCtorEq, if_false]
      · exact hset hip
    · exact hrun
  | fault hplace =>
    rw [Table.set_proc, update_self, hrun]
    rfl
  | yield => rw [Table.set_proc, update_self, after]
  | sleep n hplace => simp only [Ptable.sleep, Table.set_proc, update_self, after]
  | tidy => simp only [Ptable.tidy, Table.set_proc, update_self, hrun, after]
  | wakeup n =>
    rw [(woken_wakeup1 _ l).same (by simp [hrun]), hrun]
    rfl
  | dispatch =>
    rw [Table.set_proc, update_self]
    rfl

end Xv6e.Process.Lifecycle
