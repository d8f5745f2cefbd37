import Xv6e.Library.Monitor

/-!
# Sleepers of a monitor

Two rules for the threads of a monitor that sleep.

* `WaitProof`, `WaitProof.run` — a thread sleeps only while it has to, as long as whoever ends the need for it
  owes a `wakeup` and holds the lock until it has paid;
* `KillProof`, `KillProof.run` — a killed thread does not sleep, unless it is killed between its test and its
  `sleep`.
-/

namespace Xv6e.Library.Monitor

open Transition
open Function (update update_self update_of_ne)

variable {P σ χ κ ρ ε : Type}
variable {M : Code P σ χ κ ρ ε} {s t : State P σ χ κ ρ} {e : Event P κ ε}

/-! ### Sleepers -/

variable {c' c : χ} {s' : State P σ χ κ ρ} {es : List (Event P κ ε)} {boot : σ → Prop}

section Sleepers

variable {O : κ → χ → Prop} {p : P} {x : Thread χ κ ρ} {c : χ}

/-- The thread owes a `wakeup(c)` before it gives up the lock. -/
def Thread.owes (O : κ → χ → Prop) (c : χ) : Thread χ κ ρ → Prop
  | .run k => O k c
  | .waking c' k => c' = c ∨ O k c
  | _ => False

/-- What is said of the channel of a thread that is about to sleep. -/
def Thread.mayWait (R : χ → Prop) : Thread χ κ ρ → Prop
  | .sleepAcquire c _ => R c
  | .sleepRelease c _ => R c
  | _ => True

theorem holdsLock_of_owes (h : x.owes O c) : x.holdsLock = true := by
  cases x <;> first | rfl | cases h

theorem mayWait_of_holdsLock {R : χ → Prop} (h : x.holdsLock = false) : x.mayWait R := by
  cases x <;> trivial

theorem mayWait_rouse {R : χ → Prop} (h : x.mayWait R) : x.rouse.mayWait R := by
  cases x <;> exact h

theorem mayWait_update [DecidableEq P] {f : P → Thread χ κ ρ} {R : χ → Prop} (hp : x.mayWait R)
    (hother : ∀ q, q ≠ p → (f q).mayWait R) (q : P) : (update f p x q).mayWait R := by
  by_cases hq : q = p
  · rw [hq, update_self]
    exact hp
  · rw [update_of_ne hq]
    exact hother q hq

variable [DecidableEq χ]

/-- The thread sleeps on `c`, or has given up the lock to do so. -/
def Thread.waitsOn (c : χ) : Thread χ κ ρ → Bool
  | .setSleeping c' _ => decide (c' = c)
  | .asleep c' _ => decide (c' = c)
  | _ => false

def Waiting (s : State P σ χ κ ρ) (c : χ) : Prop := ∃ q, (s.thread q).waitsOn c = true

/-- The invariant of the rule: whoever waits has to, or the holder of the lock owes a `wakeup`. -/
structure Waits (R : χ → σ → Prop) (O : κ → χ → Prop) (s : State P σ χ κ ρ) : Prop where
  waiting : ∀ c, Waiting s c → R c s.data ∨ ∃ p, s.lock = some p ∧ (s.thread p).owes O c
  going : ∀ p, (s.thread p).mayWait fun c => R c s.data

/-- **The rule for sleepers.**  `R c` is the condition under which threads have to wait on `c`, and `O k c`
says that the code from statement `k` on calls `wakeup(c)` before it gives up the lock.  A statement that
makes an end to `R c` owes a `wakeup(c)` from then on, as long as there is anyone to wake. -/
structure WaitProof (M : Code P σ χ κ ρ ε)
    (C : List (Event P κ ε) → State P σ χ κ ρ → Event P κ ε → Prop) (J : State P σ χ κ ρ → Prop)
    (R : χ → σ → Prop) (O : κ → χ → Prop) : Prop where
  same : M.same = false
  goto : ∀ es s p k d k' c, J s → C es s (.step p) → s.thread p = .run k →
    M.exec p k (s.killed p) s.data = .goto d k' → Waiting s c → R c s.data ∨ O k c → R c d ∨ O k' c
  wakeup : ∀ es s p k c' k' c, J s → C es s (.step p) → s.thread p = .run k →
    M.exec p k (s.killed p) s.data = .wakeup c' k' → Waiting s c → R c s.data ∨ O k c → R c s.data
    ∨ c' = c ∨ O k' c
  sleep : ∀ es s p k c' k', J s → C es s (.step p) → s.thread p = .run k →
    M.exec p k (s.killed p) s.data = .sleep c' k' →
      R c' s.data ∧ ∀ c, Waiting s c → R c s.data ∨ O k c → R c s.data
  ret : ∀ es s p k d r c, J s → C es s (.step p) → s.thread p = .run k →
    M.exec p k (s.killed p) s.data = .ret d r → Waiting s c → R c s.data ∨ O k c → R c d
  start : ∀ s p k d c, J s → M.start s p k = some d → R c s.data → R c d
  env : ∀ d e d' c, M.env d e = some d' → R c d → R c d'

variable {C : List (Event P κ ε) → State P σ χ κ ρ → Event P κ ε → Prop} {J : State P σ χ κ ρ → Prop}
  {R : χ → σ → Prop}

theorem waitsOn_wake (h : (x.wake c').waitsOn c = true) :
    x.waitsOn c = true ∧ (x.holdsTable = true ∨ c' ≠ c) := by
  cases x with
  | asleep c'' k =>
    rw [Thread.wake] at h
    split_ifs at h with hc
    · cases h
    · refine ⟨h, Or.inr fun hcc => hc ?_⟩
      rw [hcc]
      exact of_decide_eq_true h
  | setSleeping c'' k => exact ⟨h, Or.inl rfl⟩
  | _ => cases h

theorem waitsOn_rouse (h : x.rouse.waitsOn c = true) : x.waitsOn c = true := by
  cases x with
  | asleep c' k => cases h
  | _ => exact h

theorem mayWait_wake {R : χ → Prop} (h : x.mayWait R) : (x.wake c').mayWait R := by
  cases x with
  | asleep c k =>
    rw [Thread.wake]
    split_ifs <;> trivial
  | _ => exact h

/-- The sleepers of a lock whose holder owes nothing have to wait. -/
theorem Waits.ready (h : Waits R O s) (hw : Waiting s c)
    (hno : ∀ p, s.lock = some p → ¬ (s.thread p).owes O c) : R c s.data := by
  rcases h.waiting c hw with hr | ⟨p, hheld, ho⟩
  · exact hr
  · exact absurd ho (hno p hheld)

/-- While the lock is free, whoever waits has to. -/
theorem Waits.free (h : Waits R O s) (hfree : s.lock = none) (hw : Waiting s c) : R c s.data :=
  h.ready hw fun p hp => by
    rw [hfree] at hp
    cases hp

/-- What the holder of the lock owes. -/
theorem Waits.holder (h : Waits R O s) (hheld : s.lock = some p) (hw : Waiting s c) :
    R c s.data ∨ (s.thread p).owes O c := by
  rcases h.waiting c hw with hr | ⟨q, hq, ho⟩
  · exact Or.inl hr
  · rw [hheld] at hq
    exact Or.inr (Option.some.inj hq ▸ ho)

variable [DecidableEq P]

theorem Waiting.of_goto (hs' : s'.thread = update s.thread p x)
    (hx : x.waitsOn c = true → (s.thread p).waitsOn c = true) (h : Waiting s' c) : Waiting s c := by
  obtain ⟨q, hq⟩ := h
  rw [hs'] at hq
  by_cases hqp : q = p
  · rw [hqp, update_self] at hq
    exact ⟨p, hx hq⟩
  · rw [update_of_ne hqp] at hq
    exact ⟨q, hq⟩

/-- A thread without the lock goes to a place where it owes and waits for nothing new. -/
theorem Waits.move (h : Waits R O s) (hdata : ∀ c, R c s.data → R c s'.data)
    (hlock : s'.lock = s.lock) (hs' : s'.thread = update s.thread p x)
    (hp : (s.thread p).holdsLock = false) (hx : x.holdsLock = false)
    (hwait : ∀ c, x.waitsOn c = true → (s.thread p).waitsOn c = true) : Waits R O s' := by
  have hgoing : ∀ q, q ≠ p → (s.thread q).mayWait fun c => R c s'.data := fun q _ => by
    have := h.going q
    cases hq : s.thread q <;> rw [hq] at this <;> first | trivial | exact hdata _ this
  refine ⟨fun c hw => ?_, fun q => ?_⟩
  · rcases h.waiting c (hw.of_goto hs' (hwait c)) with hr | ⟨q, hq, ho⟩
    · exact Or.inl (hdata c hr)
    · refine Or.inr ⟨q, hlock.trans hq, ?_⟩
      have hqp : q ≠ p := fun hqp => by
        rw [hqp] at ho
        rw [holdsLock_of_owes ho] at hp
        cases hp
      rw [hs', update_of_ne hqp]
      exact ho
  · rw [hs']
    exact mayWait_update (mayWait_of_holdsLock hx) hgoing q

/-- The holder of the lock goes to a place where it still has it. -/
theorem Waits.hold (hl : Locks s) (hheld : s.lock = some p) (hlock : s'.lock = some p)
    (hs' : s'.thread = update s.thread p x) (hx : ∀ c, x.waitsOn c = false)
    (hwait : ∀ c, Waiting s c → R c s'.data ∨ x.owes O c) (hgoing : x.mayWait fun c => R c s'.data) :
    Waits R O s' := by
  refine ⟨fun c hw => ?_, fun q => ?_⟩
  · have hold := hw.of_goto hs' fun h => by
      rw [hx c] at h
      cases h
    rcases hwait c hold with hr | ho
    · exact Or.inl hr
    · refine Or.inr ⟨p, hlock, ?_⟩
      rw [hs', update_self]
      exact ho
  · rw [hs']
    exact mayWait_update hgoing (fun q hq => mayWait_of_holdsLock (hl.other hheld hq)) q

/-- The lock becomes free. -/
theorem Waits.giveUp (hl : Locks s) (hheld : s.lock = some p) (hs' : s'.thread = update s.thread p x)
    (hx : x.holdsLock = false) (hown : ∀ c, x.waitsOn c = true → R c s'.data)
    (hwait : ∀ c, Waiting s c → R c s'.data) : Waits R O s' := by
  refine ⟨fun c hw => Or.inl ?_, fun q => ?_⟩
  · obtain ⟨q, hq⟩ := hw
    rw [hs'] at hq
    by_cases hqp : q = p
    · rw [hqp, update_self] at hq
      exact hown c hq
    · rw [update_of_ne hqp] at hq
      exact hwait c ⟨q, hq⟩
  · rw [hs']
    exact mayWait_update (mayWait_of_holdsLock hx) (fun q hq => mayWait_of_holdsLock (hl.other hheld hq)) q

/-- **One step of the rule for sleepers.** -/
theorem WaitProof.step (h : WaitProof M C J R O) (hl : Locks s) (hJ : J s) (hw : Waits R O s)
    (hc : C es s e) (hstep : Step M s e t) : Waits R O t := by
  cases hstep with
  | @start p k d hout hs =>
    exact hw.move (fun c => h.start s p k d c hJ hs) rfl rfl (holdsLock_of_isOut hout).1 rfl
      fun c hx => by cases hx
  | @enter p k ht hfree =>
    refine ⟨fun c hwait => Or.inl (hw.free hfree (hwait.of_goto rfl fun hx => by cases hx)), ?_⟩
    exact mayWait_update trivial fun q _ => hw.going q
  | @goto p k k' d ht hx =>
    have hheld := hl.held ht rfl
    refine Waits.hold hl hheld hheld rfl (fun _ => rfl) (fun c hwait => ?_) trivial
    exact h.goto es s p k d k' c hJ hc ht hx hwait (by have := hw.holder hheld hwait; rwa [ht] at this)
  | @wakeup p k k' c' ht hx =>
    have hheld := hl.held ht rfl
    refine Waits.hold hl hheld hheld rfl (fun _ => rfl) (fun c hwait => ?_) trivial
    exact h.wakeup es s p k c' k' c hJ hc ht hx hwait (by have := hw.holder hheld hwait; rwa [ht] at this)
  | @sleep p k k' c' ht hx hsame =>
    have hheld := hl.held ht rfl
    obtain ⟨hr, hall⟩ := h.sleep es s p k c' k' hJ hc ht hx
    refine Waits.hold hl hheld hheld rfl (fun _ => rfl) (fun c hwait => Or.inl ?_) hr
    exact hall c hwait (by have := hw.holder hheld hwait; rwa [ht] at this)
  | sleepSame ht hx hsame =>
    rw [h.same] at hsame
    cases hsame
  | @ret p k d r ht hx =>
    have hheld := hl.held ht rfl
    refine Waits.giveUp hl hheld rfl rfl (fun c hown => by cases hown) fun c hwait => ?_
    exact h.ret es s p k d r c hJ hc ht hx hwait (by have := hw.holder hheld hwait; rwa [ht] at this)
  | @wake p c' k ht hfree =>
    have hheld := hl.held ht rfl
    refine ⟨fun c hwait => ?_, mayWait_update trivial fun q _ => mayWait_wake (hw.going q)⟩
    -- whoever still waits does so on another channel, since nobody is on the way to sleep
    have hboth : Waiting s c ∧ c' ≠ c := by
      obtain ⟨q, hq⟩ := hwait
      have hqp : q ≠ p := fun hqp => by
        rw [hqp, State.goto_self] at hq
        cases hq
      rw [State.goto_of_ne _ hqp] at hq
      obtain ⟨hold, hor⟩ := waitsOn_wake hq
      refine ⟨⟨q, hold⟩, hor.resolve_left fun htable => ?_⟩
      rw [(hl.table q).mp htable] at hfree
      cases hfree
    have hor := hw.holder hheld hboth.1
    rw [ht] at hor
    rcases hor with hr | hcc | ho
    · exact Or.inl hr
    · exact absurd hcc hboth.2
    · refine Or.inr ⟨p, hheld, ?_⟩
      rw [State.goto_self]
      exact ho
  | @sleepAcquire p c' k ht hfree =>
    have hheld := hl.held ht rfl
    have hown : R c' s.data := by have := hw.going p; rwa [ht] at this
    refine Waits.hold hl hheld hheld rfl (fun _ => rfl) (fun c hwait => ?_) hown
    exact Or.inl ((hw.holder hheld hwait).resolve_right (by rw [ht]; exact id))
  | @sleepRelease p c' k ht =>
    have hheld := hl.held ht rfl
    have hown : R c' s.data := by have := hw.going p; rwa [ht] at this
    refine Waits.giveUp hl hheld rfl rfl (fun c hc => of_decide_eq_true hc ▸ hown) fun c hwait => ?_
    exact (hw.holder hheld hwait).resolve_right (by rw [ht]; exact id)
  | @setSleeping p c' k ht =>
    exact hw.move (fun _ hr => hr) rfl rfl (by rw [ht]; rfl) rfl fun c hx => by rw [ht]; exact hx
  | @resume p k ht hsame hfree =>
    exact hw.move (fun _ hr => hr) rfl rfl (by rw [ht]; rfl) rfl fun c hx => by cases hx
  | resumeSame ht hsame hfree =>
    rw [h.same] at hsame
    cases hsame
  | @kill p hfree hlock =>
    refine ⟨fun c hwait => ?_, mayWait_update (mayWait_rouse (hw.going p)) fun q _ => hw.going q⟩
    rcases hw.waiting c (hwait.of_goto rfl waitsOn_rouse) with hr | ⟨q, hq, ho⟩
    · exact Or.inl hr
    · refine Or.inr ⟨q, hq, ?_⟩
      by_cases hqp : q = p
      · rw [hqp] at ho ⊢
        rw [State.goto_self]
        cases hp : s.thread p <;> rw [hp] at ho <;> exact ho
      · rwa [State.goto_of_ne _ hqp]
  | @env e d he =>
    refine ⟨fun c hwait => ?_, fun q => ?_⟩
    · rcases hw.waiting c hwait with hr | ho
      · exact Or.inl (h.env s.data e d c he hr)
      · exact Or.inr ho
    · have := hw.going q
      show (s.thread q).mayWait _
      cases hq : s.thread q <;> rw [hq] at this <;> first | trivial | exact h.env s.data e d _ he this

theorem Waits.init (h0 : (system M boot).init s) : Waits R O s := by
  obtain ⟨_, _, _, hidle⟩ := h0
  refine ⟨fun c hw => ?_, fun p => ?_⟩
  · obtain ⟨q, hq⟩ := hw
    rw [hidle q] at hq
    cases hq
  · rw [hidle p]
    trivial

/-- **The rule for sleepers, over runs.** -/
theorem WaitProof.run (h : WaitProof M C J R O)
    (hJ : ∀ es s, RunIf (system M boot) C es s → Locks s ∧ J s)
    (hr : RunIf (system M boot) C es s) : Waits R O s := by
  induction hr with
  | init h0 => exact Waits.init h0
  | step e hr hc hs ih => exact h.step (hJ _ _ hr).1 (hJ _ _ hr).2 ih hc (step_of_next hs)

end Sleepers

/-! ### Killed threads -/

section Killed

/-- The thread is past its test of `killed` and has not yet taken the table's lock to go to sleep. -/
def Thread.inWindow (past : κ → Bool) : Thread χ κ ρ → Bool
  | .run k => past k
  | .waking _ k => past k
  | .sleepAcquire _ _ => true
  | _ => false

/-- The thread sleeps, or will do so without another test of `killed`. -/
def Thread.bound (past : κ → Bool) : Thread χ κ ρ → Bool
  | .sleepRelease _ _ => true
  | .setSleeping _ _ => true
  | .asleep _ _ => true
  | x => x.inWindow past

/-- The next statement of a thread that is not on the way to `sleep`. -/
def Thread.fresh (past : κ → Bool) : Thread χ κ ρ → Prop
  | .enter k => past k = false
  | .sleepAcquire _ k => past k = false
  | .sleepRelease _ k => past k = false
  | .setSleeping _ k => past k = false
  | .asleep _ k => past k = false
  | .runnable k => past k = false
  | _ => True

/-- **The rule for `kill`.**  `past k` says that the code from statement `k` on goes to sleep without a test
of `killed`; only a test that fails leads there. -/
structure KillProof (M : Code P σ χ κ ρ ε) (past : κ → Bool) : Prop where
  goto : ∀ p k b d d' k', M.exec p k b d = .goto d' k' → past k' = true → b = false ∨ past k = true
  wakeup : ∀ p k b d c k', M.exec p k b d = .wakeup c k' → past k' = true → b = false ∨ past k = true
  sleep : ∀ p k b d c k', M.exec p k b d = .sleep c k' → (b = false ∨ past k = true) ∧ past k' = false
  start : ∀ s p k d, M.start s p k = some d → past k = false

structure Roused (past : κ → Bool) (s : State P σ χ κ ρ) : Prop where
  killed : ∀ p, s.killed p = true → (s.thread p).bound past = false
  fresh : ∀ p, (s.thread p).fresh past

variable {past : κ → Bool} {p : P} {x : Thread χ κ ρ}

variable [DecidableEq P]

theorem Roused.move (h : Roused past s) (hk : s'.killed = s.killed)
    (hs' : s'.thread = update s.thread p x) (hx : s.killed p = true → x.bound past = false)
    (hf : x.fresh past) : Roused past s' := by
  refine ⟨fun q hq => ?_, fun q => ?_⟩ <;> rw [hs']
  · rw [hk] at hq
    by_cases hqp : q = p
    · rw [hqp] at hq ⊢
      rw [update_self]
      exact hx hq
    · rw [update_of_ne hqp]
      exact h.killed q hq
  · by_cases hqp : q = p
    · rw [hqp, update_self]
      exact hf
    · rw [update_of_ne hqp]
      exact h.fresh q

variable [DecidableEq χ]

theorem bound_wake (h : x.bound past = false) : (x.wake c).bound past = false := by
  cases x with
  | asleep c' k => cases h
  | _ => exact h

theorem fresh_wake (h : x.fresh past) : (x.wake c).fresh past := by
  cases x with
  | asleep c' k =>
    rw [Thread.wake]
    split_ifs <;> exact h
  | _ => exact h

/-- **One step of the rule for `kill`.** -/
theorem KillProof.step (h : KillProof M past) (hl : Locks s) (hr : Roused past s)
    (hc : ∀ p, e = .kill p → (s.thread p).inWindow past = false) (hstep : Step M s e t) : Roused past t := by
  have unbound : ∀ {p : P} {x : Thread χ κ ρ}, s.thread p = x → s.killed p = true → x.bound past = false :=
    fun {p} _ hx hk => hx ▸ hr.killed p hk
  have fresh : ∀ {p : P} {x : Thread χ κ ρ}, s.thread p = x → x.fresh past := fun {p} _ hx => hx ▸ hr.fresh p
  -- a statement that leads past the test finds the flag clear, or was past it
  have tested : ∀ {p : P} {k : κ}, s.thread p = .run k → s.killed p = true
      → ¬ (s.killed p = false ∨ past k = true) := by
    rintro p k ht hk (hno | hpast)
    · rw [hk] at hno
      cases hno
    · have : past k = false := unbound ht hk
      rw [hpast] at this
      cases this
  cases hstep with
  | @start p k d hout hs =>
    have := h.start s p k d hs
    exact hr.move rfl rfl (fun _ => rfl) this
  | @enter p k ht hfree =>
    have hk : past k = false := fresh ht
    exact hr.move rfl rfl (fun _ => hk) trivial
  | @goto p k k' d ht hx =>
    refine hr.move rfl rfl (fun hk => ?_) trivial
    exact Bool.eq_false_iff.mpr fun hpast => tested ht hk (h.goto p k _ s.data d k' hx hpast)
  | @wakeup p k k' c ht hx =>
    refine hr.move rfl rfl (fun hk => ?_) trivial
    exact Bool.eq_false_iff.mpr fun hpast => tested ht hk (h.wakeup p k _ s.data c k' hx hpast)
  | @sleep p k k' c ht hx hsame =>
    obtain ⟨htest, hpast⟩ := h.sleep p k _ s.data c k' hx
    exact hr.move rfl rfl (fun hk => absurd htest (tested ht hk)) hpast
  | @sleepSame p k k' c ht hx hsame =>
    obtain ⟨htest, hpast⟩ := h.sleep p k _ s.data c k' hx
    exact hr.move rfl rfl (fun hk => absurd htest (tested ht hk)) hpast
  | @ret p k d r ht hx => exact hr.move rfl rfl (fun _ => rfl) trivial
  | @wake p c k ht hfree =>
    have hwoken : Roused past { s with thread := fun q => (s.thread q).wake c } :=
      ⟨fun q hq => bound_wake (hr.killed q hq), fun q => fresh_wake (hr.fresh q)⟩
    have hk : s.killed p = true → past k = false := unbound ht
    exact hwoken.move rfl rfl hk trivial
  | @sleepAcquire p c k ht hfree =>
    have hno := unbound ht
    have hk := fresh ht
    exact hr.move rfl rfl hno hk
  | @sleepRelease p c k ht =>
    have hno := unbound ht
    have hk := fresh ht
    exact hr.move rfl rfl hno hk
  | @setSleeping p c k ht =>
    have hno := unbound ht
    have hk := fresh ht
    exact hr.move rfl rfl hno hk
  | @resume p k ht hsame hfree =>
    have hk : past k = false := fresh ht
    exact hr.move rfl rfl (fun _ => rfl) hk
  | @resumeSame p k ht hsame hfree =>
    have hk : past k = false := fresh ht
    exact hr.move rfl rfl (fun _ => hk) trivial
  | @kill p hfree hlock =>
    have hwin := hc p rfl
    have htable : (s.thread p).holdsTable = false := Bool.eq_false_iff.mpr fun hp => by
      rw [(hl.table p).mp hp] at hfree
      cases hfree
    have hown : (s.thread p).rouse.bound past = false ∧ (s.thread p).rouse.fresh past := by
      have hf := hr.fresh p
      cases hp : s.thread p <;> rw [hp] at hwin htable hf <;>
        first | exact ⟨rfl, hf⟩ | exact ⟨hwin, hf⟩ | cases htable
    refine ⟨fun q hq => ?_, fun q => ?_⟩
    · by_cases hqp : q = p
      · rw [hqp, State.goto_self]
        exact hown.1
      · rw [State.goto_of_ne _ hqp]
        replace hq : update s.killed p true q = true := hq
        rw [update_of_ne hqp] at hq
        exact hr.killed q hq
    · by_cases hqp : q = p
      · rw [hqp, State.goto_self]
        exact hown.2
      · rw [State.goto_of_ne _ hqp]
        exact hr.fresh q
  | env he => exact ⟨hr.killed, hr.fresh⟩

/-- **The rule for `kill`, over runs**: a killed thread is not asleep. -/
theorem KillProof.run (h : KillProof M past)
    {C : List (Event P κ ε) → State P σ χ κ ρ → Event P κ ε → Prop}
    (hC : ∀ es s p, C es s (.kill p) → (s.thread p).inWindow past = false)
    (hr : RunIf (system M boot) C es s) : Roused past s := by
  have hboth : Locks s ∧ Roused past s := by
    refine hr.induct (I := fun _ s => Locks s ∧ Roused past s) (fun s h0 => ?_) fun es s e t hi hc hs => ?_
    · obtain ⟨_, hlock, htable, hidle⟩ := h0
      refine ⟨⟨fun p => ?_, fun p => ?_⟩, fun p _ => ?_, fun p => ?_⟩ <;> rw [hidle p]
      · rw [hlock]
        exact ⟨fun hf => (by cases hf), fun hf => (by cases hf)⟩
      · rw [htable]
        exact ⟨fun hf => (by cases hf), fun hf => (by cases hf)⟩
      · rfl
      · trivial
    · have hstep := step_of_next hs
      exact ⟨hi.1.step hstep, h.step hi.1 hi.2 (fun p hp => hC es s p (hp ▸ hc)) hstep⟩
  exact hboth.2

end Killed

end Xv6e.Library.Monitor
