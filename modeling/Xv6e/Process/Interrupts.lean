import Xv6e.Library.Fallible
import Xv6e.Library.Holders
import Xv6e.Library.Transition

/-!
# Interrupts and nesting

`pushcli` and `popcli` count in `ncli` of the CPU how often interrupts have been turned off, and keep in
`intena` whether they were on at first.  Spin locks use them, and `sched` carries `intena` with the thread
from CPU to CPU.

* `pushcli`, `popcli`, `holding` — the functions of `spinlock.c` on one CPU;
* `exec` — a call on one of any number of CPUs, with the panics of the code;
* `Allowed` — the calls are balanced: a lock is not acquired twice, a lock is released where it is held,
  `popcli` undoes a `pushcli`; `sched` and `swtch` are called with `ptable.lock` only;
* `Inv` — what holds between calls;
* `interrupts_nest` — the count, the flag, no panic, and what `sched` gives back.

`ncli` is an `int` of the code and an integer here: it would take `2 ^ 31` calls of `pushcli` that are not
undone for the two to differ.
-/

namespace Xv6e.Process.Interrupts

open Library.Fallible Library.Holders Library.Transition
open Function (update update_self update_of_ne)

/-- `struct cpu`, with the interrupt flag, the lock that `acquire` waits for, the thread on the CPU (`none` is
the scheduler) and the number of calls of `pushcli` that are to be undone. -/
structure Cpu (L : Type) where
  ncli : ℤ
  intena : Bool
  iflag : Bool
  spin : Option L
  thread : Option ℕ
  pushes : ℕ

inductive Panic
  | interruptible | popcli | acquire | release | schedLock | schedLocks | schedInterruptible
  deriving DecidableEq

variable {C L : Type} [DecidableEq C] {k : Cpu L} {b : Bool} {c : C} {t : ℕ}

def pushcli (k : Cpu L) : Cpu L :=
  { k with iflag := false, intena := if k.ncli = 0 then k.iflag else k.intena, ncli := k.ncli + 1 }

def popcli (k : Cpu L) : Except Panic (Cpu L) :=
  if k.iflag then .error .interruptible
  else if k.ncli - 1 < 0 then .error .popcli
  else .ok { k with ncli := k.ncli - 1, iflag := if k.ncli - 1 = 0 ∧ k.intena = true then true else k.iflag }

/-- `holding`, which turns interrupts off while it looks. -/
def holding (owner : L → Option C) (lk : L) (c : C) (k : Cpu L) : Except Panic (Bool × Cpu L) := do
  let k ← popcli (pushcli k)
  .ok (decide (owner lk = some c), k)

/-- CPUs, the CPU that holds each lock, and the variable `intena` of `sched` on the stack of a thread that
waits in it. -/
structure State (C L : Type) where
  cpu : C → Cpu L
  owner : L → Option C
  saved : ℕ → Option Bool

def State.set (s : State C L) (c : C) (k : Cpu L) : State C L := { s with cpu := update s.cpu c k }

inductive Call (L : Type)
  | pushcli | popcli
  | acquire (lk : L)   -- up to the loop
  | xchg               -- one turn of the loop in `acquire`
  | release (lk : L)
  | flag (b : Bool)    -- `sti`, `cli`, or a trap
  | sched              -- up to and with `swtch`
  | swtch (t : ℕ)      -- the scheduler's
  | restore            -- `swtch` has returned in `sched`
  deriving DecidableEq

/-- A call on CPU `c`. -/
def exec [DecidableEq L] (ptable : L) (s : State C L) (c : C) : Call L → Except Panic (State C L)
  | .pushcli => .ok (s.set c { pushcli (s.cpu c) with pushes := (s.cpu c).pushes + 1 })
  | .popcli => do
    let k ← popcli (s.cpu c)
    .ok (s.set c { k with pushes := k.pushes - 1 })
  | .acquire lk => do
    let (held, k) ← holding s.owner lk c (pushcli (s.cpu c))
    if held then .error .acquire else .ok (s.set c { k with spin := some lk })
  | .xchg =>
    match (s.cpu c).spin with
    | some lk =>
      if s.owner lk = none then
        .ok { s.set c { s.cpu c with spin := none } with owner := update s.owner lk (some c) }
      else .ok s
    | none => .ok s
  | .release lk => do
    let (held, k) ← holding s.owner lk c (s.cpu c)
    if held then do
      let k ← popcli k
      .ok { s.set c k with owner := update s.owner lk none }
    else .error .release
  | .flag b => .ok (s.set c { s.cpu c with iflag := b })
  | .sched => do
    let (held, k) ← holding s.owner ptable c (s.cpu c)
    if held = false then .error .schedLock
    else if k.ncli ≠ 1 then .error .schedLocks
    else if k.iflag then .error .schedInterruptible
    else
      match k.thread with
      | some t => .ok { s.set c { k with thread := none } with saved := update s.saved t (some k.intena) }
      | none => .ok s
  | .swtch t => .ok (s.set c { s.cpu c with thread := some t })
  | .restore =>
    match (s.cpu c).thread with
    | some t =>
      match s.saved t with
      | some b => .ok { s.set c { s.cpu c with intena := b } with saved := update s.saved t none }
      | none => .ok s
    | none => .ok s

/-- The thread on the CPU has still to put `intena` back. -/
def Resuming (s : State C L) (c : C) : Prop := ∃ t, (s.cpu c).thread = some t ∧ s.saved t ≠ none

/-- Balanced calls. -/
def Balanced (ptable : L) (s : State C L) (c : C) : Call L → Prop
  | .pushcli => True
  | .popcli => 0 < (s.cpu c).pushes
  | .acquire lk => s.owner lk ≠ some c
  | .xchg => True
  | .release lk => s.owner lk = some c
  | .flag _ => (s.cpu c).ncli = 0
  | .sched => (s.cpu c).thread ≠ none ∧ s.owner ptable = some c ∧ (s.cpu c).ncli = 1
  | .swtch t => (s.cpu c).thread = none ∧ s.owner ptable = some c ∧ (s.cpu c).ncli = 1 ∧ ∀ c',
      (s.cpu c').thread ≠ some t
  | .restore => True

/-- Balanced calls, in the order of the code: a CPU in the loop of `acquire` stays in it, and `sched` goes on
before anything else is called. -/
def Allowed (ptable : L) (s : State C L) (e : C × Call L) : Prop :=
  ((s.cpu e.1).spin ≠ none → e.2 = .xchg) ∧ (Resuming s e.1 ↔ e.2 = .restore) ∧ Balanced ptable s e.1 e.2

instance (s : State C L) (c : C) : Decidable (Resuming s c) :=
  inferInstanceAs (Decidable (∃ t ∈ (s.cpu c).thread, s.saved t ≠ none))

instance [Fintype C] (ptable : L) (s : State C L) (c : C) (call : Call L) :
    Decidable (Balanced ptable s c call) := by
  unfold Balanced; cases call <;> infer_instance

instance [Fintype C] [DecidableEq L] (ptable : L) (s : State C L) (e : C × Call L) :
    Decidable (Allowed ptable s e) := by
  unfold Allowed; infer_instance

def system [DecidableEq L] (ptable : L) (init : State C L → Prop) : System (State C L) (C × Call L) where
  init := init
  step s e := (exec ptable s e.1 e.2).toOption

/-! ### One CPU -/

/-- The CPU after a `popcli` that returns. -/
def popped (k : Cpu L) : Cpu L :=
  { k with ncli := k.ncli - 1, iflag := if k.ncli = 1 then k.intena else false }

theorem popcli_eq (hoff : k.iflag = false) (hpos : 0 < k.ncli) : popcli k = .ok (popped k) := by
  have hiff : k.ncli - 1 = 0 ↔ k.ncli = 1 := by omega
  rw [popcli, hoff, if_neg Bool.false_ne_true, if_neg (by omega), popped]
  by_cases h1 : k.ncli = 1 <;> cases hena : k.intena <;> simp [hiff, h1]

theorem holding_eq (owner : L → Option C) (lk : L) (hoff : k.iflag = true → k.ncli = 0) (hpos : 0 ≤ k.ncli) :
    holding owner lk c k
      = .ok (decide (owner lk = some c), { k with intena := if k.ncli = 0 then k.iflag else k.intena }) := by
  rw [holding, popcli_eq (k := pushcli k) rfl (show 0 < k.ncli + 1 by omega), ok_bind, popped]
  by_cases h0 : k.ncli = 0
  · simp [pushcli, h0]
  · have hflag : k.iflag = false := Bool.eq_false_iff.mpr fun h => h0 (hoff h)
    simp [pushcli, h0, hflag]

theorem holding_off (owner : L → Option C) (lk : L) (hoff : k.iflag = false) (hpos : 0 < k.ncli) :
    holding owner lk c k = .ok (decide (owner lk = some c), k) := by
  rw [holding_eq owner lk (fun h => absurd (hoff ▸ h) Bool.false_ne_true) hpos.le, if_neg hpos.ne']

/-- The flag before the first call is the flag, or is kept in `intena`. -/
def Remembers (b : Bool) (k : Cpu L) : Prop := (k.ncli = 0 → k.iflag = b) ∧ (k.ncli ≠ 0 → k.intena = b)

theorem Remembers.pushcli (h : Remembers b k) (hpos : 0 ≤ k.ncli) : Remembers b (pushcli k) := by
  refine ⟨fun h0 => ?_, fun _ => ?_⟩
  · simp only [Interrupts.pushcli] at h0
    omega
  · rw [Interrupts.pushcli]
    split_ifs with h0
    · exact h.1 h0
    · exact h.2 h0

theorem Remembers.popped (h : Remembers b k) (hpos : 0 < k.ncli) : Remembers b (popped k) := by
  refine ⟨fun h0 => ?_, fun _ => h.2 hpos.ne'⟩
  simp only [Interrupts.popped] at h0
  exact (if_pos (by omega)).trans (h.2 hpos.ne')

theorem popped_off (h0 : (popped k).iflag = true) : (popped k).ncli = 0 := by
  simp only [popped] at *
  split_ifs at h0 with h1
  omega

/-! ### The invariant -/

variable [Fintype L] {s s' : State C L} {ptable : L} {owner : L → Option C} {lk : L}

/-- The number of locks that CPU `c` holds. -/
def locksHeld (owner : L → Option C) (c : C) : ℕ := held (fun o => if o = some c then 1 else 0) owner

structure Inv (ptable : L) (s : State C L) : Prop where
  count : ∀ c, (s.cpu c).ncli = locksHeld s.owner c + (s.cpu c).pushes
    + if (s.cpu c).spin = none then 0 else 1
  off : ∀ c, (s.cpu c).iflag = true → (s.cpu c).ncli = 0
  single : ∀ c c' t, (s.cpu c).thread = some t → (s.cpu c').thread = some t → c = c'
  resuming : ∀ c, Resuming s c → (s.cpu c).ncli = 1 ∧ s.owner ptable = some c

theorem Inv.nonneg (h : Inv ptable s) (c : C) : 0 ≤ (s.cpu c).ncli := by
  rw [h.count c]
  split_ifs <;> omega

theorem Inv.flag_off (h : Inv ptable s) (hpos : 0 < (s.cpu c).ncli) : (s.cpu c).iflag = false :=
  Bool.eq_false_iff.mpr fun hon => hpos.ne' (h.off c hon)

theorem Inv.pos_of_held (h : Inv ptable s) (hlk : s.owner lk = some c) : 0 < (s.cpu c).ncli := by
  have hle := le_held (fun o => if o = some c then 1 else 0) s.owner lk
  rw [if_pos hlk] at hle
  have := h.count c
  rw [locksHeld] at this
  split_ifs at this <;> omega

/-- **One CPU moves**: what has to be checked. -/
theorem Inv.move (h : Inv ptable s) {saved : ℕ → Option Bool}
    (hcount : k.ncli = locksHeld owner c + k.pushes + if k.spin = none then 0 else 1)
    (hother : ∀ c' ≠ c, locksHeld owner c' = locksHeld s.owner c'
      ∧ (s.owner ptable = some c' → owner ptable = some c')) (hoff : k.iflag = true → k.ncli = 0)
      (hthread : ∀ t, k.thread = some t → ∀ c' ≠ c, (s.cpu c').thread ≠ some t)
      (hsaved : ∀ t, saved t ≠ none → s.saved t ≠ none ∨ ∀ c' ≠ c, (s.cpu c').thread ≠ some t)
      (hres : ∀ t, k.thread = some t → saved t ≠ none → k.ncli = 1 ∧ owner ptable = some c) :
    Inv ptable ⟨update s.cpu c k, owner, saved⟩ := by
  refine ⟨fun c' => ?_, fun c' => ?_, fun c₁ c₂ t h1 h2 => ?_, fun c' => ?_⟩
  · by_cases hc : c' = c
    · simp only [hc, update_self]
      exact hcount
    · simp only [update_of_ne hc, (hother c' hc).1]
      exact h.count c'
  · by_cases hc : c' = c
    · simp only [hc, update_self]
      exact hoff
    · simp only [update_of_ne hc]
      exact h.off c'
  · by_cases hc1 : c₁ = c <;> by_cases hc2 : c₂ = c
    · rw [hc1, hc2]
    · simp only [hc1, update_self, update_of_ne hc2] at h1 h2
      exact absurd h2 (hthread t h1 c₂ hc2)
    · simp only [hc2, update_self, update_of_ne hc1] at h1 h2
      exact absurd h1 (hthread t h2 c₁ hc1)
    · simp only [update_of_ne hc1, update_of_ne hc2] at h1 h2
      exact h.single c₁ c₂ t h1 h2
  · rintro ⟨t, ht, hs⟩
    by_cases hc : c' = c
    · simp only [hc, update_self] at ht ⊢
      exact hres t ht hs
    · simp only [update_of_ne hc] at ht ⊢
      have hold := h.resuming c' ⟨t, ht, (hsaved t hs).resolve_right fun hno => hno c' hc ht⟩
      exact ⟨hold.1, (hother c' hc).2 hold.2⟩

/-! ### Calls -/

/-- The calls of `spinlock.c`. -/
def Call.locking : Call L → Bool
  | .pushcli | .popcli | .acquire _ | .xchg | .release _ => true
  | _ => false

/-- How a call changes the number of calls of `pushcli` that are to be undone. -/
def Call.pushed (n : ℕ) : Call L → ℕ
  | .pushcli => n + 1
  | .popcli => n - 1
  | _ => n

/-- The calls of `pushcli` on CPU `c` in a run, less those that `popcli` has undone. -/
def outstanding (c : C) (es : List (C × Call L)) : ℕ :=
  es.foldl (fun n e => if e.1 = c then e.2.pushed n else n) 0

/-- What a call does to the other CPUs, to the flag of its own and to the threads in `sched`. -/
structure Does (ptable : L) (s : State C L) (c : C) (call : Call L) (s' : State C L) : Prop where
  inv : Inv ptable s'
  pushes : (s'.cpu c).pushes = call.pushed (s.cpu c).pushes
  others : ∀ c' ≠ c, s'.cpu c' = s.cpu c'
  remembers : call.locking = true → ∀ b, Remembers b (s.cpu c) → Remembers b (s'.cpu c)
  saved : ∀ t b, s.saved t = some b → s'.saved t = some b ∨ call = .restore ∧ (s.cpu c).thread = some t

/-- A call that keeps the thread of the CPU, when the thread has not to put `intena` back. -/
theorem Does.plain (h : Inv ptable s) {call : Call L} (hidle : ¬ Resuming s c)
    (hthread : k.thread = (s.cpu c).thread) (hpushes : k.pushes = call.pushed (s.cpu c).pushes)
    (hcount : k.ncli = locksHeld owner c + k.pushes + if k.spin = none then 0 else 1)
    (hother : ∀ c' ≠ c, locksHeld owner c' = locksHeld s.owner c'
      ∧ (s.owner ptable = some c' → owner ptable = some c')) (hoff : k.iflag = true → k.ncli = 0)
      (hrem : call.locking = true → ∀ b, Remembers b (s.cpu c) → Remembers b k) :
    Does ptable s c call ⟨update s.cpu c k, owner, s.saved⟩ := by
  refine ⟨h.move hcount hother hoff (fun t ht c' hc ht' => hc ?_) (fun t ht => Or.inl ht) fun t ht hs => ?_,
    ?_, fun c' hc => update_of_ne hc .., fun hl b hb => ?_, fun t b hb => Or.inl hb⟩
  · exact h.single c' c t ht' (hthread ▸ ht)
  · exact absurd ⟨t, hthread ▸ ht, hs⟩ hidle
  · simp only [update_self]
    exact hpushes
  · simp only [update_self]
    exact hrem hl b hb

/-- The machine before the first call: no lock is held, and no thread is in `sched`. -/
structure Start (s : State C L) : Prop where
  ncli : ∀ c, (s.cpu c).ncli = 0
  pushes : ∀ c, (s.cpu c).pushes = 0
  spin : ∀ c, (s.cpu c).spin = none
  owner : ∀ lk, s.owner lk = none
  saved : ∀ t, s.saved t = none
  single : ∀ c c' t, (s.cpu c).thread = some t → (s.cpu c').thread = some t → c = c'

theorem inv_start (h : Start s) : Inv ptable s := by
  refine ⟨fun c => ?_, fun c _ => h.ncli c, h.single, fun c hr => ?_⟩
  · have h0 : locksHeld s.owner c = 0 := held_eq_zero.mpr fun lk => by
      rw [h.owner lk]
      rfl
    rw [h.ncli, h.pushes, h0, if_pos (h.spin c)]
    rfl
  · obtain ⟨t, -, hs⟩ := hr
    exact absurd (h.saved t) hs

variable [DecidableEq L]

theorem locksHeld_take (h : owner lk = none) (c : C) :
    locksHeld (update owner lk (some c)) c = locksHeld owner c + 1 := by
  have := held_update (fun o => if o = some c then 1 else 0) owner lk (some c)
  simpa [h, locksHeld] using this

theorem locksHeld_drop (h : owner lk = some c) :
    locksHeld (update owner lk none) c + 1 = locksHeld owner c := by
  have := held_update (fun o => if o = some c then 1 else 0) owner lk none
  simpa [h, locksHeld] using this

theorem owner_other {o : Option C} {c' : C} (h : owner lk ≠ some c') (ho : o ≠ some c') :
    locksHeld (update owner lk o) c' = locksHeld owner c'
      ∧ (owner ptable = some c' → update owner lk o ptable = some c') := by
  refine ⟨held_update_same (by rw [if_neg h, if_neg ho]), fun hp => ?_⟩
  have hne : ptable ≠ lk := fun heq => h (heq ▸ hp)
  rw [update_of_ne hne, hp]

section

variable (h : Inv ptable s)
include h

theorem does_pushcli (hidle : ¬ Resuming s c) :
    ∃ s', exec ptable s c .pushcli = .ok s' ∧ Does ptable s c .pushcli s' := by
  have hcount := h.count c
  refine ⟨_, rfl, Does.plain (k := { pushcli (s.cpu c) with pushes := (s.cpu c).pushes + 1 }) h
    hidle rfl rfl ?_ (fun c' _ => ⟨rfl, id⟩) (fun h => by cases h) fun _ b hb => hb.pushcli (h.nonneg c)⟩
  rw [pushcli, hcount]
  push_cast
  ring

theorem does_popcli (hidle : ¬ Resuming s c) (hp : 0 < (s.cpu c).pushes) :
    ∃ s', exec ptable s c .popcli = .ok s' ∧ Does ptable s c .popcli s' := by
  have hcount := h.count c
  have hpos : 0 < (s.cpu c).ncli := by split_ifs at hcount <;> omega
  refine ⟨_, by rw [exec, popcli_eq (h.flag_off hpos) hpos, ok_bind]; rfl,
    Does.plain (k := { popped (s.cpu c) with pushes := (s.cpu c).pushes - 1 }) h hidle rfl rfl ?_
      (fun c' _ => ⟨rfl, id⟩) popped_off fun _ b hb => hb.popped hpos⟩
  rw [popped, hcount, Nat.cast_sub hp]
  push_cast
  ring

theorem does_acquire (hidle : ¬ Resuming s c) (hspin : (s.cpu c).spin = none) (hlk : s.owner lk ≠ some c) :
    ∃ s', exec ptable s c (.acquire lk) = .ok s' ∧ Does ptable s c (.acquire lk) s' := by
  have hnonneg := h.nonneg c
  have hcount := h.count c
  have hhold := holding_off (k := pushcli (s.cpu c)) (c := c) s.owner lk rfl
    (show 0 < (s.cpu c).ncli + 1 by omega)
  refine ⟨_, by rw [exec, hhold, ok_bind, decide_eq_false hlk]; rfl,
    Does.plain (k := { pushcli (s.cpu c) with spin := some lk }) h hidle rfl rfl ?_ (fun c' _ => ⟨rfl, id⟩)
      (fun h => by cases h) fun _ b hb => hb.pushcli hnonneg⟩
  simp only [pushcli, hcount, hspin, if_true, reduceCtorEq, if_false]
  ring

theorem does_xchg (hidle : ¬ Resuming s c) :
    ∃ s', exec ptable s c .xchg = .ok s' ∧ Does ptable s c .xchg s' := by
  have hcount := h.count c
  have hsame : Does ptable s c .xchg s := ⟨h, rfl, fun _ _ => rfl, fun _ _ hb => hb, fun _ _ hb => Or.inl hb⟩
  rw [exec]
  cases hspin : (s.cpu c).spin with
  | none => exact ⟨s, rfl, hsame⟩
  | some lk =>
    by_cases hfree : s.owner lk = none
    · refine ⟨_, if_pos hfree, Does.plain (k := { s.cpu c with spin := none }) h hidle rfl rfl ?_
        (fun c' hc => ?_) (h.off c) fun _ b hb => hb⟩
      · simp only [locksHeld_take hfree, hcount, hspin, if_true, reduceCtorEq, if_false]
        push_cast
        ring
      · exact owner_other (by simp [hfree]) fun h => hc (Option.some.inj h).symm
    · exact ⟨s, if_neg hfree, hsame⟩

theorem does_release (hidle : ¬ Resuming s c) (hlk : s.owner lk = some c) :
    ∃ s', exec ptable s c (.release lk) = .ok s' ∧ Does ptable s c (.release lk) s' := by
  have hpos := h.pos_of_held hlk
  have hoff := h.flag_off hpos
  have hcount := h.count c
  have hdrop := locksHeld_drop hlk
  refine ⟨⟨update s.cpu c (popped (s.cpu c)), update s.owner lk none, s.saved⟩, ?_,
    Does.plain h hidle rfl rfl ?_ (fun c' hc => ?_) popped_off fun _ b hb => hb.popped hpos⟩
  · rw [exec, holding_off s.owner lk hoff hpos, ok_bind, decide_eq_true hlk]
    simp only [popcli_eq hoff hpos, ok_bind]
    rfl
  · rw [popped, hcount, ← hdrop]
    push_cast
    ring
  · exact owner_other (by rw [hlk]; exact fun h => hc (Option.some.inj h).symm) fun h => by cases h

theorem does_flag (hidle : ¬ Resuming s c) (h0 : (s.cpu c).ncli = 0) (b : Bool) :
    ∃ s', exec ptable s c (.flag b) = .ok s' ∧ Does ptable s c (.flag b) s' :=
  ⟨_, rfl, Does.plain (k := { s.cpu c with iflag := b }) h hidle rfl rfl (h.count c)
    (fun c' _ => ⟨rfl, id⟩) (fun _ => h0) fun h => by cases h⟩

/-- **`sched`** keeps `intena` on the stack of its thread. -/
theorem does_sched (hidle : ¬ Resuming s c) (ht : (s.cpu c).thread = some t) (hlk : s.owner ptable = some c)
    (h1 : (s.cpu c).ncli = 1) :
    ∃ s', exec ptable s c .sched = .ok s' ∧ Does ptable s c .sched s'
      ∧ s'.saved t = some (s.cpu c).intena := by
  have hpos : 0 < (s.cpu c).ncli := by omega
  have hoff := h.flag_off hpos
  refine ⟨⟨update s.cpu c { s.cpu c with thread := none }, s.owner, update s.saved t (some (s.cpu c).intena)⟩,
    ?_, ⟨h.move (h.count c) (fun c' _ => ⟨rfl, id⟩) (h.off c) (by simp) (fun u hu => ?_) (by simp),
    by simp only [update_self]; rfl, fun c' hc => update_of_ne hc .., (fun h => by cases h),
    fun u b hb => Or.inl ?_⟩, update_self ..⟩
  · rw [exec, holding_off s.owner ptable hoff hpos, ok_bind, decide_eq_true hlk]
    simp only [h1, hoff, ht]
    rfl
  · by_cases hut : u = t
    · exact Or.inr fun c' hc hc' => hc (h.single c' c t (hut ▸ hc') ht)
    · rw [update_of_ne hut] at hu
      exact Or.inl hu
  · have hut : u ≠ t := fun hut => hidle ⟨t, ht, by rw [← hut, hb]; exact fun h => by cases h⟩
    exact (update_of_ne hut ..).trans hb

theorem does_swtch (hlk : s.owner ptable = some c) (h1 : (s.cpu c).ncli = 1)
    (hno : ∀ c', (s.cpu c').thread ≠ some t) :
    ∃ s', exec ptable s c (.swtch t) = .ok s' ∧ Does ptable s c (.swtch t) s' := by
  refine ⟨⟨update s.cpu c { s.cpu c with thread := some t }, s.owner, s.saved⟩, rfl,
    h.move (h.count c) (fun c' _ => ⟨rfl, id⟩) (h.off c) (fun u hu c' _ => ?_) (fun _ hu => Or.inl hu)
    (fun _ _ _ => ⟨h1, hlk⟩), by simp only [update_self]; rfl, fun c' hc => update_of_ne hc ..,
    (fun h => by cases h), fun t b hb => Or.inl hb⟩
  rw [← Option.some.inj hu]
  exact hno c'

/-- **`sched` goes on** with its own `intena`. -/
theorem does_restore (ht : (s.cpu c).thread = some t) (hb : s.saved t = some b) :
    ∃ s', exec ptable s c .restore = .ok s' ∧ Does ptable s c .restore s' ∧ (s'.cpu c).intena = b
      ∧ (s'.cpu c).ncli = 1 ∧ s'.owner ptable = some c := by
  obtain ⟨h1, hlk⟩ := h.resuming c ⟨t, ht, by simp [hb]⟩
  refine ⟨⟨update s.cpu c { s.cpu c with intena := b }, s.owner, update s.saved t none⟩, ?_,
    ⟨h.move (h.count c) (fun c' _ => ⟨rfl, id⟩) (h.off c) (fun u hu c' hc hc' => hc (h.single c' c u hc' hu))
      (fun u hu => ?_) (fun _ _ _ => ⟨h1, hlk⟩), by simp only [update_self]; rfl,
      fun c' hc => update_of_ne hc .., (fun h => by cases h), fun u b' hu => ?_⟩, ?_, ?_, hlk⟩
  · rw [exec, ht]
    simp only [hb]
    rfl
  · by_cases hut : u = t
    · rw [hut, update_self] at hu
      exact absurd rfl hu
    · rw [update_of_ne hut] at hu
      exact Or.inl hu
  · by_cases hut : u = t
    · exact Or.inr ⟨rfl, hut ▸ ht⟩
    · exact Or.inl ((update_of_ne hut ..).trans hu)
  · simp only [update_self]
  · simp only [update_self, h1]

/-- **Every call that is allowed returns.** -/
theorem exec_ok {call : Call L} (ha : Allowed ptable s (c, call)) :
    ∃ s', exec ptable s c call = .ok s' ∧ Does ptable s c call s' := by
  obtain ⟨hspin, hres, hbal⟩ := ha
  have hspin' : call ≠ .xchg → (s.cpu c).spin = none := fun hne => not_not.mp fun hs => hne (hspin hs)
  have hidle : call ≠ .restore → ¬ Resuming s c := fun hne hr => hne (hres.mp hr)
  cases call with
  | pushcli => exact does_pushcli h (hidle fun h => by cases h)
  | popcli => exact does_popcli h (hidle fun h => by cases h) hbal
  | acquire lk => exact does_acquire h (hidle fun h => by cases h) (hspin' fun h => by cases h) hbal
  | xchg => exact does_xchg h (hidle fun h => by cases h)
  | release lk => exact does_release h (hidle fun h => by cases h) hbal
  | flag b => exact does_flag h (hidle fun h => by cases h) hbal b
  | sched =>
    obtain ⟨t, ht⟩ := Option.ne_none_iff_exists'.mp hbal.1
    obtain ⟨s', hs', hd, -⟩ := does_sched h (hidle fun h => by cases h) ht hbal.2.1 hbal.2.2
    exact ⟨s', hs', hd⟩
  | swtch t => exact does_swtch h hbal.2.1 hbal.2.2.1 hbal.2.2.2
  | restore =>
    obtain ⟨t, ht, hs⟩ := hres.mpr rfl
    obtain ⟨b, hb⟩ := Option.ne_none_iff_exists'.mp hs
    obtain ⟨s', hs', hd, -⟩ := does_restore h ht hb
    exact ⟨s', hs', hd⟩

end

/-! ### Runs -/

variable {es : List (C × Call L)} {init : State C L → Prop}

theorem does_of_step (h : Inv ptable s) {e : C × Call L} (ha : Allowed ptable s e)
    (hs : (system ptable init).step s e = some s') : Does ptable s e.1 e.2 s' := by
  obtain ⟨s₁, hok, hd⟩ := exec_ok h ha
  have heq : (exec ptable s e.1 e.2).toOption = some s' := hs
  rw [hok] at heq
  cases heq
  exact hd

theorem inv_of_run (hrun : RunIf (system ptable Start) (fun _ s e => Allowed ptable s e) es s) :
    Inv ptable s ∧ ∀ c, (s.cpu c).pushes = outstanding c es := by
  refine hrun.induct (I := fun es s => Inv ptable s ∧ ∀ c, (s.cpu c).pushes = outstanding c es)
    (fun s (h : Start s) => ⟨inv_start h, h.pushes⟩) fun es s e s' hi hc hs => ?_
  have hd := does_of_step hi.1 hc hs
  refine ⟨hd.inv, fun c => ?_⟩
  rw [outstanding, List.foldl_append, ← outstanding, ← hi.2 c]
  show _ = if e.1 = c then _ else _
  split_ifs with he
  · exact he ▸ hd.pushes
  · rw [hd.others c (Ne.symm he)]

/-- **The flag of a CPU** that makes calls of `spinlock.c` only, whatever the others do. -/
theorem remembers_of_run {s₀ : State C L} (h₀ : Inv ptable s₀) (hb : Remembers b (s₀.cpu c))
    (hrun : RunIf (system ptable (· = s₀))
      (fun _ s e => Allowed ptable s e ∧ (e.1 = c → e.2.locking = true)) es s) :
    Inv ptable s ∧ Remembers b (s.cpu c) := by
  refine hrun.induct (I := fun _ s => Inv ptable s ∧ Remembers b (s.cpu c)) ?_ fun _ s e s' hi hc hs => ?_
  · rintro s rfl
    exact ⟨h₀, hb⟩
  · have hd := does_of_step hi.1 hc.1 hs
    refine ⟨hd.inv, ?_⟩
    by_cases he : e.1 = c
    · have := hd.remembers (hc.2 he) b (he ▸ hi.2)
      rwa [he] at this
    · rw [hd.others c (Ne.symm he)]
      exact hi.2

/-- **A thread in `sched`** keeps its `intena`, whatever else runs. -/
theorem saved_of_run {s₀ : State C L} (h₀ : Inv ptable s₀) (hb : s₀.saved t = some b)
    (hrun : RunIf (system ptable (· = s₀))
      (fun _ s e => Allowed ptable s e ∧ ¬ (e.2 = .restore ∧ (s.cpu e.1).thread = some t)) es s) :
    Inv ptable s ∧ s.saved t = some b := by
  refine hrun.induct (I := fun _ s => Inv ptable s ∧ s.saved t = some b) ?_ fun _ s e s' hi hc hs => ?_
  · rintro s rfl
    exact ⟨h₀, hb⟩
  · have hd := does_of_step hi.1 hc.1 hs
    exact ⟨hd.inv, (hd.saved t b hi.2).resolve_right hc.2⟩

/-- **Interrupts nest.**  After every run of balanced calls on any number of CPUs: no call that is allowed
panics; `ncli` counts the locks held and the calls of `pushcli` outstanding; interrupts are off as long as
there are any; a CPU that goes on with calls of `spinlock.c` has at the end the flag that it had at the start;
and `sched` gives its thread the `intena` it had, on whatever CPU it goes on. -/
theorem interrupts_nest (ptable : L)
    (hrun : RunIf (system ptable Start) (fun _ s e => Allowed ptable s e) es s) :
    (∀ c call, Allowed ptable s (c, call) → ∃ s', exec ptable s c call = .ok s')
      ∧ (∀ c, (s.cpu c).ncli = locksHeld s.owner c + (s.cpu c).pushes
      + if (s.cpu c).spin = none then 0 else 1) ∧ (∀ c, (s.cpu c).pushes = outstanding c es)
      ∧ (∀ c, (s.cpu c).ncli ≠ 0 → (s.cpu c).iflag = false)
      ∧ (∀ c es' s', (s.cpu c).ncli = 0 → RunIf (system ptable (· = s))
        (fun _ s e => Allowed ptable s e ∧ (e.1 = c → e.2.locking = true)) es' s' →
        (s'.cpu c).iflag = if (s'.cpu c).ncli = 0 then (s.cpu c).iflag else false)
      ∧ ∀ c t s₁, (s.cpu c).thread = some t → Allowed ptable s (c, .sched) → exec ptable s c .sched = .ok s₁ →
        ∀ es' s' c', RunIf (system ptable (· = s₁))
          (fun _ s e => Allowed ptable s e ∧ ¬ (e.2 = .restore ∧ (s.cpu e.1).thread = some t)) es' s' →
        (s'.cpu c').thread = some t →
        ∃ s'', exec ptable s' c' .restore = .ok s'' ∧ (s''.cpu c').intena = (s.cpu c).intena
          ∧ (s''.cpu c').ncli = 1 ∧ s''.owner ptable = some c' := by
  obtain ⟨hinv, hpushes⟩ := inv_of_run hrun
  refine ⟨fun c call ha => ?_, hinv.count, hpushes, fun c hne => ?_, fun c es' s' h0 hrun' => ?_,
    fun c t s₁ ht ha hs₁ es' s' c' hrun' ht' => ?_⟩
  · obtain ⟨s', hs', -⟩ := exec_ok hinv ha
    exact ⟨s', hs'⟩
  · exact hinv.flag_off (lt_of_le_of_ne (hinv.nonneg c) (Ne.symm hne))
  · obtain ⟨hinv', hrem⟩ := remembers_of_run hinv (b := (s.cpu c).iflag)
      ⟨fun _ => rfl, fun h => absurd h0 h⟩ hrun'
    split_ifs with h
    · exact hrem.1 h
    · exact hinv'.flag_off (lt_of_le_of_ne (hinv'.nonneg c) (Ne.symm h))
  · have hidle : ¬ Resuming s c := fun hr => by cases ha.2.1.mp hr
    obtain ⟨s₂, hs₂, hd, hsaved⟩ := does_sched hinv hidle ht ha.2.2.2.1 ha.2.2.2.2
    rw [hs₁] at hs₂
    cases hs₂
    obtain ⟨hinv', hkept⟩ := saved_of_run hd.inv hsaved hrun'
    obtain ⟨s'', hs'', -, hrest⟩ := does_restore hinv' ht' hkept
    exact ⟨s'', hs'', hrest⟩

/-- Two CPUs with interrupts on: the first runs thread 7, the second its scheduler. -/
def booted : State (Fin 2) (Fin 2) :=
  ⟨fun c => ⟨0, false, true, none, if c = 0 then some 7 else none, 0⟩, fun _ => none, fun _ => none⟩

theorem start_booted : Start booted :=
  ⟨fun _ => rfl, fun _ => rfl, fun _ => rfl, fun _ => rfl, fun _ => rfl, by simp only [booted]; grind⟩

/-- The thread calls `pushcli`, acquires lock 1 and `ptable.lock`, which is lock 0, and gives them up in
another order; it calls `sched`, and goes on on the second CPU. -/
def changeCpu : List (Fin 2 × Call (Fin 2)) :=
  [(0, .pushcli), (0, .acquire 1), (0, .xchg), (0, .acquire 0), (0, .xchg), (0, .release 1),
    (0, .popcli), (0, .sched), (0, .release 0), (1, .acquire 0), (1, .xchg), (1, .swtch 7), (1, .restore)]

theorem interrupts_nest_change : ∃ s, RunIf (system 0 Start) (fun _ s e => Allowed 0 s e) changeCpu s
    ∧ (s.cpu 1).thread = some 7 ∧ (s.cpu 1).intena = true ∧ (s.cpu 1).ncli = 1 ∧ (s.cpu 1).iflag = false
    ∧ locksHeld s.owner 1 = 1 ∧ (s.cpu 0).pushes = outstanding 0 changeCpu := by
  obtain ⟨s, hr, hs⟩ := exists_runIf_of_map (S := system 0 Start) (C := fun _ s e => Allowed 0 s e)
    (f := fun s => ((s.cpu 1).thread, (s.cpu 1).intena, (s.cpu 1).ncli, (s.cpu 1).spin, (s.cpu 1).pushes))
    (y := (some 7, true, 1, none, 0)) changeCpu start_booted (by decide +kernel)
  simp only [Prod.mk.injEq] at hs
  obtain ⟨hthread, hena, hone, hspin, hpushes⟩ := hs
  obtain ⟨_, hcount, hout, hoff, _⟩ := interrupts_nest 0 hr
  have hlocks := hcount 1
  rw [hone, hspin, hpushes] at hlocks
  exact ⟨s, hr, hthread, hena, hone, hoff 1 (by rw [hone]; decide), by simpa using hlocks.symm, hout 0⟩

end Xv6e.Process.Interrupts
