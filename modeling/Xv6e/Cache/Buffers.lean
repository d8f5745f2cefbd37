import Xv6e.Library.Holders
import Xv6e.Library.PointerRing
import Xv6e.Library.Transition

/-!
# The buffer cache

`binit`, `bget`, `bread`, `bwrite`, `brelse` and what `log_write` does to a buffer, on the device of the file
system.  A section under `bcache.lock` is one step, and so is taking or dropping the sleep-lock of a buffer.

The buffers have the addresses `1 … NBUF`, and the head of their list has the address `0`.  A user is one call
of `bread` and what is done with its buffer until `brelse`: a process that has several buffers is several
users.  The disk transfers blocks as `iderw` asks.  With the cache the model keeps, for every block, the data
of its latest update.

* `bget`, `unref` — the two sections under `bcache.lock`;
* `step` — the steps of the users;
* `binit`, `system` — the cache after `binit`.
-/

namespace Xv6e.Cache.Buffers

open Library.Transition Library.Holders Library.PointerRing

def NBUF : ℕ := 30

def ROOTDEV : ℕ := 1

def head : ℕ := 0

def buffers : List ℕ := List.range' 1 NBUF

/-- `struct buf` without its links and its lock; `valid` and `dirty` are the bits of `flags`. -/
structure Buf (β : Type) where
  valid : Bool
  dirty : Bool
  dev : ℕ
  blockno : ℕ
  refcnt : ℕ
  data : β

/-- Where a user is, with its buffer and the block that it asked for. -/
inductive Pc
  | idle
  | locking (b n : ℕ)    -- `acquiresleep(&b->lock)` at the end of `bget`
  | checking (b n : ℕ)   -- `if((b->flags & B_VALID) == 0)` in `bread`
  | held (b n : ℕ)       -- `bread` has returned
  | changed (b n : ℕ)    -- the data have been changed and not yet written
  | writing (b n : ℕ)    -- `iderw(b)` in `bwrite`
  | releasing (b n : ℕ)  -- `acquire(&bcache.lock)` in `brelse`
  deriving DecidableEq, Repr

/-- The buffer that a user has asked for, and the block. -/
def Pc.use : Pc → Option (ℕ × ℕ)
  | .idle => none
  | .locking b n | .checking b n | .held b n | .changed b n | .writing b n | .releasing b n => some (b, n)

def Pc.locked : Pc → Option ℕ
  | .idle | .locking _ _ | .releasing _ _ => none
  | .checking b _ | .held b _ | .changed b _ | .writing b _ => some b

def Pc.read : Pc → Bool
  | .held _ _ | .changed _ _ | .writing _ _ => true
  | _ => false

/-- The data may differ from the latest update. -/
def Pc.changing : Pc → Bool
  | .changed _ _ | .writing _ _ => true
  | _ => false

/-- One reference if the user has asked for the buffer. -/
def Pc.refs (b : ℕ) (c : Pc) : ℕ := if c.use.map Prod.fst = some b then 1 else 0

/-- The cache, the users and the disk. -/
structure State (P β : Type) where
  buf : ℕ → Buf β
  prev : ℕ → ℕ
  next : ℕ → ℕ
  lock : ℕ → Option P
  pc : P → Pc
  disk : ℕ → β
  latest : ℕ → β

variable {P β : Type} [DecidableEq P]

def State.goto (s : State P β) (p : P) (c : Pc) : State P β := { s with pc := Function.update s.pc p c }

def State.setBuf (s : State P β) (b : ℕ) (x : Buf β) : State P β :=
  { s with buf := Function.update s.buf b x }

/-- `b->next = bcache.head.next; b->prev = &bcache.head; bcache.head.next->prev = b; bcache.head.next = b`. -/
def State.linkFront (s : State P β) (b : ℕ) : State P β :=
  let next := Function.update s.next b (s.next head)
  let prev := Function.update s.prev b head
  { s with
    prev := Function.update prev (next head) b
    next := Function.update next head b }

/-- `b->next->prev = b->prev; b->prev->next = b->next`. -/
def State.unlink (s : State P β) (b : ℕ) : State P β :=
  let prev := Function.update s.prev (s.next b) (s.prev b)
  { s with
    prev := prev
    next := Function.update s.next (prev b) (s.next b) }

/-- The first loop of `bget`: it ends at the head when the block is not cached. -/
def State.lookup (s : State P β) (dev n : ℕ) : Option ℕ :=
  follow s.next (fun b => decide (b = head) || decide ((s.buf b).dev = dev ∧ (s.buf b).blockno = n))
    (NBUF + 1) (s.next head)

/-- The second loop: it ends at the head when no buffer is unused. -/
def State.unused (s : State P β) : Option ℕ :=
  follow s.prev (fun b => decide (b = head) || decide ((s.buf b).refcnt = 0 ∧ (s.buf b).dirty = false))
    (NBUF + 1) (s.prev head)

/-- The section of `bget` under `bcache.lock`, with the buffer; `none` where it panics. -/
def State.bget (s : State P β) (dev n : ℕ) : Option (ℕ × State P β) := do
  let b ← s.lookup dev n
  if b ≠ head then
    return (b, s.setBuf b { s.buf b with refcnt := (s.buf b).refcnt + 1 })
  let b ← s.unused
  if b ≠ head then
    return (b,
      s.setBuf b { s.buf b with dev := dev, blockno := n, valid := false, dirty := false, refcnt := 1 })
  none

/-- `iderw`: a dirty buffer is written, another one is read. -/
def State.iderw (s : State P β) (b : ℕ) : State P β :=
  let x := s.buf b
  if x.dirty then
    { s.setBuf b { x with valid := true, dirty := false } with
      disk := Function.update s.disk x.blockno x.data }
  else s.setBuf b { x with valid := true, data := s.disk x.blockno }

/-- The data of the buffer are the latest update of its block. -/
def State.update (s : State P β) (b : ℕ) : State P β :=
  { s with latest := Function.update s.latest (s.buf b).blockno (s.buf b).data }

/-- The section of `brelse` under `bcache.lock`. -/
def State.unref (s : State P β) (b : ℕ) : State P β :=
  let t := s.setBuf b { s.buf b with refcnt := (s.buf b).refcnt - 1 }
  if (t.buf b).refcnt = 0 then (t.unlink b).linkFront b else t

inductive Event (P β : Type)
  | bget (p : P) (n : ℕ)
  | acquiresleep (p : P)
  | bread (p : P)
  | change (p : P) (x : β)
  | bwrite (p : P)
  | iderw (p : P)
  | logWrite (p : P)
  | releasesleep (p : P)
  | unref (p : P)

/-- One step.  A user that has changed the data writes them before `brelse`, with `bwrite` or `log_write`. -/
def step (s : State P β) : Event P β → Option (State P β)
  | .bget p n => if s.pc p = .idle then (s.bget ROOTDEV n).map fun r => r.2.goto p (.locking r.1 n) else none
  | .acquiresleep p =>
    match s.pc p with
    | .locking b n =>
      if (s.lock b).isNone then
        some ({ s with lock := Function.update s.lock b (some p) }.goto p (.checking b n)) else none
    | _ => none
  | .bread p =>
    match s.pc p with
    | .checking b n => some ((if (s.buf b).valid = false then s.iderw b else s).goto p (.held b n))
    | _ => none
  | .change p x =>
    match s.pc p with
    | .held b n | .changed b n => some ((s.setBuf b { s.buf b with data := x }).goto p (.changed b n))
    | _ => none
  | .bwrite p =>
    match s.pc p with
    | .held b n | .changed b n => some ((s.setBuf b { s.buf b with dirty := true }).goto p (.writing b n))
    | _ => none
  | .iderw p =>
    match s.pc p with
    | .writing b n => some (((s.iderw b).update b).goto p (.held b n))
    | _ => none
  | .logWrite p =>
    match s.pc p with
    | .held b n | .changed b n =>
      some (((s.setBuf b { s.buf b with dirty := true }).update b).goto p (.held b n))
    | _ => none
  | .releasesleep p =>
    match s.pc p with
    | .held b n => some ({ s with lock := Function.update s.lock b none }.goto p (.releasing b n))
    | _ => none
  | .unref p =>
    match s.pc p with
    | .releasing b _ => some ((s.unref b).goto p .idle)
    | _ => none

def binit (disk : ℕ → β) : State P β :=
  let s : State P β :=
    { buf := fun _ => ⟨false, false, 0, 0, 0, disk 0⟩
      prev := fun _ => head
      next := fun _ => head
      lock := fun _ => none
      pc := fun _ => .idle
      disk := disk
      latest := disk }
  buffers.foldl State.linkFront s

/-- The users over the cache, from a disk with any contents. -/
def system (disk : ℕ → β) : System (State P β) (Event P β) where
  init s := s = binit disk
  step := step

/-- **What a step does.** -/
inductive Does (s : State P β) : Event P β → State P β → Prop
  | hit (p : P) (n b : ℕ) (hp : s.pc p = .idle) (hb : s.lookup ROOTDEV n = some b) (hne : b ≠ head) :
      Does s (.bget p n) ((s.setBuf b { s.buf b with refcnt := (s.buf b).refcnt + 1 }).goto p (.locking b n))
  | recycle (p : P) (n b : ℕ) (hp : s.pc p = .idle) (hmiss : s.lookup ROOTDEV n = some head)
      (hb : s.unused = some b) (hne : b ≠ head) :
      Does s (.bget p n)
        ((s.setBuf b
          { s.buf b with dev := ROOTDEV, blockno := n, valid := false, dirty := false, refcnt := 1 }).goto p
          (.locking b n))
  | acquiresleep (p : P) (b n : ℕ) (hp : s.pc p = .locking b n) (hfree : s.lock b = none) :
      Does s (.acquiresleep p) ({ s with lock := Function.update s.lock b (some p) }.goto p (.checking b n))
  | cached (p : P) (b n : ℕ) (hp : s.pc p = .checking b n) (hv : (s.buf b).valid = true) :
      Does s (.bread p) (s.goto p (.held b n))
  | fill (p : P) (b n : ℕ) (hp : s.pc p = .checking b n) (hv : (s.buf b).valid = false) :
      Does s (.bread p) ((s.iderw b).goto p (.held b n))
  | change (p : P) (x : β) (b n : ℕ) (hp : s.pc p = .held b n ∨ s.pc p = .changed b n) :
      Does s (.change p x) ((s.setBuf b { s.buf b with data := x }).goto p (.changed b n))
  | bwrite (p : P) (b n : ℕ) (hp : s.pc p = .held b n ∨ s.pc p = .changed b n) :
      Does s (.bwrite p) ((s.setBuf b { s.buf b with dirty := true }).goto p (.writing b n))
  | iderw (p : P) (b n : ℕ) (hp : s.pc p = .writing b n) :
      Does s (.iderw p) (((s.iderw b).update b).goto p (.held b n))
  | logWrite (p : P) (b n : ℕ) (hp : s.pc p = .held b n ∨ s.pc p = .changed b n) :
      Does s (.logWrite p) (((s.setBuf b { s.buf b with dirty := true }).update b).goto p (.held b n))
  | releasesleep (p : P) (b n : ℕ) (hp : s.pc p = .held b n) :
      Does s (.releasesleep p) ({ s with lock := Function.update s.lock b none }.goto p (.releasing b n))
  | unref (p : P) (b n : ℕ) (hp : s.pc p = .releasing b n) : Does s (.unref p) ((s.unref b).goto p .idle)

theorem does_bget {s t : State P β} {p : P} {n : ℕ} (h : step s (.bget p n) = some t) :
    Does s (.bget p n) t := by
  rw [step] at h
  split at h
  case isFalse => cases h
  case isTrue hp =>
    obtain ⟨⟨b, u⟩, hget, rfl⟩ := Option.map_eq_some_iff.mp h
    rw [State.bget] at hget
    cases hlookup : s.lookup ROOTDEV n with
    | none => simp [hlookup] at hget
    | some a =>
      by_cases ha : a = head
      · cases hunused : s.unused with
        | none => simp [hlookup, ha, hunused] at hget
        | some b' =>
          by_cases hb : b' = head
          · simp [hlookup, ha, hunused, hb] at hget
          · simp only [hlookup, ha, hunused, hb, ne_eq, not_true_eq_false, not_false_eq_true,
              if_true, if_false, Option.bind_eq_bind, Option.bind_some, Option.pure_def, Option.some.injEq,
              Prod.mk.injEq] at hget
            obtain ⟨rfl, rfl⟩ := hget
            exact Does.recycle p n b' hp (hlookup.trans (by rw [ha])) hunused hb
      · simp only [hlookup, ha, ne_eq, not_false_eq_true, if_true, Option.bind_eq_bind, Option.bind_some,
          Option.pure_def, Option.some.injEq, Prod.mk.injEq] at hget
        obtain ⟨rfl, rfl⟩ := hget
        exact Does.hit p n a hp hlookup ha

theorem does_step {s t : State P β} {e : Event P β} (h : step s e = some t) : Does s e t := by
  cases e with
  | bget p n => exact does_bget h
  | acquiresleep p =>
    rw [step] at h
    split at h
    case h_1 b n hp =>
      split at h
      case isTrue hfree =>
        cases h
        exact Does.acquiresleep p b n hp (Option.isNone_iff_eq_none.mp hfree)
      case isFalse => cases h
    case h_2 => cases h
  | bread p =>
    rw [step] at h
    split at h
    case h_1 b n hp =>
      cases h
      split
      case isTrue hv => exact Does.fill p b n hp hv
      case isFalse hv => exact Does.cached p b n hp (by simpa using hv)
    case h_2 => cases h
  | change p x =>
    rw [step] at h
    split at h
    case h_1 b n hp => cases h; exact Does.change p x b n (Or.inl hp)
    case h_2 b n hp => cases h; exact Does.change p x b n (Or.inr hp)
    case h_3 => cases h
  | bwrite p =>
    rw [step] at h
    split at h
    case h_1 b n hp => cases h; exact Does.bwrite p b n (Or.inl hp)
    case h_2 b n hp => cases h; exact Does.bwrite p b n (Or.inr hp)
    case h_3 => cases h
  | iderw p =>
    rw [step] at h
    split at h
    case h_1 b n hp => cases h; exact Does.iderw p b n hp
    case h_2 => cases h
  | logWrite p =>
    rw [step] at h
    split at h
    case h_1 b n hp => cases h; exact Does.logWrite p b n (Or.inl hp)
    case h_2 b n hp => cases h; exact Does.logWrite p b n (Or.inr hp)
    case h_3 => cases h
  | releasesleep p =>
    rw [step] at h
    split at h
    case h_1 b n hp => cases h; exact Does.releasesleep p b n hp
    case h_2 => cases h
  | unref p =>
    rw [step] at h
    split at h
    case h_1 b n hp => cases h; exact Does.unref p b n hp
    case h_2 => cases h

end Xv6e.Cache.Buffers
