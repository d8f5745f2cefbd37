import Xv6e.Params
import Xv6e.Library.Holders
import Xv6e.Library.Transition

/-!
# The inode cache

`ialloc`, `iget`, `idup`, `ilock`, `iunlock` and `iput`, for any number of users.  A section under
`icache.lock` is one step, and so are taking and dropping the sleep-lock of an entry and each access to an
inode on the disk, which is made with the buffer of its block locked.

A user is one reference, from the call that hands it out to the end of the `iput` that gives it back: a
process with several references is several users, and `idup` starts a new one.  Between `ilock` and `iunlock`
a user may change the fields of the entry; it then calls `iupdate` before `iunlock`, as the cache is
write-through, and it does not set the type to zero.  A panic stops the machine, so that a step that would
panic does not exist.

* `State.iget` — the section of `iget`;
* `State.run` — the next step inside a call;
* `step`, `system` — the calls and their steps.
-/

namespace Xv6e.Cache.Inodes

open Library.Transition Library.Holders

/-- An inode: the device and the number. -/
abbrev Key : Type := ℕ × ℕ

structure Dinode where
  type : ℕ
  major : ℕ
  minor : ℕ
  nlink : ℕ
  size : ℕ
  addrs : ℕ → ℕ

def Dinode.zero : Dinode := ⟨0, 0, 0, 0, 0, fun _ => 0⟩

/-- `struct inode` without its lock; `fields` are the copies of the fields on the disk. -/
structure Inode where
  dev : ℕ
  inum : ℕ
  ref : ℕ
  valid : Bool
  fields : Dinode

def Inode.key (ip : Inode) : Key := (ip.dev, ip.inum)

inductive Phase
  | ref         -- between calls
  | locking     -- `acquiresleep(&ip->lock)` in `ilock`
  | checking    -- `if(ip->valid == 0)`
  | locked      -- `ilock` has returned
  | changed     -- fields have been changed and not yet written
  | put         -- `acquiresleep(&ip->lock)` in `iput`
  | putLocked   -- `if(ip->valid && ip->nlink == 0)`
  | putRefs     -- `int r = ip->ref`
  | trunc       -- `itrunc(ip)`
  | truncated   -- `iupdate(ip)` in `itrunc`
  | freeing     -- `ip->type = 0`
  | freed       -- `iupdate(ip)`
  | erased      -- `ip->valid = 0`
  | unlocking   -- `releasesleep(&ip->lock)`
  | dropping    -- `ip->ref--`
  deriving DecidableEq, Repr

def Phase.holds : Phase → Bool
  | .ref | .locking | .put | .dropping => false
  | .checking | .locked | .changed | .putLocked | .putRefs | .trunc | .truncated | .freeing | .freed | .erased
  | .unlocking => true

/-- Where a user is: in the loop of `ialloc`, in front of the section of `iget`, or with a reference to an
entry, which it got for an inode. -/
inductive Pc
  | idle
  | scanning (dev type inum : ℕ)
  | getting (k : Key)
  | entry (e : ℕ) (k : Key) (ph : Phase)
  deriving DecidableEq, Repr

/-- One reference if the user has the entry. -/
def Pc.refs (e : ℕ) : Pc → ℕ
  | .entry a _ _ => if a = e then 1 else 0
  | _ => 0

/-- The entry whose lock the user has. -/
def Pc.locked : Pc → Option ℕ
  | .entry e _ ph => if ph.holds then some e else none
  | _ => none

def Pc.phase : Pc → Option Phase
  | .entry _ _ ph => some ph
  | _ => none

/-- What happens to inodes on the disk. -/
inductive Mark
  | alloc (k : Key)
  | free (k : Key)
  deriving DecidableEq, Repr

/-- The cache, the users and the inodes on the disk, with the history of allocations. -/
structure State (P : Type) where
  inode : ℕ → Inode
  lock : ℕ → Option P
  pc : P → Pc
  disk : Key → Dinode
  marks : List Mark

variable {P : Type} [DecidableEq P]

def State.goto (s : State P) (p : P) (c : Pc) : State P := { s with pc := Function.update s.pc p c }

def State.setInode (s : State P) (e : ℕ) (ip : Inode) : State P :=
  { s with inode := Function.update s.inode e ip }

inductive Found
  | hit (e : ℕ)
  | empty (e : ℕ)
  | full
  deriving DecidableEq, Repr

/-- The loop of `iget` over entries, with the empty slot that it remembers. -/
def State.search (s : State P) (k : Key) : List ℕ → Option ℕ → Found
  | [], none => .full
  | [], some e => .empty e
  | e :: es, empty =>
    if 0 < (s.inode e).ref ∧ (s.inode e).key = k then .hit e
    else s.search k es (if empty.isNone ∧ (s.inode e).ref = 0 then some e else empty)

/-- The section of `iget`, with the entry. -/
def State.iget (s : State P) (k : Key) : Option (ℕ × State P) :=
  match s.search k (List.range NINODE) none with
  | .hit e => some (e, s.setInode e { s.inode e with ref := (s.inode e).ref + 1 })
  | .empty e => some (e, s.setInode e { s.inode e with dev := k.1, inum := k.2, ref := 1, valid := false })
  | .full => none  -- `panic("iget: no inodes")`

/-- `itrunc` on the fields: no blocks and no bytes are left. -/
def truncate (f : Dinode) : Dinode := { f with size := 0, addrs := fun _ => 0 }

/-- The user takes the lock of its entry, if it is free. -/
def State.acquiresleep (s : State P) (p : P) (e : ℕ) (k : Key) (ph : Phase) : Option (State P) :=
  if (s.lock e).isNone then
    some ({ s with lock := Function.update s.lock e (some p) }.goto p (.entry e k ph)) else none

def State.releasesleep (s : State P) (p : P) (e : ℕ) (k : Key) (ph : Phase) : State P :=
  { s with lock := Function.update s.lock e none }.goto p (.entry e k ph)

def State.iupdate (s : State P) (e : ℕ) : State P :=
  { s with disk := Function.update s.disk (s.inode e).key (s.inode e).fields }

def State.mark (s : State P) (m : Mark) : State P := { s with marks := s.marks ++ [m] }

/-- The next step of a user inside a call.  `ninodes` is the number of inodes of the file system. -/
def State.run (ninodes : ℕ) (s : State P) (p : P) : Option (State P) :=
  match s.pc p with
  | .idle => none
  | .scanning dev type inum =>
    if inum < ninodes then
      if (s.disk (dev, inum)).type = 0 then
        some (({ s with disk := Function.update s.disk (dev, inum) { Dinode.zero with type := type } }.mark
          (.alloc (dev, inum))).goto p (.getting (dev, inum)))
      else some (s.goto p (.scanning dev type (inum + 1)))
    else none  -- `panic("ialloc: no inodes")`
  | .getting k => (s.iget k).map fun r => r.2.goto p (.entry r.1 k .ref)
  | .entry e k .locking => s.acquiresleep p e k .checking
  | .entry e k .checking =>
    if (s.inode e).valid = false then
      let f := s.disk (s.inode e).key
      if f.type = 0 then none  -- `panic("ilock: no type")`
      else some ((s.setInode e { s.inode e with fields := f, valid := true }).goto p (.entry e k .locked))
    else some (s.goto p (.entry e k .locked))
  | .entry e k .put => s.acquiresleep p e k .putLocked
  | .entry e k .putLocked =>
    some (s.goto p
      (.entry e k (if (s.inode e).valid = true ∧ (s.inode e).fields.nlink = 0 then .putRefs else .unlocking)))
  | .entry e k .putRefs => some (s.goto p (.entry e k (if (s.inode e).ref = 1 then .trunc else .unlocking)))
  | .entry e k .trunc =>
    some ((s.setInode e { s.inode e with fields := truncate (s.inode e).fields }).goto p
      (.entry e k .truncated))
  | .entry e k .truncated => some ((s.iupdate e).goto p (.entry e k .freeing))
  | .entry e k .freeing =>
    some ((s.setInode e { s.inode e with fields := { (s.inode e).fields with type := 0 } }).goto p
      (.entry e k .freed))
  | .entry e k .freed => some (((s.iupdate e).mark (.free (s.inode e).key)).goto p (.entry e k .erased))
  | .entry e k .erased =>
    some ((s.setInode e { s.inode e with valid := false }).goto p (.entry e k .unlocking))
  | .entry e k .unlocking => some (s.releasesleep p e k .dropping)
  | .entry e _ .dropping => some ((s.setInode e { s.inode e with ref := (s.inode e).ref - 1 }).goto p .idle)
  | .entry _ _ .ref | .entry _ _ .locked | .entry _ _ .changed => none

/-- The calls and their steps; in `idup p q` the user `p` makes the reference of `q`. -/
inductive Event (P : Type)
  | ialloc (p : P) (dev type : ℕ)
  | iget (p : P) (k : Key)
  | idup (p q : P)
  | ilock (p : P)
  | change (p : P) (f : Dinode)
  | iupdate (p : P)
  | iunlock (p : P)
  | iput (p : P)
  | run (p : P)

def step (ninodes : ℕ) (s : State P) : Event P → Option (State P)
  | .ialloc p dev type => if s.pc p = .idle ∧ type ≠ 0 then some (s.goto p (.scanning dev type 1)) else none
  | .iget p k => if s.pc p = .idle then some (s.goto p (.getting k)) else none
  | .idup p q =>
    match s.pc p, s.pc q with
    | .entry e k .ref, .idle | .entry e k .locked, .idle | .entry e k .changed, .idle =>
      some ((s.setInode e { s.inode e with ref := (s.inode e).ref + 1 }).goto q (.entry e k .ref))
    | _, _ => none
  | .ilock p =>
    match s.pc p with
    | .entry e k .ref => some (s.goto p (.entry e k .locking))
    | _ => none
  | .change p f =>
    match s.pc p with
    | .entry e k .locked | .entry e k .changed =>
      if f.type ≠ 0 then
        some ((s.setInode e { s.inode e with fields := f }).goto p (.entry e k .changed)) else none
    | _ => none
  | .iupdate p =>
    match s.pc p with
    | .entry e k .locked | .entry e k .changed => some ((s.iupdate e).goto p (.entry e k .locked))
    | _ => none
  | .iunlock p =>
    match s.pc p with
    | .entry e k .locked => some (s.releasesleep p e k .ref)
    | _ => none
  | .iput p =>
    match s.pc p with
    | .entry e k .ref => some (s.goto p (.entry e k .put))
    | _ => none
  | .run p => s.run ninodes p

def start (disk : Key → Dinode) : State P where
  inode _ := ⟨0, 0, 0, false, Dinode.zero⟩
  lock _ := none
  pc _ := .idle
  disk := disk
  marks := []

/-- The users of the cache, from a disk with any inodes. -/
def system (ninodes : ℕ) (disk : Key → Dinode) : System (State P) (Event P) where
  init s := s = start disk
  step := step ninodes

end Xv6e.Cache.Inodes
