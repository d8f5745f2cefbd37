import Xv6e.Params
import Xv6e.Library.MonitorSleep
import Xv6e.Library.PointerList

/-!
# The disk driver

`iderw` and `ideintr` of `ide.c`, statement by statement, for any number of processes, with the disk: it
executes one command at a time, and raises one interrupt when it is done.  `Memide.iderw` is that of
`memide.c`, which copies from and to memory.

With the driver's data the model keeps its history: the requests in the order in which they were put into the
queue, and those that were completed, each with the buffer and the disk as they were then.

* `command`, `Registers.sector`, `Registers.drive` — what `idestart` writes to the registers, and how the disk
  reads them;
* `exec`, `Does`, `start`, `finish`, `code` — the statements, the calls and the disk.
-/

namespace Xv6e.Device.Ide

open Library.Monitor
open Function (update update_self)

def SECTOR_SIZE : ℕ := 512

def FSSIZE : ℕ := 1000

/-- `struct buf`, without its lock and its links: `valid` is `B_VALID`, `dirty` is `B_DIRTY`. -/
structure Buf (β : Type) where
  valid : Bool
  dirty : Bool
  dev : ℕ
  blockno : ℕ
  data : β
  deriving DecidableEq, Repr

/-- `(b->flags & (B_VALID|B_DIRTY)) != B_VALID`. -/
def Buf.pending {β : Type} (x : Buf β) : Bool := !(x.valid && !x.dirty)

/-! ### The disk -/

/-- The registers `0x1f3` to `0x1f6` of the disk. -/
structure Registers where
  lba0 : ℕ
  lba1 : ℕ
  lba2 : ℕ
  device : ℕ
  deriving DecidableEq, Repr

namespace Registers

def sector (r : Registers) : ℕ := r.lba0 + 2 ^ 8 * r.lba1 + 2 ^ 16 * r.lba2 + 2 ^ 24 * (r.device % 2 ^ 4)

def drive (r : Registers) : ℕ := r.device / 2 ^ 4 % 2

end Registers

/-- A command, with the data that are sent with it if it is a write. -/
structure Command (β : Type) where
  regs : Registers
  write : Option β
  deriving DecidableEq, Repr

abbrev Blocks (β : Type) : Type := ℕ → ℕ → β

/-- What a command does to the drives. -/
def Command.apply {β : Type} (c : Command β) (blocks : Blocks β) : Blocks β :=
  match c.write with
  | none => blocks
  | some x => update blocks c.regs.drive (update (blocks c.regs.drive) c.regs.sector x)

def Command.fetch {β : Type} (c : Command β) (blocks : Blocks β) : β := blocks c.regs.drive c.regs.sector

/-- Where the command that was started last is: it is executed; it is done and its interrupt is raised; a
processor has taken the interrupt, with the thread that handles it; it has been handled. -/
inductive Phase (P β : Type)
  | idle
  | busy (c : Command β)
  | raised (c : Command β)
  | taken (p : P) (c : Command β)
  deriving DecidableEq, Repr

/-- The command that was started and not yet handled. -/
def Phase.command {P β : Type} : Phase P β → Option (Command β)
  | .idle => none
  | .busy c => some c
  | .raised c => some c
  | .taken _ c => some c

def Phase.isBusy {P β : Type} : Phase P β → Bool
  | .busy _ => true
  | _ => false

/-! ### The driver -/

/-- A call of `iderw`: the process, its buffer, and what was in the buffer. -/
structure Request (P β : Type) where
  proc : P
  addr : ℕ
  before : Buf β
  deriving DecidableEq

/-- A request that was completed, with the buffer and the drives as they were then. -/
structure Completion (P β : Type) where
  request : Request P β
  after : Buf β
  disk : Blocks β

/-- The driver's data, the disk and the history.  `owner` says who has called `iderw` on a buffer, `ticket`
the place of its request among those that were put into the queue. -/
structure Driver (P β : Type) where
  buf : ℕ → Buf β
  qnext : ℕ → ℕ
  idequeue : ℕ
  havedisk1 : Bool
  phase : Phase P β
  port : β
  blocks : Blocks β
  owner : ℕ → Option P
  ticket : ℕ → ℕ
  enqueued : List (Request P β)
  history : List (Completion P β)
  first : Blocks β

/-- The pointer `pp` of the loop in `iderw`: `&idequeue`, or `&b->qnext`. -/
inductive Link
  | head
  | next (b : ℕ)
  deriving DecidableEq, Repr

/-- The next statement of a call; `x` is what the caller of `iderw` has put into the buffer, whose lock it
holds. -/
inductive Pc (β : Type)
  | rw (b : ℕ) (x : Buf β)      -- `b->qnext = 0`
  | scan (b : ℕ) (pp : Link)    -- `for(pp=&idequeue; *pp; pp=&(*pp)->qnext)`, `*pp = b`, `if(idequeue == b)`
  | rwStart (b : ℕ)             -- `idestart(b)`
  | wait (b : ℕ)                -- `while((b->flags & (B_VALID|B_DIRTY)) != B_VALID)`
  | intr                        -- `if((b = idequeue) == 0)`, `idequeue = b->qnext`
  | intrRead (b : ℕ)            -- `if(!(b->flags & B_DIRTY) && idewait(1) >= 0)`
  | intrFlags (b : ℕ)           -- `b->flags |= B_VALID`, `b->flags &= ~B_DIRTY`
  | intrWake (b : ℕ)            -- `wakeup(b)`
  | intrNext                    -- `if(idequeue != 0)`
  | intrStart (b : ℕ)           -- `idestart(idequeue)`
  | intrEnd                     -- `release(&idelock)`
  | panic (msg : String)
  deriving DecidableEq, Repr

/-- What a call returns: for `iderw` its buffer, the place of its request, and what is in the buffer. -/
inductive Ret (β : Type)
  | handled
  | rw (b : ℕ) (i : ℕ) (x : Buf β)
  deriving DecidableEq, Repr

variable {P β : Type}

def sectorPerBlock : ℕ := BSIZE / SECTOR_SIZE

/-- What `idestart` writes to the registers for a buffer. -/
def registers (x : Buf β) : Registers where
  lba0 := x.blockno * sectorPerBlock % 2 ^ 8
  lba1 := x.blockno * sectorPerBlock / 2 ^ 8 % 2 ^ 8
  lba2 := x.blockno * sectorPerBlock / 2 ^ 16 % 2 ^ 8
  device := 0xe0 ||| ((x.dev % 2) <<< 4) ||| (x.blockno * sectorPerBlock / 2 ^ 24 % 2 ^ 4)

def command (x : Buf β) : Command β := ⟨registers x, if x.dirty then some x.data else none⟩

/-- `idestart(b)`, then `next`; it waits in `idewait`, at the statement `again`, until the disk is not
busy. -/
def idestart (d : Driver P β) (b : ℕ) (again next : Pc β) : Outcome (Driver P β) ℕ (Pc β) (Ret β) :=
  if b = 0 then .goto d (.panic "idestart")
  else if FSSIZE ≤ (d.buf b).blockno then .goto d (.panic "incorrect blockno")
  else if 7 < sectorPerBlock then .goto d (.panic "idestart")
  else if d.phase.isBusy then .goto d again
  else .goto { d with phase := .busy (command (d.buf b)) } next

namespace Driver

def load (d : Driver P β) : Link → ℕ
  | .head => d.idequeue
  | .next b => d.qnext b

def store (d : Driver P β) (pp : Link) (b : ℕ) : Driver P β :=
  match pp with
  | .head => { d with idequeue := b }
  | .next a => { d with qnext := update d.qnext a b }

/-- `p` has called `iderw` on `b`, and has put `x` into it. -/
def call (d : Driver P β) (p : P) (b : ℕ) (x : Buf β) : Driver P β :=
  { d with buf := update d.buf b x, owner := update d.owner b (some p) }

/-- The request of `p` for `b` is in the queue. -/
def enqueue (d : Driver P β) (p : P) (b : ℕ) : Driver P β :=
  { d with enqueued := d.enqueued ++ [⟨p, b, d.buf b⟩], ticket := update d.ticket b d.enqueued.length }

def insl (d : Driver P β) (b : ℕ) : Driver P β :=
  { d with buf := update d.buf b { d.buf b with data := d.port } }

/-- `b->flags |= B_VALID` and `b->flags &= ~B_DIRTY`; the request at the head of those that are not completed
is now. -/
def complete (d : Driver P β) (b : ℕ) : Driver P β :=
  let after := { d.buf b with valid := true, dirty := false }
  { d with
    buf := update d.buf b after
    history := d.history ++ (d.enqueued[d.history.length]?).toList.map fun r => ⟨r, after, d.blocks⟩ }

end Driver

def exec (p : P) (k : Pc β) (_ : Bool) (d : Driver P β) : Outcome (Driver P β) ℕ (Pc β) (Ret β) :=
  match k with
  | .rw b _ => .goto { d with qnext := update d.qnext b 0 } (.scan b .head)
  | .scan b pp =>
    if d.load pp ≠ 0 then .goto d (.scan b (.next (d.load pp)))
    else if (d.store pp b).idequeue = b then .goto ((d.store pp b).enqueue p b) (.rwStart b)
    else .goto ((d.store pp b).enqueue p b) (.wait b)
  | .rwStart b => idestart d b (.rwStart b) (.wait b)
  | .wait b =>
    if (d.buf b).pending then .sleep b (.wait b)
    else .ret { d with owner := update d.owner b none } (.rw b (d.ticket b) (d.buf b))
  | .intr =>
    if d.idequeue = 0 then .ret d .handled
    else .goto { d with idequeue := d.qnext d.idequeue, phase := .idle } (.intrRead d.idequeue)
  | .intrRead b =>
    if (d.buf b).dirty then .goto d (.intrFlags b)
    else if d.phase.isBusy then .goto d (.intrRead b)
    else .goto (d.insl b) (.intrFlags b)
  | .intrFlags b => .goto (d.complete b) (.intrWake b)
  | .intrWake b => .wakeup b .intrNext
  | .intrNext => if d.idequeue ≠ 0 then .goto d (.intrStart d.idequeue) else .ret d .handled
  | .intrStart b => idestart d b (.intrStart b) .intrEnd
  | .intrEnd => .ret d .handled
  | .panic msg => .goto d (.panic msg)

/-- What a statement does, case by case. -/
inductive Does (p : P) (d : Driver P β) : Pc β → Outcome (Driver P β) ℕ (Pc β) (Ret β) → Prop
  | clear {b : ℕ} {x : Buf β} :
    Does p d (.rw b x) (.goto { d with qnext := update d.qnext b 0 } (.scan b .head))
  | walk {b : ℕ} {pp : Link} (hmore : d.load pp ≠ 0) :
      Does p d (.scan b pp) (.goto d (.scan b (.next (d.load pp))))
  | appendFirst {b : ℕ} {pp : Link} (hend : d.load pp = 0) (hfirst : (d.store pp b).idequeue = b) :
    Does p d (.scan b pp) (.goto ((d.store pp b).enqueue p b) (.rwStart b))
  | append {b : ℕ} {pp : Link} (hend : d.load pp = 0) (hfirst : (d.store pp b).idequeue ≠ b) :
    Does p d (.scan b pp) (.goto ((d.store pp b).enqueue p b) (.wait b))
  | rwFails {b : ℕ} {msg : String} : Does p d (.rwStart b) (.goto d (.panic msg))
  | rwBusy {b : ℕ} (hbusy : d.phase.isBusy = true) : Does p d (.rwStart b) (.goto d (.rwStart b))
  | rwStart {b : ℕ} (hblock : (d.buf b).blockno < FSSIZE) :
    Does p d (.rwStart b) (.goto { d with phase := .busy (command (d.buf b)) } (.wait b))
  | sleep {b : ℕ} (hpending : (d.buf b).pending = true) : Does p d (.wait b) (.sleep b (.wait b))
  | done {b : ℕ} (hdone : (d.buf b).pending = false) :
    Does p d (.wait b) (.ret { d with owner := update d.owner b none } (.rw b (d.ticket b) (d.buf b)))
  | spurious (hempty : d.idequeue = 0) : Does p d .intr (.ret d .handled)
  | pop (hsome : d.idequeue ≠ 0) :
    Does p d .intr (.goto { d with idequeue := d.qnext d.idequeue, phase := .idle } (.intrRead d.idequeue))
  | wrote {b : ℕ} (hdirty : (d.buf b).dirty = true) : Does p d (.intrRead b) (.goto d (.intrFlags b))
  | intrBusy {b : ℕ} (hbusy : d.phase.isBusy = true) : Does p d (.intrRead b) (.goto d (.intrRead b))
  | insl {b : ℕ} (hclean : (d.buf b).dirty = false) : Does p d (.intrRead b) (.goto (d.insl b) (.intrFlags b))
  | flags {b : ℕ} : Does p d (.intrFlags b) (.goto (d.complete b) (.intrWake b))
  | wake {b : ℕ} : Does p d (.intrWake b) (.wakeup b .intrNext)
  | more (hsome : d.idequeue ≠ 0) : Does p d .intrNext (.goto d (.intrStart d.idequeue))
  | noMore (hempty : d.idequeue = 0) : Does p d .intrNext (.ret d .handled)
  | intrFails {b : ℕ} {msg : String} : Does p d (.intrStart b) (.goto d (.panic msg))
  | startBusy {b : ℕ} (hbusy : d.phase.isBusy = true) : Does p d (.intrStart b) (.goto d (.intrStart b))
  | intrStart {b : ℕ} (hblock : (d.buf b).blockno < FSSIZE) :
    Does p d (.intrStart b) (.goto { d with phase := .busy (command (d.buf b)) } .intrEnd)
  | intrEnd : Does p d .intrEnd (.ret d .handled)
  | panic {msg : String} : Does p d (.panic msg) (.goto d (.panic msg))

theorem does_exec {p : P} {k : Pc β} {b : Bool} {d : Driver P β} {o : Outcome (Driver P β) ℕ (Pc β) (Ret β)}
    (h : exec p k b d = o) : Does p d k o := by
  subst h
  cases k with
  | rw b x => exact .clear
  | scan b pp =>
    rw [exec]
    split_ifs with hmore hfirst
    · exact .walk hmore
    · exact .appendFirst (not_not.mp hmore) hfirst
    · exact .append (not_not.mp hmore) hfirst
  | rwStart b =>
    rw [exec, idestart]
    split_ifs with hnull hblock hsectors hbusy
    · exact .rwFails
    · exact .rwFails
    · exact .rwFails
    · exact .rwBusy hbusy
    · exact .rwStart (Nat.lt_of_not_le hblock)
  | wait b =>
    rw [exec]
    split_ifs with hpending
    · exact .sleep hpending
    · exact .done (Bool.eq_false_iff.mpr hpending)
  | intr =>
    rw [exec]
    split_ifs with hempty
    · exact .spurious hempty
    · exact .pop hempty
  | intrRead b =>
    rw [exec]
    split_ifs with hdirty hbusy
    · exact .wrote hdirty
    · exact .intrBusy hbusy
    · exact .insl (Bool.eq_false_iff.mpr hdirty)
  | intrFlags b => exact .flags
  | intrWake b => exact .wake
  | intrNext =>
    rw [exec]
    split_ifs with hsome
    · exact .more hsome
    · exact .noMore (not_not.mp hsome)
  | intrStart b =>
    rw [exec, idestart]
    split_ifs with hnull hblock hsectors hbusy
    · exact .intrFails
    · exact .intrFails
    · exact .intrFails
    · exact .startBusy hbusy
    · exact .intrStart (Nat.lt_of_not_le hblock)
  | intrEnd => exact .intrEnd
  | panic msg => exact .panic

/-! ### Calls and the disk -/

/-- The tests of `iderw` on a buffer whose lock is held; if one fails it panics. -/
def check (havedisk1 : Bool) (x : Buf β) : Bool := x.pending && (x.dev == 0 || havedisk1)

inductive DiskEvent
  | finish
  deriving DecidableEq, Repr

/-- The disk has executed its command and raises the interrupt. -/
def finish (d : Driver P β) (_ : DiskEvent) : Option (Driver P β) :=
  match d.phase with
  | .busy c =>
    some { d with
      phase := .raised c
      blocks := c.apply d.blocks
      port := if c.write.isNone then c.fetch d.blocks else d.port }
  | _ => none

section Calls

variable [DecidableEq P]

/-- A call of `iderw` is on a buffer that nobody else has called it on, and passes the tests; a call of
`ideintr` takes the interrupt. -/
def start (s : State P (Driver P β) ℕ (Pc β) (Ret β)) (p : P) (k : Pc β) : Option (Driver P β) :=
  match k with
  | .rw b x =>
    if b ≠ 0 ∧ s.data.owner b = none ∧ check s.data.havedisk1 x = true then some (s.data.call p b x) else none
  | .intr =>
    match s.data.phase with
    | .raised c => some { s.data with phase := .taken p c }
    | _ => none
  | _ => none

/-- The monitor of the driver; its lock is `idelock`. -/
def code : Code P (Driver P β) ℕ (Pc β) (Ret β) DiskEvent where
  exec := exec
  start := start
  env := finish
  same := false

end Calls

/-- The driver when the system starts. -/
structure Fresh (d : Driver P β) : Prop where
  idequeue : d.idequeue = 0
  phase : d.phase = .idle
  owner : ∀ b, d.owner b = none
  enqueued : d.enqueued = []
  history : d.history = []
  first : d.first = d.blocks

/-! ### The registers -/

/-- **The disk reads from the registers the sector that was meant.** -/
theorem sector_registers {x : Buf β} (hx : x.blockno < FSSIZE) : (registers x).sector = x.blockno := by
  have hlow : x.blockno / 2 ^ 24 = 0 := Nat.div_eq_of_lt (Nat.lt_trans hx (by decide))
  have hdev : (0xe0 ||| ((x.dev % 2) <<< 4)) % 2 ^ 4 = 0 := by
    rcases Nat.mod_two_eq_zero_or_one x.dev with h | h <;> rw [h] <;> rfl
  rw [FSSIZE] at hx
  simp only [registers, Registers.sector, show sectorPerBlock = 1 from rfl, Nat.mul_one, hlow,
    Nat.zero_mod, Nat.or_zero, hdev, Nat.mul_zero, Nat.add_zero]
  omega

/-- **The disk reads from the registers the drive that was meant.** -/
theorem drive_registers {x : Buf β} (hx : x.blockno < FSSIZE) : (registers x).drive = x.dev % 2 := by
  have hlow : x.blockno / 2 ^ 24 = 0 := Nat.div_eq_of_lt (Nat.lt_trans hx (by decide))
  simp only [registers, Registers.drive, show sectorPerBlock = 1 from rfl, Nat.mul_one, hlow,
    Nat.zero_mod, Nat.or_zero]
  rcases Nat.mod_two_eq_zero_or_one x.dev with h | h <;> rw [h] <;> rfl

/-! ### The driver in memory -/

/-- `iderw` of `memide.c` on a buffer whose lock is held; an error is a panic. -/
def Memide.iderw (disksize : ℕ) (x : Buf β) (memdisk : ℕ → β) : Except String (Buf β × (ℕ → β)) :=
  if x.valid && !x.dirty then .error "iderw: nothing to do"
  else if x.dev ≠ 1 then .error "iderw: request not for disk 1"
  else if disksize ≤ x.blockno then .error "iderw: block out of range"
  else if x.dirty then .ok ({ x with dirty := false, valid := true }, update memdisk x.blockno x.data)
  else .ok ({ x with data := memdisk x.blockno, valid := true }, memdisk)

/-- The buffer after its request has been completed on the drives `blocks`. -/
def Buf.after (x : Buf β) (blocks : Blocks β) : Buf β :=
  { x with valid := true, dirty := false, data := if x.dirty then x.data else (command x).fetch blocks }

/-- **A completed request for drive 1 does what `memide.c` does.** -/
theorem memide_eq {x : Buf β} {disksize : ℕ} (hpending : x.pending = true) (hblock : x.blockno < FSSIZE)
    (hdev : x.dev = 1) (hsize : x.blockno < disksize) (blocks : Blocks β) :
    Memide.iderw disksize x (blocks 1) = .ok (x.after blocks, (command x).apply blocks 1) := by
  have hdrive : (registers x).drive = 1 := by rw [drive_registers hblock, hdev]
  have hsector := sector_registers hblock
  have htodo : ¬ (x.valid && !x.dirty) = true := by
    rw [Buf.pending, Bool.not_eq_true'] at hpending
    rw [hpending]
    exact Bool.false_ne_true
  rw [Memide.iderw, if_neg htodo, if_neg (not_not.mpr hdev), if_neg (Nat.not_le.mpr hsize)]
  cases hdirty : x.dirty with
  | true =>
    have happly : (command x).apply blocks 1 = update (blocks 1) x.blockno x.data := by
      simp only [command, hdirty, if_true, Command.apply, hdrive, hsector, update_self]
    rw [happly]
    simp only [Buf.after, hdirty, if_true]
  | false =>
    have happly : (command x).apply blocks = blocks := by
      simp only [command, hdirty, Bool.false_eq_true, if_false, Command.apply]
    have hfetch : (command x).fetch blocks = blocks 1 x.blockno := by
      simp only [command, Command.fetch, hdrive, hsector]
    rw [happly]
    simp only [Buf.after, hdirty, Bool.false_eq_true, if_false, hfetch]

end Xv6e.Device.Ide
