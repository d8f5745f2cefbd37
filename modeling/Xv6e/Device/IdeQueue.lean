import Xv6e.Device.Ide

/-!
# The queue of the disk driver

The requests in the queue, the list of their buffers and the command in progress, and what each statement of
`iderw` and `ideintr` and the disk do to them.

* `queued` — the requests that are not completed; `diskAt` — the drives after the first completions;
* `Core`, `Listed`, `InFlight`, `Good` — the requests and the history, the linked list, the command that is in
  progress;
* `Entry`, `Mine`, `Away`, `Here`, `Back` — what holds of a call at each of its statements and after its
  return;
* `Stopped.idestart`, `good_append`, `Popped.complete` — a command is started, a request is put into the
  queue, and one is completed;
* `Here.call`, `Moves.here` — what other calls and the disk do to the holder of the lock.
-/

namespace Xv6e.Device.IdeQueue

open Library.PointerList Ide
open Function (update update_self update_of_ne)

variable {P β : Type}

/-! ### Assertions -/

/-- The requests that are not completed. -/
def queued (d : Driver P β) : List (Request P β) := d.enqueued.drop d.history.length

/-- The drives after the first `i` completions. -/
def diskAt (d : Driver P β) : ℕ → Blocks β
  | 0 => d.first
  | i + 1 => (d.history[i]?).elim d.first Completion.disk

/-- The drives after the last completion. -/
def base (d : Driver P β) : Blocks β := diskAt d d.history.length

/-- What a completion on the drives `blocks` says. -/
structure Completed (blocks : Blocks β) (c : Completion P β) : Prop where
  pending : c.request.before.pending = true
  block : c.request.before.blockno < FSSIZE
  after : c.after = c.request.before.after blocks
  disk : c.disk = (command c.request.before).apply blocks

structure Core (d : Driver P β) : Prop where
  requests : d.history.map Completion.request = d.enqueued.take d.history.length
  done : ∀ i c, d.history[i]? = some c → Completed (diskAt d i) c
  nodup : ((queued d).map Request.addr).Nodup
  ticket : ∀ i r, (queued d)[i]? = some r → d.ticket r.addr = d.history.length + i
  held : ∀ r ∈ queued d, d.owner r.addr = some r.proc ∧ r.addr ≠ 0 ∧ r.before.pending = true

/-- The linked list holds the buffers of the requests `Q`, and they are as they were. -/
structure Listed (d : Driver P β) (Q : List (Request P β)) : Prop where
  chain : Chain d.qnext d.idequeue (Q.map Request.addr)
  buf : ∀ r ∈ Q, d.buf r.addr = r.before

/-- The disk has executed the command. -/
structure Executed (d : Driver P β) (c : Command β) : Prop where
  blocks : d.blocks = c.apply (base d)
  port : c.write = none → d.port = c.fetch (base d)

/-- The command of request `r` is in progress. -/
structure InFlight (d : Driver P β) (r : Request P β) : Prop where
  block : r.before.blockno < FSSIZE
  command : d.phase.command = some (Ide.command r.before)
  busy : d.phase.isBusy = true → d.blocks = base d
  executed : d.phase.isBusy = false → Executed d (Ide.command r.before)

/-- The disk works on the first request. -/
def Running (d : Driver P β) : Prop :=
  match queued d with
  | [] => d.phase = .idle ∧ d.blocks = base d
  | r :: _ => InFlight d r

/-- What holds while the lock is free. -/
structure Good (d : Driver P β) : Prop where
  core : Core d
  listed : Listed d (queued d)
  running : Running d

/-- No command is in progress, and the queue may have requests. -/
structure Stopped (d : Driver P β) : Prop where
  core : Core d
  listed : Listed d (queued d)
  phase : d.phase = .idle
  blocks : d.blocks = base d

/-- `ideintr` has taken `r` off the list, which holds `Q`. -/
structure Popped (d : Driver P β) (r : Request P β) (Q : List (Request P β)) : Prop where
  core : Core d
  queue : queued d = r :: Q
  listed : Listed d Q
  phase : d.phase = .idle
  block : r.before.blockno < FSSIZE
  executed : Executed d (command r.before)

/-- `p` has called `iderw` on `b`, and its request is not yet in the queue. -/
structure Entry (p : P) (b : ℕ) (d : Driver P β) : Prop where
  owner : d.owner b = some p
  ne : b ≠ 0
  absent : ∀ r ∈ queued d, r.addr ≠ b
  pending : (d.buf b).pending = true

/-- The request of `p` for `b` is in the queue or completed. -/
structure Mine (p : P) (b : ℕ) (d : Driver P β) : Prop where
  owner : d.owner b = some p
  request : ∃ x, d.enqueued[d.ticket b]? = some ⟨p, b, x⟩
  done : ∀ c, d.history[d.ticket b]? = some c → d.buf b = c.after

/-- The link after the first buffers of the list. -/
def linkAfter (front : List ℕ) : Link :=
  match front.getLast? with
  | none => .head
  | some a => .next a

def At (d : Driver P β) (pp : Link) : Prop :=
  ∃ front rest, (queued d).map Request.addr = front ++ rest ∧ pp = linkAfter front

/-- What holds of a call without the lock. -/
def Away (p : P) (k : Pc β) (d : Driver P β) : Prop :=
  match k with
  | .rw b _ => Entry p b d
  | .wait b => Mine p b d
  | .intr => ∃ c, d.phase = .taken p c
  | _ => False

/-- The buffer of a request that `ideintr` has taken off the list, after the data are in it. -/
def transferred (d : Driver P β) (x : Buf β) : Buf β :=
  { x with data := if x.dirty then x.data else (command x).fetch (base d) }

/-- What holds at a statement with the lock. -/
def Here (p : P) (k : Pc β) (d : Driver P β) : Prop :=
  match k with
  | .rw b _ => Good d ∧ Entry p b d
  | .scan b pp => Good d ∧ Entry p b d ∧ d.qnext b = 0 ∧ At d pp
  | .rwStart b => Stopped d ∧ Mine p b d ∧ d.idequeue = b ∧ b ≠ 0
  | .wait b => Good d ∧ Mine p b d
  | .intr => Good d ∧ ∃ c, d.phase = .taken p c
  | .intrRead b => ∃ r Q, Popped d r Q ∧ r.addr = b ∧ d.buf b = r.before
  | .intrFlags b => ∃ r Q, Popped d r Q ∧ r.addr = b ∧ d.buf b = transferred d r.before
  | .intrWake _ => Stopped d
  | .intrNext => Stopped d
  | .intrStart b => Stopped d ∧ d.idequeue = b ∧ b ≠ 0
  | .intrEnd => Good d
  | .panic _ => Stopped d

/-- What holds after the return: the request is completed, and its buffer was returned. -/
def Back (p : P) (r : Ret β) (d : Driver P β) : Prop :=
  match r with
  | .handled => True
  | .rw b i x => ∃ c, d.history[i]? = some c ∧ c.request.proc = p ∧ c.request.addr = b ∧ c.after = x

variable {d d' : Driver P β} {p q : P} {b : ℕ} {x : Buf β} {r : Request P β} {Q : List (Request P β)}
    {k : Pc β} {pp : Link}

/-! ### The requests -/

theorem Core.length_le (h : Core d) : d.history.length ≤ d.enqueued.length := by
  have := congrArg List.length h.requests
  rw [List.length_map, List.length_take] at this
  omega

theorem Core.enqueued_eq (h : Core d) : d.history.map Completion.request ++ queued d = d.enqueued := by
  rw [h.requests, queued, List.take_append_drop]

/-- The requests and the history are the same. -/
structure SameRequests (d d' : Driver P β) : Prop where
  owner : d'.owner = d.owner
  ticket : d'.ticket = d.ticket
  enqueued : d'.enqueued = d.enqueued
  history : d'.history = d.history
  first : d'.first = d.first

namespace SameRequests

section

variable (h : SameRequests d d')
include h

theorem queued_eq : queued d' = queued d := by
  rw [queued, h.enqueued, h.history, queued]

theorem diskAt_eq : diskAt d' = diskAt d := by
  funext i
  cases i with
  | zero => exact h.first
  | succ i => rw [diskAt, h.history, h.first, diskAt]

theorem base_eq : base d' = base d := by
  rw [base, h.diskAt_eq, h.history, base]

theorem core (hc : Core d) : Core d' where
  requests := by rw [h.history, h.enqueued]; exact hc.requests
  done := by rw [h.history, h.diskAt_eq]; exact hc.done
  nodup := by rw [h.queued_eq]; exact hc.nodup
  ticket := by rw [h.queued_eq, h.ticket, h.history]; exact hc.ticket
  held := by rw [h.queued_eq, h.owner]; exact hc.held

theorem entry (hbuf : (d'.buf b).pending = (d.buf b).pending) (he : Entry p b d) : Entry p b d' where
  owner := by rw [h.owner]; exact he.owner
  ne := he.ne
  absent := by rw [h.queued_eq]; exact he.absent
  pending := by rw [hbuf]; exact he.pending

theorem mine (hbuf : d'.buf b = d.buf b) (hm : Mine p b d) : Mine p b d' where
  owner := by rw [h.owner]; exact hm.owner
  request := by rw [h.enqueued, h.ticket]; exact hm.request
  done := by rw [h.history, h.ticket, hbuf]; exact hm.done

theorem at_link (ha : At d pp) : At d' pp := by
  rw [At, h.queued_eq]
  exact ha

end

end SameRequests

theorem Listed.same (h : Listed d Q) (hbuf : d'.buf = d.buf) (hqnext : d'.qnext = d.qnext)
    (hqueue : d'.idequeue = d.idequeue) : Listed d' Q :=
  ⟨by rw [hqnext, hqueue]; exact h.chain, by rw [hbuf]; exact h.buf⟩

theorem Running.cons (h : Running d) (hq : queued d = r :: Q) : InFlight d r := by
  rw [Running, hq] at h
  exact h

theorem Running.nil (h : Running d) (hq : queued d = []) : d.phase = .idle ∧ d.blocks = base d := by
  rw [Running, hq] at h
  exact h

theorem Running.queue (h : Running d) (hbusy : d.phase ≠ .idle) : ∃ r Q, queued d = r :: Q :=
  List.exists_cons_of_ne_nil fun hq => hbusy (h.nil hq).1

/-- The disk and its phase are the same. -/
structure SameDisk (d d' : Driver P β) : Prop where
  phase : d'.phase = d.phase
  blocks : d'.blocks = d.blocks
  port : d'.port = d.port
  base : base d' = base d

theorem SameDisk.executed (h : SameDisk d d') {c : Command β} (he : Executed d c) : Executed d' c :=
  ⟨by rw [h.blocks, h.base]; exact he.blocks, by rw [h.port, h.base]; exact he.port⟩

theorem SameDisk.inFlight (h : SameDisk d d') (hin : InFlight d r) : InFlight d' r where
  block := hin.block
  command := by rw [h.phase]; exact hin.command
  busy := by rw [h.phase, h.blocks, h.base]; exact hin.busy
  executed := by rw [h.phase]; exact fun hb => h.executed (hin.executed hb)

theorem SameDisk.running (h : SameDisk d d') (hqueue : queued d' = queued d) (hr : Running d) :
    Running d' := by
  rw [Running, hqueue]
  cases hq : queued d with
  | nil =>
    obtain ⟨hidle, hbase⟩ := hr.nil hq
    exact ⟨h.phase.trans hidle, by rw [h.blocks, h.base]; exact hbase⟩
  | cons r Q => exact h.inFlight (hr.cons hq)

theorem Listed.head (h : Listed d (r :: Q)) : d.idequeue = r.addr := h.chain.head

theorem Listed.empty (h : Listed d Q) (hempty : d.idequeue = 0) : Q = [] := by
  cases Q with
  | nil => rfl
  | cons r Q => exact absurd (h.head.symm.trans hempty) h.chain.2.1

/-- A disk that is stopped with an empty queue has nothing to do. -/
theorem Stopped.good (h : Stopped d) (hempty : d.idequeue = 0) : Good d := by
  refine ⟨h.core, h.listed, ?_⟩
  rw [Running, h.listed.empty hempty]
  exact ⟨h.phase, h.blocks⟩

/-- **The first request is started.** -/
theorem Stopped.idestart (h : Stopped d) (hb : d.idequeue = b) (hne : b ≠ 0)
    (hblock : (d.buf b).blockno < FSSIZE) : Good { d with phase := .busy (command (d.buf b)) } := by
  have hs : SameRequests d { d with phase := .busy (command (d.buf b)) } := ⟨rfl, rfl, rfl, rfl, rfl⟩
  refine ⟨hs.core h.core, ?_, ?_⟩
  · rw [hs.queued_eq]
    exact h.listed.same rfl rfl rfl
  · rw [Running, hs.queued_eq]
    cases hq : queued d with
    | nil =>
      have hchain := h.listed.chain
      rw [hq] at hchain
      exact absurd (hb.symm.trans hchain) hne
    | cons r Q =>
      have hlisted := h.listed
      rw [hq] at hlisted
      have hbuf : d.buf b = r.before := by
        rw [← hb, hlisted.head]
        exact hlisted.buf r List.mem_cons_self
      refine ⟨hbuf ▸ hblock, ?_, fun _ => ?_, fun hf => (by cases hf)⟩
      · show some (command (d.buf b)) = _
        rw [hbuf]
      · rw [hs.base_eq]
        exact h.blocks

/-! ### A call is made -/

theorem diskAt_call (p : P) (b : ℕ) (x : Buf β) : diskAt (d.call p b x) = diskAt d := by
  funext i
  cases i <;> rfl

theorem sameDisk_call (p : P) (b : ℕ) (x : Buf β) : SameDisk d (d.call p b x) :=
  ⟨rfl, rfl, rfl, congrFun (diskAt_call p b x) _⟩

theorem Core.absent (h : Core d) (hb : d.owner b = none) : ∀ r ∈ queued d, r.addr ≠ b := by
  rintro r hr rfl
  rw [(h.held r hr).1] at hb
  cases hb

theorem Core.setOwner (h : Core d) (hb : ∀ r ∈ queued d, r.addr ≠ b) {o : Option P}
    (hs : queued d' = queued d ∧ diskAt d' = diskAt d) (howner : d'.owner = update d.owner b o)
    (hticket : d'.ticket = d.ticket) (henq : d'.enqueued = d.enqueued)
    (hhist : d'.history = d.history) : Core d' where
  requests := by rw [hhist, henq]; exact h.requests
  done := by rw [hhist, hs.2]; exact h.done
  nodup := by rw [hs.1]; exact h.nodup
  ticket := by rw [hs.1, hticket, hhist]; exact h.ticket
  held := by
    rw [hs.1, howner]
    intro r hr
    rw [update_of_ne (hb r hr)]
    exact h.held r hr

theorem Core.call (h : Core d) (hb : d.owner b = none) (p : P) (x : Buf β) : Core (d.call p b x) :=
  h.setOwner (h.absent hb) ⟨rfl, diskAt_call p b x⟩ rfl rfl rfl rfl

theorem Listed.call (h : Listed d Q) (hc : Core d) (hQ : ∀ r ∈ Q, r ∈ queued d) (hb : d.owner b = none)
    (p : P) (x : Buf β) : Listed (d.call p b x) Q where
  chain := h.chain
  buf := fun r hr => by
    rw [Driver.call]
    show update d.buf b x r.addr = r.before
    rw [update_of_ne (hc.absent hb r (hQ r hr))]
    exact h.buf r hr

theorem Good.call (h : Good d) (hb : d.owner b = none) (p : P) (x : Buf β) : Good (d.call p b x) :=
  ⟨h.core.call hb p x, h.listed.call h.core (fun _ hr => hr) hb p x,
    (sameDisk_call p b x).running rfl h.running⟩

theorem Stopped.call (h : Stopped d) (hb : d.owner b = none) (p : P) (x : Buf β) : Stopped (d.call p b x) :=
  ⟨h.core.call hb p x, h.listed.call h.core (fun _ hr => hr) hb p x, h.phase,
    h.blocks.trans (sameDisk_call p b x).base.symm⟩

theorem Popped.call (h : Popped d r Q) (hb : d.owner b = none) (p : P) (x : Buf β) :
    Popped (d.call p b x) r Q :=
  ⟨h.core.call hb p x, h.queue,
    h.listed.call h.core (fun s hs => by rw [h.queue]; exact List.mem_cons_of_mem r hs) hb p x, h.phase,
    h.block, (sameDisk_call p b x).executed h.executed⟩

theorem call_buf {a : ℕ} (ha : a ≠ b) : (d.call p b x).buf a = d.buf a := update_of_ne ha ..

theorem call_owner {a : ℕ} (ha : a ≠ b) : (d.call p b x).owner a = d.owner a := update_of_ne ha ..

theorem ne_of_owner {a : ℕ} (ha : d.owner a = some q) (hb : d.owner b = none) : a ≠ b := by
  rintro rfl
  rw [ha] at hb
  cases hb

theorem Entry.call {a : ℕ} (h : Entry q a d) (hb : d.owner b = none) (p : P) (x : Buf β) :
    Entry q a (d.call p b x) := by
  have hne := ne_of_owner h.owner hb
  exact ⟨by rw [call_owner hne]; exact h.owner, h.ne, h.absent, by rw [call_buf hne]; exact h.pending⟩

theorem Mine.call {a : ℕ} (h : Mine q a d) (hb : d.owner b = none) (p : P) (x : Buf β) :
    Mine q a (d.call p b x) := by
  have hne := ne_of_owner h.owner hb
  exact ⟨by rw [call_owner hne]; exact h.owner, h.request, by rw [call_buf hne]; exact h.done⟩

/-- **A call leaves the other calls alone.** -/
theorem Here.call (h : Here q k d) (hb : d.owner b = none) (p : P) (x : Buf β) : Here q k (d.call p b x) := by
  have popped : ∀ {r Q}, Popped d r Q → r.addr ≠ b := fun hpop =>
    hpop.core.absent hb _ (by rw [hpop.queue]; exact List.mem_cons_self)
  cases k with
  | rw a y => exact ⟨h.1.call hb p x, h.2.call hb p x⟩
  | scan a pp => exact ⟨h.1.call hb p x, h.2.1.call hb p x, h.2.2⟩
  | rwStart a => exact ⟨h.1.call hb p x, h.2.1.call hb p x, h.2.2⟩
  | wait a => exact ⟨h.1.call hb p x, h.2.call hb p x⟩
  | intr => exact ⟨h.1.call hb p x, h.2⟩
  | intrRead a =>
    obtain ⟨r, Q, hpop, rfl, hbuf⟩ := h
    exact ⟨r, Q, hpop.call hb p x, rfl, by rw [call_buf (popped hpop)]; exact hbuf⟩
  | intrFlags a =>
    obtain ⟨r, Q, hpop, rfl, hbuf⟩ := h
    refine ⟨r, Q, hpop.call hb p x, rfl, ?_⟩
    rw [call_buf (popped hpop), transferred, (sameDisk_call p b x).base]
    exact hbuf
  | intrWake a => exact Stopped.call h hb p x
  | intrNext => exact Stopped.call h hb p x
  | intrStart a => exact ⟨h.1.call hb p x, h.2⟩
  | intrEnd => exact Good.call h hb p x
  | panic msg => exact Stopped.call h hb p x

/-! ### The command moves on -/

/-- Only the disk and its phase change, and a command is in progress that no handler has taken. -/
structure Moves (d d' : Driver P β) : Prop where
  same : SameRequests d d'
  buf : d'.buf = d.buf
  qnext : d'.qnext = d.qnext
  idequeue : d'.idequeue = d.idequeue
  idle : d.phase ≠ .idle
  taken : ∀ p c, d.phase ≠ .taken p c
  running : Running d → Running d'

theorem Moves.good (h : Moves d d') (hg : Good d) : Good d' where
  core := h.same.core hg.core
  listed := by
    rw [h.same.queued_eq]
    exact hg.listed.same h.buf h.qnext h.idequeue
  running := h.running hg.running

theorem Moves.away (h : Moves d d') (ha : Away q k d) : Away q k d' := by
  cases k with
  | rw b x => exact h.same.entry (by rw [h.buf]) ha
  | wait b => exact h.same.mine (by rw [h.buf]) ha
  | intr =>
    obtain ⟨c, hc⟩ := ha
    exact absurd hc (h.taken q c)
  | _ => exact ha

/-- **The disk does not disturb the holder of the lock.** -/
theorem Moves.here (h : Moves d d') (hh : Here q k d) : Here q k d' := by
  cases k with
  | rw b x => exact ⟨h.good hh.1, h.same.entry (by rw [h.buf]) hh.2⟩
  | scan b pp =>
    exact ⟨h.good hh.1, h.same.entry (by rw [h.buf]) hh.2.1, by rw [h.qnext]; exact hh.2.2.1,
      h.same.at_link hh.2.2.2⟩
  | rwStart b => exact absurd hh.1.phase h.idle
  | wait b => exact ⟨h.good hh.1, h.same.mine (by rw [h.buf]) hh.2⟩
  | intr =>
    obtain ⟨c, hc⟩ := hh.2
    exact absurd hc (h.taken q c)
  | intrRead b =>
    obtain ⟨r, Q, hpop, _⟩ := hh
    exact absurd hpop.phase h.idle
  | intrFlags b =>
    obtain ⟨r, Q, hpop, _⟩ := hh
    exact absurd hpop.phase h.idle
  | intrWake b => exact absurd (Stopped.phase hh) h.idle
  | intrNext => exact absurd (Stopped.phase hh) h.idle
  | intrStart b => exact absurd hh.1.phase h.idle
  | intrEnd => exact h.good hh
  | panic msg => exact absurd (Stopped.phase hh) h.idle

theorem Moves.back {ρ : Ret β} (h : Moves d d') (hb : Back q ρ d) : Back q ρ d' := by
  cases ρ with
  | handled => trivial
  | rw b i x =>
    show ∃ c, d'.history[i]? = some c ∧ _
    rw [h.same.history]
    exact hb

theorem moves_finish {e : DiskEvent} (he : finish d e = some d') : Moves d d' := by
  rw [finish] at he
  cases hphase : d.phase with
  | busy c =>
    rw [hphase] at he
    obtain rfl := Option.some.inj he
    refine ⟨⟨rfl, rfl, rfl, rfl, rfl⟩, rfl, rfl, rfl, by simp [hphase], by simp [hphase], fun hrun => ?_⟩
    obtain ⟨r, Q, hq⟩ := hrun.queue (by rw [hphase]; simp)
    have hin := hrun.cons hq
    have hcommand := hin.command
    have hbase := hin.busy (by rw [hphase]; rfl)
    rw [hphase] at hcommand
    obtain rfl : c = command r.before := Option.some.inj hcommand
    have hq' : queued { d with
        phase := .raised (command r.before)
        blocks := (command r.before).apply d.blocks
        port := if (command r.before).write.isNone then (command r.before).fetch d.blocks else d.port }
          = r :: Q := hq
    rw [Running, hq']
    refine ⟨hin.block, rfl, fun hf => (by cases hf), fun _ => ⟨?_, fun hread => ?_⟩⟩
    · show (command r.before).apply d.blocks = (command r.before).apply (base d)
      rw [hbase]
    · show (if (command r.before).write.isNone then (command r.before).fetch d.blocks else d.port)
        = (command r.before).fetch (base d)
      rw [hread, hbase]
      rfl
  | _ =>
    rw [hphase] at he
    cases he

theorem moves_take {c : Command β} (hphase : d.phase = .raised c) (p : P) :
    Moves d { d with phase := .taken p c } := by
  refine ⟨⟨rfl, rfl, rfl, rfl, rfl⟩, rfl, rfl, rfl, by simp [hphase], by simp [hphase], fun hrun => ?_⟩
  obtain ⟨r, Q, hq⟩ := hrun.queue (by rw [hphase]; simp)
  have hin := hrun.cons hq
  have hcommand := hin.command
  have hexec := hin.executed (by rw [hphase]; rfl)
  rw [hphase] at hcommand
  rw [Running, show queued { d with phase := .taken p c } = r :: Q from hq]
  exact ⟨hin.block, hcommand, fun hf => (by cases hf), fun _ => ⟨hexec.blocks, hexec.port⟩⟩

/-! ### A request is put into the queue -/

theorem queued_enqueue (hc : Core d) (p : P) (b : ℕ) :
    queued (d.enqueue p b) = queued d ++ [⟨p, b, d.buf b⟩] := by
  show (d.enqueued ++ [(⟨p, b, d.buf b⟩ : Request P β)]).drop d.history.length = _
  rw [List.drop_append_of_le_length hc.length_le, queued]

theorem diskAt_enqueue (p : P) (b : ℕ) : diskAt (d.enqueue p b) = diskAt d := by
  funext i
  cases i <;> rfl

theorem length_queued (d : Driver P β) : (queued d).length = d.enqueued.length - d.history.length :=
  List.length_drop

theorem Core.enqueue (h : Core d) (he : Entry p b d) : Core (d.enqueue p b) where
  requests := by
    show d.history.map Completion.request = (d.enqueued ++ [_]).take d.history.length
    rw [List.take_append_of_le_length h.length_le]
    exact h.requests
  done := by
    rw [diskAt_enqueue]
    exact h.done
  nodup := by
    rw [queued_enqueue h, List.map_append, List.nodup_append]
    refine ⟨h.nodup, List.nodup_singleton _, fun a ha a' ha' haa => ?_⟩
    obtain ⟨r, hr, rfl⟩ := List.mem_map.mp ha
    rw [List.map_singleton, List.mem_singleton] at ha'
    exact he.absent r hr (haa.trans ha')
  ticket := by
    intro i r hr
    rw [queued_enqueue h] at hr
    show update d.ticket b d.enqueued.length r.addr = d.history.length + i
    by_cases hi : i < (queued d).length
    · rw [List.getElem?_append_left hi] at hr
      rw [update_of_ne (he.absent r (List.mem_of_getElem? hr))]
      exact h.ticket i r hr
    · rw [List.getElem?_append_right (Nat.le_of_not_lt hi)] at hr
      obtain ⟨hlt, rfl⟩ := List.getElem?_eq_some_iff.mp hr
      have hle := h.length_le
      have hlen := length_queued d
      rw [List.length_singleton] at hlt
      rw [List.getElem_singleton, update_self]
      omega
  held := by
    intro r hr
    rw [queued_enqueue h] at hr
    rcases List.mem_append.mp hr with hr | hr
    · exact h.held r hr
    · rw [List.mem_singleton.mp hr]
      exact ⟨he.owner, he.ne, he.pending⟩

theorem mine_enqueue (h : Core d) (he : Entry p b d) : Mine p b (d.enqueue p b) where
  owner := he.owner
  request := by
    refine ⟨d.buf b, ?_⟩
    show (d.enqueued ++ [_])[update d.ticket b d.enqueued.length b]? = _
    rw [update_self, List.getElem?_concat_length]
  done := by
    intro c hc
    replace hc : d.history[update d.ticket b d.enqueued.length b]? = some c := hc
    rw [update_self, List.getElem?_eq_none h.length_le] at hc
    cases hc

/-! ### The loop of `iderw` -/

theorem chain_load {front rest : List ℕ} (h : Chain d.qnext d.idequeue (front ++ rest)) :
    Chain d.qnext (d.load (linkAfter front)) rest := by
  rcases List.eq_nil_or_concat' front with rfl | ⟨init, a, rfl⟩
  · exact h
  · rw [linkAfter, List.getLast?_concat]
    rw [List.append_assoc, List.singleton_append] at h
    exact h.suffix.tail

theorem At.next (h : At d pp) (hl : Listed d (queued d)) (hmore : d.load pp ≠ 0) :
    At d (.next (d.load pp)) := by
  obtain ⟨front, rest, hq, rfl⟩ := h
  have hchain := hl.chain
  rw [hq] at hchain
  have hload := chain_load hchain
  cases rest with
  | nil => exact absurd hload hmore
  | cons a rest =>
    refine ⟨front ++ [a], rest, by rw [hq, List.append_assoc, List.singleton_append], ?_⟩
    rw [hload.head, linkAfter, List.getLast?_concat]

theorem At.last (h : At d pp) (hl : Listed d (queued d)) (hend : d.load pp = 0) :
    pp = linkAfter ((queued d).map Request.addr) := by
  obtain ⟨front, rest, hq, rfl⟩ := h
  have hchain := hl.chain
  rw [hq] at hchain
  have hload := chain_load hchain
  cases rest with
  | nil => rw [hq, List.append_nil]
  | cons a rest => exact absurd (hload.head.symm.trans hend) hload.2.1

theorem sameRequests_store (d : Driver P β) (pp : Link) (b : ℕ) : SameRequests d (d.store pp b) := by
  cases pp <;> exact ⟨rfl, rfl, rfl, rfl, rfl⟩

theorem store_rest (d : Driver P β) (pp : Link) (b : ℕ) : (d.store pp b).buf = d.buf
    ∧ (d.store pp b).phase = d.phase ∧ (d.store pp b).blocks = d.blocks ∧ (d.store pp b).port = d.port := by
  cases pp <;> exact ⟨rfl, rfl, rfl, rfl⟩

/-- **The buffer is appended to the list.** -/
theorem chain_store (hl : Listed d (queued d)) (hc : Core d) (he : Entry p b d) (hnull : d.qnext b = 0) :
    Chain (d.store (linkAfter ((queued d).map Request.addr)) b).qnext
      (d.store (linkAfter ((queued d).map Request.addr)) b).idequeue
      ((queued d).map Request.addr ++ [b]) := by
  have hchain := hl.chain
  have hnotin : b ∉ (queued d).map Request.addr := fun hb => by
    obtain ⟨r, hr, hrb⟩ := List.mem_map.mp hb
    exact he.absent r hr hrb
  have hnodup := hc.nodup
  generalize (queued d).map Request.addr = L at hchain hnotin hnodup
  rcases List.eq_nil_or_concat' L with rfl | ⟨init, a, rfl⟩
  · exact ⟨rfl, he.ne, hnull⟩
  · have hlink : linkAfter (init ++ [a]) = .next a := by rw [linkAfter, List.getLast?_concat]
    rw [hlink]
    have hab : b ≠ a := fun hba => hnotin (by rw [hba]; simp)
    have ha : a ∉ init := fun hmem => (List.nodup_append.mp hnodup).2.2 a hmem a (by simp) rfl
    rw [List.append_assoc, List.singleton_append]
    refine hchain.relink (fun r hr => ?_) ?_
    · show update d.qnext a b r = d.qnext r
      rw [update_of_ne]
      exact fun hra => ha (hra ▸ hr)
    · show Chain (update d.qnext a b) (update d.qnext a b a) [b]
      rw [update_self]
      refine ⟨rfl, he.ne, ?_⟩
      show update d.qnext a b b = 0
      rw [update_of_ne hab]
      exact hnull

section Append

variable (hg : Good d) (he : Entry p b d) (hnull : d.qnext b = 0) (hat : At d pp) (hend : d.load pp = 0)

include hg he hnull hat hend

theorem listed_append : Listed ((d.store pp b).enqueue p b) (queued d ++ [⟨p, b, d.buf b⟩]) := by
  obtain rfl := hat.last hg.listed hend
  refine ⟨?_, fun r hr => ?_⟩
  · rw [List.map_append]
    exact chain_store hg.listed hg.core he hnull
  · show (d.store _ b).buf r.addr = r.before
    rw [(store_rest d _ b).1]
    rcases List.mem_append.mp hr with hr | hr
    · exact hg.listed.buf r hr
    · rw [List.mem_singleton.mp hr]

omit hg hnull hat hend in
theorem entry_store (pp : Link) : Entry p b (d.store pp b) :=
  (sameRequests_store d pp b).entry (by rw [(store_rest d pp b).1]) he

omit he hnull hat hend in
theorem queued_append (pp : Link) : queued ((d.store pp b).enqueue p b) = queued d ++ [⟨p, b, d.buf b⟩] := by
  have hs := sameRequests_store d pp b
  rw [queued_enqueue (hs.core hg.core), hs.queued_eq, (store_rest d pp b).1]

omit hg he hnull hat hend in
theorem base_append (pp : Link) : base ((d.store pp b).enqueue p b) = base d := by
  have hs := sameRequests_store d pp b
  show diskAt ((d.store pp b).enqueue p b) (d.store pp b).history.length = _
  rw [diskAt_enqueue, hs.diskAt_eq, hs.history, base]

omit hnull hat hend in
theorem core_append (pp : Link) : Core ((d.store pp b).enqueue p b) :=
  Core.enqueue ((sameRequests_store d pp b).core hg.core) (entry_store he pp)

theorem first_iff : (d.store pp b).idequeue = b ↔ queued d = [] := by
  obtain rfl := hat.last hg.listed hend
  have hhead := chain_store hg.listed hg.core he hnull
  constructor
  · intro hb
    cases hq : queued d with
    | nil => rfl
    | cons r Q =>
      rw [hq] at hhead hb
      exact absurd (hhead.head.symm.trans hb) (he.absent r (by rw [hq]; exact List.mem_cons_self))
  · intro hq
    rw [hq] at hhead ⊢
    exact hhead.head

theorem stopped_append (hq : queued d = []) : Stopped ((d.store pp b).enqueue p b) where
  core := core_append hg he pp
  listed := by
    rw [queued_append hg]
    exact listed_append hg he hnull hat hend
  phase := (store_rest d pp b).2.1.trans (hg.running.nil hq).1
  blocks := by
    rw [base_append]
    exact (store_rest d pp b).2.2.1.trans (hg.running.nil hq).2

/-- **The queue was not empty**: the disk goes on with its first request. -/
theorem good_append (hq : queued d ≠ []) : Good ((d.store pp b).enqueue p b) where
  core := core_append hg he pp
  listed := by
    rw [queued_append hg]
    exact listed_append hg he hnull hat hend
  running := by
    obtain ⟨hbuf, hphase, hblocks, hport⟩ := store_rest d pp b
    rw [Running, queued_append hg]
    cases hqd : queued d with
    | nil => exact absurd hqd hq
    | cons r Q =>
      have hin := hg.running.cons hqd
      refine ⟨hin.block, ?_, fun hbusy => ?_, fun hbusy => ?_⟩
      · exact (congrArg Phase.command hphase).trans hin.command
      · rw [base_append]
        exact hblocks.trans (hin.busy ((congrArg Phase.isBusy hphase).symm.trans hbusy))
      · have hexec := hin.executed ((congrArg Phase.isBusy hphase).symm.trans hbusy)
        refine ⟨?_, fun hread => ?_⟩
        · rw [base_append]
          exact hblocks.trans hexec.blocks
        · rw [base_append]
          exact hport.trans (hexec.port hread)

omit hnull hat hend in
theorem mine_append (pp : Link) : Mine p b ((d.store pp b).enqueue p b) :=
  mine_enqueue ((sameRequests_store d pp b).core hg.core) (entry_store he pp)

end Append

/-! ### A request is completed -/

section

variable (hq : queued d = r :: Q)
include hq

theorem getElem?_of_queue : d.enqueued[d.history.length]? = some r := by
  have := congrArg (fun l => l[0]?) hq
  simpa [queued, List.getElem?_drop] using this

theorem complete_history (b : ℕ) :
    (d.complete b).history = d.history
    ++ [⟨r, { d.buf b with valid := true, dirty := false }, d.blocks⟩] := by
  show d.history ++ (d.enqueued[d.history.length]?).toList.map _ = _
  rw [getElem?_of_queue hq]
  rfl

theorem queued_complete (b : ℕ) : queued (d.complete b) = Q := by
  show d.enqueued.drop (d.complete b).history.length = Q
  rw [complete_history hq, List.length_append, List.length_singleton, ← List.drop_drop]
  show (queued d).drop 1 = Q
  rw [hq]
  rfl

theorem diskAt_complete (b : ℕ) {i : ℕ} (hi : i ≤ d.history.length) :
    diskAt (d.complete b) i = diskAt d i := by
  cases i with
  | zero => rfl
  | succ i =>
    rw [diskAt, complete_history hq, List.getElem?_append_left hi]
    rfl

theorem base_complete (b : ℕ) : base (d.complete b) = d.blocks := by
  rw [base, complete_history hq, List.length_append, List.length_singleton, diskAt, complete_history hq,
    List.getElem?_concat_length]
  rfl

end

/-- **The first request is completed**, with the effect that it should have. -/
theorem Popped.complete (h : Popped d r Q) (hbuf : d.buf r.addr = transferred d r.before) :
    Stopped (d.complete r.addr) := by
  have hhist := complete_history h.queue r.addr
  have hrest := h.core.nodup
  rw [h.queue, List.map_cons, List.nodup_cons] at hrest
  have hQ : ∀ s ∈ Q, s ∈ queued d := fun s hs => by
    rw [h.queue]
    exact List.mem_cons_of_mem r hs
  refine ⟨⟨?_, fun i c hc => ?_, ?_, fun i s hs => ?_, fun s hs => ?_⟩, ⟨?_, fun s hs => ?_⟩, h.phase, ?_⟩
  · have htake : d.enqueued.take (d.history.length + 1) = d.enqueued.take d.history.length ++ [r] := by
      rw [List.take_add_one, getElem?_of_queue h.queue]
      rfl
    rw [hhist, List.map_append, List.length_append, List.length_singleton, h.core.requests]
    exact htake.symm
  · rw [hhist] at hc
    by_cases hi : i < d.history.length
    · rw [List.getElem?_append_left hi] at hc
      rw [diskAt_complete h.queue _ (Nat.le_of_lt hi)]
      exact h.core.done i c hc
    · rw [List.getElem?_append_right (Nat.le_of_not_lt hi)] at hc
      obtain ⟨hlt, hget⟩ := List.getElem?_eq_some_iff.mp hc
      rw [List.length_singleton] at hlt
      obtain rfl : i = d.history.length := by omega
      rw [List.getElem_singleton] at hget
      rw [diskAt_complete h.queue _ (Nat.le_refl _), ← hget]
      refine ⟨(h.core.held r (by rw [h.queue]; exact List.mem_cons_self)).2.2, h.block, ?_, h.executed.blocks⟩
      show { d.buf r.addr with valid := true, dirty := false } = r.before.after (base d)
      rw [hbuf]
      rfl
  · rw [queued_complete h.queue]
    exact hrest.2
  · rw [queued_complete h.queue] at hs
    rw [hhist, List.length_append, List.length_singleton]
    have := h.core.ticket (i + 1) s (by rw [h.queue, List.getElem?_cons_succ]; exact hs)
    show d.ticket s.addr = _
    omega
  · rw [queued_complete h.queue] at hs
    exact h.core.held s (hQ s hs)
  · rw [queued_complete h.queue]
    exact h.listed.chain
  · rw [queued_complete h.queue] at hs
    show update d.buf r.addr _ s.addr = s.before
    rw [update_of_ne fun hsr : s.addr = r.addr => hrest.1 (hsr ▸ List.mem_map_of_mem hs)]
    exact h.listed.buf s hs
  · rw [base_complete h.queue]
    rfl

theorem Popped.ticket (h : Popped d r Q) : d.ticket r.addr = d.history.length :=
  h.core.ticket 0 r (by rw [h.queue]; rfl)

theorem Popped.insl (h : Popped d r Q) (hbuf : d.buf r.addr = r.before) (hclean : r.before.dirty = false) :
    Popped (d.insl r.addr) r Q ∧ (d.insl r.addr).buf r.addr = transferred (d.insl r.addr) r.before := by
  have hs : SameRequests d (d.insl r.addr) := ⟨rfl, rfl, rfl, rfl, rfl⟩
  have hd : SameDisk d (d.insl r.addr) := ⟨rfl, rfl, rfl, hs.base_eq⟩
  have hnodup := h.core.nodup
  rw [h.queue, List.map_cons, List.nodup_cons] at hnodup
  refine ⟨⟨hs.core h.core, hs.queued_eq.trans h.queue, ⟨h.listed.chain, fun s hsQ => ?_⟩, h.phase, h.block,
    hd.executed h.executed⟩, ?_⟩
  · show update d.buf r.addr _ s.addr = s.before
    rw [update_of_ne fun hsr : s.addr = r.addr => hnodup.1 (hsr ▸ List.mem_map_of_mem hsQ)]
    exact h.listed.buf s hsQ
  · have hport : d.port = (command r.before).fetch (base d) := h.executed.port (by rw [command, hclean]; rfl)
    show update d.buf r.addr { d.buf r.addr with data := d.port } r.addr = _
    rw [update_self, hbuf, hport, transferred, hs.base_eq, if_neg (by rw [hclean]; exact Bool.false_ne_true)]

/-! ### A request that is completed -/

theorem Mine.mem_queued (h : Mine p b d) (hnot : d.history[d.ticket b]? = none) :
    ∃ x, ⟨p, b, x⟩ ∈ queued d := by
  obtain ⟨x, hx⟩ := h.request
  have hle := List.getElem?_eq_none_iff.mp hnot
  refine ⟨x, List.mem_of_getElem? (i := d.ticket b - d.history.length) ?_⟩
  rw [queued, List.getElem?_drop, Nat.add_sub_cancel' hle]
  exact hx

/-- **A request of `p` whose buffer is not pending is completed.** -/
theorem Mine.completed (h : Mine p b d) (hg : Good d) (hdone : (d.buf b).pending = false) :
    ∃ c, d.history[d.ticket b]? = some c ∧ c.request.proc = p ∧ c.request.addr = b ∧ c.after = d.buf b := by
  cases hc : d.history[d.ticket b]? with
  | none =>
    obtain ⟨x, hx⟩ := h.mem_queued hc
    have hpending := (hg.core.held _ hx).2.2
    rw [hg.listed.buf _ hx] at hdone
    rw [hdone] at hpending
    cases hpending
  | some c =>
    obtain ⟨x, hx⟩ := h.request
    have hreq : d.enqueued[d.ticket b]? = some c.request := by
      have := congrArg (fun l => l[d.ticket b]?) hg.core.requests
      simp only [List.getElem?_map, hc, Option.map_some] at this
      rw [List.getElem?_take_of_lt (List.getElem?_eq_some_iff.mp hc).1] at this
      exact this.symm
    rw [hx] at hreq
    have hreq := Option.some.inj hreq
    exact ⟨c, rfl, by rw [← hreq], by rw [← hreq], (h.done c hc).symm⟩

theorem Mine.absent (h : Mine p b d) (hg : Good d) (hdone : (d.buf b).pending = false) :
    ∀ r ∈ queued d, r.addr ≠ b := by
  rintro r hr rfl
  have hpending := (hg.core.held r hr).2.2
  rw [hg.listed.buf r hr] at hdone
  rw [hdone] at hpending
  cases hpending

/-! ### In every state -/

/-- What holds in every state: the list, and the one command that may be in progress. -/
structure Always (d : Driver P β) : Prop where
  core : Core d
  list : ∃ L, Chain d.qnext d.idequeue L ∧ L.Nodup
    ∧ ∀ c, d.phase.command = some c → ∃ b, L.head? = some b ∧ c = command (d.buf b)

theorem Good.always (h : Good d) : Always d := by
  refine ⟨h.core, _, h.listed.chain, h.core.nodup, fun c hc => ?_⟩
  cases hq : queued d with
  | nil =>
    rw [(h.running.nil hq).1] at hc
    cases hc
  | cons r Q =>
    refine ⟨r.addr, rfl, ?_⟩
    rw [(h.running.cons hq).command] at hc
    rw [h.listed.buf r (by rw [hq]; exact List.mem_cons_self)]
    exact (Option.some.inj hc).symm

theorem Stopped.always (h : Stopped d) : Always d := by
  refine ⟨h.core, _, h.listed.chain, h.core.nodup, fun c hc => ?_⟩
  rw [h.phase] at hc
  cases hc

theorem Popped.always (h : Popped d r Q) : Always d := by
  have hnodup := h.core.nodup
  rw [h.queue, List.map_cons, List.nodup_cons] at hnodup
  refine ⟨h.core, _, h.listed.chain, hnodup.2, fun c hc => ?_⟩
  rw [h.phase] at hc
  cases hc

theorem Here.always (h : Here p k d) : Always d := by
  cases k with
  | rw b x => exact h.1.always
  | scan b pp => exact h.1.always
  | rwStart b => exact h.1.always
  | wait b => exact h.1.always
  | intr => exact h.1.always
  | intrRead b =>
    obtain ⟨r, Q, hpop, _⟩ := h
    exact hpop.always
  | intrFlags b =>
    obtain ⟨r, Q, hpop, _⟩ := h
    exact hpop.always
  | intrWake b => exact Stopped.always h
  | intrNext => exact Stopped.always h
  | intrStart b => exact h.1.always
  | intrEnd => exact Good.always h
  | panic msg => exact Stopped.always h

theorem good_fresh (h : Fresh d) : Good d := by
  have hq : queued d = [] := by
    rw [queued, h.enqueued, List.drop_nil]
  have hbase : base d = d.blocks := by
    rw [base, h.history]
    exact h.first
  refine ⟨⟨?_, fun i c hc => ?_, ?_, fun i r hr => ?_, fun r hr => ?_⟩, ⟨?_, fun r hr => ?_⟩, ?_⟩
  · rw [h.history, h.enqueued]
    rfl
  · rw [h.history] at hc
    cases hc
  · rw [hq]
    exact List.nodup_nil
  · rw [hq] at hr
    cases hr
  · rw [hq] at hr
    cases hr
  · rw [hq]
    exact h.idequeue
  · rw [hq] at hr
    cases hr
  · rw [Running, hq]
    exact ⟨h.phase, hbase.symm⟩

end Xv6e.Device.IdeQueue
