import Xv6e.Library.MonitorSleep
import Xv6e.Library.RingBuffer

/-!
# Pipes

`pipewrite`, `piperead` and `pipeclose`, statement by statement, for any number of processes that share a
pipe.  The positions `nread` and `nwrite` are words that wrap.  A process is in `pipewrite` or `piperead` only
through a file that it holds, and `fileclose` calls `pipeclose` when the last reference to the file of an end
is gone: so an end is closed once, while no call is on it, and no call on it starts afterwards.

With the pipe the model keeps the history of its bytes: what was stored, what was handed out, and by whom.

* `exec`, `start`, `code` — the statements and the calls;
* `Good` — the ring holds what was stored and not yet handed out;
* `Good.store`, `Good.fetch` — storing and handing out a byte keep it so.
-/

namespace Xv6e.Files.Pipes

open Library.Transition Library.Monitor Library.RingBuffer

def PIPESIZE : ℕ := 512

/-- `struct pipe`, with its history: the bytes stored and handed out, in order and with the process, and how
many there were when each process started its call.  `readFile` and `writeFile` say that the files of the ends
are in use, `freed` that the page of the pipe has been freed. -/
structure Pipe (P : Type) where
  data : ℕ → UInt8
  nread : BitVec 32
  nwrite : BitVec 32
  readopen : Bool
  writeopen : Bool
  readFile : Bool
  writeFile : Bool
  freed : Bool
  sent : List (P × UInt8)
  received : List (P × UInt8)
  mark : P → ℕ

/-- The channels: the addresses of `nread` and `nwrite`. -/
inductive Chan
  | nread
  | nwrite
  deriving DecidableEq, Repr

/-- The next statement of a call.  `all` are the bytes to write, `rest` those left; `got` are the bytes
read. -/
inductive Pc
  | write (all rest : List UInt8)        -- `for(i = 0; i < n; i++) while(p->nwrite == p->nread + PIPESIZE)`
  | writeFull (all rest : List UInt8)    -- `if(p->readopen == 0 || myproc()->killed)`
  | writeSleep (all rest : List UInt8)   -- `sleep(&p->nwrite, &p->lock)`
  | writeDone (all : List UInt8)         -- `return n`
  | read (n : ℕ)                         -- `while(p->nread == p->nwrite && p->writeopen)`
  | readEmpty (n : ℕ)                    -- `if(myproc()->killed)`
  | copy (n : ℕ) (got : List UInt8)      -- `for(i = 0; i < n; i++)`
  | readDone (n : ℕ) (got : List UInt8)  -- `return i`
  | close (writable : Bool)              -- `p->writeopen = 0` or `p->readopen = 0`
  | closeWake (writable : Bool)          -- `wakeup(&p->nread)` or `wakeup(&p->nwrite)`
  | closeEnd                             -- `if(p->readopen == 0 && p->writeopen == 0)`
  deriving DecidableEq, Repr

/-- What a call returns, with its arguments; `none` is `-1`. -/
inductive Ret
  | wrote (all : List UInt8) (r : Option ℕ)
  | got (n : ℕ) (r : Option (List UInt8))
  | closed
  deriving DecidableEq, Repr

variable {P : Type}

namespace Pipe

/-- `p->nwrite == p->nread + PIPESIZE`. -/
def full (d : Pipe P) : Bool := d.nwrite = d.nread + BitVec.ofNat 32 PIPESIZE

def empty (d : Pipe P) : Bool := d.nread = d.nwrite

/-- `p->data[p->nwrite++ % PIPESIZE] = addr[i]`. -/
def store (d : Pipe P) (p : P) (b : UInt8) : Pipe P :=
  { d with
    data := Function.update d.data (d.nwrite.toNat % PIPESIZE) b
    nwrite := d.nwrite + 1
    sent := d.sent ++ [(p, b)] }

def next (d : Pipe P) : UInt8 := d.data (d.nread.toNat % PIPESIZE)

/-- `addr[i] = p->data[p->nread++ % PIPESIZE]`. -/
def fetch (d : Pipe P) (p : P) : Pipe P :=
  { d with nread := d.nread + 1, received := d.received ++ [(p, d.next)] }

def shut (d : Pipe P) (writable : Bool) : Pipe P :=
  if writable then { d with writeopen := false } else { d with readopen := false }

/-- The bytes in the pipe: `data[nread..nwrite)`, modulo `PIPESIZE`. -/
def content (d : Pipe P) : List UInt8 := window PIPESIZE d.data d.nread d.nwrite

end Pipe

/-- What a statement of process `p` does. -/
def exec (p : P) (k : Pc) (killed : Bool) (d : Pipe P) : Outcome (Pipe P) Chan Pc Ret :=
  match k with
  | .write all [] => .wakeup .nread (.writeDone all)
  | .write all (b :: rest) => if d.full then .goto d (.writeFull all (b :: rest))
      else .goto (d.store p b) (.write all rest)
  | .writeFull all rest => if !d.readopen || killed then .ret d (.wrote all none)
      else .wakeup .nread (.writeSleep all rest)
  | .writeSleep all rest => .sleep .nwrite (.write all rest)
  | .writeDone all => .ret d (.wrote all (some all.length))
  | .read n => if d.empty && d.writeopen then .goto d (.readEmpty n) else .goto d (.copy n [])
  | .readEmpty n => if killed then .ret d (.got n none) else .sleep .nread (.read n)
  | .copy n got =>
    if decide (got.length < n) && !d.empty then .goto (d.fetch p) (.copy n (got ++ [d.next]))
    else .wakeup .nwrite (.readDone n got)
  | .readDone n got => .ret d (.got n (some got))
  | .close writable => .goto (d.shut writable) (.closeWake writable)
  | .closeWake writable => .wakeup (if writable then .nread else .nwrite) .closeEnd
  | .closeEnd => .ret (if !d.readopen && !d.writeopen then { d with freed := true } else d) .closed

/-- What a statement does, case by case. -/
inductive Does (p : P) (killed : Bool) (d : Pipe P) : Pc → Outcome (Pipe P) Chan Pc Ret → Prop
  | written {all : List UInt8} : Does p killed d (.write all []) (.wakeup .nread (.writeDone all))
  | isFull {all rest : List UInt8} {b : UInt8} (hfull : d.full = true) :
    Does p killed d (.write all (b :: rest)) (.goto d (.writeFull all (b :: rest)))
  | store {all rest : List UInt8} {b : UInt8} (hroom : d.full = false) :
    Does p killed d (.write all (b :: rest)) (.goto (d.store p b) (.write all rest))
  | writeFails {all rest : List UInt8} (hstop : d.readopen = false ∨ killed = true) :
    Does p killed d (.writeFull all rest) (.ret d (.wrote all none))
  | wakeReaders {all rest : List UInt8} (hopen : d.readopen = true) (halive : killed = false) :
    Does p killed d (.writeFull all rest) (.wakeup .nread (.writeSleep all rest))
  | writeSleep {all rest : List UInt8} :
      Does p killed d (.writeSleep all rest) (.sleep .nwrite (.write all rest))
  | writeDone {all : List UInt8} : Does p killed d (.writeDone all) (.ret d (.wrote all (some all.length)))
  | isEmpty {n : ℕ} (hempty : d.empty = true) (hopen : d.writeopen = true) :
    Does p killed d (.read n) (.goto d (.readEmpty n))
  | ready {n : ℕ} (hready : d.empty = true → d.writeopen = false) :
      Does p killed d (.read n) (.goto d (.copy n []))
  | readFails {n : ℕ} (hkilled : killed = true) : Does p killed d (.readEmpty n) (.ret d (.got n none))
  | readSleep {n : ℕ} (halive : killed = false) : Does p killed d (.readEmpty n) (.sleep .nread (.read n))
  | fetch {n : ℕ} {got : List UInt8} (hmore : got.length < n) (hsome : d.empty = false) :
    Does p killed d (.copy n got) (.goto (d.fetch p) (.copy n (got ++ [d.next])))
  | copied {n : ℕ} {got : List UInt8} (hend : got.length < n → d.empty = true) :
    Does p killed d (.copy n got) (.wakeup .nwrite (.readDone n got))
  | readDone {n : ℕ} {got : List UInt8} : Does p killed d (.readDone n got) (.ret d (.got n (some got)))
  | close {writable : Bool} :
      Does p killed d (.close writable) (.goto (d.shut writable) (.closeWake writable))
  | closeWake {writable : Bool} :
    Does p killed d (.closeWake writable) (.wakeup (if writable then .nread else .nwrite) .closeEnd)
  | closeEnd : Does p killed d .closeEnd
    (.ret (if !d.readopen && !d.writeopen then { d with freed := true } else d) .closed)

theorem does_exec {p : P} {k : Pc} {killed : Bool} {d : Pipe P} {o : Outcome (Pipe P) Chan Pc Ret}
    (h : exec p k killed d = o) : Does p killed d k o := by
  subst h
  cases k with
  | write all rest =>
    cases rest with
    | nil => exact .written
    | cons b rest =>
      rw [exec]
      split_ifs with hfull
      · exact .isFull hfull
      · exact .store (Bool.eq_false_iff.mpr hfull)
  | writeFull all rest =>
    rw [exec]
    split_ifs with hstop
    · rw [Bool.or_eq_true, Bool.not_eq_true'] at hstop
      exact .writeFails hstop
    · rw [Bool.or_eq_true, not_or, Bool.not_eq_true', Bool.not_eq_false, Bool.not_eq_true] at hstop
      exact .wakeReaders hstop.1 hstop.2
  | writeSleep all rest => exact .writeSleep
  | writeDone all => exact .writeDone
  | read n =>
    rw [exec]
    split_ifs with hempty
    · rw [Bool.and_eq_true] at hempty
      exact .isEmpty hempty.1 hempty.2
    · refine .ready fun he => ?_
      rw [he, Bool.true_and, Bool.not_eq_true] at hempty
      exact hempty
  | readEmpty n =>
    rw [exec]
    split_ifs with hkilled
    · exact .readFails hkilled
    · exact .readSleep (Bool.eq_false_iff.mpr hkilled)
  | copy n got =>
    rw [exec]
    split_ifs with hmore
    · rw [Bool.and_eq_true, Bool.not_eq_true', decide_eq_true_eq] at hmore
      exact .fetch hmore.1 hmore.2
    · refine .copied fun hlt => ?_
      by_contra hsome
      refine hmore ?_
      rw [Bool.and_eq_true, Bool.not_eq_true', decide_eq_true_eq]
      exact ⟨hlt, Bool.eq_false_iff.mpr hsome⟩
  | readDone n got => exact .readDone
  | close writable => exact .close
  | closeWake writable => exact .closeWake
  | closeEnd => exact .closeEnd

/-- The statement is one of `pipewrite`. -/
def Pc.writes : Pc → Bool
  | .write _ _ => true
  | .writeFull _ _ => true
  | .writeSleep _ _ => true
  | .writeDone _ => true
  | _ => false

/-- The statement is one of `piperead`. -/
def Pc.reads : Pc → Bool
  | .read _ => true
  | .readEmpty _ => true
  | .copy _ _ => true
  | .readDone _ _ => true
  | _ => false

section Calls

variable [DecidableEq P] [Fintype P]

/-- When a process may start a call, and what the history remembers of it. -/
def start (s : State P (Pipe P) Chan Pc Ret) (p : P) (k : Pc) : Option (Pipe P) :=
  match k with
  | .write all rest =>
    if s.data.writeFile ∧ rest = all then
      some { s.data with mark := Function.update s.data.mark p s.data.sent.length } else none
  | .read _ =>
    if s.data.readFile then
      some { s.data with mark := Function.update s.data.mark p s.data.received.length } else none
  | .close true =>
    if s.data.writeFile ∧ ∀ q, ∀ k ∈ (s.thread q).pc, k.writes = false then
      some { s.data with writeFile := false } else none
  | .close false =>
    if s.data.readFile ∧ ∀ q, ∀ k ∈ (s.thread q).pc, k.reads = false then
      some { s.data with readFile := false } else none
  | _ => none

/-- The monitor of a pipe; its lock is `p->lock`. -/
def code : Code P (Pipe P) Chan Pc Ret Empty where
  exec := exec
  start := start
  env := fun _ e => nomatch e
  same := false

end Calls

structure Fresh (d : Pipe P) : Prop where
  nread : d.nread = 0
  nwrite : d.nwrite = 0
  readopen : d.readopen = true
  writeopen : d.writeopen = true
  readFile : d.readFile = true
  writeFile : d.writeFile = true
  freed : d.freed = false
  sent : d.sent = []
  received : d.received = []

/-! ### The queue -/

/-- The bytes that were stored and not yet handed out. -/
def unread (d : Pipe P) : List UInt8 := (d.sent.map Prod.snd).drop d.received.length

/-- The ring holds what was stored and not yet handed out, and files that are in use have their ends open. -/
structure Good (d : Pipe P) : Prop where
  nread : d.nread = BitVec.ofNat 32 d.received.length
  nwrite : d.nwrite = BitVec.ofNat 32 d.sent.length
  first : d.received.map Prod.snd = (d.sent.map Prod.snd).take d.received.length
  le : d.received.length ≤ d.sent.length
  holds : Holds PIPESIZE d.data d.received.length (unread d)
  readFile : d.readFile = true → d.readopen = true
  writeFile : d.writeFile = true → d.writeopen = true

variable {d : Pipe P}

theorem length_unread (d : Pipe P) : (unread d).length = d.sent.length - d.received.length := by
  rw [unread, List.length_drop, List.length_map]

theorem Good.bound (h : Good d) : d.sent.length - d.received.length ≤ PIPESIZE := by
  have := h.holds.fits
  rwa [length_unread] at this

theorem Good.distance (h : Good d) : (d.nwrite - d.nread).toNat = d.sent.length - d.received.length := by
  have hb := h.bound
  rw [PIPESIZE] at hb
  rw [h.nwrite, h.nread]
  exact sub_ofNat h.le (by omega)

theorem Good.empty_iff (h : Good d) : d.empty = true ↔ d.sent.length = d.received.length := by
  have hb := h.bound
  rw [PIPESIZE] at hb
  rw [Pipe.empty, decide_eq_true_eq, h.nwrite, h.nread, eq_comm]
  exact ofNat_inj_of_lt h.le (by omega)

theorem Good.full_iff (h : Good d) : d.full = true ↔ d.sent.length = d.received.length + PIPESIZE := by
  have hb := h.bound
  have hle := h.le
  rw [Pipe.full, decide_eq_true_eq, h.nwrite, h.nread, ← BitVec.ofNat_add, eq_comm]
  rw [PIPESIZE] at hb ⊢
  rw [ofNat_inj_of_lt (by omega) (by omega), eq_comm]

theorem good_fresh (h : Fresh d) : Good d := by
  refine ⟨?_, ?_, ?_, ?_, ?_, fun _ => h.readopen, fun _ => h.writeopen⟩
  · rw [h.nread, h.received]
    rfl
  · rw [h.nwrite, h.sent]
    rfl
  · rw [h.received, h.sent]
    rfl
  · rw [h.received]
    exact Nat.zero_le _
  · rw [unread, h.sent, List.map_nil, List.drop_nil]
    exact Holds.nil ..

theorem Good.free (h : Good d) : Good { d with freed := true } :=
  ⟨h.nread, h.nwrite, h.first, h.le, h.holds, h.readFile, h.writeFile⟩

/-- **Storing a byte** in a pipe that is not full. -/
theorem Good.store (h : Good d) (hroom : d.full = false) (p : P) (b : UInt8) : Good (d.store p b) := by
  have hle := h.le
  have hb := h.bound
  have hne : d.sent.length ≠ d.received.length + PIPESIZE := fun hfull => by
    rw [h.full_iff.mpr hfull] at hroom
    cases hroom
  have hlen : (unread d).length < PIPESIZE := by
    rw [length_unread]
    omega
  have hunread : unread (d.store p b) = unread d ++ [b] := by
    show ((d.sent ++ [(p, b)]).map Prod.snd).drop d.received.length = _
    rw [List.map_append, List.drop_append_of_le_length (by rw [List.length_map]; exact hle)]
    rfl
  have hcell : d.nwrite.toNat % PIPESIZE = (d.received.length + (unread d).length) % PIPESIZE := by
    rw [h.nwrite, cell_ofNat (by decide), length_unread]
    congr 1
    omega
  refine ⟨h.nread, ?_, ?_, ?_, ?_, h.readFile, h.writeFile⟩
  · show d.nwrite + 1 = BitVec.ofNat 32 (d.sent ++ [(p, b)]).length
    rw [h.nwrite, ofNat_add_one, List.length_append]
    rfl
  · show d.received.map Prod.snd = ((d.sent ++ [(p, b)]).map Prod.snd).take d.received.length
    rw [List.map_append, List.take_append_of_le_length (by rw [List.length_map]; exact hle)]
    exact h.first
  · show d.received.length ≤ (d.sent ++ [(p, b)]).length
    rw [List.length_append]
    omega
  · rw [hunread]
    show Holds PIPESIZE (Function.update d.data (d.nwrite.toNat % PIPESIZE) b) d.received.length _
    rw [hcell]
    exact h.holds.push hlen b

/-- **Fetching a byte** from a pipe that is not empty. -/
theorem Good.fetch (h : Good d) (hsome : d.empty = false) (p : P) : Good (d.fetch p) := by
  have hle := h.le
  have hlt : d.received.length < (d.sent.map Prod.snd).length := by
    have hne : d.sent.length ≠ d.received.length := fun he => by
      rw [h.empty_iff.mpr he] at hsome
      cases hsome
    rw [List.length_map]
    omega
  obtain ⟨b, hb⟩ : ∃ b, (d.sent.map Prod.snd)[d.received.length]? = some b :=
    ⟨_, List.getElem?_eq_getElem hlt⟩
  have hcons : unread d = b :: (d.sent.map Prod.snd).drop (d.received.length + 1) := by
    rw [unread, List.drop_eq_getElem_cons hlt]
    rw [List.getElem?_eq_getElem hlt] at hb
    rw [Option.some.inj hb]
  have hholds := h.holds
  rw [hcons] at hholds
  have hnext : d.next = b := by
    rw [Pipe.next, h.nread, cell_ofNat (by decide)]
    exact hholds.first
  have hlen : (d.received ++ [(p, d.next)]).length = d.received.length + 1 := List.length_append
  refine ⟨?_, h.nwrite, ?_, ?_, ?_, h.readFile, h.writeFile⟩
  · show d.nread + 1 = BitVec.ofNat 32 (d.received ++ [(p, d.next)]).length
    rw [h.nread, ofNat_add_one, hlen]
  · show (d.received ++ [(p, d.next)]).map Prod.snd
      = (d.sent.map Prod.snd).take (d.received ++ [(p, d.next)]).length
    rw [hlen, List.take_add_one, hb, List.map_append, h.first, List.map_singleton, hnext]
    rfl
  · show (d.received ++ [(p, d.next)]).length ≤ d.sent.length
    rw [List.length_map] at hlt
    omega
  · show Holds PIPESIZE d.data (d.received ++ [(p, d.next)]).length
      ((d.sent.map Prod.snd).drop (d.received ++ [(p, d.next)]).length)
    rw [hlen]
    exact hholds.pop

/-- The bytes in the pipe are those that were not handed out. -/
theorem Good.content (h : Good d) : d.content = unread d := by
  have hle := h.le
  have hend : d.sent.length = d.received.length + (unread d).length := by
    rw [length_unread]
    omega
  rw [Pipe.content, h.nread, h.nwrite, hend]
  exact h.holds.window (by decide) (by decide)

end Xv6e.Files.Pipes
