import Xv6e.Library.MonitorSleep
import Xv6e.Library.RingBuffer

/-!
# Console input

`consoleintr` and `consoleread`, statement by statement, for any number of readers and interrupt handlers.
The indices `r`, `w` and `e` into the ring of `INPUT_BUF` characters are words that wrap.  What the console
prints is not modelled.

With the buffer the model keeps its history: the characters that were committed, those that readers consumed,
and each return of `consoleread` with how many characters had been consumed by then.

* `exec`, `start`, `code` — the statements and the calls;
* `Good` — the ring holds what was committed and not yet consumed, and then the line that is being edited.
-/

namespace Xv6e.Device.Console

open Library.Monitor Library.RingBuffer

def INPUT_BUF : ℕ := 128

def C (x : Char) : UInt8 := (x.toNat - '@'.toNat).toUInt8

def newline : UInt8 := 10

def carriageReturn : UInt8 := 13

def delete : UInt8 := 0x7f

/-- A return of `consoleread`: the reader, how many characters it asked for, those it was given (`none` for
`-1`), and how many had been consumed by then. -/
structure Return (P : Type) where
  reader : P
  target : ℕ
  result : Option (List UInt8)
  pos : ℕ

/-- `input`, with its history.  `mark` says how many characters had been consumed when a reader's call
started. -/
structure Input (P : Type) where
  buf : ℕ → UInt8
  r : BitVec 32
  w : BitVec 32
  e : BitVec 32
  committed : List UInt8
  consumed : List (P × UInt8)
  returns : List (Return P)
  mark : P → ℕ

/-- The one channel, the address of `input.r`. -/
inductive Chan
  | r
  deriving DecidableEq, Repr

/-- The next statement of a call: `cs` are the characters that `getc` will return; `target`, `n` and `got` are
those of a reader, with what it has put at `dst`. -/
inductive Pc
  | intr (cs : List UInt8)                            -- `while((c = getc()) >= 0)`
  | killLine (cs : List UInt8)                        -- `while(input.e != input.w && ...)`
  | wakeReaders (cs : List UInt8)                     -- `wakeup(&input.r)`
  | read (target n : ℕ) (got : List UInt8)            -- `while(n > 0)`
  | wait (target n : ℕ) (got : List UInt8)            -- `while(input.r == input.w)`
  | empty (target n : ℕ) (got : List UInt8)           -- `if(myproc()->killed)`
  | take (target n : ℕ) (got : List UInt8)            -- `c = input.buf[input.r++ % INPUT_BUF]`
  deriving DecidableEq, Repr

/-- What a call returns; for a reader with its argument, `none` for `-1`. -/
inductive Ret
  | handled
  | got (target : ℕ) (result : Option (List UInt8))
  deriving DecidableEq, Repr

variable {P : Type}

namespace Input

/-- The characters of the line that is being edited: `buf[w..e)`. -/
def line (d : Input P) : List UInt8 := window INPUT_BUF d.buf d.w d.e

/-- The characters that can be read: `buf[r..w)`. -/
def readable (d : Input P) : List UInt8 := window INPUT_BUF d.buf d.r d.w

def erase (d : Input P) : Input P := { d with e := d.e - 1 }

/-- `input.buf[input.e++ % INPUT_BUF] = c`. -/
def insert (d : Input P) (c : UInt8) : Input P :=
  { d with buf := Function.update d.buf (d.e.toNat % INPUT_BUF) c, e := d.e + 1 }

def commit (d : Input P) : Input P := { d with w := d.e, committed := d.committed ++ d.line }

def next (d : Input P) : UInt8 := d.buf (d.r.toNat % INPUT_BUF)

def consume (d : Input P) (p : P) : Input P :=
  { d with r := d.r + 1, consumed := d.consumed ++ [(p, d.next)] }

def logReturn (d : Input P) (p : P) (target : ℕ) (result : Option (List UInt8)) : Input P :=
  { d with returns := d.returns ++ [⟨p, target, result, d.consumed.length⟩] }

end Input

/-- The line of the buffer ends here: at a newline, at `^D`, or because the buffer is full. -/
def endsLine (d : Input P) (c : UInt8) : Bool :=
  c == newline || c == C 'D' || d.e == d.r + BitVec.ofNat 32 INPUT_BUF

/-- The case `default` of `consoleintr`: the character `c` is put into the buffer if there is room. -/
def typeChar (d : Input P) (c : UInt8) (cs : List UInt8) : Outcome (Input P) Chan Pc Ret :=
  if c ≠ 0 ∧ (d.e - d.r).toNat < INPUT_BUF then
    let c := if c = carriageReturn then newline else c
    let d := d.insert c
    if endsLine d c then .goto d.commit (.wakeReaders cs) else .goto d (.intr cs)
  else .goto d (.intr cs)

def isErase (c : UInt8) : Bool := c == C 'H' || c == delete

def exec (p : P) (k : Pc) (killed : Bool) (d : Input P) : Outcome (Input P) Chan Pc Ret :=
  match k with
  | .intr [] => .ret d .handled
  | .intr (c :: cs) =>
    if c = C 'P' then .goto d (.intr cs)
    else if c = C 'U' then .goto d (.killLine cs)
    else if isErase c then
      if d.e ≠ d.w then .goto d.erase (.intr cs) else .goto d (.intr cs)
    else typeChar d c cs
  | .killLine cs =>
    if d.e ≠ d.w ∧ d.buf ((d.e - 1).toNat % INPUT_BUF) ≠ newline then .goto d.erase (.killLine cs)
    else .goto d (.intr cs)
  | .wakeReaders cs => .wakeup .r (.intr cs)
  | .read target n got =>
    if 0 < n then .goto d (.wait target n got)
    else .ret (d.logReturn p target (some got)) (.got target (some got))
  | .wait target n got => if d.r = d.w then .goto d (.empty target n got) else .goto d (.take target n got)
  | .empty target n got =>
    if killed then .ret (d.logReturn p target none) (.got target none) else .sleep .r (.wait target n got)
  | .take target n got =>
    if d.next = C 'D' then
      -- with `n < target` the `^D` is put back
      if n < target then .ret (d.logReturn p target (some got)) (.got target (some got))
      else .ret ((d.consume p).logReturn p target (some got)) (.got target (some got))
    else if d.next = newline then
      .ret ((d.consume p).logReturn p target (some (got ++ [d.next]))) (.got target (some (got ++ [d.next])))
    else .goto (d.consume p) (.read target (n - 1) (got ++ [d.next]))

/-- What a statement does, case by case. -/
inductive Does (p : P) (killed : Bool) (d : Input P) : Pc → Outcome (Input P) Chan Pc Ret → Prop
  | handled : Does p killed d (.intr []) (.ret d .handled)
  | skip {c : UInt8} {cs : List UInt8} : Does p killed d (.intr (c :: cs)) (.goto d (.intr cs))
  | lineKill {c : UInt8} {cs : List UInt8} : Does p killed d (.intr (c :: cs)) (.goto d (.killLine cs))
  | erase {c : UInt8} {cs : List UInt8} (hne : d.e ≠ d.w) :
      Does p killed d (.intr (c :: cs)) (.goto d.erase (.intr cs))
  | insert {c c' : UInt8} {cs : List UInt8} (hroom : (d.e - d.r).toNat < INPUT_BUF)
      (hgoes : endsLine (d.insert c') c' = false) : Does p killed d (.intr (c :: cs))
      (.goto (d.insert c') (.intr cs))
  | commit {c c' : UInt8} {cs : List UInt8} (hroom : (d.e - d.r).toNat < INPUT_BUF) :
    Does p killed d (.intr (c :: cs)) (.goto (d.insert c').commit (.wakeReaders cs))
  | eraseLine {cs : List UInt8} (hne : d.e ≠ d.w) :
      Does p killed d (.killLine cs) (.goto d.erase (.killLine cs))
  | lineGone {cs : List UInt8} : Does p killed d (.killLine cs) (.goto d (.intr cs))
  | wakeReaders {cs : List UInt8} : Does p killed d (.wakeReaders cs) (.wakeup .r (.intr cs))
  | more {target n : ℕ} {got : List UInt8} (hn : 0 < n) :
    Does p killed d (.read target n got) (.goto d (.wait target n got))
  | full {target : ℕ} {got : List UInt8} :
    Does p killed d (.read target 0 got) (.ret (d.logReturn p target (some got)) (.got target (some got)))
  | isEmpty {target n : ℕ} {got : List UInt8} (hempty : d.r = d.w) :
    Does p killed d (.wait target n got) (.goto d (.empty target n got))
  | ready {target n : ℕ} {got : List UInt8} (hsome : d.r ≠ d.w) :
    Does p killed d (.wait target n got) (.goto d (.take target n got))
  | fails {target n : ℕ} {got : List UInt8} (hkilled : killed = true) :
    Does p killed d (.empty target n got) (.ret (d.logReturn p target none) (.got target none))
  | sleep {target n : ℕ} {got : List UInt8} (halive : killed = false) :
    Does p killed d (.empty target n got) (.sleep .r (.wait target n got))
  | putBack {target n : ℕ} {got : List UInt8} (heof : d.next = C 'D') (hlt : n < target) :
    Does p killed d (.take target n got) (.ret (d.logReturn p target (some got)) (.got target (some got)))
  | eof {target n : ℕ} {got : List UInt8} (heof : d.next = C 'D') (hle : target ≤ n) :
    Does p killed d (.take target n got)
    (.ret ((d.consume p).logReturn p target (some got)) (.got target (some got)))
  | newline {target n : ℕ} {got : List UInt8} (hnl : d.next = newline) :
    Does p killed d (.take target n got)
      (.ret ((d.consume p).logReturn p target (some (got ++ [d.next])))
        (.got target (some (got ++ [d.next]))))
  | char {target n : ℕ} {got : List UInt8} (heof : d.next ≠ C 'D') (hnl : d.next ≠ Console.newline) :
    Does p killed d (.take target n got) (.goto (d.consume p) (.read target (n - 1) (got ++ [d.next])))

theorem does_typeChar (p : P) (killed : Bool) (d : Input P) (c : UInt8) (cs : List UInt8) :
    Does p killed d (.intr (c :: cs)) (typeChar d c cs) := by
  rw [typeChar]
  by_cases hroom : c ≠ 0 ∧ (d.e - d.r).toNat < INPUT_BUF
  · rw [if_pos hroom]
    generalize (if c = carriageReturn then newline else c) = c'
    show Does p killed d _ (if endsLine (d.insert c') c' then _ else _)
    split_ifs with hends
    · exact .commit hroom.2
    · exact .insert hroom.2 (Bool.eq_false_iff.mpr hends)
  · rw [if_neg hroom]
    exact .skip

theorem does_exec {p : P} {k : Pc} {killed : Bool} {d : Input P} {o : Outcome (Input P) Chan Pc Ret}
    (h : exec p k killed d = o) : Does p killed d k o := by
  subst h
  cases k with
  | intr cs =>
    cases cs with
    | nil => exact .handled
    | cons c cs =>
      rw [exec]
      split_ifs with hp hu hh hne
      · exact .skip
      · exact .lineKill
      · exact .erase hne
      · exact .skip
      · exact does_typeChar p killed d c cs
  | killLine cs =>
    rw [exec]
    split_ifs with hne
    · exact .eraseLine hne.1
    · exact .lineGone
  | wakeReaders cs => exact .wakeReaders
  | read target n got =>
    rw [exec]
    split_ifs with hn
    · exact .more hn
    · rw [show n = 0 by omega]
      exact .full
  | wait target n got =>
    rw [exec]
    split_ifs with hempty
    · exact .isEmpty hempty
    · exact .ready hempty
  | empty target n got =>
    rw [exec]
    split_ifs with hkilled
    · exact .fails hkilled
    · exact .sleep (Bool.eq_false_iff.mpr hkilled)
  | take target n got =>
    rw [exec]
    split_ifs with heof hlt hnl
    · exact .putBack heof hlt
    · exact .eof heof (by omega)
    · exact .newline hnl
    · exact .char heof hnl

section Calls

variable [DecidableEq P]

/-- Interrupts come at any time; a reader starts with nothing read. -/
def start (s : State P (Input P) Chan Pc Ret) (p : P) (k : Pc) : Option (Input P) :=
  match k with
  | .intr _ => some s.data
  | .read target n got =>
    if n = target ∧ got = [] then
      some { s.data with mark := Function.update s.data.mark p s.data.consumed.length } else none
  | _ => none

/-- The monitor of the console; its lock is `cons.lock`. -/
def code : Code P (Input P) Chan Pc Ret Empty where
  exec := exec
  start := start
  env := fun _ e => nomatch e
  same := false

end Calls

/-- The buffer when the system starts. -/
structure Fresh (d : Input P) : Prop where
  r : d.r = 0
  w : d.w = 0
  e : d.e = 0
  committed : d.committed = []
  consumed : d.consumed = []
  returns : d.returns = []

/-! ### The buffer -/

/-- The ring holds what was committed and not consumed, and then the line `line`; if it is full, there is no
line. -/
structure Ring (d : Input P) (line : List UInt8) : Prop where
  r : d.r = BitVec.ofNat 32 d.consumed.length
  w : d.w = BitVec.ofNat 32 d.committed.length
  e : d.e = BitVec.ofNat 32 (d.committed.length + line.length)
  le : d.consumed.length ≤ d.committed.length
  first : d.consumed.map Prod.snd = d.committed.take d.consumed.length
  holds : Holds INPUT_BUF d.buf d.consumed.length (d.committed.drop d.consumed.length ++ line)
  full : d.committed.length + line.length = d.consumed.length + INPUT_BUF → line = []

variable {d : Input P} {line : List UInt8} {p : P} {c : UInt8}

section

variable (h : Ring d line)
include h

theorem Ring.bound : d.committed.length + line.length ≤ d.consumed.length + INPUT_BUF := by
  have hfits := h.holds.fits
  have hle := h.le
  rw [List.length_append, List.length_drop] at hfits
  omega

theorem Ring.distance_e :
    (d.e - d.r).toNat = d.committed.length + line.length - d.consumed.length := by
  have hb := h.bound
  have hle := h.le
  rw [INPUT_BUF] at hb
  rw [h.e, h.r]
  exact sub_ofNat (by omega) (by omega)

theorem Ring.distance_w : (d.w - d.r).toNat = d.committed.length - d.consumed.length := by
  have hb := h.bound
  have hle := h.le
  rw [INPUT_BUF] at hb
  rw [h.w, h.r]
  exact sub_ofNat hle (by omega)

theorem Ring.e_eq_w : d.e = d.w ↔ line = [] := by
  have hb := h.bound
  have hle := h.le
  rw [INPUT_BUF] at hb
  rw [h.e, h.w, ofNat_inj_of_lt (by omega) (by omega), ← List.length_eq_zero_iff]
  omega

theorem Ring.r_eq_w : d.r = d.w ↔ d.consumed.length = d.committed.length := by
  have hb := h.bound
  have hle := h.le
  rw [INPUT_BUF] at hb
  rw [eq_comm, h.r, h.w, ofNat_inj_of_lt hle (by omega), eq_comm]

theorem Ring.readable_eq : d.readable = d.committed.drop d.consumed.length := by
  have hle := h.le
  have hheld := h.holds.unpush.window (by decide) (by decide)
  rw [List.length_drop, show d.consumed.length + (d.committed.length - d.consumed.length)
    = d.committed.length by omega] at hheld
  rw [Input.readable, h.r, h.w]
  exact hheld

/-- **A character is erased**: it was not committed. -/
theorem Ring.erase (hne : d.e ≠ d.w) : Ring d.erase line.dropLast := by
  have hline : line ≠ [] := fun hnil => hne (h.e_eq_w.mpr hnil)
  have hpos : 0 < line.length := List.length_pos_iff.mpr hline
  have hholds := h.holds
  rw [← List.dropLast_append_getLast hline, ← List.append_assoc] at hholds
  have hb := h.bound
  refine ⟨h.r, h.w, ?_, h.le, h.first, hholds.unpush, fun hfull => ?_⟩
  · show d.e - 1 = _
    rw [h.e, ofNat_sub_one (by omega), List.length_dropLast, Nat.add_sub_assoc hpos]
    rfl
  · replace hfull : d.committed.length + line.dropLast.length = d.consumed.length + INPUT_BUF := hfull
    rw [List.length_dropLast] at hfull
    omega

theorem Ring.insert_holds (hroom : (d.e - d.r).toNat < INPUT_BUF) (c : UInt8) :
    (d.insert c).e = BitVec.ofNat 32 (d.committed.length + (line ++ [c]).length)
    ∧ Holds INPUT_BUF (d.insert c).buf d.consumed.length
    (d.committed.drop d.consumed.length ++ (line ++ [c])) := by
  have hle := h.le
  rw [h.distance_e] at hroom
  have hlen : (d.committed.drop d.consumed.length ++ line).length
      = d.committed.length + line.length - d.consumed.length := by
    rw [List.length_append, List.length_drop]
    omega
  have hcell : d.e.toNat % INPUT_BUF
      = (d.consumed.length + (d.committed.drop d.consumed.length ++ line).length) % INPUT_BUF := by
    rw [h.e, cell_ofNat (by decide), hlen]
    congr 1
    omega
  constructor
  · show d.e + 1 = _
    rw [h.e, ofNat_add_one, List.length_append]
    rfl
  · show Holds INPUT_BUF (Function.update d.buf (d.e.toNat % INPUT_BUF) c) _ _
    rw [hcell, ← List.append_assoc]
    exact h.holds.push (by rw [hlen]; exact hroom) c

/-- **A character is put into the buffer** and the line goes on: the buffer is not full. -/
theorem Ring.insert (hroom : (d.e - d.r).toNat < INPUT_BUF)
    (hgoes : endsLine (d.insert c) c = false) : Ring (d.insert c) (line ++ [c]) := by
  obtain ⟨he, hholds⟩ := h.insert_holds hroom c
  refine ⟨h.r, h.w, he, h.le, h.first, hholds, fun hfull => ?_⟩
  rw [endsLine, Bool.or_eq_false_iff, beq_eq_false_iff_ne] at hgoes
  refine absurd ?_ hgoes.2
  have hr : (d.insert c).r = BitVec.ofNat 32 d.consumed.length := h.r
  rw [he, hr, ← BitVec.ofNat_add]
  exact congrArg _ hfull

/-- **A character is put into the buffer** and the line is committed. -/
theorem Ring.commit (hroom : (d.e - d.r).toNat < INPUT_BUF) (c : UInt8) :
    Ring (d.insert c).commit [] ∧ (d.insert c).commit.committed = d.committed ++ (line ++ [c]) := by
  obtain ⟨he, hholds⟩ := h.insert_holds hroom c
  have hle := h.le
  have hskip := hholds.skip
  rw [List.length_drop, show d.consumed.length + (d.committed.length - d.consumed.length)
    = d.committed.length by omega] at hskip
  have hline : (d.insert c).line = line ++ [c] := by
    have hw : (d.insert c).w = BitVec.ofNat 32 d.committed.length := h.w
    rw [Input.line, he, hw]
    exact hskip.window (by decide) (by decide)
  have hcommitted : (d.insert c).commit.committed = d.committed ++ (line ++ [c]) := by
    show d.committed ++ (d.insert c).line = _
    rw [hline]
  refine ⟨⟨h.r, ?_, ?_, ?_, ?_, ?_, fun _ => rfl⟩, hcommitted⟩
  · rw [hcommitted, List.length_append]
    exact he
  · rw [hcommitted, List.length_append, List.length_nil, Nat.add_zero]
    exact he
  · rw [hcommitted, List.length_append]
    exact Nat.le_trans hle (Nat.le_add_right _ _)
  · rw [hcommitted]
    show d.consumed.map Prod.snd = (d.committed ++ (line ++ [c])).take d.consumed.length
    rw [List.take_append_of_le_length hle]
    exact h.first
  · rw [hcommitted, List.append_nil]
    show Holds INPUT_BUF (d.insert c).buf d.consumed.length
      ((d.committed ++ (line ++ [c])).drop d.consumed.length)
    rw [List.drop_append_of_le_length hle]
    exact hholds

/-- **A reader consumes a character**, the next of those that were committed. -/
theorem Ring.consume (hsome : d.r ≠ d.w) (p : P) :
    Ring (d.consume p) line ∧ d.committed[d.consumed.length]? = some d.next := by
  have hle := h.le
  have hlt : d.consumed.length < d.committed.length := by
    have hne : d.consumed.length ≠ d.committed.length := fun he => hsome (h.r_eq_w.mpr he)
    omega
  have hb := List.getElem?_eq_getElem hlt
  have hholds := h.holds
  rw [List.drop_eq_getElem_cons hlt, List.cons_append] at hholds
  have hnext : d.next = d.committed[d.consumed.length] := by
    rw [Input.next, h.r, cell_ofNat (by decide)]
    exact hholds.first
  have hlen : (d.consumed ++ [(p, d.next)]).length = d.consumed.length + 1 := List.length_append
  refine ⟨⟨?_, h.w, h.e, ?_, ?_, ?_, fun hfull => ?_⟩, by rw [hb, hnext]⟩
  · show d.r + 1 = BitVec.ofNat 32 (d.consumed ++ [(p, d.next)]).length
    rw [h.r, ofNat_add_one, hlen]
  · show (d.consumed ++ [(p, d.next)]).length ≤ d.committed.length
    omega
  · show (d.consumed ++ [(p, d.next)]).map Prod.snd = d.committed.take (d.consumed ++ [(p, d.next)]).length
    rw [hlen, List.take_add_one, hb, List.map_append, h.first, List.map_singleton, hnext]
    rfl
  · show Holds INPUT_BUF d.buf (d.consumed ++ [(p, d.next)]).length
      (d.committed.drop (d.consumed ++ [(p, d.next)]).length ++ line)
    rw [hlen]
    exact hholds.pop
  · replace hfull : d.committed.length + line.length = (d.consumed ++ [(p, d.next)]).length
      + INPUT_BUF := hfull
    have := h.bound
    omega

end

end Xv6e.Device.Console
