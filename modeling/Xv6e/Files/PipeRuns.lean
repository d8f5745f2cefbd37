import Xv6e.Files.Pipes

/-!
# Runs of a pipe

What holds in every state that any interleaving of `pipewrite`, `piperead`, `pipeclose` and `kill` reaches.

* `Out`, `Here`, `Back` — what holds of a call at each of its statements, and after its return;
* `pipe_fifo` — a pipe is a lossless queue of bounded size;
* `sleeper_not_ready` — nobody sleeps on a pipe that is ready for it, unless a killed writer returns early;
  `reader_left_asleep` — the run in which one does.
-/

namespace Xv6e.Files.PipeRuns

open Library.Transition Library.Monitor Pipes
open Function (update update_self update_of_ne)

variable {P : Type} [DecidableEq P]

/-! ### Assertions -/

/-- What process `p` has stored since its call started. -/
def written (d : Pipe P) (p : P) : List UInt8 := entriesOf p (d.sent.drop (d.mark p))

/-- What process `p` has been handed since its call started. -/
def taken (d : Pipe P) (p : P) : List UInt8 := entriesOf p (d.received.drop (d.mark p))

/-- Process `p` writes; `xs` is what it has stored. -/
structure Writing (p : P) (xs : List UInt8) (d : Pipe P) : Prop where
  file : d.writeFile = true
  mark : d.mark p ≤ d.sent.length
  stored : written d p = xs

/-- Process `p` reads; `xs` is what it has been handed. -/
structure Reading (p : P) (xs : List UInt8) (d : Pipe P) : Prop where
  file : d.readFile = true
  mark : d.mark p ≤ d.received.length
  handed : taken d p = xs

/-- What holds of a call of process `p` with the next statement `k`. -/
def Out (p : P) (k : Pc) (d : Pipe P) : Prop :=
  match k with
  | .write all rest => ∃ xs, xs ++ rest = all ∧ Writing p xs d
  | .writeFull all rest => ∃ xs, xs ++ rest = all ∧ Writing p xs d
  | .writeSleep all rest => ∃ xs, xs ++ rest = all ∧ Writing p xs d
  | .writeDone all => Writing p all d
  | .read _ => Reading p [] d
  | .readEmpty _ => Reading p [] d
  | .copy _ got => Reading p got d
  | .readDone _ got => Reading p got d
  | .close true => d.writeFile = false
  | .close false => d.readFile = false
  | .closeWake _ => True
  | .closeEnd => True

/-- A call takes the lock before this statement: at its start, or when it returns from `sleep`. -/
def Entry : Pc → Prop
  | .write _ _ => True
  | .read _ => True
  | .close _ => True
  | _ => False

/-- What holds of a call without the lock. -/
structure Away (p : P) (k : Pc) (d : Pipe P) : Prop where
  entry : Entry k
  out : Out p k d

/-- What the last tests of the call have found. -/
def Tested (k : Pc) (d : Pipe P) : Prop :=
  match k with
  | .writeFull _ _ => d.full = true
  | .writeSleep _ _ => d.full = true ∧ d.readopen = true
  | .readEmpty _ => d.empty = true ∧ d.writeopen = true
  | .copy _ got => got = [] → d.empty = true → d.writeopen = false
  | .readDone n got => 0 < n → got = [] → d.empty = true ∧ d.writeopen = false
  | _ => True

/-- What holds at a statement with the lock. -/
structure Here (p : P) (k : Pc) (d : Pipe P) : Prop where
  good : Good d
  out : Out p k d
  tested : Tested k d

def Back (p : P) (r : Ret) (d : Pipe P) : Prop :=
  match r with
  | .wrote all (some n) => n = all.length ∧ d.mark p ≤ d.sent.length ∧ written d p = all
  | .got n (some got) =>
    d.mark p ≤ d.received.length ∧ taken d p = got ∧ (0 < n → got = [] → d.empty = true ∧ d.writeopen = false)
  | _ => True

/-- Writers sleep on `nwrite`, readers on `nread`. -/
def On : Chan → Pc → Prop
  | .nread, k => k.reads = true
  | .nwrite, k => k.writes = true

variable {d d' : Pipe P} {p q : P} {k : Pc} {xs : List UInt8} {b : UInt8}

/-! ### One statement -/

theorem Writing.store_self (h : Writing p xs d) (b : UInt8) : Writing p (xs ++ [b]) (d.store p b) where
  file := h.file
  mark := le_length_snoc h.mark _
  stored := (entriesOf_snoc_self h.mark b).trans (by rw [← h.stored]; rfl)

theorem written_store (hq : q ≠ p) (hmark : d.mark q ≤ d.sent.length) (b : UInt8) :
    written (d.store p b) q = written d q := entriesOf_snoc_other hq hmark b

theorem Reading.fetch_self (h : Reading p xs d) : Reading p (xs ++ [d.next]) (d.fetch p) where
  file := h.file
  mark := le_length_snoc h.mark _
  handed := (entriesOf_snoc_self h.mark d.next).trans (by rw [← h.handed]; rfl)

theorem taken_fetch (hq : q ≠ p) (hmark : d.mark q ≤ d.received.length) : taken (d.fetch p) q = taken d q :=
  entriesOf_snoc_other hq hmark d.next

theorem Writing.store_other (h : Writing q xs d) (hq : q ≠ p) (b : UInt8) : Writing q xs (d.store p b) :=
  ⟨h.file, le_length_snoc h.mark _, (written_store hq h.mark b).trans h.stored⟩

theorem Reading.fetch_other (h : Reading q xs d) (hq : q ≠ p) : Reading q xs (d.fetch p) :=
  ⟨h.file, le_length_snoc h.mark _, (taken_fetch hq h.mark).trans h.handed⟩

theorem out_mono (h : Out q k d) (hw : ∀ xs, Writing q xs d → Writing q xs d')
    (hr : ∀ xs, Reading q xs d → Reading q xs d') (hwf : d'.writeFile = d.writeFile)
    (hrf : d'.readFile = d.readFile) :
    Out q k d' := by
  cases k with
  | write all rest =>
    obtain ⟨xs, hxs, hwr⟩ := h
    exact ⟨xs, hxs, hw xs hwr⟩
  | writeFull all rest =>
    obtain ⟨xs, hxs, hwr⟩ := h
    exact ⟨xs, hxs, hw xs hwr⟩
  | writeSleep all rest =>
    obtain ⟨xs, hxs, hwr⟩ := h
    exact ⟨xs, hxs, hw xs hwr⟩
  | writeDone all => exact hw all h
  | read n => exact hr [] h
  | readEmpty n => exact hr [] h
  | copy n got => exact hr got h
  | readDone n got => exact hr got h
  | close writable =>
    cases writable with
    | true => exact hwf.trans h
    | false => exact hrf.trans h
  | closeWake writable => trivial
  | closeEnd => trivial

theorem frame_store (hopen : d.writeopen = true) (p : P) (b : UInt8) : Frame Away Back p d (d.store p b) := by
  refine ⟨fun q hq k h => ⟨h.entry, ?_⟩, fun q hq r h => ?_⟩
  · exact out_mono h.out (fun xs hw => hw.store_other hq b)
      (fun xs hr => ⟨hr.file, hr.mark, hr.handed⟩) rfl rfl
  · cases r with
    | wrote all r =>
      cases r with
      | none => trivial
      | some n =>
        obtain ⟨hn, hmark, hall⟩ := h
        exact ⟨hn, le_length_snoc hmark _, (written_store hq hmark b).trans hall⟩
    | got n r =>
      cases r with
      | none => trivial
      | some got =>
        obtain ⟨hmark, hgot, hempty⟩ := h
        refine ⟨hmark, hgot, fun hn hg => ?_⟩
        -- a reader that found the end of the pipe has seen the write end closed
        have := (hempty hn hg).2
        rw [hopen] at this
        cases this
    | closed => trivial

theorem frame_fetch (hsome : d.empty = false) (p : P) : Frame Away Back p d (d.fetch p) := by
  refine ⟨fun q hq k h => ⟨h.entry, ?_⟩, fun q hq r h => ?_⟩
  · exact out_mono h.out (fun xs hw => ⟨hw.file, hw.mark, hw.stored⟩) (fun xs hr => hr.fetch_other hq) rfl rfl
  · cases r with
    | wrote all r =>
      cases r with
      | none => trivial
      | some n => exact h
    | got n r =>
      cases r with
      | none => trivial
      | some got =>
        obtain ⟨hmark, hgot, hempty⟩ := h
        refine ⟨le_length_snoc hmark _, (taken_fetch hq hmark).trans hgot, fun hn hg => ?_⟩
        rw [(hempty hn hg).1] at hsome
        cases hsome
    | closed => trivial

/-- A change of the pipe that leaves its bytes and the mark of process `q` alone. -/
theorem out_of_same (h : Out q k d) (hs : d'.sent = d.sent) (hr : d'.received = d.received)
    (hm : d'.mark q = d.mark q) (hwf : k.writes = true → d.writeFile = true → d'.writeFile = true)
    (hrf : k.reads = true → d.readFile = true → d'.readFile = true)
    (hwf' : d.writeFile = false → d'.writeFile = false) (hrf' : d.readFile = false → d'.readFile = false) :
    Out q k d' := by
  have hw : k.writes = true → ∀ {xs}, Writing q xs d → Writing q xs d' := fun hk xs h =>
    ⟨hwf hk h.file, by rw [hm, hs]; exact h.mark, by rw [written, hs, hm]; exact h.stored⟩
  have hrd : k.reads = true → ∀ {xs}, Reading q xs d → Reading q xs d' := fun hk xs h =>
    ⟨hrf hk h.file, by rw [hm, hr]; exact h.mark, by rw [taken, hr, hm]; exact h.handed⟩
  cases k with
  | write all rest =>
    obtain ⟨xs, hxs, hwr⟩ := h
    exact ⟨xs, hxs, hw rfl hwr⟩
  | writeFull all rest =>
    obtain ⟨xs, hxs, hwr⟩ := h
    exact ⟨xs, hxs, hw rfl hwr⟩
  | writeSleep all rest =>
    obtain ⟨xs, hxs, hwr⟩ := h
    exact ⟨xs, hxs, hw rfl hwr⟩
  | writeDone all => exact hw rfl h
  | read n => exact hrd rfl h
  | readEmpty n => exact hrd rfl h
  | copy n got => exact hrd rfl h
  | readDone n got => exact hrd rfl h
  | close writable =>
    cases writable with
    | true => exact hwf' h
    | false => exact hrf' h
  | closeWake writable => trivial
  | closeEnd => trivial

theorem back_of_same {r : Ret} (h : Back q r d) (hs : d'.sent = d.sent) (hr : d'.received = d.received)
    (hm : d'.mark q = d.mark q) (he : d'.empty = d.empty)
    (hopen : d.writeopen = false → d'.writeopen = false) : Back q r d' := by
  cases r with
  | wrote all r =>
    cases r with
    | none => trivial
    | some n => exact ⟨h.1, by rw [hm, hs]; exact h.2.1, by rw [written, hs, hm]; exact h.2.2⟩
  | got n r =>
    cases r with
    | none => trivial
    | some got =>
      refine ⟨by rw [hm, hr]; exact h.1, by rw [taken, hr, hm]; exact h.2.1, fun hn hg => ?_⟩
      obtain ⟨hemp, hcl⟩ := h.2.2 hn hg
      exact ⟨he.trans hemp, hopen hcl⟩
  | closed => trivial

theorem good_shut (h : Good d) {writable : Bool} (hout : Out p (.close writable) d) :
    Good (d.shut writable) := by
  cases writable with
  | true =>
    exact ⟨h.nread, h.nwrite, h.first, h.le, h.holds, h.readFile,
      fun hf => absurd (hf.symm.trans hout) (by decide)⟩
  | false =>
    exact ⟨h.nread, h.nwrite, h.first, h.le, h.holds, fun hf => absurd (hf.symm.trans hout)
      (by decide), h.writeFile⟩

theorem frame_shut (writable : Bool) (p : P) : Frame Away Back p d (d.shut writable) := by
  cases writable with
  | true => exact ⟨fun _ _ _ h => ⟨h.entry, out_of_same h.out rfl rfl rfl (fun _ => id) (fun _ => id) id id⟩,
      fun _ _ _ h => back_of_same h rfl rfl rfl rfl fun _ => rfl⟩
  | false => exact ⟨fun _ _ _ h => ⟨h.entry, out_of_same h.out rfl rfl rfl (fun _ => id) (fun _ => id) id id⟩,
      fun _ _ _ h => back_of_same h rfl rfl rfl rfl id⟩

theorem frame_freed (p : P) : Frame Away Back p d { d with freed := true } :=
  ⟨fun _ _ _ h => ⟨h.entry, out_of_same h.out rfl rfl rfl (fun _ => id) (fun _ => id) id id⟩,
    fun _ _ _ h => back_of_same h rfl rfl rfl rfl id⟩

variable {killed : Bool} {k' : Pc}

theorem exec_goto (h : Here p k d) (hx : exec p k killed d = .goto d' k') :
    Here p k' d' ∧ Frame Away Back p d d' := by
  cases does_exec hx with
  | isFull hfull => exact ⟨⟨h.good, h.out, hfull⟩, Frame.refl ..⟩
  | @store all rest b hroom =>
    obtain ⟨xs, hxs, hw⟩ := h.out
    refine ⟨⟨h.good.store hroom p b, ⟨xs ++ [b], ?_, hw.store_self b⟩, trivial⟩, ?_⟩
    · rw [List.append_assoc]
      exact hxs
    · exact frame_store (h.good.writeFile hw.file) p b
  | isEmpty hempty hopen => exact ⟨⟨h.good, h.out, hempty, hopen⟩, Frame.refl ..⟩
  | ready hready => exact ⟨⟨h.good, h.out, fun _ => hready⟩, Frame.refl ..⟩
  | @fetch n got hmore hsome =>
    have hread : Reading p got d := h.out
    refine ⟨⟨h.good.fetch hsome p, hread.fetch_self, fun hnil => ?_⟩, frame_fetch hsome p⟩
    exact absurd hnil (List.append_ne_nil_of_right_ne_nil _ (List.cons_ne_nil _ _))
  | @close writable => exact ⟨⟨good_shut h.good h.out, trivial, trivial⟩, frame_shut writable p⟩

theorem exec_wakeup {c : Chan} (h : Here p k d) (hx : exec p k killed d = .wakeup c k') :
    Here p k' d := by
  cases does_exec hx with
  | written =>
    obtain ⟨xs, hxs, hw⟩ := h.out
    rw [List.append_nil] at hxs
    exact ⟨h.good, hxs ▸ hw, trivial⟩
  | wakeReaders hopen halive => exact ⟨h.good, h.out, h.tested, hopen⟩
  | copied hend =>
    refine ⟨h.good, h.out, fun hn hnil => ?_⟩
    have hempty : d.empty = true := hend (by rw [hnil]; exact hn)
    exact ⟨hempty, h.tested hnil hempty⟩
  | closeWake => exact ⟨h.good, trivial, trivial⟩

theorem exec_sleep {c : Chan} (h : Here p k d) (hx : exec p k killed d = .sleep c k') :
    Good d ∧ Away p k' d ∧ On c k' := by
  cases does_exec hx with
  | writeSleep => exact ⟨h.good, ⟨trivial, h.out⟩, rfl⟩
  | readSleep halive => exact ⟨h.good, ⟨trivial, h.out⟩, rfl⟩

theorem exec_ret {r : Ret} (h : Here p k d) (hx : exec p k killed d = .ret d' r) :
    Good d' ∧ Back p r d' ∧ Frame Away Back p d d' := by
  cases does_exec hx with
  | writeFails hstop => exact ⟨h.good, trivial, Frame.refl ..⟩
  | @writeDone all =>
    have hw : Writing p all d := h.out
    exact ⟨h.good, ⟨rfl, hw.mark, hw.stored⟩, Frame.refl ..⟩
  | readFails hkilled => exact ⟨h.good, trivial, Frame.refl ..⟩
  | @readDone n got =>
    have hr : Reading p got d := h.out
    exact ⟨h.good, ⟨hr.mark, hr.handed, h.tested⟩, Frame.refl ..⟩
  | closeEnd =>
    split_ifs
    · exact ⟨h.good.free, trivial, frame_freed p⟩
    · exact ⟨h.good, trivial, Frame.refl ..⟩

/-! ### The calls -/

variable {s : State P (Pipe P) Chan Pc Ret}

theorem assert_started {x : Thread Chan Pc Ret} (h : Assert Good On Here Away Back q d x)
    (hgood : Good d → Good d') (hs : d'.sent = d.sent) (hr : d'.received = d.received)
    (hm : d'.mark q = d.mark q) (hwf : ∀ k ∈ x.pc, k.writes = true → d.writeFile = true → d'.writeFile = true)
    (hrf : ∀ k ∈ x.pc, k.reads = true → d.readFile = true → d'.readFile = true)
    (hwf' : d.writeFile = false → d'.writeFile = false) (hrf' : d.readFile = false → d'.readFile = false)
    (htest : ∀ k, Tested k d → Tested k d') (he : d'.empty = d.empty)
    (hopen : d.writeopen = false → d'.writeopen = false) : Assert Good On Here Away Back q d' x :=
  h.mono hgood
    (fun k hk h =>
      ⟨hgood h.good, out_of_same h.out hs hr hm (hwf k hk) (hrf k hk) hwf' hrf', htest k h.tested⟩)
    (fun k hk h => ⟨h.entry, out_of_same h.out hs hr hm (hwf k hk) (hrf k hk) hwf' hrf'⟩)
    fun _ h => back_of_same h hs hr hm he hopen

variable [Fintype P]

theorem start_ok (ha : Asserted Good On Here Away Back s) (hs : start s p k = some d) :
    Away p k d ∧ (Good s.data → Good d) ∧ ∀ q, q ≠ p → Assert Good On Here Away Back q d (s.thread q) := by
  cases k with
  | write all rest =>
    obtain ⟨⟨hfile, rfl⟩, rfl⟩ := guard_eq.mp hs
    have hgood : Good s.data
        → Good { s.data with mark := update s.data.mark p s.data.sent.length } := fun h =>
      ⟨h.nread, h.nwrite, h.first, h.le, h.holds, h.readFile, h.writeFile⟩
    have hown : update s.data.mark p s.data.sent.length p = s.data.sent.length := update_self ..
    refine ⟨⟨trivial, [], rfl, hfile, hown.le, ?_⟩, hgood, fun q hq => ?_⟩
    · show entriesOf p (s.data.sent.drop (update s.data.mark p s.data.sent.length p)) = []
      rw [hown, entriesOf_drop_length]
    · exact assert_started (ha.thread q) hgood rfl rfl (update_of_ne hq ..) (fun _ _ _ => id)
        (fun _ _ _ => id) id id (fun _ => id) rfl id
  | read n =>
    obtain ⟨hfile, rfl⟩ := guard_eq.mp hs
    have hgood : Good s.data → Good { s.data with mark := update s.data.mark p s.data.received.length } :=
      fun h => ⟨h.nread, h.nwrite, h.first, h.le, h.holds, h.readFile, h.writeFile⟩
    have hown : update s.data.mark p s.data.received.length p = s.data.received.length := update_self ..
    refine ⟨⟨trivial, hfile, hown.le, ?_⟩, hgood, fun q hq => ?_⟩
    · show entriesOf p (s.data.received.drop (update s.data.mark p s.data.received.length p)) = []
      rw [hown, entriesOf_drop_length]
    · exact assert_started (ha.thread q) hgood rfl rfl (update_of_ne hq ..) (fun _ _ _ => id)
        (fun _ _ _ => id) id id (fun _ => id) rfl id
  | close writable =>
    cases writable with
    | true =>
      obtain ⟨⟨_, hnone⟩, rfl⟩ := guard_eq.mp hs
      have hgood : Good s.data → Good { s.data with writeFile := false } := fun h =>
        ⟨h.nread, h.nwrite, h.first, h.le, h.holds, h.readFile, fun hf => by cases hf⟩
      refine ⟨⟨trivial, rfl⟩, hgood, fun q _ => ?_⟩
      exact assert_started (ha.thread q) hgood rfl rfl rfl
        (fun k hk hw => absurd (hw.symm.trans (hnone q k hk)) (by decide)) (fun _ _ _ => id) (fun _ => rfl) id
        (fun _ => id) rfl id
    | false =>
      obtain ⟨⟨_, hnone⟩, rfl⟩ := guard_eq.mp hs
      have hgood : Good s.data → Good { s.data with readFile := false } := fun h =>
        ⟨h.nread, h.nwrite, h.first, h.le, h.holds, fun hf => (by cases hf), h.writeFile⟩
      refine ⟨⟨trivial, rfl⟩, hgood, fun q _ => ?_⟩
      exact assert_started (ha.thread q) hgood rfl rfl rfl (fun _ _ _ => id)
        (fun k hk hr => absurd (hr.symm.trans (hnone q k hk)) (by decide)) id (fun _ => rfl)
        (fun _ => id) rfl id
  | _ => cases hs

theorem proof : Proof (code (P := P)) Fresh Good On Here Away Back where
  boot := fun _ => good_fresh
  enter := fun p k d hg ha => ⟨hg, ha.out, by
    have := ha.entry
    cases k <;> trivial⟩
  goto := fun p k b d d' k' => exec_goto
  wakeup := fun p k b d c k' => exec_wakeup
  sleep := fun p k b d c k' => exec_sleep
  ret := fun p k b d d' r => exec_ret
  start := fun s p k d ha _ => start_ok ha
  env := fun _ e => e.elim

/-! ### The queue, over runs -/

variable {es : List (Event P Pc Empty)}

theorem good_run {C : List (Event P Pc Empty) → State P (Pipe P) Chan Pc Ret → Event P Pc Empty → Prop}
    (hr : RunIf (system code Fresh) C es s) : Good s.data :=
  (proof.run hr).always (fun _ => id) fun _ _ _ h => h.good

/-- **A pipe is a lossless queue of bounded size.**  In every reachable state there are at most `PIPESIZE`
bytes between `nread` and `nwrite`; what was handed to readers is the beginning of what was stored by writers,
and the rest is in the ring; a write that returns `n` has stored its `n` bytes; a read returns what it was
handed, and no bytes only at the end of a pipe whose write end is closed. -/
theorem pipe_fifo (hr : Reach (system code Fresh) es s) :
    (s.data.nwrite - s.data.nread).toNat ≤ PIPESIZE
    ∧ s.data.received.map Prod.snd <+: s.data.sent.map Prod.snd
    ∧ s.data.sent.map Prod.snd = s.data.received.map Prod.snd ++ s.data.content
    ∧ (∀ p all n, s.thread p = .done (.wrote all (some n)) → n = all.length ∧ written s.data p = all)
    ∧ (∀ p n got, s.thread p = .done (.got n (some got)) → taken s.data p = got)
    ∧ ∀ p n, s.thread p = .done (.got n (some [])) → 0 < n → s.data.empty = true
    ∧ s.data.writeopen = false := by
  have hgood := good_run hr
  have hback : ∀ {p r}, s.thread p = .done r → Back p r s.data := fun {p r} h => by
    have := (proof.run hr).thread p
    rwa [h] at this
  have hsplit : s.data.sent.map Prod.snd = s.data.received.map Prod.snd ++ s.data.content := by
    rw [hgood.content, hgood.first]
    exact (List.take_append_drop _ _).symm
  refine ⟨?_, ⟨_, hsplit.symm⟩, hsplit, fun p all n h => ⟨(hback h).1, (hback h).2.2⟩, fun p n got h =>
    (hback h).2.1, fun p n h hn => (hback h).2.2 hn rfl⟩
  rw [hgood.distance]
  exact hgood.bound

def newPipe : Pipe P where
  data := fun _ => 0
  nread := 0
  nwrite := 0
  readopen := true
  writeopen := true
  readFile := true
  writeFile := true
  freed := false
  sent := []
  received := []
  mark := fun _ => 0

/-- No call has been made on a new pipe. -/
def newState : State P (Pipe P) Chan Pc Ret where
  data := newPipe
  lock := none
  table := none
  thread := fun _ => .idle
  killed := fun _ => false

theorem init_newState : (system code Fresh).init (newState (P := P)) :=
  ⟨⟨rfl, rfl, rfl, rfl, rfl, rfl, rfl, rfl, rfl⟩, rfl, rfl, fun _ => rfl⟩

abbrev Trace : Type := List (Event (Fin 2) Pc Empty)

/-- Process 0 writes three bytes, process 1 reads two. -/
def shortRun : List (Event (Fin 2) Pc Empty) :=
  ([.start 0 (.write [1, 2, 3] [1, 2, 3])] : Trace) ++ (List.replicate 7 (.step 0) : Trace)
    ++ ([.start 1 (.read 2)] : Trace) ++ (List.replicate 7 (.step 1) : Trace)

/-- Two of three bytes are handed out, in order. -/
theorem pipe_fifo_short : ∃ s : State (Fin 2) (Pipe (Fin 2)) Chan Pc Ret, Reach (system code Fresh) shortRun s
    ∧ s.thread 0 = .done (.wrote [1, 2, 3] (some 3)) ∧ written s.data 0 = [1, 2, 3]
    ∧ s.thread 1 = .done (.got 2 (some [1, 2])) ∧ taken s.data 1 = [1, 2] := by
  obtain ⟨s, hr, hs⟩ := exists_runIf_of_map (S := system code Fresh) (C := fun _ _ _ => True)
    (f := fun s => (s.thread 0, s.thread 1))
    (y := (.done (.wrote [1, 2, 3] (some 3)), .done (.got 2 (some [1, 2]))))
    shortRun init_newState (by decide)
  rw [Prod.mk.injEq] at hs
  have h := pipe_fifo hr
  exact ⟨s, hr, hs.1, (h.2.2.2.1 0 _ 3 hs.1).2, hs.2, h.2.2.2.2.1 1 2 _ hs.2⟩

/-! ### Sleepers -/

/-- When a process has to wait: readers for bytes from an open write end, writers for room in a pipe with an
open read end. -/
def NotReady : Chan → Pipe P → Prop
  | .nread, d => d.empty = true ∧ d.writeopen = true
  | .nwrite, d => d.full = true ∧ d.readopen = true

/-- The code from the statement on calls `wakeup` of the channel before it releases the lock. -/
def Owes : Pc → Chan → Prop
  | .write _ _, .nread => True
  | .writeFull _ _, .nread => True
  | .copy _ _, .nwrite => True
  | .closeWake true, .nread => True
  | .closeWake false, .nwrite => True
  | _, _ => False

/-- The step is that of a killed writer that has found the pipe full. -/
def killedAtFull (s : State P (Pipe P) Chan Pc Ret) : Event P Pc Empty → Bool
  | .step p =>
    match s.thread p with
    | .run (.writeFull _ _) => s.killed p
    | _ => false
  | _ => false

/-- A killed writer that finds the pipe full does so only while no process sleeps on `nread`. -/
def NoReaderLeft (s : State P (Pipe P) Chan Pc Ret) (e : Event P Pc Empty) : Prop :=
  killedAtFull s e = true → ¬ Waiting s .nread

instance (s : State P (Pipe P) Chan Pc Ret) (e : Event P Pc Empty) : Decidable (NoReaderLeft s e) :=
  inferInstanceAs (Decidable (killedAtFull s e = true → ¬ ∃ q, (s.thread q).waitsOn .nread = true))

omit [Fintype P] in
theorem readopen_of_waiting (ha : Asserted Good On Here Away Back s) (hgood : Good s.data)
    (hw : Waiting s .nread) : s.data.readopen = true := by
  obtain ⟨q, hq⟩ := hw
  have hread : ∀ {k : Pc}, Away q k s.data ∧ On .nread k → s.data.readFile = true := by
    rintro k ⟨hout, hon⟩
    cases k <;> first | exact hout.out.file | cases hon
  have hassert := ha.thread q
  cases hx : s.thread q <;> rw [hx] at hq hassert <;> first | cases hq | skip
  all_goals
    have hc := of_decide_eq_true hq
    rw [hc] at hassert
    exact hgood.readFile (hread hassert)

theorem waitProof : WaitProof (code (P := P)) (fun _ s e => NoReaderLeft s e)
    (fun s => Asserted Good On Here Away Back s) NotReady Owes where
  same := rfl
  goto := fun es s p k d k' c ha hc ht hx hw hor => by
    cases does_exec hx with
    | isFull hfull =>
      cases c with
      | nread => exact Or.inr trivial
      | nwrite => exact hor
    | store hroom =>
      cases c with
      | nread => exact Or.inr trivial
      | nwrite =>
        -- no writer has to wait for room when there is some
        rcases hor with hr | ho
        · rw [hr.1] at hroom
          cases hroom
        · cases ho
    | isEmpty hempty hopen => exact Or.inl (hor.resolve_right fun ho => by cases ho)
    | ready hready => exact Or.inl (hor.resolve_right fun ho => by cases ho)
    | fetch hmore hsome =>
      cases c with
      | nread =>
        rcases hor with hr | ho
        · rw [hr.1] at hsome
          cases hsome
        · cases ho
      | nwrite => exact Or.inr trivial
    | @close writable =>
      have hr := hor.resolve_right fun ho => by cases ho
      cases writable <;> cases c <;> first | exact Or.inr trivial | exact Or.inl hr
  wakeup := fun es s p k c' k' c ha hc ht hx hw hor => by
    cases does_exec hx with
    | written => cases c <;>
        first | exact Or.inr (Or.inl rfl) | exact Or.inl (hor.resolve_right fun ho => by cases ho)
    | wakeReaders hopen halive =>
      cases c <;> first | exact Or.inr (Or.inl rfl) | exact Or.inl (hor.resolve_right fun ho => by cases ho)
    | copied hend =>
      cases c <;> first | exact Or.inr (Or.inl rfl) | exact Or.inl (hor.resolve_right fun ho => by cases ho)
    | @closeWake writable =>
      cases writable <;> cases c <;>
        first | exact Or.inr (Or.inl rfl) | exact Or.inl (hor.resolve_right fun ho => by cases ho)
  sleep := fun es s p k c' k' ha hc ht hx => by
    have hdoes := does_exec hx
    have hhere := ha.thread p
    rw [ht] at hhere
    cases hdoes with
    | writeSleep => exact ⟨hhere.tested, fun c _ hor => hor.resolve_right fun ho => by cases ho⟩
    | readSleep halive => exact ⟨hhere.tested, fun c _ hor => hor.resolve_right fun ho => by cases ho⟩
  ret := fun es s p k d r c ha hc ht hx hw hor => by
    cases does_exec hx with
    | @writeFails all rest hstop =>
      cases c with
      | nwrite => exact hor.resolve_right fun ho => by cases ho
      | nread =>
        -- readers that wait hold the read end open, so the writer was killed
        have hhere := ha.thread p
        rw [ht] at hhere
        have hopen := readopen_of_waiting ha hhere.good hw
        have hkilled := hstop.resolve_left fun hshut => by
          rw [hopen] at hshut
          cases hshut
        refine absurd hw (hc ?_)
        rw [killedAtFull, ht]
        exact hkilled
    | writeDone => exact hor.resolve_right fun ho => by cases ho
    | readFails hkilled => exact hor.resolve_right fun ho => by cases ho
    | readDone => exact hor.resolve_right fun ho => by cases ho
    | closeEnd =>
      have hr := hor.resolve_right fun ho => by cases ho
      split_ifs
      · cases c <;> exact hr
      · exact hr
  start := fun s p k d c ha hs hr => by
    have hsame : d.nread = s.data.nread ∧ d.nwrite = s.data.nwrite ∧ d.readopen = s.data.readopen
        ∧ d.writeopen = s.data.writeopen := by
      replace hs : start s p k = some d := hs
      cases k with
      | close writable =>
        cases writable <;> obtain ⟨_, rfl⟩ := guard_eq.mp hs <;> exact ⟨rfl, rfl, rfl, rfl⟩
      | write all rest =>
        obtain ⟨_, rfl⟩ := guard_eq.mp hs
        exact ⟨rfl, rfl, rfl, rfl⟩
      | read n =>
        obtain ⟨_, rfl⟩ := guard_eq.mp hs
        exact ⟨rfl, rfl, rfl, rfl⟩
      | _ => cases hs
    obtain ⟨h1, h2, h3, h4⟩ := hsame
    cases c with
    | nread => exact ⟨by rw [Pipe.empty, h1, h2]; exact hr.1, h4.trans hr.2⟩
    | nwrite => exact ⟨by rw [Pipe.full, h1, h2]; exact hr.1, h3.trans hr.2⟩
  env := fun _ e => e.elim

/-- **Nobody sleeps on a pipe that is ready for it.**  In every run in which a killed writer does not return
from a full pipe while a reader sleeps, in every state in which the lock of the pipe is free: whoever sleeps
on `nread` has an empty pipe with an open write end, and whoever sleeps on `nwrite` a full one with an open
read end. -/
theorem sleeper_not_ready
    (hr : RunIf (system code Fresh) (fun _ s e => NoReaderLeft s e) es s) (hfree : s.lock = none) :
    (∀ p k, s.thread p = .asleep .nread k → s.data.empty = true ∧ s.data.writeopen = true)
    ∧ ∀ p k, s.thread p = .asleep .nwrite k → s.data.full = true ∧ s.data.readopen = true := by
  have hwaits : Waits NotReady Owes s :=
    waitProof.run (fun es s hr => ⟨(proof.run hr).locks, proof.run hr⟩) hr
  refine ⟨fun p k hp => ?_, fun p k hp => ?_⟩
  · exact hwaits.free (c := .nread) hfree ⟨p, by rw [hp]; rfl⟩
  · exact hwaits.free (c := .nwrite) hfree ⟨p, by rw [hp]; rfl⟩

/-- Process 0 reads and goes to sleep. -/
def readerSleeps : List (Event (Fin 2) Pc Empty) := .start 0 (.read 1) :: List.replicate 6 (.step 0)

/-- The reader of an empty pipe may sleep. -/
theorem sleeper_not_ready_empty : ∃ s : State (Fin 2) (Pipe (Fin 2)) Chan Pc Ret,
    RunIf (system code Fresh) (fun _ s e => NoReaderLeft s e) readerSleeps s ∧ s.lock = none
    ∧ s.thread 0 = .asleep .nread (.read 1) ∧ s.data.empty = true ∧ s.data.writeopen = true := by
  obtain ⟨s, hr, hs⟩ := exists_runIf_of_map (S := system code Fresh) (C := fun _ s e => NoReaderLeft s e)
    (f := fun s => (s.lock, s.thread 0)) (y := (none, .asleep .nread (.read 1))) readerSleeps
    init_newState (by decide)
  rw [Prod.mk.injEq] at hs
  exact ⟨s, hr, hs.1, hs.2, (sleeper_not_ready hr hs.1).1 0 _ hs.2⟩

/-- Process 0 reads and goes to sleep; process 1 is killed while it writes one byte more than the pipe
holds. -/
def killedWriter : List (Event (Fin 2) Pc Empty) :=
  readerSleeps ++ ([.start 1 (.write (List.replicate 513 7) (List.replicate 513 7)), .kill 1] : Trace)
    ++ (List.replicate 515 (.step 1) : Trace)

/-- **A reader is left asleep.**  The killed writer has filled the pipe and returned without a `wakeup`, and
the reader sleeps on while the write end is open. -/
theorem reader_left_asleep : ∃ s : State (Fin 2) (Pipe (Fin 2)) Chan Pc Ret, Reach
    (system code Fresh) killedWriter s
    ∧ s.lock = none ∧ s.thread 0 = .asleep .nread (.read 1) ∧ s.data.full = true ∧ s.data.empty = false := by
  obtain ⟨s, hr, hs⟩ := exists_runIf_of_map (S := system code Fresh) (C := fun _ _ _ => True)
    (f := fun s => (s.lock, s.thread 0, s.data.full, s.data.empty))
    (y := (none, .asleep .nread (.read 1), true, false)) killedWriter init_newState (by decide +kernel)
  simp only [Prod.mk.injEq] at hs
  exact ⟨s, hr, hs⟩

end Xv6e.Files.PipeRuns
