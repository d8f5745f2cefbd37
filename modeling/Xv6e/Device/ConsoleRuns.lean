import Xv6e.Device.Console

/-!
# Runs of the console

What holds in every state that any interleaving of `consoleintr` and `consoleread` reaches.

* `AtEnd` — where a read ends: after all its characters, just after the first newline, or at a `^D`;
* `Good`, `Out`, `Back` — what holds of the buffer, and of a call at each of its statements and after its
  return;
* `line_discipline` — the result.
-/

namespace Xv6e.Device.ConsoleRuns

open Library.Transition Library.Monitor Console

variable {P : Type}

/-! ### Assertions -/

/-- A read of `n > 0` characters that returned `xs` when `pos` characters had been consumed has ended: after
`n` characters, just after the first newline, at a `^D` that is left for the next reader, or at a `^D` that it
consumed. -/
inductive AtEnd (committed : List UInt8) (n : ℕ) (xs : List UInt8) (pos : ℕ) : Prop
  | all (hline : newline ∉ xs) (hlen : xs.length = n)
  | newline (ys : List UInt8) (hxs : xs = ys ++ [newline]) (hline : newline ∉ ys) (hlen : xs.length ≤ n)
  | eofNext (hline : Console.newline ∉ xs) (hlen : xs.length < n) (hsome : xs ≠ [])
      (heof : committed[pos]? = some (C 'D'))
  | eof (hnone : xs = []) (hpos : 0 < pos) (heof : committed[pos - 1]? = some (C 'D'))

/-- What a return says about the history. -/
def Ended (committed : List UInt8) (x : Return P) : Prop :=
  ∀ xs ∈ x.result, 0 < x.target → AtEnd committed x.target xs x.pos

/-- A read of more than zero characters that returned none. -/
def zeroRead (x : Return P) : Bool := decide (0 < x.target) && decide (x.result = some [])

/-- What holds of the buffer and its history. -/
structure Good (d : Input P) : Prop where
  ring : ∃ line, Ring d line
  returns : ∀ x ∈ d.returns, Ended d.committed x
  eofs : (d.consumed.map Prod.snd).count (C 'D') = d.returns.countP zeroRead

variable {killed : Bool} {k' : Pc}

section Calls

variable [DecidableEq P]

/-- What reader `p` has consumed since its call started. -/
def taken (d : Input P) (p : P) : List UInt8 := entriesOf p (d.consumed.drop (d.mark p))

/-- Reader `p` asked for `target` characters, has `n` to go and has been given `got`. -/
structure Reading (p : P) (target n : ℕ) (got : List UInt8) (d : Input P) : Prop where
  mark : d.mark p ≤ d.consumed.length
  taken : taken d p = got
  left : got.length + n = target
  line : newline ∉ got

/-- What holds of a call of `p` with the next statement `k`. -/
def Out (p : P) (k : Pc) (d : Input P) : Prop :=
  match k with
  | .intr _ => True
  | .killLine _ => True
  | .wakeReaders _ => True
  | .read target n got => Reading p target n got d
  | .wait target n got => Reading p target n got d ∧ 0 < n
  | .empty target n got => Reading p target n got d ∧ 0 < n
  | .take target n got => Reading p target n got d ∧ 0 < n

/-- A call takes the lock before this statement. -/
def Entry : Pc → Prop
  | .intr _ => True
  | .read _ _ _ => True
  | .wait _ _ _ => True
  | _ => False

/-- What holds of a call without the lock. -/
structure Away (p : P) (k : Pc) (d : Input P) : Prop where
  entry : Entry k
  out : Out p k d

/-- What holds at a statement with the lock. -/
structure Here (p : P) (k : Pc) (d : Input P) : Prop where
  good : Good d
  out : Out p k d
  tested : ∀ target n got, k = .take target n got → d.r ≠ d.w

/-- What holds after the return: it is in the history, and what was returned is what was consumed, up to a
`^D`. -/
def Back (p : P) (r : Ret) (d : Input P) : Prop :=
  match r with
  | .handled => True
  | .got target result =>
    (∃ x ∈ d.returns, x.reader = p ∧ x.target = target ∧ x.result = result)
    ∧ d.mark p ≤ d.consumed.length
    ∧ ∀ xs ∈ result, taken d p = xs ∨ xs = [] ∧ taken d p = [C 'D']

variable {d d' : Input P} {p q : P} {k : Pc} {n target : ℕ} {got line : List UInt8} {c : UInt8}

/-! ### Histories -/

theorem AtEnd.mono {committed : List UInt8} {xs : List UInt8} {pos : ℕ} (h : AtEnd committed n xs pos)
    (ys : List UInt8) : AtEnd (committed ++ ys) n xs pos := by
  have happ : ∀ {i : ℕ} {c : UInt8}, committed[i]? = some c → (committed ++ ys)[i]? = some c :=
      fun {i c} hi => by
    rw [List.getElem?_append_left (List.getElem?_eq_some_iff.mp hi).1]
    exact hi
  cases h with
  | all hline hlen => exact .all hline hlen
  | newline zs hxs hline hlen => exact .newline zs hxs hline hlen
  | eofNext hline hlen hsome heof => exact .eofNext hline hlen hsome (happ heof)
  | eof hnone hpos heof => exact .eof hnone hpos (happ heof)

theorem out_mono (h : Out q k d) (hr : ∀ target n got, Reading q target n got d → Reading q target n got d') :
    Out q k d' := by
  cases k with
  | read target n got => exact hr _ _ _ h
  | wait target n got => exact ⟨hr _ _ _ h.1, h.2⟩
  | empty target n got => exact ⟨hr _ _ _ h.1, h.2⟩
  | take target n got => exact ⟨hr _ _ _ h.1, h.2⟩
  | _ => trivial

/-- A change that leaves what was consumed and the mark of thread `q` alone, and forgets no return. -/
theorem reading_of_same (hc : d'.consumed = d.consumed) (hm : d'.mark q = d.mark q)
    (h : Reading q target n got d) : Reading q target n got d' :=
  ⟨by rw [hc, hm]; exact h.mark, by rw [ConsoleRuns.taken, hc, hm]; exact h.taken, h.left, h.line⟩

theorem back_of_same {r : Ret} (h : Back q r d) (hc : d'.consumed = d.consumed) (hm : d'.mark q = d.mark q)
    (hret : ∀ x ∈ d.returns, x ∈ d'.returns) : Back q r d' := by
  cases r with
  | handled => trivial
  | got target result =>
    obtain ⟨⟨x, hx, hwho⟩, hmark, htaken⟩ := h
    exact ⟨⟨x, hret x hx, hwho⟩, by rw [hc, hm]; exact hmark, by rw [taken, hc, hm]; exact htaken⟩

theorem frame_of_same (p : P) (hc : d'.consumed = d.consumed) (hm : d'.mark = d.mark)
    (hret : ∀ x ∈ d.returns, x ∈ d'.returns) : Frame Away Back p d d' where
  out := fun q _ k h => ⟨h.entry, out_mono h.out fun _ _ _ => reading_of_same hc (by rw [hm])⟩
  done := fun q _ r h => back_of_same h hc (by rw [hm]) hret

theorem frame_consume (p : P) (d : Input P) : Frame Away Back p d (d.consume p) where
  out := fun q hq k h => ⟨h.entry, out_mono h.out fun _ _ _ hr =>
    ⟨le_length_snoc hr.mark _, (entriesOf_snoc_other hq hr.mark d.next).trans hr.taken, hr.left, hr.line⟩⟩
  done := fun q hq r h => by
    cases r with
    | handled => trivial
    | got target result =>
      obtain ⟨hx, hmark, htaken⟩ := h
      refine ⟨hx, le_length_snoc hmark _, fun xs hxs => ?_⟩
      rw [taken, show (d.consume p).consumed.drop ((d.consume p).mark q)
        = (d.consumed ++ [(p, d.next)]).drop (d.mark q) from rfl, entriesOf_snoc_other hq hmark]
      exact htaken xs hxs

theorem frame_logReturn (p : P) (d : Input P) (target : ℕ) (result : Option (List UInt8)) :
    Frame Away Back p d (d.logReturn p target result) :=
  frame_of_same p rfl rfl fun _ hx => List.mem_append_left _ hx

/-! ### One statement -/

omit [DecidableEq P] in
theorem Good.erase (h : Good d) (hne : d.e ≠ d.w) : Good d.erase := by
  obtain ⟨line, hring⟩ := h.ring
  exact ⟨⟨_, hring.erase hne⟩, h.returns, h.eofs⟩

omit [DecidableEq P] in
theorem Good.insert (h : Good d) (hroom : (d.e - d.r).toNat < INPUT_BUF)
    (hgoes : endsLine (d.insert c) c = false) : Good (d.insert c) := by
  obtain ⟨line, hring⟩ := h.ring
  exact ⟨⟨_, hring.insert hroom hgoes⟩, h.returns, h.eofs⟩

omit [DecidableEq P] in
theorem Good.commit (h : Good d) (hroom : (d.e - d.r).toNat < INPUT_BUF) : Good (d.insert c).commit := by
  obtain ⟨line, hring⟩ := h.ring
  obtain ⟨hring', hcommitted⟩ := hring.commit hroom c
  refine ⟨⟨_, hring'⟩, fun x hx xs hxs hpos => ?_, h.eofs⟩
  rw [hcommitted]
  exact (h.returns x hx xs hxs hpos).mono _

omit [DecidableEq P] in
theorem Good.consume (h : Good d) (hsome : d.r ≠ d.w) (hne : d.next ≠ C 'D') (p : P) :
    Good (d.consume p) := by
  obtain ⟨line, hring⟩ := h.ring
  refine ⟨⟨line, (hring.consume hsome p).1⟩, h.returns, ?_⟩
  show ((d.consumed ++ [(p, d.next)]).map Prod.snd).count (C 'D') = d.returns.countP zeroRead
  rw [List.map_append, List.count_append, h.eofs, List.map_singleton, List.count_singleton,
    if_neg (by simpa using hne), Nat.add_zero]

omit [DecidableEq P] in
theorem Good.logReturn (h : Good d) {result : Option (List UInt8)}
    (hend : Ended d.committed ⟨p, target, result, d.consumed.length⟩)
    (hzero : zeroRead ⟨p, target, result, d.consumed.length⟩ = false) :
    Good (d.logReturn p target result) := by
  obtain ⟨line, hring⟩ := h.ring
  refine ⟨⟨line, hring.r, hring.w, hring.e, hring.le, hring.first, hring.holds, hring.full⟩,
    fun x hx => ?_, ?_⟩
  · rcases List.mem_append.mp hx with hx | hx
    · exact h.returns x hx
    · rw [List.mem_singleton.mp hx]
      exact hend
  · show (d.consumed.map Prod.snd).count (C 'D') = (d.returns ++ [_]).countP zeroRead
    rw [List.countP_append, ← h.eofs, List.countP_singleton, hzero]
    rfl

omit [DecidableEq P] in
theorem Good.eof (h : Good d) (hsome : d.r ≠ d.w) (heof : d.next = C 'D') (htarget : 0 < target) (p : P) :
    Good ((d.consume p).logReturn p target (some [])) := by
  obtain ⟨line, hring⟩ := h.ring
  obtain ⟨hring', hnext⟩ := hring.consume hsome p
  have hlen : (d.consume p).consumed.length = d.consumed.length + 1 := List.length_append
  refine ⟨⟨line, hring'.r, hring'.w, hring'.e, hring'.le, hring'.first, hring'.holds, hring'.full⟩,
    fun x hx => ?_, ?_⟩
  · rcases List.mem_append.mp hx with hx | hx
    · exact h.returns x hx
    · rw [List.mem_singleton.mp hx]
      rintro xs hxs _
      cases hxs
      refine .eof rfl (hlen ▸ Nat.succ_pos _) ?_
      show d.committed[(d.consume p).consumed.length - 1]? = some (C 'D')
      rw [hlen, Nat.add_sub_cancel, ← heof]
      exact hnext
  · show ((d.consumed ++ [(p, d.next)]).map Prod.snd).count (C 'D') = (d.returns ++ [_]).countP zeroRead
    have hz : zeroRead (⟨p, target, some [], (d.consume p).consumed.length⟩ : Return P) = true := by
      rw [zeroRead, decide_eq_true htarget]
      rfl
    rw [List.map_append, List.count_append, h.eofs, List.countP_append, List.countP_singleton, hz,
      List.map_singleton, heof, List.count_singleton_self]
    rfl

theorem Reading.consume (h : Reading p target n got d) (hn : 0 < n) (hnl : d.next ≠ newline) :
    Reading p target (n - 1) (got ++ [d.next]) (d.consume p) where
  mark := le_length_snoc h.mark _
  taken := (entriesOf_snoc_self h.mark d.next).trans (by rw [← h.taken]; rfl)
  left := by
    have := h.left
    rw [List.length_append, List.length_singleton]
    omega
  line := by
    rw [List.mem_append, List.mem_singleton]
    rintro (hmem | heq)
    · exact h.line hmem
    · exact hnl heq.symm

theorem exec_goto (h : Here p k d) (hx : exec p k killed d = .goto d' k') :
    Here p k' d' ∧ Frame Away Back p d d' := by
  cases does_exec hx with
  | skip => exact ⟨⟨h.good, trivial, fun _ _ _ hk => by cases hk⟩, Frame.refl ..⟩
  | lineKill => exact ⟨⟨h.good, trivial, fun _ _ _ hk => by cases hk⟩, Frame.refl ..⟩
  | erase hne =>
    exact ⟨⟨h.good.erase hne, trivial, fun _ _ _ hk => by cases hk⟩, frame_of_same p rfl rfl fun _ => id⟩
  | insert hroom hgoes =>
    exact ⟨⟨h.good.insert hroom hgoes, trivial, fun _ _ _ hk => by cases hk⟩,
      frame_of_same p rfl rfl fun _ => id⟩
  | commit hroom =>
    exact ⟨⟨h.good.commit hroom, trivial, fun _ _ _ hk => by cases hk⟩, frame_of_same p rfl rfl fun _ => id⟩
  | eraseLine hne =>
    exact ⟨⟨h.good.erase hne, trivial, fun _ _ _ hk => by cases hk⟩, frame_of_same p rfl rfl fun _ => id⟩
  | lineGone => exact ⟨⟨h.good, trivial, fun _ _ _ hk => by cases hk⟩, Frame.refl ..⟩
  | more hn => exact ⟨⟨h.good, ⟨h.out, hn⟩, fun _ _ _ hk => by cases hk⟩, Frame.refl ..⟩
  | isEmpty hempty => exact ⟨⟨h.good, h.out, fun _ _ _ hk => by cases hk⟩, Frame.refl ..⟩
  | ready hsome => exact ⟨⟨h.good, h.out, fun _ _ _ _ => hsome⟩, Frame.refl ..⟩
  | @char target n got heof hnl =>
    have hout : Reading p target n got d ∧ 0 < n := h.out
    have hsome := h.tested target n got rfl
    exact ⟨⟨h.good.consume hsome heof p, hout.1.consume hout.2 hnl, fun _ _ _ hk => by cases hk⟩,
      frame_consume p d⟩

theorem exec_wakeup {c : Chan} (h : Here p k d) (hx : exec p k killed d = .wakeup c k') :
    Here p k' d := by
  cases does_exec hx with
  | wakeReaders => exact ⟨h.good, trivial, fun _ _ _ hk => by cases hk⟩

theorem exec_sleep {c : Chan} (h : Here p k d) (hx : exec p k killed d = .sleep c k') :
    Good d ∧ Away p k' d ∧ True := by
  cases does_exec hx with
  | sleep halive => exact ⟨h.good, ⟨trivial, h.out⟩, trivial⟩

omit [DecidableEq P] in
theorem mem_logReturn (p : P) (d : Input P) (target : ℕ) (result : Option (List UInt8)) :
    ∃ x ∈ (d.logReturn p target result).returns, x.reader = p ∧ x.target = target ∧ x.result = result :=
  ⟨⟨p, target, result, d.consumed.length⟩, List.mem_append_right _ (List.mem_singleton_self _), rfl, rfl, rfl⟩

theorem exec_ret {r : Ret} (h : Here p k d) (hx : exec p k killed d = .ret d' r) :
    Good d' ∧ Back p r d' ∧ Frame Away Back p d d' := by
  cases does_exec hx with
  | handled => exact ⟨h.good, trivial, Frame.refl ..⟩
  | @full target got =>
    have hread : Reading p target 0 got d := h.out
    have hleft : got.length = target := hread.left
    refine ⟨h.good.logReturn ?_ ?_, ⟨mem_logReturn .., hread.mark, ?_⟩, frame_logReturn ..⟩
    · rintro xs hxs _
      cases hxs
      exact .all hread.line hleft
    · rw [zeroRead, Bool.and_eq_false_iff, decide_eq_false_iff_not, decide_eq_false_iff_not, ← hleft]
      by_cases hnil : got = []
      · exact Or.inl (by rw [hnil]; exact Nat.lt_irrefl 0)
      · exact Or.inr fun hs => hnil (Option.some.inj hs)
    · rintro xs hxs
      cases hxs
      exact Or.inl hread.taken
  | @fails target n got hkilled =>
    have hread : Reading p target n got d ∧ 0 < n := h.out
    refine ⟨h.good.logReturn (fun xs hxs => by cases hxs) ?_,
      ⟨mem_logReturn .., hread.1.mark, fun xs hxs => by cases hxs⟩, frame_logReturn ..⟩
    rw [zeroRead, Bool.and_eq_false_iff]
    exact Or.inr (decide_eq_false fun hs => by cases hs)
  | @putBack target n got heof hlt =>
    obtain ⟨hread, hn⟩ : Reading p target n got d ∧ 0 < n := h.out
    have hleft := hread.left
    have hnil : got ≠ [] := fun hnil => by
      rw [hnil, List.length_nil] at hleft
      omega
    obtain ⟨line, hring⟩ := h.good.ring
    have hnext := (hring.consume (h.tested target n got rfl) p).2
    refine ⟨h.good.logReturn ?_ ?_, ⟨mem_logReturn .., hread.mark, ?_⟩, frame_logReturn ..⟩
    · rintro xs hxs _
      cases hxs
      exact .eofNext hread.line (show got.length < target by omega) hnil (hnext.trans (by rw [heof]))
    · rw [zeroRead, Bool.and_eq_false_iff]
      exact Or.inr (decide_eq_false fun hs => hnil (Option.some.inj hs))
    · rintro xs hxs
      cases hxs
      exact Or.inl hread.taken
  | @eof target n got heof hle =>
    obtain ⟨hread, hn⟩ : Reading p target n got d ∧ 0 < n := h.out
    have hleft := hread.left
    obtain rfl : got = [] := List.length_eq_zero_iff.mp (by omega)
    have htarget : 0 < target := by
      rw [List.length_nil] at hleft
      omega
    refine ⟨h.good.eof (h.tested target n [] rfl) heof htarget p,
      ⟨mem_logReturn .., le_length_snoc hread.mark _, ?_⟩, (frame_consume p d).trans (frame_logReturn ..)⟩
    rintro xs hxs
    cases hxs
    refine Or.inr ⟨rfl, ?_⟩
    refine (entriesOf_snoc_self hread.mark d.next).trans ?_
    rw [show entriesOf p (d.consumed.drop (d.mark p)) = [] from hread.taken, heof]
    rfl
  | @newline target n got hnl =>
    obtain ⟨hread, hn⟩ : Reading p target n got d ∧ 0 < n := h.out
    have hleft := hread.left
    have heof : d.next ≠ C 'D' := by
      rw [hnl]
      decide
    have hgood := h.good.consume (h.tested target n got rfl) heof p
    refine ⟨hgood.logReturn ?_ ?_, ⟨mem_logReturn .., le_length_snoc hread.mark _, ?_⟩,
      (frame_consume p d).trans (frame_logReturn ..)⟩
    · rintro xs hxs _
      cases hxs
      refine .newline got (by rw [hnl]) hread.line ?_
      rw [List.length_append, List.length_singleton]
      show got.length + 1 ≤ target
      omega
    · rw [zeroRead, Bool.and_eq_false_iff]
      refine Or.inr (decide_eq_false fun hs => ?_)
      exact List.append_ne_nil_of_right_ne_nil got (List.cons_ne_nil _ _) (Option.some.inj hs)
    · rintro xs hxs
      cases hxs
      refine Or.inl ((entriesOf_snoc_self hread.mark d.next).trans ?_)
      rw [← hread.taken]
      rfl

/-! ### Runs -/

variable {s t : State P (Input P) Chan Pc Ret}

omit [DecidableEq P] in
theorem good_fresh (h : Fresh d) : Good d := by
  refine ⟨⟨[], ?_, ?_, ?_, ?_, ?_, ?_, fun _ => rfl⟩, ?_, ?_⟩
  · rw [h.r, h.consumed]
    rfl
  · rw [h.w, h.committed]
    rfl
  · rw [h.e, h.committed]
    rfl
  · rw [h.consumed]
    exact Nat.zero_le _
  · rw [h.consumed]
    rfl
  · rw [h.committed, List.drop_nil]
    exact .nil ..
  · rw [h.returns]
    exact fun x hx => absurd hx (List.not_mem_nil)
  · rw [h.consumed, h.returns]
    rfl

theorem start_ok (ha : Asserted Good (fun _ _ => True) Here Away Back s) (hs : start s p k = some d) :
    Away p k d ∧ (Good s.data → Good d) ∧ ∀ q, q ≠ p
      → Assert Good (fun _ _ => True) Here Away Back q d (s.thread q) := by
  cases k with
  | intr cs =>
    cases hs
    exact ⟨⟨trivial, trivial⟩, id, fun q _ => ha.thread q⟩
  | read target n got =>
    obtain ⟨⟨rfl, rfl⟩, rfl⟩ := guard_eq.mp hs
    have hgood : Good s.data
        → Good { s.data with mark := Function.update s.data.mark p s.data.consumed.length } := by
      rintro ⟨⟨line, h⟩, hret, heof⟩
      exact ⟨⟨line, h.r, h.w, h.e, h.le, h.first, h.holds, h.full⟩, hret, heof⟩
    have hown : Function.update s.data.mark p s.data.consumed.length p = s.data.consumed.length :=
      Function.update_self ..
    refine ⟨⟨trivial, Nat.le_of_eq hown, ?_, Nat.zero_add n, List.not_mem_nil⟩, hgood, fun q hq => ?_⟩
    · show entriesOf p (s.data.consumed.drop (Function.update s.data.mark p s.data.consumed.length p)) = []
      rw [hown, entriesOf_drop_length]
    · have hmark : Function.update s.data.mark p s.data.consumed.length q = s.data.mark q :=
        Function.update_of_ne hq ..
      exact (ha.thread q).mono hgood
        (fun k _ h => ⟨hgood h.good, out_mono h.out fun _ _ _ => reading_of_same rfl hmark, h.tested⟩)
        (fun k _ h => ⟨h.entry, out_mono h.out fun _ _ _ => reading_of_same rfl hmark⟩)
        fun r h => back_of_same h rfl hmark fun _ => id
  | _ => cases hs

theorem proof : Proof (code (P := P)) Fresh Good (fun _ _ => True) Here Away Back where
  boot := fun _ => good_fresh
  enter := fun p k d hg ha => ⟨hg, ha.out, fun target n got hk => by
    have := ha.entry
    rw [hk] at this
    cases this⟩
  goto := fun p k b d d' k' => exec_goto
  wakeup := fun p k b d c k' => exec_wakeup
  sleep := fun p k b d c k' => exec_sleep
  ret := fun p k b d d' r => exec_ret
  start := fun s p k d ha _ => start_ok ha
  env := fun _ e => e.elim

/-- What was committed stays committed: editing does not reach it. -/
theorem committed_mono {e : Event P Pc Empty} (h : Step code s e t) :
    s.data.committed <+: t.data.committed := by
  cases h with
  | @start p k d hout hs =>
    replace hs : start s p k = some d := hs
    cases k with
    | intr cs =>
      cases hs
      exact List.prefix_rfl
    | read target n got =>
      obtain ⟨_, rfl⟩ := guard_eq.mp hs
      exact List.prefix_rfl
    | _ => cases hs
  | @goto p k k' d ht hx =>
    cases does_exec hx <;> first | exact List.prefix_rfl | exact List.prefix_append _ _
  | @ret p k d r ht hx =>
    cases does_exec hx <;> exact List.prefix_rfl
  | @env e d he => exact e.elim
  | _ => exact List.prefix_rfl

/-- **The line discipline of the console.**  In every reachable state: the indices are in order and at most
`INPUT_BUF` apart, and a full buffer has no uncommitted line; what was committed stays committed; what readers
consumed, with the `^D` marks, is the beginning of what was committed, and the rest of it is in the buffer; a
read of `n > 0` characters that returned ended after `n` characters, just after the first newline, or at a
`^D`, with what it had consumed; and there are as many reads that returned nothing as `^D` marks consumed. -/
theorem line_discipline {es : List (Event P Pc Empty)} (hr : Reach (system code Fresh) es s) :
    (s.data.w - s.data.r).toNat ≤ (s.data.e - s.data.r).toNat
    ∧ (s.data.e - s.data.r).toNat ≤ INPUT_BUF
    ∧ ((s.data.e - s.data.r).toNat = INPUT_BUF → s.data.w = s.data.e)
    ∧ (∀ e t, next code s e = some t → s.data.committed <+: t.data.committed)
    ∧ s.data.consumed.map Prod.snd <+: s.data.committed
    ∧ s.data.committed = s.data.consumed.map Prod.snd ++ s.data.readable
    ∧ (∀ p n result, s.thread p = .done (.got n result) →
        ∃ x ∈ s.data.returns, x.reader = p ∧ x.target = n ∧ x.result = result
          ∧ ∀ xs ∈ result, 0 < n → AtEnd s.data.committed n xs x.pos)
    ∧ (∀ p n xs, s.thread p = .done (.got n (some xs)) → taken s.data p = xs ∨ xs = []
      ∧ taken s.data p = [C 'D'])
    ∧ (s.data.consumed.map Prod.snd).count (C 'D') = s.data.returns.countP zeroRead := by
  have hasserted := proof.run hr
  have hgood : Good s.data := hasserted.always (fun _ => id) fun _ _ _ h => h.good
  have hback : ∀ {p r}, s.thread p = .done r → Back p r s.data := fun {p r} h => by
    have := hasserted.thread p
    rwa [h] at this
  obtain ⟨line, hring⟩ := hgood.ring
  have hle := hring.le
  have hb := hring.bound
  have hsplit : s.data.committed = s.data.consumed.map Prod.snd ++ s.data.readable := by
    rw [hring.readable_eq, hring.first]
    exact (List.take_append_drop _ _).symm
  refine ⟨?_, ?_, fun hfull => ?_, fun e t hs => committed_mono (step_of_next hs), ⟨_, hsplit.symm⟩, hsplit,
    fun p n result hp => ?_, fun p n xs hp => (hback hp).2.2 xs rfl, hgood.eofs⟩
  · rw [hring.distance_w, hring.distance_e]
    omega
  · rw [hring.distance_e]
    omega
  · rw [hring.distance_e] at hfull
    exact (hring.e_eq_w.mpr (hring.full (by omega))).symm
  · obtain ⟨x, hx, hreader, htarget, hresult⟩ := (hback hp).1
    refine ⟨x, hx, hreader, htarget, hresult, fun xs hxs hn => ?_⟩
    have := hgood.returns x hx xs (hresult ▸ hxs) (htarget ▸ hn)
    rwa [htarget] at this

/-- The console when the system starts. -/
def newState : State P (Input P) Chan Pc Ret where
  data := ⟨fun _ => 0, 0, 0, 0, [], [], [], fun _ => 0⟩
  lock := none
  table := none
  thread := fun _ => .idle
  killed := fun _ => false

theorem init_newState : (system code Fresh).init (newState (P := P)) :=
  ⟨⟨rfl, rfl, rfl, rfl, rfl, rfl⟩, rfl, rfl, fun _ => rfl⟩

abbrev Trace : Type := List (Event (Fin 3) Pc Empty)

/-- The characters `a`, `b`, backspace, `c` and `^D` are typed; then two readers ask for eight characters
each. -/
def typed : List (Event (Fin 3) Pc Empty) :=
  ([.start 0 (.intr [97, 98, 8, 99, 4])] : Trace) ++ (List.replicate 9 (.step 0) : Trace)
    ++ ([.start 1 (.read 8 8 [])] : Trace) ++ (List.replicate 10 (.step 1) : Trace)
    ++ ([.start 2 (.read 8 8 [])] : Trace) ++ (List.replicate 4 (.step 2) : Trace)

/-- The first reader gets the line, the second the `^D`. -/
theorem line_discipline_typed : ∃ s : State (Fin 3) (Input (Fin 3)) Chan Pc Ret, Reach
    (system code Fresh) typed s ∧ s.thread 1 = .done (.got 8 (some [97, 99])) ∧ taken s.data 1 = [97, 99]
    ∧ s.thread 2 = .done (.got 8 (some [])) ∧ (s.data.consumed.map Prod.snd).count (C 'D') = 1 := by
  obtain ⟨s, hr, hs⟩ := exists_runIf_of_map (S := system code Fresh) (C := fun _ _ _ => True)
    (f := fun s => (s.thread 1, s.thread 2, s.data.returns.countP zeroRead))
    (y := (.done (.got 8 (some [97, 99])), .done (.got 8 (some [])), 1)) typed init_newState
    (by decide +kernel)
  simp only [Prod.mk.injEq] at hs
  have h := line_discipline hr
  have htaken := (h.2.2.2.2.2.2.2.1 1 8 _ hs.1).resolve_right fun hnil => by cases hnil.1
  exact ⟨s, hr, hs.1, htaken, hs.2.1, h.2.2.2.2.2.2.2.2.trans hs.2.2⟩

end Calls

end Xv6e.Device.ConsoleRuns
