import Xv6e.User.Match

/-!
# `grep`

The function `grep` of `grep.c`: it reads pieces of its input into a buffer, prints the lines that match, and
keeps what follows the last newline for the next round.  The input is given as what the successive calls of
`read` return.

* `lineLoop`, `round`, `grep` — the loop over the lines in the buffer, one round of the outer loop, the
  function;
* `Reads` — no call of `read` returns more than it was asked for;
* `grep_right_iff` — the output is that of the lines that match, for every pattern, if and only if every piece
  has a newline.
-/

namespace Xv6e.User.Grep

open Match
open Function (update update_idem update_self update_of_ne)

def BUFSIZE : ℕ := 1024

def newline : UInt8 := 10

/-- Memory, by address from the beginning of the buffer. -/
abbrev Memory : Type := ℕ → UInt8

def load (mem : Memory) (p : ℕ) : ℕ → List UInt8
  | 0 => []
  | n + 1 => mem p :: load mem (p + 1) n

def store (mem : Memory) (p : ℕ) : List UInt8 → Memory
  | [] => mem
  | b :: bs => store (update mem p b) (p + 1) bs

/-- `strchr`, in at most `fuel` bytes. -/
def strchr (mem : Memory) (c : UInt8) : ℕ → ℕ → Option ℕ
  | 0, _ => none
  | fuel + 1, s => if mem s = 0 then none else if mem s = c then some s else strchr mem c fuel (s + 1)

/-- The string at `p`, in at most `fuel` bytes. -/
def string (mem : Memory) : ℕ → ℕ → Text
  | 0, _ => []
  | fuel + 1, p => if mem p = 0 then [] else mem p :: string mem fuel (p + 1)

/-- The variables of `grep`, and what has been written to descriptor 1. -/
structure State where
  buf : Memory
  m : ℕ
  out : List UInt8

/-- The loop over the lines in the buffer, from `p` on: the pointer behind the last one, the buffer and the
output. -/
def lineLoop (pattern : Text) : ℕ → ℕ → Memory → List UInt8 → ℕ × Memory × List UInt8
  | 0, p, buf, out => (p, buf, out)
  | fuel + 1, p, buf, out =>
    match strchr buf newline BUFSIZE p with
    | none => (p, buf, out)
    | some q =>
      let cut := update buf q 0
      if matchText pattern (string cut BUFSIZE p) then
        let whole := update cut q newline
        lineLoop pattern fuel (q + 1) whole (out ++ load whole p (q + 1 - p))
      else lineLoop pattern fuel (q + 1) cut out

/-- What follows the loop over the lines: without a newline the buffer is given up, otherwise the rest is
moved to its beginning. -/
def keepRest (m : ℕ) : ℕ × Memory × List UInt8 → State
  | (p, buf, out) =>
    let m := if p = 0 then 0 else m
    if 0 < m then ⟨store buf 0 (load buf p (m - p)), m - p, out⟩ else ⟨buf, m, out⟩

/-- One round of the outer loop, when `read` has returned a piece. -/
def round (pattern : Text) (s : State) (piece : List UInt8) : State :=
  let m := s.m + piece.length
  keepRest m (lineLoop pattern BUFSIZE 0 (update (store s.buf s.m piece) m 0) s.out)

/-- The outer loop, for what the calls of `read` return until the end of the input. -/
def grepLoop (pattern : Text) : State → List (List UInt8) → State
  | s, [] => s
  | s, piece :: pieces => grepLoop pattern (round pattern s piece) pieces

def grep (pattern : Text) (buf : Memory) (pieces : List (List UInt8)) : List UInt8 :=
  (grepLoop pattern ⟨buf, 0, []⟩ pieces).out

/-- What the calls of `read` can return: some bytes, and no more than were asked for. -/
def Reads (pattern : Text) : State → List (List UInt8) → Prop
  | _, [] => True
  | s, piece :: pieces =>
    0 < piece.length ∧ piece.length ≤ BUFSIZE - s.m - 1 ∧ Reads pattern (round pattern s piece) pieces

/-! ### Lines -/

def text (lines : List Text) : List UInt8 := lines.flatMap fun l => l ++ [newline]

def accepted (pattern : Text) (lines : List Text) : List UInt8 := text (lines.filter (matchText pattern))

theorem text_cons (l : Text) (lines : List Text) : text (l :: lines) = (l ++ [newline]) ++ text lines := rfl

theorem text_append (ls ls' : List Text) : text (ls ++ ls') = text ls ++ text ls' := List.flatMap_append ..

theorem accepted_append (pattern : Text) (ls ls' : List Text) :
    accepted pattern (ls ++ ls') = accepted pattern ls ++ accepted pattern ls' := by
  rw [accepted, List.filter_append, text_append, accepted, accepted]

variable {pattern l rest : Text} {mem : Memory} {p : ℕ} {bs : List UInt8} {s : State}

theorem accepted_cons_pos (h : matchText pattern l = true) (ls : List Text) :
    accepted pattern (l :: ls) = (l ++ [newline]) ++ accepted pattern ls := by
  rw [accepted, List.filter_cons_of_pos h, text_cons, accepted]

theorem accepted_cons_neg (h : ¬ matchText pattern l = true) (ls : List Text) :
    accepted pattern (l :: ls) = accepted pattern ls := by
  rw [accepted, List.filter_cons_of_neg h, accepted]

theorem length_accepted_le (pattern : Text) (ls : List Text) :
    (accepted pattern ls).length ≤ (text ls).length := by
  induction ls with
  | nil => exact le_rfl
  | cons l ls ih =>
    by_cases h : matchText pattern l = true
    · rw [accepted_cons_pos h, text_cons]
      simp only [List.length_append]
      omega
    · rw [accepted_cons_neg h, text_cons, List.length_append]
      omega

theorem accepted_nil (ls : List Text) : accepted [] ls = text ls := by
  have hall : ∀ l ∈ ls, matchText [] l = true := fun l _ => by
    cases l <;> rfl
  rw [accepted, List.filter_eq_self.mpr hall]

theorem length_le_text (ls : List Text) : ls.length ≤ (text ls).length := by
  induction ls with
  | nil => exact le_rfl
  | cons l ls ih =>
    rw [text_cons, List.length_append, List.length_append, List.length_cons, List.length_singleton]
    omega

/-- Every text is some lines, and a rest without a newline. -/
theorem exists_lines (data : List UInt8) :
    ∃ ls rest, data = text ls ++ rest ∧ newline ∉ rest ∧ ∀ l ∈ ls, newline ∉ l := by
  induction data with
  | nil => exact ⟨[], [], rfl, List.not_mem_nil, fun _ h => absurd h List.not_mem_nil⟩
  | cons c data ih =>
    obtain ⟨ls, rest, rfl, hrest, hls⟩ := ih
    by_cases hc : c = newline
    · refine ⟨[] :: ls, rest, ?_, hrest, List.forall_mem_cons.mpr ⟨List.not_mem_nil, hls⟩⟩
      rw [hc]
      rfl
    · have hne : ∀ {l : Text}, newline ∉ l → newline ∉ c :: l := fun h hmem =>
        (List.mem_cons.mp hmem).elim (fun heq => hc heq.symm) h
      cases ls with
      | nil => exact ⟨[], c :: rest, rfl, hne hrest, hls⟩
      | cons l ls =>
        obtain ⟨hl, hls⟩ := List.forall_mem_cons.mp hls
        exact ⟨(c :: l) :: ls, rest, rfl, hrest, List.forall_mem_cons.mpr ⟨hne hl, hls⟩⟩

theorem text_unique {ls lines : List Text} (h : text ls ++ rest = text lines) (hls : ∀ l ∈ ls, newline ∉ l)
    (hlines : ∀ l ∈ lines, newline ∉ l) (hrest : newline ∉ rest) : ls = lines ∧ rest = [] := by
  induction ls generalizing lines with
  | nil =>
    cases lines with
    | nil => exact ⟨rfl, h⟩
    | cons l lines =>
      refine absurd ?_ hrest
      rw [show rest = text (l :: lines) from h, text_cons]
      exact List.mem_append_left _ (List.mem_append_right _ (List.mem_singleton_self _))
  | cons l ls ih =>
    obtain ⟨hl, hls⟩ := List.forall_mem_cons.mp hls
    cases lines with
    | nil =>
      rw [text_cons] at h
      simp [text] at h
    | cons k lines =>
      obtain ⟨hk, htail⟩ := List.forall_mem_cons.mp hlines
      rw [text_cons, text_cons, List.append_assoc, List.append_assoc, List.append_assoc] at h
      -- both sides start with what comes before their first newline
      have hfirst : ∀ (a b : Text), newline ∉ a
          → (a ++ ([newline] ++ b)).takeWhile (fun c => c != newline) = a :=
        fun a b ha => by
          rw [List.takeWhile_append_of_pos, List.singleton_append, List.takeWhile_cons_of_neg,
            List.append_nil]
          · simp
          · intro c hc
            rw [bne_iff_ne]
            rintro rfl
            exact ha hc
      have hlk : l = k := by
        rw [← hfirst l _ hl, h, hfirst k _ hk]
      subst hlk
      rw [List.append_cancel_left_eq, List.append_cancel_left_eq] at h
      obtain ⟨rfl, hr⟩ := ih h hls htail
      exact ⟨rfl, hr⟩

/-! ### The buffer -/

def Holds (mem : Memory) : ℕ → List UInt8 → Prop
  | _, [] => True
  | p, b :: bs => mem p = b ∧ Holds mem (p + 1) bs

theorem holds_append {as : List UInt8} :
    Holds mem p (as ++ bs) ↔ Holds mem p as ∧ Holds mem (p + as.length) bs := by
  induction as generalizing p with
  | nil => exact ⟨fun h => ⟨trivial, h⟩, And.right⟩
  | cons a as ih =>
    rw [List.cons_append, Holds, Holds, ih, List.length_cons, and_assoc, Nat.add_right_comm, Nat.add_assoc]

theorem Holds.congr {mem' : Memory} (h : Holds mem p bs)
    (hmem : ∀ i, p ≤ i → i < p + bs.length → mem' i = mem i) : Holds mem' p bs := by
  induction bs generalizing p with
  | nil => trivial
  | cons b bs ih =>
    rw [List.length_cons] at hmem
    exact ⟨(hmem p le_rfl (by omega)).trans h.1, ih h.2 fun i hi hlt => hmem i (by omega) (by omega)⟩

theorem Holds.load (h : Holds mem p bs) : load mem p bs.length = bs := by
  induction bs generalizing p with
  | nil => rfl
  | cons b bs ih => rw [List.length_cons, Grep.load, h.1, ih h.2]

theorem store_of_lt {i : ℕ} (bs : List UInt8) (hi : i < p) : store mem p bs i = mem i := by
  induction bs generalizing mem p with
  | nil => rfl
  | cons b bs ih => rw [store, ih (by omega), update_of_ne (by omega)]

theorem holds_store (mem : Memory) (p : ℕ) (bs : List UInt8) : Holds (store mem p bs) p bs := by
  induction bs generalizing mem p with
  | nil => trivial
  | cons b bs ih =>
    refine ⟨?_, ih _ _⟩
    rw [store, store_of_lt _ (Nat.lt_succ_self p), update_self]

theorem strchr_line {fuel : ℕ} (h : Holds mem p (l ++ [newline])) (h0 : 0 ∉ l)
    (hn : newline ∉ l) (hfuel : l.length < fuel) : strchr mem newline fuel p = some (p + l.length) := by
  induction l generalizing p fuel with
  | nil =>
    cases fuel with
    | zero => omega
    | succ fuel =>
      have hp : mem p = newline := h.1
      rw [strchr, hp, if_neg (by decide), if_pos rfl]
      rfl
  | cons b l ih =>
    cases fuel with
    | zero => omega
    | succ fuel =>
      obtain ⟨hb, h⟩ := h
      rw [List.length_cons] at hfuel
      have hb0 : mem p ≠ 0 := fun hc => h0 (List.mem_cons.mpr (Or.inl (by rw [← hb, hc])))
      have hbn : mem p ≠ newline := fun hc => hn (List.mem_cons.mpr (Or.inl (by rw [← hb, hc])))
      rw [strchr, if_neg hb0, if_neg hbn, ih h (fun hc => h0 (List.mem_cons_of_mem _ hc))
        (fun hc => hn (List.mem_cons_of_mem _ hc)) (by omega), List.length_cons]
      congr 1
      omega

theorem strchr_none (fuel : ℕ) (h : Holds mem p (rest ++ [0])) (hn : newline ∉ rest) :
    strchr mem newline fuel p = none := by
  induction rest generalizing p fuel with
  | nil =>
    cases fuel with
    | zero => rfl
    | succ fuel => rw [strchr, if_pos h.1]
  | cons b rest ih =>
    cases fuel with
    | zero => rfl
    | succ fuel =>
      obtain ⟨hb, h⟩ := h
      have hbn : mem p ≠ newline := fun hc => hn (List.mem_cons.mpr (Or.inl (by rw [← hb, hc])))
      rw [strchr, if_neg hbn, ih fuel h fun hc => hn (List.mem_cons_of_mem _ hc), ite_self]

theorem string_line {fuel : ℕ} (h : Holds mem p (l ++ [0])) (h0 : 0 ∉ l)
    (hfuel : l.length < fuel) : string mem fuel p = l := by
  induction l generalizing p fuel with
  | nil =>
    cases fuel with
    | zero => omega
    | succ fuel => rw [string, if_pos h.1]
  | cons b l ih =>
    cases fuel with
    | zero => omega
    | succ fuel =>
      obtain ⟨hb, h⟩ := h
      rw [List.length_cons] at hfuel
      have hb0 : mem p ≠ 0 := fun hc => h0 (List.mem_cons.mpr (Or.inl (by rw [← hb, hc])))
      rw [string, if_neg hb0, ih h (fun hc => h0 (List.mem_cons_of_mem _ hc)) (by omega), hb]

/-! ### One round -/

/-- **The loop over the lines** prints those that match and leaves the rest of the buffer as it is. -/
theorem lineLoop_spec (pattern : Text) {ls : List Text} {rest : Text} {fuel p : ℕ} {buf : Memory}
    {out : List UInt8} (hfuel : ls.length < fuel) (hls : ∀ l ∈ ls, 0 ∉ l ∧ newline ∉ l ∧ l.length < BUFSIZE)
    (hrest : newline ∉ rest) (h : Holds buf p (text ls ++ (rest ++ [0]))) :
    ∃ buf', lineLoop pattern fuel p buf out = (p + (text ls).length, buf', out ++ accepted pattern ls)
      ∧ Holds buf' (p + (text ls).length) (rest ++ [0]) := by
  induction ls generalizing fuel p buf out with
  | nil =>
    cases fuel with
    | zero => omega
    | succ fuel =>
      refine ⟨buf, ?_, h⟩
      rw [lineLoop, strchr_none BUFSIZE h hrest]
      show (p, buf, out) = (p, buf, out ++ [])
      rw [List.append_nil]
  | cons l ls ih =>
    cases fuel with
    | zero => omega
    | succ fuel =>
      obtain ⟨⟨h0, hn, hlen⟩, hls⟩ := List.forall_mem_cons.mp hls
      have hmore : ls.length < fuel := by
        rw [List.length_cons] at hfuel
        omega
      rw [text_cons, List.append_assoc] at h
      obtain ⟨hline, htail⟩ := holds_append.mp h
      rw [List.length_append, List.length_singleton] at htail
      obtain ⟨hl, hq⟩ := holds_append.mp hline
      have hend : p + (text (l :: ls)).length = p + l.length + 1 + (text ls).length := by
        rw [text_cons, List.length_append, List.length_append, List.length_singleton]
        omega
      -- the buffer with the terminator in place of the newline
      have hbefore : ∀ v, Holds (update buf (p + l.length) v) p (l ++ [v]) := fun v => by
        refine holds_append.mpr ⟨hl.congr fun i _ hi => update_of_ne (by omega) .., ?_, trivial⟩
        exact update_self ..
      have hafter : ∀ v w, Holds (update (update buf (p + l.length) v) (p + l.length) w)
          (p + l.length + 1) (text ls ++ (rest ++ [0])) := fun v w => by
        rw [update_idem]
        exact htail.congr fun i hi _ => update_of_ne (by omega) ..
      rw [lineLoop, strchr_line hline h0 hn hlen]
      simp only
      rw [string_line (hbefore 0) h0 hlen]
      by_cases hm : matchText pattern l = true
      · have hload : load (update (update buf (p + l.length) 0) (p + l.length) newline) p
            (p + l.length + 1 - p) = l ++ [newline] := by
          rw [update_idem]
          have := (hbefore newline).load
          rw [List.length_append, List.length_singleton] at this
          rwa [show p + l.length + 1 - p = l.length + 1 by omega]
        rw [if_pos hm, hload, accepted_cons_pos hm, ← List.append_assoc out (l ++ [newline]), hend]
        exact ih hmore hls (hafter 0 newline)
      · rw [if_neg hm, accepted_cons_neg hm, hend]
        refine ih hmore hls ?_
        have := hafter 0 0
        rwa [update_idem] at this

/-- **One round**: the lines that match are printed; the rest is kept, unless there was no newline at all. -/
theorem round_spec (pattern : Text) {held piece : List UInt8} {ls : List Text}
    (hm : s.m = held.length) (hbuf : Holds s.buf 0 held) (hlen : held.length + piece.length < BUFSIZE)
    (hdata : held ++ piece = text ls ++ rest) (h0 : 0 ∉ held ++ piece) (hrest : newline ∉ rest)
    (hls : ∀ l ∈ ls, newline ∉ l) :
    (round pattern s piece).out = s.out ++ accepted pattern ls
      ∧ (ls = [] → (round pattern s piece).m = 0)
      ∧ (ls ≠ [] → (round pattern s piece).m = rest.length ∧ Holds (round pattern s piece).buf 0 rest) := by
  have hlength : held.length + piece.length = (text ls).length + rest.length := by
    rw [← List.length_append, hdata, List.length_append]
  have hlines : ∀ l ∈ ls, 0 ∉ l ∧ newline ∉ l ∧ l.length < BUFSIZE := fun l hl => by
    obtain ⟨a, b, rfl⟩ := List.append_of_mem hl
    rw [text_append, text_cons] at hdata hlength
    refine ⟨fun hz => h0 ?_, hls l hl, ?_⟩
    · rw [hdata]
      simp only [List.mem_append]
      exact Or.inl (Or.inr (Or.inl (Or.inl hz)))
    · simp only [List.length_append] at hlength
      omega
  have hfuel : ls.length < BUFSIZE := by
    have := length_le_text ls
    omega
  -- the buffer when the loop over the lines starts
  have hstart : Holds (update (store s.buf s.m piece) (s.m + piece.length) 0) 0
      (text ls ++ (rest ++ [0])) := by
    rw [← List.append_assoc, ← hdata]
    refine holds_append.mpr ⟨?_, ?_, trivial⟩
    · have hpiece : Holds (store s.buf s.m piece) 0 (held ++ piece) := by
        refine holds_append.mpr ⟨hbuf.congr fun i _ hi => store_of_lt piece (by omega), ?_⟩
        rw [Nat.zero_add, ← hm]
        exact holds_store ..
      refine hpiece.congr fun i _ hi => update_of_ne ?_ ..
      rw [List.length_append] at hi
      omega
    · rw [Nat.zero_add, List.length_append, hm]
      exact update_self ..
  obtain ⟨buf, hloop, hbuf'⟩ := @lineLoop_spec pattern _ _ _ _ _ s.out hfuel hlines hrest hstart
  rw [round, hloop, Nat.zero_add, hm, hlength]
  rw [Nat.zero_add] at hbuf'
  have hkept := (holds_append.mp hbuf').1
  cases ls with
  | nil =>
    refine ⟨rfl, fun _ => rfl, fun hne => absurd rfl hne⟩
  | cons l ls =>
    have hpos : 0 < (text (l :: ls)).length := lt_of_lt_of_le (Nat.succ_pos _) (length_le_text (l :: ls))
    rw [keepRest, if_neg hpos.ne', if_pos (by omega), Nat.add_sub_cancel_left, hkept.load]
    exact ⟨rfl, fun hnil => absurd hnil (List.cons_ne_nil l ls), fun _ => ⟨rfl, holds_store ..⟩⟩

/-! ### Runs -/

theorem grepLoop_cons (pattern : Text) (s : State) (piece : List UInt8) (pieces : List (List UInt8)) :
    grepLoop pattern s (piece :: pieces) = grepLoop pattern (round pattern s piece) pieces := rfl

/-- Between rounds: the lines that matched are printed, and what follows the last newline is held back. -/
def Kept (pattern : Text) (read : List UInt8) (s : State) : Prop :=
  ∃ ls rest, read = text ls ++ rest ∧ newline ∉ rest ∧ (∀ l ∈ ls, newline ∉ l) ∧ s.out = accepted pattern ls
    ∧ s.m = rest.length ∧ Holds s.buf 0 rest

variable {pattern : Text}

theorem Kept.round {read piece : List UInt8} {s : State} (h : Kept pattern read s)
    (hlen : piece.length ≤ BUFSIZE - s.m - 1) (hpos : 0 < piece.length) (h0 : 0 ∉ read ++ piece)
    (hn : newline ∈ piece) : Kept pattern (read ++ piece) (round pattern s piece) := by
  obtain ⟨ls, held, rfl, hheld, hls, hout, hm, hbuf⟩ := h
  obtain ⟨ls', rest, hdata, hrest, hls'⟩ := exists_lines (held ++ piece)
  have hfit : held.length + piece.length < BUFSIZE := by omega
  have h0' : 0 ∉ held ++ piece := fun hz => h0 (by rw [List.append_assoc]; exact List.mem_append_right _ hz)
  obtain ⟨hout', _, hmore⟩ := round_spec pattern hm hbuf hfit hdata h0' hrest hls'
  have hne : ls' ≠ [] := fun hnil => by
    have hall : held ++ piece = rest := by rw [hdata, hnil]; rfl
    exact hrest (hall ▸ List.mem_append_right held hn)
  obtain ⟨hm', hbuf'⟩ := hmore hne
  refine ⟨ls ++ ls', rest, ?_, hrest, fun l hl => (List.mem_append.mp hl).elim (hls l) (hls' l),
    ?_, hm', hbuf'⟩
  · rw [text_append, List.append_assoc, List.append_assoc, hdata]
  · rw [hout', hout, accepted_append]

variable {pieces : List (List UInt8)}

theorem Kept.run {read : List UInt8} (h : Kept pattern read s) (hreads : Reads pattern s pieces)
    (h0 : 0 ∉ read ++ pieces.flatten) (hn : ∀ piece ∈ pieces, newline ∈ piece) :
    Kept pattern (read ++ pieces.flatten) (grepLoop pattern s pieces) := by
  induction pieces generalizing read s with
  | nil =>
    rw [List.flatten_nil, List.append_nil]
    exact h
  | cons piece pieces ih =>
    obtain ⟨hpos, hlen, hreads⟩ := hreads
    obtain ⟨hn, hns⟩ := List.forall_mem_cons.mp hn
    rw [List.flatten_cons, ← List.append_assoc] at h0 ⊢
    have hround := h.round hlen hpos (fun hz => h0 (List.mem_append_left _ hz)) hn
    exact ih hround hreads h0 hns

/-- Between rounds, for every input: what is held back has no newline, and no more bytes are printed and held
back than have been read. -/
def Bounded (n : ℕ) (s : State) : Prop :=
  s.out.length + s.m ≤ n ∧ ∃ held, s.m = held.length ∧ Holds s.buf 0 held ∧ 0 ∉ held ∧ newline ∉ held

theorem Bounded.round {piece : List UInt8} {n : ℕ} {s : State} (h : Bounded n s)
    (hlen : piece.length ≤ BUFSIZE - s.m - 1) (hpos : 0 < piece.length) (h0 : 0 ∉ piece) :
    Bounded (n + piece.length) (Grep.round pattern s piece)
      ∧ (newline ∉ piece → Bounded (n + piece.length - 1) (Grep.round pattern s piece)) := by
  obtain ⟨hle, held, hm, hbuf, hheld0, hheldn⟩ := h
  obtain ⟨ls, rest, hdata, hrest, hls⟩ := exists_lines (held ++ piece)
  have hfit : held.length + piece.length < BUFSIZE := by omega
  have h0' : 0 ∉ held ++ piece := fun hz => (List.mem_append.mp hz).elim hheld0 h0
  obtain ⟨hout, hnone, hmore⟩ := round_spec pattern hm hbuf hfit hdata h0' hrest hls
  have hlength : held.length + piece.length = (text ls).length + rest.length := by
    rw [← List.length_append, hdata, List.length_append]
  have hacc := length_accepted_le pattern ls
  have houtlen : (Grep.round pattern s piece).out.length = s.out.length + (accepted pattern ls).length := by
    rw [hout, List.length_append]
  by_cases hnil : ls = []
  · -- no newline: everything is given up
    have hm0 := hnone hnil
    have htext : (text ls).length = 0 := by
      rw [hnil]
      rfl
    have hnothing : ∃ held' : List UInt8, (Grep.round pattern s piece).m = held'.length
        ∧ Holds (Grep.round pattern s piece).buf 0 held' ∧ 0 ∉ held' ∧ newline ∉ held' :=
      ⟨[], hm0, trivial, List.not_mem_nil, List.not_mem_nil⟩
    exact ⟨⟨by omega, hnothing⟩, fun _ => ⟨by omega, hnothing⟩⟩
  · obtain ⟨hm', hbuf'⟩ := hmore hnil
    refine ⟨⟨by omega, rest, hm', hbuf', fun hz => h0' ?_, hrest⟩, fun hno => absurd ?_ hnil⟩
    · rw [hdata]
      exact List.mem_append_right _ hz
    · cases ls with
      | nil => rfl
      | cons l ls =>
        have hin : newline ∈ held ++ piece := by
          rw [hdata, text_cons]
          exact List.mem_append_left _
            (List.mem_append_left _ (List.mem_append_right _ (List.mem_singleton_self _)))
        exact absurd hin fun hc => (List.mem_append.mp hc).elim hheldn hno

theorem Bounded.run {n : ℕ} (h : Bounded n s) (hreads : Reads pattern s pieces) (h0 : 0 ∉ pieces.flatten) :
    Bounded (n + pieces.flatten.length) (grepLoop pattern s pieces)
      ∧ ((∃ piece ∈ pieces, newline ∉ piece)
        → Bounded (n + pieces.flatten.length - 1) (grepLoop pattern s pieces)) := by
  induction pieces generalizing n s with
  | nil =>
    refine ⟨h, ?_⟩
    rintro ⟨piece, hp, _⟩
    cases hp
  | cons piece pieces ih =>
    obtain ⟨hpos, hlen, hreads⟩ := hreads
    rw [List.flatten_cons] at h0
    obtain ⟨hsome, hless⟩ := @Bounded.round pattern _ _ _ h hlen hpos fun hz => h0 (List.mem_append_left _ hz)
    have h0' : 0 ∉ pieces.flatten := fun hz => h0 (List.mem_append_right _ hz)
    have hsum : n + (piece :: pieces).flatten.length = n + piece.length + pieces.flatten.length := by
      rw [List.flatten_cons, List.length_append, Nat.add_assoc]
    rw [grepLoop_cons, hsum]
    refine ⟨(ih hsome hreads h0').1, ?_⟩
    rintro ⟨bad, hbad, hno⟩
    rcases List.mem_cons.mp hbad with rfl | hbad
    · rw [show n + bad.length + pieces.flatten.length - 1 = n + bad.length - 1
        + pieces.flatten.length by omega]
      exact (ih (hless hno) hreads h0').1
    · exact (ih hsome hreads h0').2 ⟨bad, hbad, hno⟩

/-- **The output of `grep` is right whenever every piece of the input has a newline, and only then.**  The
input is any number of lines without NUL; `pieces` is any way in which calls of `read` can return it. -/
theorem grep_right_iff (buf : Memory) {lines : List Text}
    (hlines : ∀ l ∈ lines, 0 ∉ l ∧ newline ∉ l) (hpieces : pieces.flatten = text lines)
    (hreads : ∀ pattern, Reads pattern ⟨buf, 0, []⟩ pieces) :
    (∀ pattern, grep pattern buf pieces = accepted pattern lines) ↔ ∀ piece ∈ pieces, newline ∈ piece := by
  have h0 : 0 ∉ pieces.flatten := by
    rw [hpieces, text, List.mem_flatMap]
    rintro ⟨l, hl, hz⟩
    rcases List.mem_append.mp hz with hz | hz
    · exact (hlines l hl).1 hz
    · exact absurd (List.mem_singleton.mp hz) (by decide)
  constructor
  · intro h
    by_contra hno
    simp only [not_forall] at hno
    obtain ⟨piece, hp, hn⟩ := hno
    -- the empty pattern matches every line, but some bytes are missing
    have hstart : Bounded 0 (⟨buf, 0, []⟩ : State) :=
      ⟨le_rfl, [], rfl, trivial, List.not_mem_nil, List.not_mem_nil⟩
    have hrun := ((hstart.run (hreads []) h0).2 ⟨piece, hp, hn⟩).1
    have hout : (grepLoop [] ⟨buf, 0, []⟩ pieces).out = pieces.flatten := by
      rw [hpieces, ← accepted_nil]
      exact h []
    have hpos : 0 < pieces.flatten.length := by
      cases pieces with
      | nil => cases hp
      | cons first rest =>
        have := (hreads []).1
        rw [List.flatten_cons, List.length_append]
        omega
    rw [hout] at hrun
    omega
  · intro hn pattern
    have hstart : Kept pattern [] (⟨buf, 0, []⟩ : State) :=
      ⟨[], [], rfl, List.not_mem_nil, fun _ h => absurd h List.not_mem_nil, rfl, rfl, trivial⟩
    obtain ⟨ls, rest, hread, hrest, hls, hout, _, _⟩ := hstart.run (hreads pattern) h0 hn
    rw [List.nil_append, hpieces] at hread
    obtain ⟨rfl, _⟩ := text_unique hread.symm hls (fun l hl => (hlines l hl).2) hrest
    exact hout

/-- Two lines that arrive in two pieces. -/
theorem grep_right_two :
    (∀ pattern, grep pattern (fun _ => 0) [[97, 10, 98], [99, 10]] = accepted pattern [[97], [98, 99]])
      ↔ ∀ piece ∈ [[97, 10, 98], [99, (10 : UInt8)]], newline ∈ piece := by
  have hdata : ([] : List UInt8) ++ [97, 10, 98] = text [[97]] ++ [98] := rfl
  have hbuf : Holds (fun _ => 0) 0 [] := trivial
  have hheld : ∀ pattern, (round pattern ⟨fun _ => 0, 0, []⟩ [97, 10, 98]).m = 1 := fun pattern =>
    ((round_spec (s := ⟨fun _ => 0, 0, []⟩) pattern rfl hbuf (by decide) hdata (by decide) (by decide)
      (by decide)).2.2 (by decide)).1
  refine grep_right_iff (fun _ => 0) (by decide) rfl fun pattern =>
    ⟨by decide, by decide, by decide, ?_, trivial⟩
  rw [hheld]
  decide

/-- The line `ab` arrives in two pieces, and `grep ab` prints nothing. -/
theorem grep_loses_piece :
    Reads [97, 98] ⟨fun _ => 0, 0, []⟩ [[97], [98, 10]]
      ∧ accepted [97, 98] [[97, 98]] = [97, 98, 10] ∧ grep [97, 98] (fun _ => 0) [[97], [98, 10]] = [] := by
  refine ⟨⟨by decide, by decide, by decide, by decide, trivial⟩, by decide, by decide⟩

end Xv6e.User.Grep
