import Xv6e.User.Sh
import Xv6e.Library.Fallible

/-!
# The grammar of the shell

The parsing functions of `sh.c` over a list of tokens, and the grammar

    line  = pipe '&'* [';' line]
    pipe  = exec ['|' pipe]
    exec  = '(' line ')' redir* | redir* (word redir*)*
    redir = ('<' | '>' | '>>') word

with at most `MAXARGS - 1` words in an `exec`.  A derivation gives a command: redirections are nested outward
in the order of the text.

* `Derives` — what the grammar derives, and the command of the derivation;
* `derives_complete` — the parser accepts what the grammar derives, with its command;
* `parse_reads` — given enough fuel the parser panics, or returns a command that the tokens it has read
  derive.
-/

namespace Xv6e.User.ShGrammar

open Sh Library.Fallible

/-! ### Tokens -/

inductive Token where
  | bar
  | amp
  | semi
  | lparen
  | rparen
  | less
  | greater
  /-- `>>`. -/
  | append
  | word (w : Text)
  deriving DecidableEq, Repr

/-- What `gettoken` returns for a token. -/
def Token.code : Token → UInt8
  | .bar => Sh.bar
  | .amp => Sh.amp
  | .semi => Sh.semi
  | .lparen => Sh.lparen
  | .rparen => Sh.rparen
  | .less => Sh.less
  | .greater => Sh.greater
  | .append => Sh.plus
  | .word _ => Sh.letter

/-- The symbol that a token starts with; a word starts with none. -/
def Token.first : Token → Option UInt8
  | .append => some Sh.greater
  | .word _ => none
  | t => some t.code

def Token.text : Token → Text
  | .word w => w
  | _ => []

/-- The next token starts with one of some symbols. -/
def starts (toks : Text) : List Token → Bool
  | [] => false
  | t :: _ => t.first.any (strchr toks)

def tokenScanner : Scanner (List Token) Text where
  gettoken
    | [] => .ok (0, [], [])
    | t :: ts => .ok (t.code, t.text, ts)
  peek toks ts := .ok (starts toks ts, ts)

theorem peek_tokens (toks : Text) (ts : List Token) :
    tokenScanner.peek toks ts = .ok (starts toks ts, ts) := rfl

theorem gettoken_nil : tokenScanner.gettoken [] = .ok (0, [], []) := rfl

theorem gettoken_cons (t : Token) (ts : List Token) : tokenScanner.gettoken
    (t :: ts) = .ok (t.code, t.text, ts) := rfl

/-! ### The grammar -/

/-- A redirection: `file` is opened as descriptor `fd`. -/
structure Redir where
  file : Text
  mode : ℕ
  fd : ℕ
  deriving DecidableEq, Repr

/-- The mode and the descriptor of an operator. -/
def Token.opens : Token → Option (ℕ × ℕ)
  | .less => some (O_RDONLY, 0)
  | .greater => some (O_WRONLY ||| O_CREATE, 1)
  | .append => some (O_WRONLY ||| O_CREATE, 1)
  | _ => none

/-- A command with redirections, the first one innermost. -/
def wrap (cmd : Cmd Text) (rs : List Redir) : Cmd Text :=
  rs.foldl (fun cmd r => .redir cmd r.file r.mode r.fd) cmd

/-- A command with `n` times `&` behind it. -/
def backs (n : ℕ) (cmd : Cmd Text) : Cmd Text := Cmd.back^[n] cmd

inductive Redirs : List Token → List Redir → Prop
  | nil : Redirs [] []
  | cons {op : Token} {f : Text} {mode fd : ℕ} {ts : List Token} {rs : List Redir}
      (hop : op.opens = some (mode, fd))
      (h : Redirs ts rs) : Redirs (op :: .word f :: ts) (⟨f, mode, fd⟩ :: rs)

inductive Args : List Token → List Text → List Redir → Prop
  | nil : Args [] [] []
  | cons {w : Text} {ts us : List Token} {rs qs : List Redir} {ws : List Text} (hr : Redirs ts rs)
      (h : Args us ws qs) : Args (.word w :: (ts ++ us)) (w :: ws) (rs ++ qs)

inductive Phrase where
  | line
  | pipe
  | exec

/-- **What the grammar derives**: the tokens of a phrase, and its command. -/
inductive Derives : Phrase → List Token → Cmd Text → Prop
  | line {ts : List Token} {c : Cmd Text} (n : ℕ) (h : Derives .pipe ts c) :
      Derives .line (ts ++ List.replicate n .amp) (backs n c)
  | list {ts us : List Token} {c d : Cmd Text} (n : ℕ) (h : Derives .pipe ts c) (h' : Derives .line us d) :
      Derives .line (ts ++ (List.replicate n .amp ++ .semi :: us)) (.list (backs n c) d)
  | single {ts : List Token} {c : Cmd Text} (h : Derives .exec ts c) : Derives .pipe ts c
  | pipe {ts us : List Token} {c d : Cmd Text} (h : Derives .exec ts c) (h' : Derives .pipe us d) :
      Derives .pipe (ts ++ .bar :: us) (.pipe c d)
  | block {ts us : List Token} {c : Cmd Text} {rs : List Redir} (h : Derives .line ts c) (hr : Redirs us rs) :
      Derives .exec (.lparen :: (ts ++ .rparen :: us)) (wrap c rs)
  | exec {ts us : List Token} {rs qs : List Redir} {ws : List Text} (hr : Redirs ts rs) (h : Args us ws qs)
      (hlen : ws.length ≤ MAXARGS - 1) : Derives .exec (ts ++ us) (wrap (.exec ws) (rs ++ qs))

/-! ### Redirections and arguments -/

variable {fuel : ℕ} {c : Cmd Text} {ts us rest : List Token} {rs qs : List Redir}

theorem wrap_append (c : Cmd Text) (rs qs : List Redir) : wrap c (rs ++ qs) = wrap (wrap c rs) qs :=
  List.foldl_append

theorem addArg_wrap (as : List Text) (rs : List Redir) (w : Text) :
    (wrap (.exec as) rs).addArg w = wrap (.exec (as ++ [w])) rs := by
  induction rs using List.reverseRecOn with
  | nil => rfl
  | append_singleton rs r ih =>
    rw [wrap_append, wrap_append, ← ih]
    rfl

variable {op : Token} {mode fd argc : ℕ}

/-- An operator is one of those that `parseredirs` looks for, and gives what its `switch` does. -/
theorem opens_spec (h : op.opens = some (mode, fd)) :
    (∀ ts, starts [less, greater] (op :: ts) = true) ∧ ∀ (c : Cmd Text) (f : Text),
    redirect op.code c f = .redir c f mode fd := by
  cases op with
  | less =>
    obtain ⟨rfl, rfl⟩ : O_RDONLY = mode ∧ 0 = fd := Prod.mk.injEq .. ▸ Option.some.inj h
    exact ⟨fun _ => rfl, fun _ _ => rfl⟩
  | greater =>
    obtain ⟨rfl, rfl⟩ : (O_WRONLY ||| O_CREATE) = mode ∧ 1 = fd := Prod.mk.injEq .. ▸ Option.some.inj h
    exact ⟨fun _ => rfl, fun _ _ => rfl⟩
  | append =>
    obtain ⟨rfl, rfl⟩ : (O_WRONLY ||| O_CREATE) = mode ∧ 1 = fd := Prod.mk.injEq .. ▸ Option.some.inj h
    exact ⟨fun _ => rfl, fun _ _ => rfl⟩
  | _ => cases h

theorem opens_of_starts (h : starts [less, greater] (op :: ts) = true) :
    ∃ mode fd, op.opens = some (mode, fd) := by
  cases op with
  | less => exact ⟨_, _, rfl⟩
  | greater => exact ⟨_, _, rfl⟩
  | append => exact ⟨_, _, rfl⟩
  | _ => exact absurd h Bool.false_ne_true

theorem code_eq_letter {t : Token} (h : t.code = letter) : ∃ w, t = .word w := by
  cases t with
  | word w => exact ⟨w, rfl⟩
  | _ => exact absurd h (by decide)

theorem parseredirs_stop (h : starts [less, greater] ts = false) :
    parseredirs tokenScanner (fuel + 1) c ts = .ok (c, ts) := by
  simp only [parseredirs, peek_tokens, ok_bind, h, Bool.false_eq_true, if_false]

theorem parseredirs_next (hop : op.opens = some (mode, fd)) (f : Text) :
    parseredirs tokenScanner (fuel + 1) c (op :: .word f :: ts)
      = parseredirs tokenScanner fuel (.redir c f mode fd) ts := by
  obtain ⟨hstarts, hredirect⟩ := opens_spec hop
  simp only [parseredirs, peek_tokens, gettoken_cons, ok_bind, hstarts, if_true, hredirect]
  rfl

theorem parseredirs_missing (hop : op.opens = some (mode, fd)) (h : ∀ f us, ts ≠ .word f :: us) :
    parseredirs tokenScanner (fuel + 1) c (op :: ts) = .error (.panic "missing file for redirection") := by
  obtain ⟨hstarts, _⟩ := opens_spec hop
  simp only [parseredirs, peek_tokens, gettoken_cons, ok_bind, hstarts, if_true]
  cases ts with
  | nil => rfl
  | cons t us =>
    have hcode : t.code ≠ letter := fun hcode => by
      obtain ⟨w, rfl⟩ := code_eq_letter hcode
      exact h w us rfl
    simp only [gettoken_cons, ok_bind, if_pos hcode]

/-- **`parseredirs`** reads the redirections that there are. -/
theorem parseredirs_complete (h : Redirs us rs) (hrest : starts [less, greater] rest = false)
    (hfuel : us.length < fuel) (c : Cmd Text) :
    parseredirs tokenScanner fuel c (us ++ rest) = .ok (wrap c rs, rest) := by
  induction h generalizing fuel c with
  | nil =>
    obtain ⟨fuel, rfl⟩ : ∃ k, fuel = k + 1 := ⟨fuel - 1, by omega⟩
    exact parseredirs_stop hrest
  | cons hop h ih =>
    rw [List.length_cons, List.length_cons] at hfuel
    obtain ⟨fuel, rfl⟩ : ∃ k, fuel = k + 1 := ⟨fuel - 1, by omega⟩
    rw [List.cons_append, List.cons_append, parseredirs_next hop]
    exact ih (by omega) _

/-- **`parseredirs`** panics, or has read some redirections and stands before something else. -/
theorem parseredirs_sound (hfuel : ts.length < fuel) (c : Cmd Text) :
    (∃ us rs rest, ts = us ++ rest ∧ Redirs us rs ∧ parseredirs tokenScanner fuel c ts
      = .ok (wrap c rs, rest)) ∨ ∃ text, parseredirs tokenScanner fuel c ts = .error (.panic text) := by
  induction fuel generalizing ts c with
  | zero => omega
  | succ fuel ih =>
    by_cases hstarts : starts [less, greater] ts = true
    · cases ts with
      | nil => cases hstarts
      | cons op ts =>
        obtain ⟨mode, fd, hop⟩ := opens_of_starts hstarts
        by_cases hword : ∃ f us, ts = .word f :: us
        · obtain ⟨f, us, rfl⟩ := hword
          rw [List.length_cons, List.length_cons] at hfuel
          rw [parseredirs_next hop]
          rcases ih (show us.length < fuel by omega) (.redir c f mode fd) with
            ⟨vs, rs, rest, rfl, hr, hok⟩ | herr
          · exact Or.inl ⟨_, _, rest, rfl, .cons hop hr, hok⟩
          · exact Or.inr herr
        · exact Or.inr ⟨_, parseredirs_missing hop fun f us h => hword ⟨f, us, h⟩⟩
    · exact Or.inl ⟨[], [], ts, rfl, .nil, parseredirs_stop (Bool.eq_false_of_not_eq_true hstarts)⟩

/-! ### Words -/

def ends : List Token → Bool
  | [] => true
  | t :: ts => starts [bar, rparen, amp, semi] (t :: ts)

theorem ends_starts (h : ends ts = true) : starts [less, greater] ts = false := by
  cases ts with
  | nil => rfl
  | cons t ts =>
    cases t with
    | less => exact absurd h Bool.false_ne_true
    | greater => exact absurd h Bool.false_ne_true
    | append => exact absurd h Bool.false_ne_true
    | _ => rfl

theorem argLoop_stop (h : ends ts = true) : argLoop tokenScanner (fuel + 1) argc c ts = .ok (c, ts) := by
  cases ts with
  | nil => rfl
  | cons t ts =>
    have hstarts : starts [bar, rparen, amp, semi] (t :: ts) = true := h
    simp only [argLoop, peek_tokens, ok_bind, hstarts, if_true]

theorem argLoop_next (w : Text) (hargc : argc + 1 < MAXARGS) :
    argLoop tokenScanner (fuel + 1) argc c (.word w :: ts) =
      (parseredirs tokenScanner fuel (c.addArg w) ts >>= fun r => argLoop tokenScanner fuel
        (argc + 1) r.1 r.2) := by
  have hstarts : starts [bar, rparen, amp, semi] (.word w :: ts) = false := rfl
  simp only [argLoop, peek_tokens, gettoken_cons, ok_bind, hstarts, Bool.false_eq_true, if_false]
  rw [if_neg (by exact (by decide : ¬ letter = 0)), if_neg (by exact not_not.mpr rfl),
    if_neg (not_le.mpr hargc)]
  rfl

theorem argLoop_many (w : Text) (hargc : MAXARGS ≤ argc + 1) :
    argLoop tokenScanner (fuel + 1) argc c (.word w :: ts) = .error (.panic "too many args") := by
  have hstarts : starts [bar, rparen, amp, semi] (.word w :: ts) = false := rfl
  simp only [argLoop, peek_tokens, gettoken_cons, ok_bind, hstarts, Bool.false_eq_true, if_false]
  rw [if_neg (by exact (by decide : ¬ letter = 0)), if_neg (by exact not_not.mpr rfl), if_pos hargc]

theorem argLoop_other {t : Token} (h : ends (t :: ts) = false) (hword : ∀ w, t ≠ .word w) :
    argLoop tokenScanner (fuel + 1) argc c (t :: ts) = .error (.panic "syntax") := by
  have hstarts : starts [bar, rparen, amp, semi] (t :: ts) = false := h
  have hcode : t.code ≠ letter := fun hcode => by
    obtain ⟨w, rfl⟩ := code_eq_letter hcode
    exact hword w rfl
  have hzero : t.code ≠ 0 := by
    cases t with
    | word w => exact (by decide : letter ≠ 0)
    | _ => decide
  simp only [argLoop, peek_tokens, gettoken_cons, ok_bind, hstarts, Bool.false_eq_true, if_false,
    if_neg hzero, if_pos hcode]

/-- **The loop of `parseexec`** reads the words that there are, with their redirections. -/
theorem argLoop_complete {ws as : List Text} (h : Args us ws qs) (hrest : ends rest = true)
    (hfuel : us.length < fuel) (hlen : as.length + ws.length < MAXARGS) (rs : List Redir) :
    argLoop tokenScanner fuel as.length (wrap (.exec as) rs) (us ++ rest)
      = .ok (wrap (.exec (as ++ ws)) (rs ++ qs), rest) := by
  induction h generalizing fuel as rs with
  | nil =>
    obtain ⟨fuel, rfl⟩ : ∃ k, fuel = k + 1 := ⟨fuel - 1, by omega⟩
    rw [List.nil_append, List.append_nil, List.append_nil]
    exact argLoop_stop hrest
  | @cons w ts us rs' qs ws hr h ih =>
    rw [List.length_cons, List.length_append] at hfuel
    rw [List.length_cons] at hlen
    obtain ⟨fuel, rfl⟩ : ∃ k, fuel = k + 1 := ⟨fuel - 1, by omega⟩
    -- the redirections end at the next word, or where the words end
    have hnext : starts [less, greater] (us ++ rest) = false := by
      cases h with
      | nil => exact ends_starts hrest
      | cons => rfl
    rw [List.cons_append, List.append_assoc, argLoop_next w (by omega), addArg_wrap,
      parseredirs_complete hr hnext (by omega), ok_bind]
    have hlast := @ih fuel (as ++ [w]) (by omega)
      (by rw [List.length_append, List.length_singleton]; omega) (rs ++ rs')
    rw [List.length_append, List.length_singleton, wrap_append] at hlast
    simp only [hlast, List.append_assoc, List.singleton_append]

/-- **The loop of `parseexec`** panics, or has read some words. -/
theorem argLoop_sound {as : List Text} (hfuel : ts.length < fuel) (hlen : as.length < MAXARGS)
    (rs : List Redir) : (∃ us ws qs rest, ts = us ++ rest ∧ Args us ws qs ∧ as.length + ws.length < MAXARGS
        ∧ argLoop tokenScanner fuel as.length (wrap (.exec as) rs) ts
        = .ok (wrap (.exec (as ++ ws)) (rs ++ qs), rest))
      ∨ ∃ text, argLoop tokenScanner fuel as.length (wrap (.exec as) rs) ts = .error (.panic text) := by
  induction fuel generalizing ts as rs with
  | zero => omega
  | succ fuel ih =>
    by_cases hends : ends ts = true
    · refine Or.inl ⟨[], [], [], ts, rfl, .nil, hlen, ?_⟩
      rw [List.append_nil, List.append_nil]
      exact argLoop_stop hends
    cases ts with
    | nil => exact absurd rfl hends
    | cons t ts =>
      by_cases hword : ∃ w, t = .word w
      · obtain ⟨w, rfl⟩ := hword
        by_cases hmany : MAXARGS ≤ as.length + 1
        · exact Or.inr ⟨_, argLoop_many w hmany⟩
        rw [argLoop_next w (not_le.mp hmany), addArg_wrap]
        rw [List.length_cons] at hfuel
        rcases parseredirs_sound (show ts.length < fuel by omega) (wrap (.exec (as ++ [w])) rs) with
          ⟨us, rs', rest, rfl, hr, hok⟩ | ⟨text, herr⟩
        · rw [List.length_append] at hfuel
          rw [hok, ok_bind]
          have hrest := @ih rest (as ++ [w]) (by omega)
            (by rw [List.length_append, List.length_singleton]; omega) (rs ++ rs')
          rw [List.length_append, List.length_singleton, wrap_append] at hrest
          rcases hrest with ⟨vs, ws, qs, rest', rfl, hargs, hlen', hok'⟩ | herr
          · refine Or.inl ⟨.word w :: (us ++ vs), w :: ws, rs' ++ qs, rest', ?_, .cons hr hargs, ?_, ?_⟩
            · rw [List.cons_append, List.append_assoc]
            · rw [List.length_cons]
              omega
            · simp only [hok', List.append_assoc, List.singleton_append]
          · exact Or.inr herr
        · exact Or.inr ⟨text, by rw [herr, error_bind]⟩
      · exact Or.inr ⟨_, argLoop_other (Bool.eq_false_of_not_eq_true hends) fun w h => hword ⟨w, h⟩⟩

/-! ### `&`, `;` and `|` -/

theorem starts_singleton (t₀ : Token) (h : t₀ ∈ [Token.bar, .amp, .semi, .lparen, .rparen]) :
    starts [t₀.code] ts = true ↔ ∃ us, ts = t₀ :: us := by
  simp only [List.mem_cons, List.not_mem_nil, or_false] at h
  constructor
  · intro hs
    cases ts with
    | nil => cases hs
    | cons t us =>
      refine ⟨us, ?_⟩
      rcases h with rfl | rfl | rfl | rfl | rfl
      all_goals
        cases t with
        | _ => first
          | rfl
          | exact absurd hs Bool.false_ne_true
  · rintro ⟨us, rfl⟩
    rcases h with rfl | rfl | rfl | rfl | rfl <;> rfl

theorem backLoop_complete (hrest : starts [amp] rest = false) (n : ℕ) (hfuel : n < fuel) (c : Cmd Text) :
    backLoop tokenScanner fuel c (List.replicate n .amp ++ rest) = .ok (backs n c, rest) := by
  induction n generalizing fuel c with
  | zero =>
    obtain ⟨fuel, rfl⟩ : ∃ k, fuel = k + 1 := ⟨fuel - 1, by omega⟩
    simp only [List.replicate_zero, List.nil_append, backLoop, peek_tokens, ok_bind, hrest,
      Bool.false_eq_true, if_false]
    rfl
  | succ n ih =>
    obtain ⟨fuel, rfl⟩ : ∃ k, fuel = k + 1 := ⟨fuel - 1, by omega⟩
    have hstarts : starts [amp] (.amp :: (List.replicate n .amp ++ rest)) = true := rfl
    rw [List.replicate_succ, List.cons_append]
    simp only [backLoop, peek_tokens, ok_bind, hstarts, if_true, gettoken_cons]
    exact ih (by omega) (.back c)

theorem exists_amps (ts : List Token) :
    ∃ n rest, ts = List.replicate n .amp ++ rest ∧ starts [amp] rest = false := by
  induction ts with
  | nil => exact ⟨0, [], rfl, rfl⟩
  | cons t ts ih =>
    by_cases ht : t = .amp
    · obtain ⟨n, rest, rfl, hrest⟩ := ih
      exact ⟨n + 1, rest, by rw [ht]; rfl, hrest⟩
    · refine ⟨0, t :: ts, rfl, Bool.eq_false_of_not_eq_true fun hs => ?_⟩
      obtain ⟨us, hus⟩ := (starts_singleton .amp (by decide)).mp hs
      exact ht (List.cons.inj hus).1

theorem parseline_single {d : Cmd Text} (hpipe : parsepipe tokenScanner fuel ts = .ok (c, us))
    (hback : backLoop tokenScanner fuel c us = .ok (d, rest)) (hrest : starts [semi] rest = false) :
    parseline tokenScanner (fuel + 1) ts = .ok (d, rest) := by
  simp only [parseline, hpipe, ok_bind, hback, peek_tokens, hrest, Bool.false_eq_true, if_false]

theorem parseline_list {d : Cmd Text} (hpipe : parsepipe tokenScanner fuel ts = .ok (c, us))
    (hback : backLoop tokenScanner fuel c us = .ok (d, .semi :: rest)) :
    parseline tokenScanner (fuel + 1) ts
      = (parseline tokenScanner fuel rest >>= fun r => .ok (.list d r.1, r.2)) := by
  have hstarts : starts [semi] (.semi :: rest) = true := rfl
  simp only [parseline, hpipe, ok_bind, hback, peek_tokens, hstarts, if_true, gettoken_cons]

theorem parsepipe_single (hexec : parseexec tokenScanner fuel ts = .ok (c, rest))
    (hrest : starts [bar] rest = false) : parsepipe tokenScanner (fuel + 1) ts = .ok (c, rest) := by
  simp only [parsepipe, hexec, ok_bind, peek_tokens, hrest, Bool.false_eq_true, if_false]

theorem parsepipe_pipe (hexec : parseexec tokenScanner fuel ts = .ok (c, .bar :: rest)) :
    parsepipe tokenScanner (fuel + 1) ts
      = (parsepipe tokenScanner fuel rest >>= fun r => .ok (.pipe c r.1, r.2)) := by
  have hstarts : starts [bar] (.bar :: rest) = true := rfl
  simp only [parsepipe, hexec, ok_bind, peek_tokens, hstarts, if_true, gettoken_cons]

theorem parseexec_block :
    parseexec tokenScanner (fuel + 1) (.lparen :: ts) = parseblock tokenScanner fuel (.lparen :: ts) := by
  have hstarts : starts [lparen] (.lparen :: ts) = true := rfl
  simp only [parseexec, ok_bind, peek_tokens, hstarts, if_true]

theorem parseexec_words (h : starts [lparen] ts = false)
    (hredirs : parseredirs tokenScanner fuel (.exec []) ts = .ok (c, rest)) :
    parseexec tokenScanner (fuel + 1) ts = argLoop tokenScanner fuel 0 c rest := by
  simp only [parseexec, ok_bind, peek_tokens, h, Bool.false_eq_true, if_false, hredirs]

theorem parseblock_closed (hline : parseline tokenScanner fuel ts = .ok (c, .rparen :: rest)) :
    parseblock tokenScanner (fuel + 1) (.lparen :: ts) = parseredirs tokenScanner fuel c rest := by
  have hopens : starts [lparen] (.lparen :: ts) = true := rfl
  have hcloses : starts [rparen] (.rparen :: rest) = true := rfl
  simp only [parseblock, ok_bind, peek_tokens, hopens, hcloses, Bool.true_eq_false, if_false,
    gettoken_cons, hline]

theorem parseblock_open (hline : parseline tokenScanner fuel ts = .ok (c, rest))
    (hrest : starts [rparen] rest = false) :
    parseblock tokenScanner (fuel + 1) (.lparen :: ts) = .error (.panic "syntax - missing )") := by
  have hopens : starts [lparen] (.lparen :: ts) = true := rfl
  simp only [parseblock, ok_bind, peek_tokens, hopens, Bool.true_eq_false, if_false, gettoken_cons, hline,
    hrest, if_true]

/-! ### Phrases -/

def parse : Phrase → ℕ → List Token → Except Stop (Cmd Text × List Token)
  | .line => parseline tokenScanner
  | .pipe => parsepipe tokenScanner
  | .exec => parseexec tokenScanner

def follow : Phrase → List Token → Prop
  | .line, rest => rest = [] ∨ starts [rparen] rest = true
  | .pipe, rest => ends rest = true ∧ starts [bar] rest = false
  | .exec, rest => ends rest = true

/-- The fuel that a phrase needs beside four for each token. -/
def extra : Phrase → ℕ
  | .line => 4
  | .pipe => 3
  | .exec => 2

theorem follow_line (h : follow .line rest) :
    follow .pipe rest ∧ starts [amp] rest = false ∧ starts [semi] rest = false := by
  rcases h with rfl | hclose
  · exact ⟨⟨rfl, rfl⟩, rfl, rfl⟩
  · obtain ⟨us, rfl⟩ := (starts_singleton .rparen (by decide)).mp hclose
    exact ⟨⟨rfl, rfl⟩, rfl, rfl⟩

theorem follow_amps (h : follow .pipe rest) (n : ℕ) : follow .pipe (List.replicate n .amp ++ rest) := by
  cases n with
  | zero => exact h
  | succ n => exact ⟨rfl, rfl⟩

theorem starts_lparen_words {ws : List Text} (hr : Redirs ts rs) (h : Args us ws qs)
    (hrest : ends rest = true) : starts [lparen] (ts ++ (us ++ rest)) = false := by
  cases hr with
  | @cons op f mode fd ts rs hop h =>
    cases op with
    | less => rfl
    | greater => rfl
    | append => rfl
    | _ => cases hop
  | nil =>
    cases h with
    | cons => rfl
    | nil =>
      cases rest with
      | nil => rfl
      | cons t rest =>
        cases t with
        | lparen => exact absurd hrest Bool.false_ne_true
        | _ => rfl

/-- **The parser accepts what the grammar derives.** -/
theorem derives_complete {ph : Phrase} (h : Derives ph ts c) (hrest : follow ph rest)
    (hfuel : 4 * ts.length + extra ph ≤ fuel) : parse ph fuel (ts ++ rest) = .ok (c, rest) := by
  induction h generalizing rest fuel with
  | @line ts c n h ih =>
    obtain ⟨hpipe, hamp, hsemi⟩ := follow_line hrest
    simp only [List.length_append, List.length_replicate, extra] at hfuel
    obtain ⟨fuel, rfl⟩ : ∃ k, fuel = k + 1 := ⟨fuel - 1, by omega⟩
    rw [List.append_assoc]
    have hok := ih (follow_amps hpipe n) (show 4 * ts.length + extra .pipe ≤ fuel by simp only [extra]; omega)
    exact parseline_single hok (backLoop_complete hamp n (by omega) c) hsemi
  | @list ts us c d n h h' ih ih' =>
    simp only [List.length_append, List.length_replicate, List.length_cons, extra] at hfuel
    obtain ⟨fuel, rfl⟩ : ∃ k, fuel = k + 1 := ⟨fuel - 1, by omega⟩
    rw [List.append_assoc, List.append_assoc, List.cons_append]
    have hsemi : follow .pipe (.semi :: (us ++ rest)) := ⟨rfl, rfl⟩
    have hok := ih (follow_amps hsemi n) (show 4 * ts.length + extra .pipe ≤ fuel by simp only [extra]; omega)
    have hline := ih' hrest (show 4 * us.length + extra .line ≤ fuel by simp only [extra]; omega)
    have hamp : starts [amp] (.semi :: (us ++ rest)) = false := rfl
    have hlist := parseline_list hok (backLoop_complete hamp n (by omega) c)
    rw [show parseline tokenScanner fuel (us ++ rest) = .ok (d, rest) from hline, ok_bind] at hlist
    exact hlist
  | @single ts c h ih =>
    simp only [extra] at hfuel
    obtain ⟨fuel, rfl⟩ : ∃ k, fuel = k + 1 := ⟨fuel - 1, by omega⟩
    exact parsepipe_single
      (ih hrest.1 (show 4 * ts.length + extra .exec ≤ fuel by simp only [extra]; omega)) hrest.2
  | @pipe ts us c d h h' ih ih' =>
    simp only [List.length_append, List.length_cons, extra] at hfuel
    obtain ⟨fuel, rfl⟩ : ∃ k, fuel = k + 1 := ⟨fuel - 1, by omega⟩
    rw [List.append_assoc, List.cons_append]
    have hbar : follow .exec (.bar :: (us ++ rest)) := rfl
    have hok := ih hbar (show 4 * ts.length + extra .exec ≤ fuel by simp only [extra]; omega)
    have hpipe := parsepipe_pipe hok
    rw [show parsepipe tokenScanner fuel (us ++ rest) = .ok (d, rest) from
      ih' hrest (show 4 * us.length + extra .pipe ≤ fuel by simp only [extra]; omega), ok_bind] at hpipe
    exact hpipe
  | @block ts us c rs h hr ih =>
    simp only [List.length_append, List.length_cons, extra] at hfuel
    obtain ⟨fuel, rfl⟩ : ∃ k, fuel = k + 2 := ⟨fuel - 2, by omega⟩
    have hclose : follow .line (.rparen :: (us ++ rest)) := Or.inr rfl
    have hline := ih hclose (show 4 * ts.length + extra .line ≤ fuel by simp only [extra]; omega)
    rw [List.cons_append, List.append_assoc, List.cons_append]
    have hblock : parseexec tokenScanner (fuel + 2) (.lparen :: (ts ++ .rparen :: (us ++ rest)))
        = parseredirs tokenScanner fuel c (us ++ rest) := parseexec_block.trans (parseblock_closed hline)
    exact hblock.trans (parseredirs_complete hr (ends_starts hrest) (by omega) c)
  | @exec ts us rs qs ws hr h hlen =>
    simp only [List.length_append, extra] at hfuel
    obtain ⟨fuel, rfl⟩ : ∃ k, fuel = k + 1 := ⟨fuel - 1, by omega⟩
    have hnext : starts [less, greater] (us ++ rest) = false := by
      cases h with
      | nil => exact ends_starts hrest
      | cons => rfl
    rw [List.append_assoc]
    have hredirs := parseredirs_complete hr hnext (show ts.length < fuel by omega) (.exec [])
    have hwords := parseexec_words (starts_lparen_words hr h hrest) hredirs
    have hargs : argLoop tokenScanner fuel ([] : List Text).length (wrap (.exec []) rs) (us ++ rest)
        = .ok (wrap (.exec ([] ++ ws)) (rs ++ qs), rest) :=
      argLoop_complete h hrest (by omega) (by simp only [MAXARGS, List.length_nil] at *; omega) rs
    exact hwords.trans hargs

/-- The tokens of a line derive one command. -/
theorem derives_unique {d : Cmd Text} (h : Derives .line ts c) (h' : Derives .line ts d) : c = d := by
  have hc := derives_complete h (Or.inl rfl) (le_refl _)
  have hd := derives_complete h' (Or.inl rfl) (le_refl _)
  rw [hc] at hd
  exact congrArg Prod.fst (Except.ok.inj hd)

/-- A parsing function panics, or has read what a phrase derives. -/
def Reads (ph : Phrase) (ts : List Token) (r : Except Stop (Cmd Text × List Token)) : Prop :=
  (∃ us c rest, ts = us ++ rest ∧ Derives ph us c ∧ r = .ok (c, rest)) ∨ ∃ text, r = .error (.panic text)

theorem reads_of_error {ph : Phrase} {text : String} {r : Except Stop (Cmd Text × List Token)}
    (h : r = .error (.panic text)) :
    Reads ph ts r := Or.inr ⟨text, h⟩

/-- `parseline`, if the functions that it calls do what they should. -/
theorem parseline_reads
    (hpipe : ∀ ts : List Token, 4 * ts.length + 3 ≤ fuel → Reads .pipe ts (parsepipe tokenScanner fuel ts))
    (hline : ∀ ts : List Token, 4 * ts.length + 4 ≤ fuel → Reads .line ts (parseline tokenScanner fuel ts))
    (hfuel : 4 * ts.length + 4 ≤ fuel + 1) : Reads .line ts (parseline tokenScanner (fuel + 1) ts) := by
  rcases hpipe ts (by omega) with ⟨us, c, rest, rfl, hderives, hok⟩ | ⟨text, herr⟩
  · obtain ⟨n, rest, rfl, hamp⟩ := exists_amps rest
    simp only [List.length_append, List.length_replicate] at hfuel
    have hback := backLoop_complete hamp n (show n < fuel by omega) c
    by_cases hsemi : starts [semi] rest = true
    · obtain ⟨vs, rfl⟩ := (starts_singleton .semi (by decide)).mp hsemi
      rw [List.length_cons] at hfuel
      rw [parseline_list hok hback]
      rcases hline vs (by omega) with ⟨ws, d, rest, rfl, hd, hok'⟩ | ⟨text, herr⟩
      · refine Or.inl ⟨_, _, rest, ?_, .list n hderives hd, by rw [hok', ok_bind]⟩
        simp only [List.append_assoc, List.cons_append]
      · exact reads_of_error (by rw [herr, error_bind])
    · refine Or.inl ⟨_, _, rest, ?_, .line n hderives, parseline_single hok hback
        (Bool.eq_false_of_not_eq_true hsemi)⟩
      rw [List.append_assoc]
  · exact reads_of_error (by rw [parseline, herr, error_bind])

theorem parsepipe_reads
    (hexec : ∀ ts : List Token, 4 * ts.length + 2 ≤ fuel → Reads .exec ts (parseexec tokenScanner fuel ts))
    (hpipe : ∀ ts : List Token, 4 * ts.length + 3 ≤ fuel → Reads .pipe ts (parsepipe tokenScanner fuel ts))
    (hfuel : 4 * ts.length + 3 ≤ fuel + 1) : Reads .pipe ts (parsepipe tokenScanner (fuel + 1) ts) := by
  rcases hexec ts (by omega) with ⟨us, c, rest, rfl, hderives, hok⟩ | ⟨text, herr⟩
  · by_cases hbar : starts [bar] rest = true
    · obtain ⟨vs, rfl⟩ := (starts_singleton .bar (by decide)).mp hbar
      simp only [List.length_append, List.length_cons] at hfuel
      rw [parsepipe_pipe hok]
      rcases hpipe vs (by omega) with ⟨ws, d, rest, rfl, hd, hok'⟩ | ⟨text, herr⟩
      · refine Or.inl ⟨_, _, rest, ?_, .pipe hderives hd, by rw [hok', ok_bind]⟩
        rw [List.append_assoc, List.cons_append]
      · exact reads_of_error (by rw [herr, error_bind])
    · exact Or.inl ⟨us, c, rest, rfl, .single hderives,
        parsepipe_single hok (Bool.eq_false_of_not_eq_true hbar)⟩
  · exact reads_of_error (by rw [parsepipe, herr, error_bind])

theorem parseblock_reads
    (hline : ∀ ts : List Token, 4 * ts.length + 4 ≤ fuel → Reads .line ts (parseline tokenScanner fuel ts))
    (hfuel : 4 * ts.length + 4 ≤ fuel) :
    Reads .exec (.lparen :: ts) (parseblock tokenScanner (fuel + 1) (.lparen :: ts)) := by
  rcases hline ts hfuel with ⟨us, c, rest, rfl, hderives, hok⟩ | ⟨text, herr⟩
  · by_cases hclose : starts [rparen] rest = true
    · obtain ⟨vs, rfl⟩ := (starts_singleton .rparen (by decide)).mp hclose
      simp only [List.length_append, List.length_cons] at hfuel
      rw [parseblock_closed hok]
      rcases parseredirs_sound (show vs.length < fuel by omega) c with ⟨ws, rs, rest, rfl, hr, hok'⟩
        | ⟨text, herr⟩
      · refine Or.inl ⟨_, _, rest, ?_, .block hderives hr, hok'⟩
        rw [List.cons_append, List.append_assoc, List.cons_append]
      · exact reads_of_error herr
    · exact reads_of_error (parseblock_open hok (Bool.eq_false_of_not_eq_true hclose))
  · have hopens : starts [lparen] (.lparen :: ts) = true := rfl
    refine Or.inr ⟨text, ?_⟩
    simp only [parseblock, ok_bind, peek_tokens, hopens, Bool.true_eq_false, if_false, gettoken_cons,
      herr, error_bind]

theorem parseexec_reads
    (hblock : ∀ ts : List Token, 4 * ts.length + 5 ≤ fuel
      → Reads .exec (.lparen :: ts) (parseblock tokenScanner fuel (.lparen :: ts)))
      (hfuel : 4 * ts.length + 2 ≤ fuel + 1) : Reads .exec ts (parseexec tokenScanner (fuel + 1) ts) := by
  by_cases hopen : starts [lparen] ts = true
  · obtain ⟨us, rfl⟩ := (starts_singleton .lparen (by decide)).mp hopen
    rw [List.length_cons] at hfuel
    rw [parseexec_block]
    exact hblock us (by omega)
  · have hopen' := Bool.eq_false_of_not_eq_true hopen
    rcases parseredirs_sound (show ts.length < fuel by omega) (.exec []) with ⟨us, rs, rest, rfl, hr, hok⟩
      | ⟨text, herr⟩
    · rw [List.length_append] at hfuel
      rw [parseexec_words hopen' hok]
      have hargs := @argLoop_sound fuel rest [] (by omega) (by decide) rs
      rcases hargs with ⟨vs, ws, qs, rest, rfl, hargs, hlen, hok'⟩ | ⟨text, herr⟩
      · refine Or.inl ⟨_, _, rest, ?_, .exec hr hargs ?_, hok'⟩
        · rw [List.append_assoc]
        · simp only [List.length_nil] at hlen
          omega
      · exact reads_of_error herr
    · refine Or.inr ⟨text, ?_⟩
      simp only [parseexec, ok_bind, peek_tokens, hopen', Bool.false_eq_true, if_false, herr, error_bind]

/-- **The parsing functions panic, or have read what their phrase derives**, given four times the tokens as
fuel. -/
theorem parse_reads (fuel : ℕ) :
    (∀ ts : List Token, 4 * ts.length + 4 ≤ fuel → Reads .line ts (parseline tokenScanner fuel ts))
      ∧ (∀ ts : List Token, 4 * ts.length + 3 ≤ fuel → Reads .pipe ts (parsepipe tokenScanner fuel ts))
      ∧ (∀ ts : List Token, 4 * ts.length + 2 ≤ fuel → Reads .exec ts (parseexec tokenScanner fuel ts))
      ∧ ∀ ts : List Token, 4 * ts.length + 5 ≤ fuel
      → Reads .exec (.lparen :: ts) (parseblock tokenScanner fuel (.lparen :: ts)) := by
  induction fuel with
  | zero => exact ⟨fun _ h => by omega, fun _ h => by omega, fun _ h => by omega, fun _ h => by omega⟩
  | succ fuel ih =>
    obtain ⟨hline, hpipe, hexec, hblock⟩ := ih
    exact ⟨fun _ h => parseline_reads hpipe hline h, fun _ h => parsepipe_reads hexec hpipe h,
      fun _ h => parseexec_reads hblock h, fun _ h => parseblock_reads hline (by omega)⟩

end Xv6e.User.ShGrammar
