import Xv6e.User.ShParse

/-!
# Commands of the shell

`parsecmd` on every text: it returns exactly if the text is in the language of the grammar, with the command
of the derivation, and afterwards the words of the command are C strings in the buffer.

* `parsecmd_accepts` — `parsecmd` ends within the buffer, and accepts what the grammar derives; a command that
  is written out with all its parentheses (`render`) is parsed back;
* `nulterminate_words` — the words after `nulterminate`.
-/

namespace Xv6e.User.ShCommands

open Sh ShGrammar ShParse Library.Fallible

variable {text : Text} {cmd : Cmd (ℕ × ℕ)} {tree : Cmd Text}

/-! ### Words of related commands -/

variable {ω υ : Type} {W : ω → υ → Prop}

theorem words_of_rel {c : Cmd ω} {d : Cmd υ} (h : Rel W c d) : ∀ v ∈ c.words, ∃ w, W v w := by
  induction h with
  | exec h =>
    rw [Cmd.words]
    induction h with
    | nil => exact fun v hv => absurd hv List.not_mem_nil
    | cons hw _ ih => exact List.forall_mem_cons.mpr ⟨⟨_, hw⟩, ih⟩
  | redir h hw ih =>
    intro v hv
    rcases List.mem_append.mp hv with hv | hv
    · exact ih v hv
    · exact ⟨_, List.mem_singleton.mp hv ▸ hw⟩
  | pipe h h' ih ih' => exact fun v hv => (List.mem_append.mp hv).elim (ih v) (ih' v)
  | list h h' ih ih' => exact fun v hv => (List.mem_append.mp hv).elim (ih v) (ih' v)
  | back h ih => exact ih

theorem map_of_rel {f : ω → υ} (hf : ∀ v w, W v w → f v = w) {c : Cmd ω} {d : Cmd υ} (h : Rel W c d) :
    c.map f = d := by
  induction h with
  | exec h =>
    rw [Cmd.map]
    congr 1
    induction h with
    | nil => rfl
    | cons hw _ ih => rw [List.map_cons, hf _ _ hw, ih]
  | redir h hw ih => rw [Cmd.map, ih, hf _ _ hw]
  | pipe h h' ih ih' => rw [Cmd.map, ih, ih']
  | list h h' ih ih' => rw [Cmd.map, ih, ih']
  | back h ih => rw [Cmd.map, ih]

/-! ### `nulterminate` -/

def clear (buf : Text) (ends : List ℕ) : Text := ends.foldl (fun buf i => buf.set i 0) buf

theorem length_clear (buf : Text) (ends : List ℕ) : (clear buf ends).length = buf.length := by
  induction ends generalizing buf with
  | nil => rfl
  | cons i ends ih => rw [clear, List.foldl_cons, ← clear, ih, List.length_set]

theorem clear_append (buf : Text) (ends ends' : List ℕ) :
    clear buf (ends ++ ends') = clear (clear buf ends) ends' :=
  List.foldl_append

theorem clear_getElem? (buf : Text) (ends : List ℕ) (i : ℕ) :
    (clear buf ends)[i]? = if i ∈ ends ∧ i < buf.length then some 0 else buf[i]? := by
  induction ends generalizing buf with
  | nil => rw [if_neg fun h => List.not_mem_nil h.1]; rfl
  | cons j ends ih =>
    rw [clear, List.foldl_cons, ← clear, ih, List.length_set, List.getElem?_set]
    by_cases hlt : i < buf.length
    · by_cases hmem : i ∈ ends
      · rw [if_pos ⟨hmem, hlt⟩, if_pos ⟨List.mem_cons_of_mem _ hmem, hlt⟩]
      · by_cases hij : j = i
        · rw [if_neg fun h => hmem h.1, if_pos hij, if_pos (hij ▸ hlt),
            if_pos ⟨hij ▸ List.mem_cons_self, hlt⟩]
        · rw [if_neg fun h => hmem h.1, if_neg hij, if_neg]
          rintro ⟨hc, _⟩
          rcases List.mem_cons.mp hc with hc | hc
          · exact hij hc.symm
          · exact hmem hc
    · have hnone : buf[i]? = none := List.getElem?_eq_none (not_lt.mp hlt)
      rw [if_neg fun h => hlt h.2, hnone, if_neg fun h : i ∈ j :: ends ∧ _ => hlt h.2]
      by_cases hij : j = i
      · rw [if_pos hij, if_neg (hij ▸ hlt)]
      · rw [if_neg hij]

variable {buf ds : Text}

/-- **`nulterminate`** writes a terminator at the end of each word. -/
theorem nulterminate_eq (h : ∀ v ∈ cmd.words, v.2 < buf.length) :
    nulterminate buf cmd = .ok (clear buf (cmd.words.map Prod.snd)) := by
  induction cmd generalizing buf with
  | exec argv =>
    rw [nulterminate, Cmd.words]
    induction argv generalizing buf with
    | nil => rfl
    | cons v argv ih =>
      rw [List.foldlM_cons, terminate, if_pos (h v List.mem_cons_self), ok_bind]
      rw [ih fun u hu => by rw [List.length_set]; exact h u (List.mem_cons_of_mem v hu)]
      rfl
  | redir cmd file mode fd ih =>
    rw [nulterminate, ih fun v hv => h v (List.mem_append_left _ hv), ok_bind, terminate, length_clear,
      if_pos (h file (List.mem_append_right _ (List.mem_singleton_self file))), Cmd.words,
      List.map_append, clear_append]
    rfl
  | pipe left right ihl ihr =>
    rw [nulterminate, ihl fun v hv => h v (List.mem_append_left _ hv), ok_bind,
      ihr fun v hv => by rw [length_clear]; exact h v (List.mem_append_right _ hv), Cmd.words,
      List.map_append, clear_append]
  | list left right ihl ihr =>
    rw [nulterminate, ihl fun v hv => h v (List.mem_append_left _ hv), ok_bind,
      ihr fun v hv => by rw [length_clear]; exact h v (List.mem_append_right _ hv), Cmd.words,
      List.map_append, clear_append]
  | back cmd ih => rw [nulterminate, ih h, Cmd.words]

/-! ### `parsecmd` -/

variable {cs w : Text} {ts : List Token}

theorem lexes_length (h : Lexes cs ts) : ts.length ≤ cs.length := by
  induction h with
  | nil => exact le_refl _
  | space _ _ ih => exact Nat.le_succ_of_le ih
  | symbol _ _ ih => exact Nat.succ_le_succ ih
  | append _ ih => exact Nat.succ_le_succ (Nat.le_succ_of_le ih)
  | greater _ _ ih => exact Nat.succ_le_succ ih
  | word _ _ _ ih =>
    rw [List.length_cons, List.length_cons, List.length_append]
    omega

theorem strlen_eq {s fuel : ℕ} (h : At text s cs) (hnul : (0 : UInt8) ∉ text) (hfuel : cs.length < fuel) :
    strlen (buffer text) fuel s = .ok text.length := by
  induction cs generalizing s fuel with
  | nil =>
    obtain ⟨fuel, rfl⟩ : ∃ k, fuel = k + 1 := ⟨fuel - 1, by omega⟩
    obtain ⟨hread, rfl⟩ := h.read_nil
    rw [strlen, hread, ok_bind, if_pos rfl]
  | cons c cs ih =>
    rw [List.length_cons] at hfuel
    obtain ⟨fuel, rfl⟩ : ∃ k, fuel = k + 1 := ⟨fuel - 1, by omega⟩
    obtain ⟨hread, hnext⟩ := h.read_cons
    rw [strlen, hread, ok_bind, if_neg (h.ne_zero hnul)]
    exact ih hnext (by omega)

theorem at_start (text : Text) : At text 0 text := ⟨Nat.zero_le _, rfl⟩

/-- The last `peek` of `parsecmd` stands at the end exactly if there is no token left. -/
theorem peek_end {s : ℕ} (h : Ahead text s ts) :
    ∃ b s', peek (buffer text) text.length [] s = .ok (b, s') ∧ (s' = text.length ↔ ts = []) := by
  obtain ⟨s', cs, hskip, hat, hlex, hspace⟩ := h.skip
  have hend : s' = text.length ↔ ts = [] := by
    have hlen := hat.length
    cases hlex with
    | nil => exact iff_of_true hat.read_nil.2 rfl
    | space hc => exact absurd hc (by rw [hspace _ rfl]; exact Bool.false_ne_true)
    | _ => exact iff_of_false (by rw [List.length_cons] at hlen; omega) (List.cons_ne_nil _ _)
  cases cs with
  | nil =>
    obtain ⟨hread, _⟩ := hat.read_nil
    exact ⟨_, s', by rw [peek, hskip, ok_bind, hread, ok_bind], hend⟩
  | cons c cs =>
    obtain ⟨hread, _⟩ := hat.read_cons
    exact ⟨_, s', by rw [peek, hskip, ok_bind, hread, ok_bind], hend⟩

/-- **What `parsecmd` does with a text** that has some tokens: it panics, or it returns the command that they
derive, with a terminator behind each word. -/
theorem parsecmd_cases (hnul : (0 : UInt8) ∉ text) (hlex : Lexes text ts) :
    (∃ cmd tree, parsecmd (buffer text) = .ok (cmd, clear (buffer text) (cmd.words.map Prod.snd))
        ∧ Rel (IsWord text) cmd tree ∧ Derives .line ts tree)
      ∨ ((∃ msg, parsecmd (buffer text) = .error (.panic msg)) ∧ ∀ tree, ¬ Derives .line ts tree) := by
  have hlen := lexes_length hlex
  have hstrlen : strlen (buffer text) (buffer text).length 0 = .ok text.length :=
    strlen_eq (at_start text) hnul (by rw [buffer, List.length_append]; exact Nat.lt_succ_self _)
  have hfuel : 4 * ts.length + 4 ≤ 4 * text.length + 4 := by omega
  have hcomplete : ∀ tree, Derives .line ts tree → parseline tokenScanner (4 * text.length + 4) ts
      = .ok (tree, []) := by
    intro tree hderives
    have hok := derives_complete hderives (Or.inl rfl) hfuel
    rw [List.append_nil] at hok
    exact hok
  have hreads := (parse_reads (4 * text.length + 4)).1 ts hfuel
  rw [parsecmd, hstrlen, ok_bind]
  rcases (parse_same (scanner_simulates hnul) (4 * text.length + 4)).1 0 ts ⟨text, at_start text, hlex⟩ with
    ⟨e, hA, hB⟩ | ⟨cmd, s, tree, rest, hA, hB, hrel, hahead⟩
  · rw [hA, error_bind]
    refine Or.inr ⟨?_, fun tree hderives => ?_⟩
    · rcases hreads with ⟨us, c, rest, _, _, hok⟩ | ⟨msg, herr⟩
      · rw [hB] at hok
        cases hok
      · rw [hB] at herr
        obtain rfl := Except.error.inj herr
        exact ⟨msg, rfl⟩
    · rw [hcomplete tree hderives] at hB
      cases hB
  · obtain ⟨b, s', hpeek, hend⟩ := peek_end hahead
    simp only [hA, ok_bind, hpeek]
    by_cases hrest : rest = []
    · have hwords : ∀ v ∈ cmd.words, v.2 < (buffer text).length := by
        intro v hv
        obtain ⟨w, hw⟩ := words_of_rel hrel v hv
        have hlen := hw.first.length
        rw [List.length_append, List.length_drop] at hlen
        have hlast := hw.last
        rw [buffer, List.length_append, List.length_singleton]
        omega
      rw [if_neg (not_not.mpr (hend.mpr hrest)), nulterminate_eq hwords, ok_bind]
      refine Or.inl ⟨cmd, tree, rfl, hrel, ?_⟩
      rcases hreads with ⟨us, c, rest', rfl, hderives, hok⟩ | ⟨msg, herr⟩
      · rw [hB] at hok
        obtain ⟨rfl, rfl⟩ : tree = c ∧ rest = rest' := Prod.mk.injEq .. ▸ Except.ok.inj hok
        rw [hrest, List.append_nil]
        exact hderives
      · rw [hB] at herr
        cases herr
    · rw [if_pos fun hs => hrest (hend.mp hs)]
      refine Or.inr ⟨⟨_, rfl⟩, fun tree' hderives => ?_⟩
      rw [hcomplete tree' hderives] at hB
      have hpair : tree' = tree ∧ [] = rest := Prod.mk.injEq .. ▸ Except.ok.inj hB
      exact hrest hpair.2.symm

/-! ### Commands that are written out -/

/-- The words that a text can have: not empty, without whitespace, symbols and terminators. -/
def IsToken (w : Text) : Prop := w ≠ [] ∧ ∀ x ∈ w, wordChar x = true ∧ x ≠ 0

/-- The commands that can be written out: words that a text can have, as many as an `execcmd` holds, and the
modes and descriptors of `parseredirs`. -/
def Printable : Cmd Text → Prop
  | .exec ws => ws.length ≤ MAXARGS - 1 ∧ ∀ w ∈ ws, IsToken w
  | .redir cmd file mode fd =>
    Printable cmd ∧ IsToken file ∧ (mode = O_RDONLY ∧ fd = 0 ∨ mode = (O_WRONLY ||| O_CREATE) ∧ fd = 1)
  | .pipe left right => Printable left ∧ Printable right
  | .list left right => Printable left ∧ Printable right
  | .back cmd => Printable cmd

def operator (mode : ℕ) : Token := if mode = O_RDONLY then .less else .greater

def paren (cs : Text) : Text := lparen :: (cs ++ [rparen])

/-- **A command with all its parentheses**: `(left) | (right)`, `(left) ; (right)`, `(cmd) &`, `(cmd) > file`,
and the words of an `execcmd` with blanks between them. -/
def render : Cmd Text → Text
  | .exec ws => List.intercalate [32] ws
  | .redir cmd file mode _ => paren (render cmd) ++ (operator mode).code :: file
  | .pipe left right => paren (render left) ++ bar :: paren (render right)
  | .list left right => paren (render left) ++ semi :: paren (render right)
  | .back cmd => paren (render cmd) ++ [amp]

/-- The tokens of a text in parentheses. -/
def parenTokens (ts : List Token) : List Token := .lparen :: (ts ++ .rparen :: [])

/-- The tokens of a command with all its parentheses. -/
def tokens : Cmd Text → List Token
  | .exec ws => ws.map .word
  | .redir cmd file mode _ => .lparen :: (tokens cmd ++ .rparen :: [operator mode, .word file])
  | .pipe left right => parenTokens (tokens left) ++ .bar :: parenTokens (tokens right)
  | .list left right => parenTokens (tokens left) ++ .semi :: parenTokens (tokens right)
  | .back cmd => parenTokens (tokens cmd) ++ [.amp]

def Stops (cs : Text) : Prop := ∀ x, cs.head? = some x → wordChar x = false

theorem lexes_word (hw : IsToken w) (hc : Stops cs) (h : Lexes cs ts) :
    Lexes (w ++ cs) (.word w :: ts) := by
  obtain ⟨hne, hchars⟩ := hw
  cases w with
  | nil => exact absurd rfl hne
  | cons c w => exact .word (fun x hx => (hchars x hx).1) hc h

theorem stops_cons {c : UInt8} (hc : wordChar c = false) (cs : Text) : Stops (c :: cs) := by
  intro x hx
  rw [← Option.some.inj hx]
  exact hc

variable {ws : List Text}

theorem lexes_words (hws : ∀ w ∈ ws, IsToken w) (hc : Stops cs) (h : Lexes cs ts) :
    Lexes (List.intercalate [32] ws ++ cs) (ws.map .word ++ ts) := by
  induction ws with
  | nil => exact h
  | cons w ws ih =>
    obtain ⟨hw, hws⟩ := List.forall_mem_cons.mp hws
    cases ws with
    | nil =>
      rw [show List.intercalate [32] [w] = w from List.append_nil w]
      exact lexes_word hw hc h
    | cons v ws =>
      have hrest : Lexes (32 :: (List.intercalate [32] (v :: ws) ++ cs)) ((v :: ws).map .word ++ ts) :=
        .space rfl (ih hws)
      have hlex := lexes_word hw (stops_cons rfl _) hrest
      rw [show List.intercalate [32] (w :: v :: ws) = w ++ 32 :: List.intercalate [32] (v :: ws) from rfl,
        List.append_assoc, List.cons_append]
      exact hlex

theorem lexes_paren {us : List Token}
    (hcs : ∀ {ds us}, Stops ds → Lexes ds us → Lexes (cs ++ ds) (ts ++ us)) (h : Lexes ds us) :
    Lexes (paren cs ++ ds) (parenTokens ts ++ us) := by
  have hclose : Lexes (rparen :: ds) (.rparen :: us) := Lexes.symbol (t := .rparen) (by decide) h
  have hopen := Lexes.symbol (t := .lparen) (by decide) (hcs (stops_cons rfl _) hclose)
  simp only [paren, parenTokens, List.cons_append, List.append_assoc, List.nil_append]
  exact hopen

/-- **The tokens of a command that is written out.** -/
theorem lexes_render (h : Printable tree) (hc : Stops cs) (hlex : Lexes cs ts) :
    Lexes (render tree ++ cs) (tokens tree ++ ts) := by
  induction tree generalizing cs ts with
  | exec ws => exact lexes_words h.2 hc hlex
  | redir cmd file mode fd ih =>
    obtain ⟨hcmd, hfile, hmode⟩ := h
    have hword := lexes_word hfile hc hlex
    have hop : Lexes ((operator mode).code :: (file ++ cs)) (operator mode :: .word file :: ts) := by
      rcases hmode with ⟨rfl, _⟩ | ⟨rfl, _⟩
      · exact Lexes.symbol (t := .less) (by decide) hword
      · refine Lexes.greater ?_ hword
        obtain ⟨hne, hchars⟩ := hfile
        cases file with
        | nil => exact absurd rfl hne
        | cons c file =>
          intro hhead
          have hc : c = greater := Option.some.inj hhead
          exact absurd (hchars c List.mem_cons_self).1 (by rw [hc]; decide)
    have hparen := lexes_paren (ih hcmd) hop
    rw [parenTokens, List.cons_append, List.append_assoc] at hparen
    rw [render, tokens, List.append_assoc, List.cons_append, List.cons_append, List.append_assoc]
    exact hparen
  | pipe left right ihl ihr =>
    have hright : Lexes (bar :: (paren (render right) ++ cs)) (.bar :: (parenTokens (tokens right) ++ ts)) :=
      Lexes.symbol (t := .bar) (by decide) (lexes_paren (ihr h.2) hlex)
    rw [render, tokens, List.append_assoc, List.append_assoc]
    exact lexes_paren (ihl h.1) hright
  | list left right ihl ihr =>
    have hright : Lexes (semi :: (paren (render right) ++ cs))
        (.semi :: (parenTokens (tokens right) ++ ts)) :=
      Lexes.symbol (t := .semi) (by decide) (lexes_paren (ihr h.2) hlex)
    rw [render, tokens, List.append_assoc, List.append_assoc]
    exact lexes_paren (ihl h.1) hright
  | back cmd ih =>
    have hamp : Lexes (amp :: cs) (.amp :: ts) := Lexes.symbol (t := .amp) (by decide) hlex
    rw [render, tokens, List.append_assoc, List.append_assoc]
    exact lexes_paren (ih h) hamp

theorem derives_paren (h : Derives .line ts tree) : Derives .pipe (parenTokens ts) tree :=
  .single (.block h .nil)

theorem derives_line (h : Derives .pipe ts tree) : Derives .line ts tree := by
  have hline := Derives.line 0 h
  rw [List.replicate_zero, List.append_nil] at hline
  exact hline

theorem args_words (ws : List Text) : Args (ws.map .word) ws [] := by
  induction ws with
  | nil => exact .nil
  | cons w ws ih => exact .cons .nil ih

/-- **The derivation of a command that is written out.** -/
theorem derives_tokens (h : Printable tree) : Derives .line (tokens tree) tree := by
  induction tree with
  | exec ws => exact derives_line (.single (.exec .nil (args_words ws) h.1))
  | redir cmd file mode fd ih =>
    obtain ⟨hcmd, _, hmode⟩ := h
    have hop : (operator mode).opens = some (mode, fd) := by
      rcases hmode with ⟨rfl, rfl⟩ | ⟨rfl, rfl⟩ <;> rfl
    exact derives_line (.single (.block (ih hcmd) (.cons hop .nil)))
  | pipe left right ihl ihr => exact derives_line (.pipe (.block (ihl h.1) .nil) (derives_paren (ihr h.2)))
  | list left right ihl ihr =>
    exact Derives.list 0 (derives_paren (ihl h.1)) (derives_line (derives_paren (ihr h.2)))
  | back cmd ih => exact Derives.line 1 (derives_paren (ih h))

theorem nul_words (hws : ∀ w ∈ ws, IsToken w) : (0 : UInt8) ∉ List.intercalate [32] ws := by
  induction ws with
  | nil => exact List.not_mem_nil
  | cons w ws ih =>
    obtain ⟨hw, hws⟩ := List.forall_mem_cons.mp hws
    have hnot : (0 : UInt8) ∉ w := fun hmem => (hw.2 0 hmem).2 rfl
    cases ws with
    | nil =>
      rw [show List.intercalate [32] [w] = w from List.append_nil w]
      exact hnot
    | cons v ws =>
      rw [show List.intercalate [32] (w :: v :: ws) = w ++ 32 :: List.intercalate [32] (v :: ws) from rfl,
        List.mem_append, List.mem_cons]
      rintro (hmem | hblank | hmem)
      · exact hnot hmem
      · exact absurd hblank (by decide)
      · exact ih hws hmem

theorem nul_paren (h : (0 : UInt8) ∉ cs) : (0 : UInt8) ∉ paren cs := by
  rw [paren, List.mem_cons, List.mem_append, List.mem_singleton]
  rintro (hopen | hmem | hclose)
  · exact absurd hopen (by decide)
  · exact h hmem
  · exact absurd hclose (by decide)

theorem nul_append {c : UInt8} (hcs : (0 : UInt8) ∉ cs) (hc : c ≠ 0) (hds : (0 : UInt8) ∉ ds) :
    (0 : UInt8) ∉ cs ++ c :: ds := by
  rw [List.mem_append, List.mem_cons]
  rintro (hmem | heq | hmem)
  · exact hcs hmem
  · exact hc heq.symm
  · exact hds hmem

theorem nul_render (h : Printable tree) : (0 : UInt8) ∉ render tree := by
  induction tree with
  | exec ws => exact nul_words h.2
  | redir cmd file mode fd ih =>
    have hop : (operator mode).code ≠ 0 := by
      rw [operator]
      split_ifs <;> decide
    exact nul_append (nul_paren (ih h.1)) hop fun hmem => (h.2.1.2 0 hmem).2 rfl
  | pipe left right ihl ihr => exact nul_append (nul_paren (ihl h.1)) (by decide) (nul_paren (ihr h.2))
  | list left right ihl ihr => exact nul_append (nul_paren (ihl h.1)) (by decide) (nul_paren (ihr h.2))
  | back cmd ih => exact nul_append (nul_paren (ih h)) (by decide) List.not_mem_nil

/-! ### The results -/

/-- The command of a text, as a tree of its words. -/
def Parses (text : Text) (tree : Cmd Text) : Prop :=
  ∃ cmd buf, parsecmd (buffer text) = .ok (cmd, buf) ∧ cmd.map (slice text) = tree

/-- **`parsecmd` parses exactly what the grammar derives.** -/
theorem parses_iff (hnul : (0 : UInt8) ∉ text) (tree : Cmd Text) :
    Parses text tree ↔ ∃ ts, Lexes text ts ∧ Derives .line ts tree := by
  constructor
  · rintro ⟨cmd, buf, hok, rfl⟩
    obtain ⟨ts, hlex⟩ := exists_lexes text
    rcases parsecmd_cases hnul hlex with ⟨cmd', tree, hok', hrel, hderives⟩ | ⟨⟨msg, herr⟩, _⟩
    · rw [hok] at hok'
      have hcmd : cmd = cmd' := (Prod.mk.injEq .. ▸ Except.ok.inj hok').1
      rw [hcmd, map_of_rel (fun v w hw => hw.slice_eq) hrel]
      exact ⟨ts, hlex, hderives⟩
    · rw [hok] at herr
      cases herr
  · rintro ⟨ts, hlex, hderives⟩
    rcases parsecmd_cases hnul hlex with ⟨cmd, tree', hok, hrel, hderives'⟩ | ⟨_, hnone⟩
    · refine ⟨cmd, _, hok, ?_⟩
      rw [map_of_rel (fun v w hw => hw.slice_eq) hrel]
      exact derives_unique hderives' hderives
    · exact absurd hderives (hnone tree)

/-- **The shell parser accepts exactly its grammar.**  On every text it ends without reading or writing beyond
the terminator; it returns a command exactly if the tokens of the text derive one, and then that one; and a
command that is written out with all its parentheses is parsed back. -/
theorem parsecmd_accepts :
    (∀ text : Text, (0 : UInt8) ∉ text →
      ((∃ cmd buf, parsecmd (buffer text) = .ok (cmd, buf)) ∨ ∃ msg,
        parsecmd (buffer text) = .error (.panic msg))
      ∧ ∀ tree, Parses text tree ↔ ∃ ts, Lexes text ts ∧ Derives .line ts tree)
    ∧ ∀ tree, Printable tree → Parses (render tree) tree := by
  refine ⟨fun text hnul => ⟨?_, parses_iff hnul⟩, fun tree h => ?_⟩
  · obtain ⟨ts, hlex⟩ := exists_lexes text
    rcases parsecmd_cases hnul hlex with ⟨cmd, _, hok, _⟩ | ⟨herr, _⟩
    · exact Or.inl ⟨cmd, _, hok⟩
    · exact Or.inr herr
  · refine (parses_iff (nul_render h) tree).mpr ⟨tokens tree, ?_, derives_tokens h⟩
    have hlex := lexes_render h (fun x hx => by cases hx) Lexes.nil
    rw [List.append_nil, List.append_nil] at hlex
    exact hlex

/-- `(a b) > c`. -/
theorem parsecmd_accepts_redirected :
    Parses (render (.redir (.exec [[97], [98]]) [99] (O_WRONLY ||| O_CREATE) 1))
    (.redir (.exec [[97], [98]]) [99] 513 1) := by
  have hword : ∀ c ∈ [(97 : UInt8), 98, 99], IsToken [c] := by
    intro c hc
    simp only [List.mem_cons, List.not_mem_nil, or_false] at hc
    rcases hc with rfl | rfl | rfl <;> exact ⟨by decide, List.forall_mem_singleton.mpr ⟨rfl, by decide⟩⟩
  refine parsecmd_accepts.2 _ ⟨⟨by decide, ?_⟩, hword 99 (by decide), Or.inr ⟨rfl, rfl⟩⟩
  intro w hw
  simp only [List.mem_cons, List.not_mem_nil, or_false] at hw
  rcases hw with rfl | rfl
  · exact hword 97 (by decide)
  · exact hword 98 (by decide)

/-- The C string at a position of a buffer. -/
def cstring (buf : Text) (s : ℕ) : Text := (buf.drop s).takeWhile fun c => c ≠ 0

theorem takeWhile_of_getElem? {l : Text} (hw : ∀ k < w.length, l[k]? = w[k]?) (hend : l[w.length]? = some 0)
    (hnul : (0 : UInt8) ∉ w) : l.takeWhile (fun c => c ≠ 0) = w := by
  induction w generalizing l with
  | nil =>
    obtain ⟨l, rfl⟩ : ∃ l', l = 0 :: l' :=
      List.head?_eq_some_iff.mp (by rw [List.head?_eq_getElem?]; exact hend)
    rfl
  | cons c w ih =>
    have hfirst : l.head? = some c := by
      rw [List.head?_eq_getElem?]
      exact hw 0 (Nat.succ_pos _)
    obtain ⟨l, rfl⟩ := List.head?_eq_some_iff.mp hfirst
    have hc : c ≠ 0 := fun h => hnul (h ▸ List.mem_cons_self)
    rw [List.takeWhile_cons_of_pos (by simpa using hc)]
    congr 1
    refine ih (fun k hk => ?_) hend fun h => hnul (List.mem_cons_of_mem c h)
    exact hw (k + 1) (Nat.succ_lt_succ hk)

variable {p : ℕ × ℕ}

theorem getElem?_word (h : IsWord text p w) {i : ℕ} (hi : i < w.length) : text[p.1 + i]? = w[i]? := by
  rw [← List.getElem?_drop, h.first.drop, List.getElem?_append_left hi]

/-- **The end of a word is not in a word.** -/
theorem end_not_in_word {q : ℕ × ℕ} {v : Text} (hp : IsWord text p v) (hq : IsWord text q w) :
    ¬ (q.1 ≤ p.2 ∧ p.2 < q.2) := by
  rintro ⟨hge, hlt⟩
  have hlast := hq.last
  obtain ⟨i, hi⟩ : ∃ i, p.2 = q.1 + i := ⟨p.2 - q.1, by omega⟩
  have hget := getElem?_word hq (show i < w.length by omega)
  rw [← hi, List.getElem?_eq_getElem (show i < w.length by omega)] at hget
  have hchar := hq.chars _ (List.getElem_mem (show i < w.length by omega))
  have hstop := hp.stops _ (by rw [List.head?_drop]; exact hget)
  rw [hchar] at hstop
  cases hstop

/-- **A word after `nulterminate`** is the C string that it was. -/
theorem cstring_clear {ends : List ℕ} (h : IsWord text p w) (hmem : p.2 ∈ ends)
    (hends : ∀ e ∈ ends, ¬ (p.1 ≤ e ∧ e < p.2)) (hnul : (0 : UInt8) ∉ text) :
    cstring (clear (buffer text) ends) p.1 = w := by
  have hlast := h.last
  have hlen := h.first.length
  rw [List.length_append, List.length_drop] at hlen
  have hbuf : (buffer text).length = text.length + 1 := by
    rw [buffer, List.length_append, List.length_singleton]
  refine takeWhile_of_getElem? (fun k hk => ?_) ?_ ?_
  · rw [List.getElem?_drop, clear_getElem?, if_neg fun hc => hends _ hc.1 ⟨by omega, by omega⟩, buffer,
      List.getElem?_append_left (by omega)]
    exact getElem?_word h hk
  · rw [List.getElem?_drop, clear_getElem?, if_pos ⟨by rw [← hlast]; exact hmem, by omega⟩]
  · intro hc
    have hmem : (0 : UInt8) ∈ text.drop p.1 := by
      rw [h.first.drop]
      exact List.mem_append_left _ hc
    exact hnul (List.mem_of_mem_drop hmem)

/-- **Every word of a command survives `nulterminate`**: read as a C string it is its token, a word of the
text.  No terminator is written into a word. -/
theorem nulterminate_words (hnul : (0 : UInt8) ∉ text) (h : parsecmd (buffer text) = .ok (cmd, buf)) :
    (∀ v ∈ cmd.words, IsWord text v (slice text v) ∧ cstring buf v.1 = slice text v)
      ∧ ∀ v ∈ cmd.words, ∀ u ∈ cmd.words, ¬ (u.1 ≤ v.2 ∧ v.2 < u.2) := by
  obtain ⟨ts, hlex⟩ := exists_lexes text
  rcases parsecmd_cases hnul hlex with ⟨cmd', tree, hok, hrel, _⟩ | ⟨⟨msg, herr⟩, _⟩
  · rw [h] at hok
    obtain ⟨rfl, rfl⟩ : cmd = cmd' ∧ buf = clear (buffer text) (cmd'.words.map Prod.snd) :=
      Prod.mk.injEq .. ▸ Except.ok.inj hok
    have hwords : ∀ v ∈ cmd.words, IsWord text v (slice text v) := by
      intro v hv
      obtain ⟨w, hw⟩ := words_of_rel hrel v hv
      rw [hw.slice_eq]
      exact hw
    have hapart : ∀ v ∈ cmd.words, ∀ u ∈ cmd.words, ¬ (u.1 ≤ v.2 ∧ v.2 < u.2) :=
      fun v hv u hu => end_not_in_word (hwords v hv) (hwords u hu)
    refine ⟨fun v hv =>
      ⟨hwords v hv, cstring_clear (hwords v hv) (List.mem_map_of_mem hv) (fun e he => ?_) hnul⟩, hapart⟩
    obtain ⟨u, hu, rfl⟩ := List.mem_map.mp he
    exact hapart u hu v hv
  · rw [h] at herr
    cases herr

/-- `a>b|c`. -/
theorem nulterminate_words_adjacent : ∃ cmd buf, parsecmd (buffer [97, greater, 98, bar, 99]) = .ok (cmd, buf)
    ∧ cmd = .pipe (.redir (.exec [(0, 1)]) (2, 3) 513 1) (.exec [(4, 5)])
    ∧ ∀ v ∈ cmd.words, cstring buf v.1 = slice [97, greater, 98, bar, 99] v := by
  have heval : ((parsecmd (buffer [97, greater, 98, bar, 99])).toOption.map Prod.fst)
      = some (.pipe (.redir (.exec [(0, 1)]) (2, 3) 513 1) (.exec [(4, 5)])) := by decide +kernel
  cases hok : parsecmd (buffer [97, greater, 98, bar, 99]) with
  | error e =>
    rw [hok] at heval
    cases heval
  | ok r =>
    obtain ⟨cmd, buf⟩ := r
    rw [hok] at heval
    exact ⟨cmd, buf, rfl, Option.some.inj heval, fun v hv => ((nulterminate_words (by decide) hok).1 v hv).2⟩

end Xv6e.User.ShCommands
