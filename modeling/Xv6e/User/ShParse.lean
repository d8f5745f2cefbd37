import Xv6e.User.ShGrammar

/-!
# The shell parser on a buffer

`gettoken` and `peek` on a buffer do what the scanner of a list of tokens does, so that `parsecmd` accepts
what the grammar derives from the tokens of the text.

* `Simulates` — one scanner does what another does; then so do the parsing functions (`parse_same`);
* `Lexes` — the tokens of a text, with the longest words;
* `scanner_simulates` — the scanner of `sh.c`.
-/

namespace Xv6e.User.ShParse

open Sh ShGrammar Library.Fallible

/-! ### Scanners -/

section Simulation

variable {σ τ ω υ : Type} {A : Scanner σ ω} {B : Scanner τ υ} {R : σ → τ → Prop} {W : ω → υ → Prop}

/-- Scanner `A` does what `B` does, where `R` relates cursors and `W` words. -/
structure Simulates (A : Scanner σ ω) (B : Scanner τ υ) (R : σ → τ → Prop) (W : ω → υ → Prop) : Prop where
  gettoken : ∀ {s t}, R s t → ∃ c v w s' t', A.gettoken s = .ok (c, v, s')
    ∧ B.gettoken t = .ok (c, w, t') ∧ R s' t' ∧ (c = letter → W v w)
  peek : ∀ (toks : Text) {s t}, toks ⊆ symbols → R s t → ∃ b s' t', A.peek toks s = .ok (b, s')
    ∧ B.peek toks t = .ok (b, t') ∧ R s' t'

/-- Commands of one shape, with related words. -/
inductive Rel (W : ω → υ → Prop) : Cmd ω → Cmd υ → Prop
  | exec {as : List ω} {bs : List υ} (h : List.Forall₂ W as bs) : Rel W (.exec as) (.exec bs)
  | redir {c : Cmd ω} {d : Cmd υ} {v : ω} {w : υ} {mode fd : ℕ} (h : Rel W c d) (hw : W v w) :
      Rel W (.redir c v mode fd) (.redir d w mode fd)
  | pipe {c c' : Cmd ω} {d d' : Cmd υ} (h : Rel W c d) (h' : Rel W c' d') : Rel W (.pipe c c') (.pipe d d')
  | list {c c' : Cmd ω} {d d' : Cmd υ} (h : Rel W c d) (h' : Rel W c' d') : Rel W (.list c c') (.list d d')
  | back {c : Cmd ω} {d : Cmd υ} (h : Rel W c d) : Rel W (.back c) (.back d)

/-- Two calls stop for the same reason, or return related commands at related cursors. -/
def Same (R : σ → τ → Prop) (W : ω → υ → Prop) (x : Except Stop (Cmd ω × σ))
    (y : Except Stop (Cmd υ × τ)) : Prop :=
  (∃ e, x = .error e ∧ y = .error e) ∨ ∃ c s d t, x = .ok (c, s) ∧ y = .ok (d, t) ∧ Rel W c d ∧ R s t

theorem same_error (e : Stop) : Same R W (.error e) (.error e) := Or.inl ⟨e, rfl, rfl⟩

theorem same_ok {c : Cmd ω} {d : Cmd υ} {s : σ} {t : τ} (h : Rel W c d) (hR : R s t) :
    Same R W (.ok (c, s)) (.ok (d, t)) :=
  Or.inr ⟨c, s, d, t, rfl, rfl, h, hR⟩

theorem same_bind {x : Except Stop (Cmd ω × σ)} {y : Except Stop (Cmd υ × τ)}
    {f : Cmd ω × σ → Except Stop (Cmd ω × σ)} {g : Cmd υ × τ → Except Stop (Cmd υ × τ)} (h : Same R W x y)
    (hfg : ∀ c s d t, Rel W c d → R s t → Same R W (f (c, s)) (g (d, t))) : Same R W (x >>= f) (y >>= g) := by
  rcases h with ⟨e, rfl, rfl⟩ | ⟨c, s, d, t, rfl, rfl, hrel, hR⟩
  · exact same_error e
  · exact hfg c s d t hrel hR

theorem Rel.addArg {c : Cmd ω} {d : Cmd υ} {v : ω} {w : υ} (h : Rel W c d) (hw : W v w) :
    Rel W (c.addArg v) (d.addArg w) := by
  induction h with
  | exec h => exact .exec (List.rel_append h (.cons hw .nil))
  | redir h hf ih => exact .redir ih hf
  | pipe h h' => exact .pipe h h'
  | list h h' => exact .list h h'
  | back h => exact .back h

theorem Rel.redirect {c : Cmd ω} {d : Cmd υ} {v : ω} {w : υ} (h : Rel W c d) (hw : W v w) (tok : UInt8) :
    Rel W (redirect tok c v) (redirect tok d w) := by
  unfold Sh.redirect
  split_ifs
  · exact .redir h hw
  · exact .redir h hw
  · exact .redir h hw
  · exact h

section

variable (hsim : Simulates A B R W)
include hsim

theorem parseredirs_same (fuel : ℕ) {c : Cmd ω} {d : Cmd υ} {s : σ} {t : τ} (h : Rel W c d) (hR : R s t) :
    Same R W (parseredirs A fuel c s) (parseredirs B fuel d t) := by
  induction fuel generalizing c d s t with
  | zero => exact same_error _
  | succ fuel ih =>
    obtain ⟨b, s₁, t₁, hA, hB, hR₁⟩ := hsim.peek [less, greater] (by decide) hR
    simp only [parseredirs, hA, hB, ok_bind]
    by_cases hb : b = true
    · obtain ⟨tok, v₁, w₁, s₂, t₂, hA₂, hB₂, hR₂, _⟩ := hsim.gettoken hR₁
      obtain ⟨next, v, w, s₃, t₃, hA₃, hB₃, hR₃, hw⟩ := hsim.gettoken hR₂
      simp only [if_pos hb, hA₂, hB₂, hA₃, hB₃, ok_bind]
      by_cases hnext : next = letter
      · rw [if_neg (not_not.mpr hnext), if_neg (not_not.mpr hnext)]
        exact ih (h.redirect (hw hnext) tok) hR₃
      · rw [if_pos hnext, if_pos hnext]
        exact same_error _
    · simp only [if_neg hb]
      exact same_ok h hR₁

theorem argLoop_same (fuel argc : ℕ) {c : Cmd ω} {d : Cmd υ} {s : σ} {t : τ} (h : Rel W c d) (hR : R s t) :
    Same R W (argLoop A fuel argc c s) (argLoop B fuel argc d t) := by
  induction fuel generalizing argc c d s t with
  | zero => exact same_error _
  | succ fuel ih =>
    obtain ⟨b, s₁, t₁, hA, hB, hR₁⟩ := hsim.peek [bar, rparen, amp, semi] (by decide) hR
    simp only [argLoop, hA, hB, ok_bind]
    by_cases hb : b = true
    · simp only [if_pos hb]
      exact same_ok h hR₁
    · obtain ⟨tok, v, w, s₂, t₂, hA₂, hB₂, hR₂, hw⟩ := hsim.gettoken hR₁
      simp only [if_neg hb, hA₂, hB₂, ok_bind]
      by_cases hzero : tok = 0
      · rw [if_pos hzero, if_pos hzero]
        exact same_ok h hR₂
      rw [if_neg hzero, if_neg hzero]
      by_cases hword : tok = letter
      · rw [if_neg (not_not.mpr hword), if_neg (not_not.mpr hword)]
        by_cases hmany : MAXARGS ≤ argc + 1
        · rw [if_pos hmany, if_pos hmany]
          exact same_error _
        · rw [if_neg hmany, if_neg hmany]
          exact same_bind (parseredirs_same hsim fuel (h.addArg (hw hword)) hR₂) fun c s d t h hR =>
            ih (argc + 1) h hR
      · rw [if_pos hword, if_pos hword]
        exact same_error _

theorem backLoop_same (fuel : ℕ) {c : Cmd ω} {d : Cmd υ} {s : σ} {t : τ} (h : Rel W c d) (hR : R s t) :
    Same R W (backLoop A fuel c s) (backLoop B fuel d t) := by
  induction fuel generalizing c d s t with
  | zero => exact same_error _
  | succ fuel ih =>
    obtain ⟨b, s₁, t₁, hA, hB, hR₁⟩ := hsim.peek [amp] (by decide) hR
    simp only [backLoop, hA, hB, ok_bind]
    by_cases hb : b = true
    · obtain ⟨tok, v, w, s₂, t₂, hA₂, hB₂, hR₂, _⟩ := hsim.gettoken hR₁
      simp only [if_pos hb, hA₂, hB₂, ok_bind]
      exact ih (.back h) hR₂
    · simp only [if_neg hb]
      exact same_ok h hR₁

/-- An operator and what follows it: `;` after a pipe, `|` after an `exec`. -/
theorem operator_same (op : UInt8) (hop : [op] ⊆ symbols) {c : Cmd ω} {d : Cmd υ} {s : σ} {t : τ}
    (h : Rel W c d) (hR : R s t) {f : σ → Except Stop (Cmd ω × σ)} {g : τ → Except Stop (Cmd υ × τ)}
    (hfg : ∀ s t, R s t → Same R W (f s) (g t)) :
    Same R W (A.peek [op] s >>= fun r => if r.1 then A.gettoken r.2 >>= fun r => f r.2.2 else .ok (c, r.2))
      (B.peek [op] t >>= fun r => if r.1 then B.gettoken r.2 >>= fun r => g r.2.2 else .ok (d, r.2)) := by
  obtain ⟨b, s₁, t₁, hA, hB, hR₁⟩ := hsim.peek [op] hop hR
  simp only [hA, hB, ok_bind]
  by_cases hb : b = true
  · obtain ⟨tok, v, w, s₂, t₂, hA₂, hB₂, hR₂, _⟩ := hsim.gettoken hR₁
    simp only [if_pos hb, hA₂, hB₂, ok_bind]
    exact hfg s₂ t₂ hR₂
  · simp only [if_neg hb]
    exact same_ok h hR₁

/-- **The parsing functions do the same over the two scanners.** -/
theorem parse_same (fuel : ℕ) :
    (∀ s t, R s t → Same R W (parseline A fuel s) (parseline B fuel t))
      ∧ (∀ s t, R s t → Same R W (parsepipe A fuel s) (parsepipe B fuel t))
      ∧ (∀ s t, R s t → Same R W (parseexec A fuel s) (parseexec B fuel t))
      ∧ ∀ s t, R s t → Same R W (parseblock A fuel s) (parseblock B fuel t) := by
  induction fuel with
  | zero =>
    exact ⟨fun _ _ _ => same_error _, fun _ _ _ => same_error _, fun _ _ _ => same_error _,
      fun _ _ _ => same_error _⟩
  | succ fuel ih =>
    obtain ⟨hline, hpipe, hexec, hblock⟩ := ih
    refine ⟨fun s t hR => ?_, fun s t hR => ?_, fun s t hR => ?_, fun s t hR => ?_⟩
    · rw [parseline, parseline]
      refine same_bind (hpipe s t hR) fun c s d t h hR => ?_
      refine same_bind (backLoop_same hsim fuel h hR) fun c s d t h hR => ?_
      exact operator_same (f := fun s => parseline A fuel s >>= fun r => .ok (.list c r.1, r.2))
        (g := fun t => parseline B fuel t >>= fun r => .ok (.list d r.1, r.2)) hsim semi
        (by decide) h hR fun s t hR =>
          same_bind (hline s t hR) fun c' s d' t h' hR => same_ok (.list h h') hR
    · rw [parsepipe, parsepipe]
      refine same_bind (hexec s t hR) fun c s d t h hR => ?_
      exact operator_same (f := fun s => parsepipe A fuel s >>= fun r => .ok (.pipe c r.1, r.2))
        (g := fun t => parsepipe B fuel t >>= fun r => .ok (.pipe d r.1, r.2)) hsim bar
        (by decide) h hR fun s t hR =>
          same_bind (hpipe s t hR) fun c' s d' t h' hR => same_ok (.pipe h h') hR
    · obtain ⟨b, s₁, t₁, hA, hB, hR₁⟩ := hsim.peek [lparen] (by decide) hR
      simp only [parseexec, hA, hB, ok_bind]
      by_cases hb : b = true
      · simp only [if_pos hb]
        exact hblock s₁ t₁ hR₁
      · simp only [if_neg hb]
        exact same_bind (parseredirs_same hsim fuel (.exec .nil) hR₁) fun c s d t h hR =>
          argLoop_same hsim fuel 0 h hR
    · obtain ⟨b, s₁, t₁, hA, hB, hR₁⟩ := hsim.peek [lparen] (by decide) hR
      simp only [parseblock, hA, hB, ok_bind]
      by_cases hb : b = false
      · simp only [if_pos hb]
        exact same_error _
      obtain ⟨tok, v, w, s₂, t₂, hA₂, hB₂, hR₂, _⟩ := hsim.gettoken hR₁
      simp only [if_neg hb, hA₂, hB₂, ok_bind]
      refine same_bind (hline s₂ t₂ hR₂) fun c s d t h hR => ?_
      obtain ⟨b', s₃, t₃, hA₃, hB₃, hR₃⟩ := hsim.peek [rparen] (by decide) hR
      simp only [hA₃, hB₃, ok_bind]
      by_cases hb' : b' = false
      · simp only [if_pos hb']
        exact same_error _
      obtain ⟨tok, v, w, s₄, t₄, hA₄, hB₄, hR₄, _⟩ := hsim.gettoken hR₃
      simp only [if_neg hb', hA₄, hB₄, ok_bind]
      exact parseredirs_same hsim fuel h hR₄

end

end Simulation

/-! ### The tokens of a text -/

/-- **The tokens of a text**: whitespace separates them, `>>` is one, and a word is as long as it can be. -/
inductive Lexes : Text → List Token → Prop
  | nil : Lexes [] []
  | space {c : UInt8} {cs : Text} {ts : List Token} (hc : strchr whitespace c = true) (h : Lexes cs ts) :
      Lexes (c :: cs) ts
  | symbol {t : Token} {cs : Text} {ts : List Token}
      (ht : t ∈ [Token.bar, .amp, .semi, .lparen, .rparen, .less])
      (h : Lexes cs ts) : Lexes (t.code :: cs) (t :: ts)
  | append {cs : Text} {ts : List Token} (h : Lexes cs ts) :
      Lexes (Sh.greater :: Sh.greater :: cs) (.append :: ts)
  | greater {cs : Text} {ts : List Token} (hc : cs.head? ≠ some Sh.greater) (h : Lexes cs ts) :
      Lexes (Sh.greater :: cs) (.greater :: ts)
  | word {c : UInt8} {w cs : Text} {ts : List Token} (hw : ∀ x ∈ c :: w, wordChar x = true)
      (hc : ∀ x, cs.head? = some x → wordChar x = false) (h : Lexes cs ts) : Lexes (c :: (w ++ cs))
      (.word (c :: w) :: ts)

theorem head_dropWhile (p : UInt8 → Bool) (cs : Text) {x : UInt8} (h : (cs.dropWhile p).head? = some x) :
    p x = false := by
  have hnot := List.head?_dropWhile_not p cs
  rw [h] at hnot
  exact hnot

theorem char_cases (c : UInt8) : strchr whitespace c = true ∨ wordChar c = true
    ∨ c = Sh.greater ∨ ∃ t ∈ [Token.bar, .amp, .semi, .lparen, .rparen, .less], c = t.code := by
  by_cases hspace : strchr whitespace c = true
  · exact Or.inl hspace
  by_cases hsym : strchr symbols c = true
  · rw [strchr, List.contains_iff_mem] at hsym
    simp only [symbols, List.mem_cons, List.not_mem_nil, or_false] at hsym
    rcases hsym with rfl | rfl | rfl | rfl | rfl | rfl | rfl
    · exact Or.inr (Or.inr (Or.inr ⟨.less, by decide, rfl⟩))
    · exact Or.inr (Or.inr (Or.inr ⟨.bar, by decide, rfl⟩))
    · exact Or.inr (Or.inr (Or.inl rfl))
    · exact Or.inr (Or.inr (Or.inr ⟨.amp, by decide, rfl⟩))
    · exact Or.inr (Or.inr (Or.inr ⟨.semi, by decide, rfl⟩))
    · exact Or.inr (Or.inr (Or.inr ⟨.lparen, by decide, rfl⟩))
    · exact Or.inr (Or.inr (Or.inr ⟨.rparen, by decide, rfl⟩))
  · refine Or.inr (Or.inl ?_)
    rw [wordChar, Bool.eq_false_of_not_eq_true hspace, Bool.eq_false_of_not_eq_true hsym]
    rfl

theorem exists_lexes (cs : Text) : ∃ ts, Lexes cs ts := by
  induction hn : cs.length using Nat.strong_induction_on generalizing cs with
  | _ n ih =>
    cases cs with
    | nil => exact ⟨[], .nil⟩
    | cons c cs =>
      rw [List.length_cons] at hn
      rcases char_cases c with hspace | hword | rfl | ⟨t, ht, rfl⟩
      · obtain ⟨ts, hts⟩ := ih cs.length (by omega) cs rfl
        exact ⟨ts, .space hspace hts⟩
      · have hlen : (cs.dropWhile wordChar).length ≤ cs.length := (List.dropWhile_sublist _).length_le
        obtain ⟨ts, hts⟩ := ih (cs.dropWhile wordChar).length (by omega) _ rfl
        have hall : ∀ x ∈ c :: cs.takeWhile wordChar, wordChar x = true := by
          intro x hx
          rcases List.mem_cons.mp hx with rfl | hx
          · exact hword
          · exact List.mem_takeWhile_imp hx
        have hlex := Lexes.word hall (fun x hx => head_dropWhile wordChar cs hx) hts
        rw [List.takeWhile_append_dropWhile] at hlex
        exact ⟨_, hlex⟩
      · by_cases hnext : cs.head? = some Sh.greater
        · obtain ⟨ds, rfl⟩ : ∃ ds, cs = Sh.greater :: ds := List.head?_eq_some_iff.mp hnext
          rw [List.length_cons] at hn
          obtain ⟨ts, hts⟩ := ih ds.length (by omega) ds rfl
          exact ⟨_, .append hts⟩
        · obtain ⟨ts, hts⟩ := ih cs.length (by omega) cs rfl
          exact ⟨_, .greater hnext hts⟩
      · obtain ⟨ts, hts⟩ := ih cs.length (by omega) cs rfl
        exact ⟨_, .symbol ht hts⟩

theorem code_not_space {t : Token} (ht : t ∈ [Token.bar, .amp, .semi, .lparen, .rparen, .less]) :
    strchr whitespace t.code = false := by
  simp only [List.mem_cons, List.not_mem_nil, or_false] at ht
  rcases ht with rfl | rfl | rfl | rfl | rfl | rfl <;> rfl

theorem not_space_of_wordChar {c : UInt8} (h : wordChar c = true) :
    strchr whitespace c = false ∧ strchr symbols c = false := by
  rw [wordChar, Bool.and_eq_true, Bool.not_eq_true', Bool.not_eq_true'] at h
  exact h

variable {ts : List Token}

theorem Lexes.skip {cs : Text} (h : Lexes cs ts) : Lexes (cs.dropWhile (strchr whitespace)) ts := by
  induction h with
  | nil => exact .nil
  | space hc h ih =>
    rw [List.dropWhile_cons_of_pos hc]
    exact ih
  | symbol ht h =>
    rw [List.dropWhile_cons_of_neg (by rw [code_not_space ht]; exact Bool.false_ne_true)]
    exact .symbol ht h
  | append h => exact .append h
  | greater hc h => exact .greater hc h
  | word hw hc h =>
    rw [List.dropWhile_cons_of_neg (by
      rw [(not_space_of_wordChar (hw _ List.mem_cons_self)).1]
      exact Bool.false_ne_true)]
    exact .word hw hc h

/-! ### The scanner of a buffer -/

variable {w : Text}

section Buffer

variable {text : Text} {s : ℕ} {c : UInt8} {cs : Text}

/-- The buffer of a text: the text and its terminator. -/
def buffer (text : Text) : Text := text ++ [0]

/-- The cursor is in the text or at its end, with `cs` ahead of it. -/
structure At (text : Text) (s : ℕ) (cs : Text) : Prop where
  le : s ≤ text.length
  drop : text.drop s = cs

theorem At.length (h : At text s cs) : s + cs.length = text.length := by
  rw [← h.drop, List.length_drop]
  have := h.le
  omega

/-- **A read ahead of the cursor** is inside the buffer: a character of the text, or the terminator. -/
theorem At.read_cons (h : At text s (c :: cs)) : readByte (buffer text) s = .ok c ∧ At text (s + 1) cs := by
  have hlen := h.length
  rw [List.length_cons] at hlen
  have hget : text[s]? = some c := by
    rw [← List.head?_drop, h.drop]
    rfl
  have hread : (buffer text)[s]? = some c := by
    rw [buffer, List.getElem?_append_left (by omega)]
    exact hget
  refine ⟨by rw [readByte, hread], by omega, ?_⟩
  rw [← List.tail_drop, h.drop]
  rfl

theorem At.read_nil (h : At text s []) : readByte (buffer text) s = .ok 0 ∧ s = text.length := by
  have hlen := h.length
  rw [List.length_nil, Nat.add_zero] at hlen
  have hread : (buffer text)[s]? = some 0 := by
    rw [buffer, hlen, List.getElem?_append_right (le_refl _), Nat.sub_self]
    rfl
  exact ⟨by rw [readByte, hread], hlen⟩

theorem At.drop_append (h : At text s (w ++ cs)) : At text (s + w.length) cs := by
  have hlen := h.length
  rw [List.length_append] at hlen
  refine ⟨by omega, ?_⟩
  rw [← List.drop_drop, h.drop, List.drop_left]

/-- The loops of the scanner stop at the first character that is not theirs. -/
theorem At.advance (p : UInt8 → Bool) {fuel : ℕ} (h : At text s cs) (hfuel : cs.length < fuel) :
    advance (buffer text) text.length p fuel s = .ok (s + (cs.takeWhile p).length) := by
  induction cs generalizing s fuel with
  | nil =>
    obtain ⟨fuel, rfl⟩ : ∃ k, fuel = k + 1 := ⟨fuel - 1, by omega⟩
    have hend := h.read_nil.2
    rw [Sh.advance, if_neg (by omega)]
    rfl
  | cons c cs ih =>
    obtain ⟨hread, hnext⟩ := h.read_cons
    have hlen := h.length
    rw [List.length_cons] at hfuel hlen
    obtain ⟨fuel, rfl⟩ : ∃ k, fuel = k + 1 := ⟨fuel - 1, by omega⟩
    rw [Sh.advance, if_pos (by omega), hread, ok_bind]
    by_cases hp : p c = true
    · rw [if_pos hp, ih hnext (by omega), List.takeWhile_cons_of_pos hp, List.length_cons]
      congr 1
      omega
    · rw [if_neg hp, List.takeWhile_cons_of_neg hp]
      rfl

theorem At.skip (h : At text s cs) :
    ∃ s', skip (buffer text) text.length s = .ok s' ∧ At text s' (cs.dropWhile (strchr whitespace)) := by
  have hlen := h.length
  have hadvance := h.advance (strchr whitespace) (show cs.length < text.length + 1 by omega)
  refine ⟨_, hadvance, At.drop_append ?_⟩
  rw [List.takeWhile_append_dropWhile]
  exact h

/-- The characters between two positions. -/
def slice (text : Text) (p : ℕ × ℕ) : Text := (text.drop p.1).take (p.2 - p.1)

/-- **A word of the text**: characters of words, up to one that is not. -/
structure IsWord (text : Text) (p : ℕ × ℕ) (w : Text) : Prop where
  first : At text p.1 (w ++ text.drop p.2)
  last : p.2 = p.1 + w.length
  ne : w ≠ []
  chars : ∀ x ∈ w, wordChar x = true
  stops : ∀ x, (text.drop p.2).head? = some x → wordChar x = false

theorem IsWord.slice_eq {p : ℕ × ℕ} (h : IsWord text p w) : slice text p = w := by
  rw [slice, h.first.drop, h.last, Nat.add_sub_cancel_left, List.take_left]

/-- The cursor has these tokens ahead of it. -/
def Ahead (text : Text) (s : ℕ) (ts : List Token) : Prop := ∃ cs, At text s cs ∧ Lexes cs ts

theorem Ahead.skip (h : Ahead text s ts) :
    ∃ s' cs, Sh.skip (buffer text) text.length s = .ok s' ∧ At text s' cs ∧ Lexes cs ts
      ∧ ∀ x, cs.head? = some x → strchr whitespace x = false := by
  obtain ⟨cs, hat, hlex⟩ := h
  obtain ⟨s', hskip, hat'⟩ := hat.skip
  exact ⟨s', _, hskip, hat', hlex.skip, fun x hx => head_dropWhile _ cs hx⟩

theorem strchr_false_of_subset {a b : Text} (hab : a ⊆ b) (h : strchr b c = false) : strchr a c = false := by
  rw [strchr, List.contains_eq_mem, decide_eq_false_iff_not] at h ⊢
  exact fun hc => h (hab hc)

theorem At.ne_zero (h : At text s (c :: cs)) (hnul : (0 : UInt8) ∉ text) : c ≠ 0 := by
  rintro rfl
  have hmem : (0 : UInt8) ∈ text.drop s := by
    rw [h.drop]
    exact List.mem_cons_self
  exact hnul (List.mem_of_mem_drop hmem)

theorem code_ne_zero {t : Token} (ht : t ∈ [Token.bar, .amp, .semi, .lparen, .rparen, .less]) :
    t.code ≠ 0 ∧ t.code ≠ letter ∧ strchr [bar, lparen, rparen, semi, amp, less] t.code = true
      ∧ t.first = some t.code := by
  simp only [List.mem_cons, List.not_mem_nil, or_false] at ht
  rcases ht with rfl | rfl | rfl | rfl | rfl | rfl
  all_goals exact ⟨by decide, by decide, rfl, rfl⟩

theorem takeWhile_word (hw : ∀ x ∈ w, wordChar x = true) (hc : ∀ x, cs.head? = some x → wordChar x = false) :
    (w ++ cs).takeWhile wordChar = w := by
  rw [List.takeWhile_append_of_pos hw]
  cases cs with
  | nil => rw [List.takeWhile_nil, List.append_nil]
  | cons x cs =>
    rw [List.takeWhile_cons_of_neg (by rw [hc x rfl]; exact Bool.false_ne_true), List.append_nil]

/-- **The `switch` of `gettoken`** returns the code of the first token, and stands behind it. -/
theorem token_spec (h : At text s cs) (hnul : (0 : UInt8) ∉ text) (hlex : Lexes cs ts)
    (hspace : ∀ x, cs.head? = some x → strchr whitespace x = false) :
    ∃ ret w rest e, tokenScanner.gettoken ts = .ok (ret, w, rest) ∧ token (buffer text) text.length s
      = .ok (ret, e) ∧ Ahead text e rest ∧ (ret = letter → IsWord text (s, e) w) := by
  cases hlex with
  | nil =>
    obtain ⟨hread, _⟩ := h.read_nil
    refine ⟨0, [], [], s, rfl, ?_, ⟨[], h, .nil⟩, fun hc => absurd hc (by decide)⟩
    rw [token, hread, ok_bind, if_pos rfl]
  | space hc => exact absurd hc (by rw [hspace _ rfl]; exact Bool.false_ne_true)
  | @symbol t cs ts ht hlex =>
    obtain ⟨hread, hnext⟩ := h.read_cons
    obtain ⟨hzero, hword, hsym, _⟩ := code_ne_zero ht
    refine ⟨t.code, t.text, ts, s + 1, rfl, ?_, ⟨cs, hnext, hlex⟩, fun hc => absurd hc hword⟩
    rw [token, hread, ok_bind, if_neg hzero, if_pos hsym]
  | @append cs ts hlex =>
    obtain ⟨hread, hnext⟩ := h.read_cons
    obtain ⟨hread', hnext'⟩ := hnext.read_cons
    refine ⟨plus, [], ts, s + 2, rfl, ?_, ⟨cs, hnext', hlex⟩, fun hc => absurd hc (by decide)⟩
    rw [token, hread, ok_bind, if_neg (by decide), if_neg (by decide), if_pos rfl, hread',
      ok_bind, if_pos rfl]
  | @greater cs ts hc hlex =>
    obtain ⟨hread, hnext⟩ := h.read_cons
    refine ⟨Sh.greater, [], ts, s + 1, rfl, ?_, ⟨cs, hnext, hlex⟩, fun hc => absurd hc (by decide)⟩
    -- the character behind `>` is the terminator, or another one than `>`
    obtain ⟨d, hread', hd⟩ : ∃ d, readByte (buffer text) (s + 1) = .ok d ∧ d ≠ Sh.greater := by
      cases cs with
      | nil => exact ⟨0, hnext.read_nil.1, by decide⟩
      | cons d cs => exact ⟨d, hnext.read_cons.1, fun hd => hc (by rw [hd]; rfl)⟩
    rw [token, hread, ok_bind, if_neg (by decide), if_neg (by decide), if_pos rfl, hread', ok_bind, if_neg hd]
  | @word c w cs ts hw hc hlex =>
    obtain ⟨hread, _⟩ := h.read_cons
    have hsym := (not_space_of_wordChar (hw c List.mem_cons_self)).2
    have hgreater : c ≠ Sh.greater := by
      rintro rfl
      exact absurd hsym (by decide)
    have hother : ¬ strchr [bar, lparen, rparen, semi, amp, less] c = true := by
      rw [strchr_false_of_subset (by decide) hsym]
      exact Bool.false_ne_true
    have hlen := h.length
    have hnext : At text (s + (c :: w).length) cs := At.drop_append h
    refine ⟨letter, c :: w, ts, s + (c :: w).length, rfl, ?_, ⟨cs, hnext, hlex⟩,
      fun _ => ⟨?_, rfl, List.cons_ne_nil _ _, hw, ?_⟩⟩
    · rw [token, hread, ok_bind, if_neg (h.ne_zero hnul), if_neg hother, if_neg hgreater,
        h.advance wordChar (by omega), ok_bind, ← List.cons_append, takeWhile_word hw hc]
    · rw [hnext.drop]
      exact h
    · rw [hnext.drop]
      exact hc

/-- **The scanner of the source** does what the scanner of the tokens does. -/
theorem scanner_simulates (hnul : (0 : UInt8) ∉ text) :
    Simulates (scanner (buffer text) text.length) tokenScanner (Ahead text) (IsWord text) where
  gettoken {s ts} h := by
    obtain ⟨q, cs, hskip, hat, hlex, hspace⟩ := h.skip
    obtain ⟨ret, w, rest, e, hB, htoken, hrest, hword⟩ := token_spec hat hnul hlex hspace
    obtain ⟨s', cs', hskip', hat', hlex', _⟩ := hrest.skip
    refine ⟨ret, (q, e), w, s', rest, ?_, hB, ⟨cs', hat', hlex'⟩, hword⟩
    show gettoken (buffer text) text.length s = _
    rw [gettoken, hskip, ok_bind, htoken, ok_bind]
    simp only [hskip', ok_bind]
  peek toks {s ts} hsub h := by
    obtain ⟨s', cs, hskip, hat, hlex, hspace⟩ := h.skip
    refine ⟨starts toks ts, s', ts, ?_, rfl, cs, hat, hlex⟩
    show peek (buffer text) text.length toks s = _
    rw [peek, hskip, ok_bind]
    cases hlex with
    | nil => rw [hat.read_nil.1, ok_bind]; rfl
    | space hc => exact absurd hc (by rw [hspace _ rfl]; exact Bool.false_ne_true)
    | symbol ht =>
      obtain ⟨hzero, _, _, hfirst⟩ := code_ne_zero ht
      rw [hat.read_cons.1, ok_bind]
      simp only [starts, hfirst, Option.any_some, hzero, ne_eq, not_false_eq_true, decide_true, Bool.true_and]
    | append => rw [hat.read_cons.1, ok_bind]; rfl
    | greater => rw [hat.read_cons.1, ok_bind]; rfl
    | @word c w cs ts hw =>
      have hsym := (not_space_of_wordChar (hw c List.mem_cons_self)).2
      rw [hat.read_cons.1, ok_bind, strchr_false_of_subset hsub hsym, Bool.and_false]
      rfl

end Buffer

end Xv6e.User.ShParse
