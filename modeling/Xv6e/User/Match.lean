import Mathlib

/-!
# The pattern matcher of `grep`

`match`, `matchhere` and `matchstar` of `grep.c`, and the languages that patterns denote.  A string is given
by its bytes before the terminator, so that `*text == '\0'` is the end of the list.

* `matchhere`, `matchstar`, `matchText` — the functions, the last one for `match`;
* `items`, `endAnchored`, `language` — what a pattern means: a product of languages of one character each,
  starred or not;
* `match_iff` — `match` finds a substring in the language of the pattern whenever there is one.
-/

namespace Xv6e.User.Match

/-- The bytes of a C string before its terminator. -/
abbrev Text : Type := List UInt8

def caret : UInt8 := 94

def dollar : UInt8 := 36

def period : UInt8 := 46

def asterisk : UInt8 := 42

/-! ### The functions -/

/-- The loop of `matchstar`, where `here` is `matchhere` with the rest of the pattern. -/
def matchstarLoop (here : Text → Bool) (c : UInt8) : Text → Bool
  | [] => here []
  | x :: text => here (x :: text) || ((x == c || c == period) && matchstarLoop here c text)

/-- The last test of `matchhere`: a character of the pattern, then `here` for the rest of it. -/
def matchChar (here : Text → Bool) (c : UInt8) : Text → Bool
  | [] => false
  | x :: text => (c == period || c == x) && here text

/-- `matchhere`: search for `re` at the beginning of `text`. -/
def matchhere : Text → Text → Bool
  | [], _ => true
  | [c], text => if c = dollar then text.isEmpty else matchChar (matchhere []) c text
  | c :: d :: re, text =>
    if d = asterisk then matchstarLoop (matchhere re) c text else matchChar (matchhere (d :: re)) c text

/-- `matchstar`: search for `c*re` at the beginning of `text`. -/
def matchstar (c : UInt8) (re text : Text) : Bool := matchstarLoop (matchhere re) c text

def matchLoop (re : Text) : Text → Bool
  | [] => matchhere re []
  | x :: text => matchhere re (x :: text) || matchLoop re text

def matchText (re text : Text) : Bool := if re.head? = some caret then matchhere re.tail text
    else matchLoop re text

/-! ### The languages of patterns -/

/-- The characters that a character of a pattern stands for. -/
def chars (c : UInt8) : Set UInt8 := {x | c = period ∨ x = c}

/-- The strings of one such character. -/
def single (c : UInt8) : Language UInt8 := {w | ∃ x ∈ chars c, w = [x]}

/-- The items of a pattern: a character, and a character followed by `*`. -/
inductive Item where
  | one (c : UInt8)
  | star (c : UInt8)
  deriving DecidableEq, Repr

def Item.language : Item → Language UInt8
  | .one c => single c
  | .star c => KStar.kstar (single c)

/-- The items of a pattern without the `^` at its beginning. -/
def items : Text → List Item
  | [] => []
  | [c] => if c = dollar then [] else [.one c]
  | c :: d :: re => if d = asterisk then .star c :: items re else .one c :: items (d :: re)

/-- The last item of a pattern is `$`, and not starred. -/
def endAnchored : Text → Bool
  | [] => false
  | [c] => c = dollar
  | _ :: d :: re => if d = asterisk then endAnchored re else endAnchored (d :: re)

def startAnchored (re : Text) : Bool := re.head? = some caret

/-- A pattern without the `^` at its beginning. -/
def body (re : Text) : Text := if startAnchored re then re.tail else re

def language (is : List Item) : Language UInt8 := (is.map Item.language).prod

/-! ### Correctness -/

theorem mem_kstar_single (c : UInt8) (w : Text) : w ∈ KStar.kstar (single c) ↔ ∀ x ∈ w, x ∈ chars c := by
  rw [Language.mem_kstar]
  constructor
  · rintro ⟨L, rfl, hL⟩ x hx
    obtain ⟨y, hy, hxy⟩ := List.mem_flatten.mp hx
    obtain ⟨z, hz, rfl⟩ := hL y hy
    rw [List.mem_singleton.mp hxy]
    exact hz
  · intro h
    refine ⟨w.map fun x => [x], ?_, ?_⟩
    · rw [← List.flatMap_def, List.flatMap_singleton']
    · intro y hy
      obtain ⟨x, hx, rfl⟩ := List.mem_map.mp hy
      exact ⟨x, h x hx, rfl⟩

theorem mem_language_nil (w : Text) : w ∈ language [] ↔ w = [] := Language.mem_one w

theorem mem_language_one (c : UInt8) (is : List Item) (w : Text) :
    w ∈ language (.one c :: is) ↔ ∃ x ∈ chars c, ∃ v ∈ language is, w = x :: v := by
  rw [language, List.map_cons, List.prod_cons, Language.mem_mul]
  constructor
  · rintro ⟨a, ⟨x, hx, rfl⟩, v, hv, rfl⟩
    exact ⟨x, hx, v, hv, rfl⟩
  · rintro ⟨x, hx, v, hv, rfl⟩
    exact ⟨[x], ⟨x, hx, rfl⟩, v, hv, rfl⟩

theorem mem_language_star (c : UInt8) (is : List Item) (w : Text) :
    w ∈ language (.star c :: is) ↔ ∃ u, (∀ x ∈ u, x ∈ chars c) ∧ ∃ v ∈ language is, w = u ++ v := by
  rw [language, List.map_cons, List.prod_cons, Language.mem_mul]
  constructor
  · rintro ⟨u, hu, v, hv, rfl⟩
    exact ⟨u, (mem_kstar_single c u).mp hu, v, hv, rfl⟩
  · rintro ⟨u, hu, v, hv, rfl⟩
    exact ⟨u, (mem_kstar_single c u).mpr hu, v, hv, rfl⟩

/-- **The loop of `matchstar`** tries every run of characters that `c` stands for. -/
theorem matchstarLoop_iff (here : Text → Bool) (c : UInt8) (text : Text) :
    matchstarLoop here c text = true ↔ ∃ u v, text = u ++ v ∧ (∀ x ∈ u, x ∈ chars c) ∧ here v = true := by
  induction text with
  | nil =>
    rw [matchstarLoop]
    constructor
    · intro h
      exact ⟨[], [], rfl, fun _ hx => absurd hx List.not_mem_nil, h⟩
    · rintro ⟨u, v, hnil, _, h⟩
      rwa [(List.append_eq_nil_iff.mp hnil.symm).2] at h
  | cons x text ih =>
    rw [matchstarLoop, Bool.or_eq_true, Bool.and_eq_true, ih, Bool.or_eq_true, beq_iff_eq, beq_iff_eq]
    constructor
    · rintro (h | ⟨hx, u, v, rfl, hu, h⟩)
      · exact ⟨[], x :: text, rfl, fun _ hx => absurd hx List.not_mem_nil, h⟩
      · exact ⟨x :: u, v, rfl, List.forall_mem_cons.mpr ⟨hx.symm, hu⟩, h⟩
    · rintro ⟨u, v, heq, hu, h⟩
      -- no character is used up, or the first one is
      cases u with
      | nil =>
        rw [List.nil_append] at heq
        rw [heq]
        exact Or.inl h
      | cons y u =>
        obtain ⟨rfl, rfl⟩ := List.cons.inj heq
        obtain ⟨hx, hu⟩ := List.forall_mem_cons.mp hu
        exact Or.inr ⟨hx.symm, u, v, rfl, hu, h⟩

/-- A beginning of the text is in the language of the pattern, and is all of the text if the pattern ends with
`$`. -/
def MatchesHere (re text : Text) : Prop :=
  ∃ w rest, text = w ++ rest ∧ w ∈ language (items re) ∧ (endAnchored re = true → rest = [])

theorem matchesHere_one {c : UInt8} {re re' : Text} (hitems : items re = .one c :: items re')
    (hend : endAnchored re = endAnchored re') (text : Text) :
    MatchesHere re text ↔ ∃ x ∈ chars c, ∃ rest, text = x :: rest ∧ MatchesHere re' rest := by
  constructor
  · rintro ⟨w, rest, rfl, hw, hlast⟩
    rw [hitems, mem_language_one] at hw
    obtain ⟨x, hx, v, hv, rfl⟩ := hw
    exact ⟨x, hx, v ++ rest, rfl, v, rest, rfl, hv, hend ▸ hlast⟩
  · rintro ⟨x, hx, rest, rfl, w, r, rfl, hw, hlast⟩
    refine ⟨x :: w, r, rfl, ?_, hend.symm ▸ hlast⟩
    rw [hitems, mem_language_one]
    exact ⟨x, hx, w, hw, rfl⟩

theorem matchesHere_star {c : UInt8} {re re' : Text} (hitems : items re = .star c :: items re')
    (hend : endAnchored re = endAnchored re') (text : Text) :
    MatchesHere re text ↔ ∃ u v, text = u ++ v ∧ (∀ x ∈ u, x ∈ chars c) ∧ MatchesHere re' v := by
  constructor
  · rintro ⟨w, rest, rfl, hw, hlast⟩
    rw [hitems, mem_language_star] at hw
    obtain ⟨u, hu, v, hv, rfl⟩ := hw
    exact ⟨u, v ++ rest, List.append_assoc .., hu, v, rest, rfl, hv, hend ▸ hlast⟩
  · rintro ⟨u, v, rfl, hu, w, r, rfl, hw, hlast⟩
    refine ⟨u ++ w, r, (List.append_assoc ..).symm, ?_, hend.symm ▸ hlast⟩
    rw [hitems, mem_language_star]
    exact ⟨u, hu, w, hw, rfl⟩

theorem matchesHere_nil (text : Text) : MatchesHere [] text :=
  ⟨[], text, rfl, (mem_language_nil []).mpr rfl, fun h => absurd h Bool.false_ne_true⟩

theorem matchesHere_dollar (text : Text) : MatchesHere [dollar] text ↔ text = [] := by
  have hitems : items [dollar] = [] := rfl
  constructor
  · rintro ⟨w, rest, rfl, hw, hlast⟩
    rw [hitems, mem_language_nil] at hw
    rw [hw, hlast rfl]
    rfl
  · rintro rfl
    refine ⟨[], [], rfl, ?_, fun _ => rfl⟩
    rw [hitems, mem_language_nil]

theorem matchChar_iff (here : Text → Bool) (c : UInt8) (text : Text) :
    matchChar here c text = true ↔ ∃ x ∈ chars c, ∃ rest, text = x :: rest ∧ here rest = true := by
  cases text with
  | nil =>
    refine iff_of_false Bool.false_ne_true ?_
    rintro ⟨x, _, rest, hc, _⟩
    cases hc
  | cons x rest =>
    rw [matchChar, Bool.and_eq_true, Bool.or_eq_true, beq_iff_eq, beq_iff_eq]
    constructor
    · rintro ⟨hx, h⟩
      exact ⟨x, hx.imp_right Eq.symm, rest, rfl, h⟩
    · rintro ⟨y, hy, rest', heq, h⟩
      obtain ⟨rfl, rfl⟩ := List.cons.inj heq
      exact ⟨hy.imp_right Eq.symm, h⟩

theorem matchhere_dollar (text : Text) : matchhere [dollar] text = text.isEmpty := if_pos rfl

theorem matchhere_single {c : UInt8} (hc : c ≠ dollar) (text : Text) :
    matchhere [c] text = matchChar (matchhere []) c text := if_neg hc

theorem matchhere_star (c : UInt8) (re text : Text) :
    matchhere (c :: asterisk :: re) text = matchstarLoop (matchhere re) c text := if_pos rfl

theorem matchhere_one {d : UInt8} (hd : d ≠ asterisk) (c : UInt8) (re text : Text) :
    matchhere (c :: d :: re) text = matchChar (matchhere (d :: re)) c text := if_neg hd

/-- **`matchhere` is sound and complete.** -/
theorem matchhere_iff (re text : Text) : matchhere re text = true ↔ MatchesHere re text := by
  induction re using List.twoStepInduction generalizing text with
  | nil => exact iff_of_true rfl (matchesHere_nil text)
  | singleton c =>
    by_cases hc : c = dollar
    · rw [hc, matchhere_dollar, matchesHere_dollar, List.isEmpty_iff]
    · have hitems : items [c] = .one c :: items [] := if_neg hc
      have hend : endAnchored [c] = endAnchored [] := decide_eq_false hc
      rw [matchhere_single hc, matchChar_iff, matchesHere_one hitems hend]
      refine exists_congr fun x => and_congr_right fun _ => exists_congr fun rest =>
        and_congr_right fun _ => ?_
      exact iff_of_true rfl (matchesHere_nil rest)
  | cons_cons c d re ih ih' =>
    by_cases hd : d = asterisk
    · subst hd
      have hitems : items (c :: asterisk :: re) = .star c :: items re := if_pos rfl
      have hend : endAnchored (c :: asterisk :: re) = endAnchored re := if_pos rfl
      rw [matchhere_star, matchstarLoop_iff, matchesHere_star hitems hend]
      exact exists_congr fun u => exists_congr fun v => and_congr_right fun _ => and_congr_right fun _ => ih v
    · have hitems : items (c :: d :: re) = .one c :: items (d :: re) := if_neg hd
      have hend : endAnchored (c :: d :: re) = endAnchored (d :: re) := if_neg hd
      rw [matchhere_one hd, matchChar_iff, matchesHere_one hitems hend]
      exact exists_congr fun x => and_congr_right fun _ => exists_congr fun rest =>
        and_congr_right fun _ => ih' d rest

theorem matchLoop_iff (re text : Text) :
    matchLoop re text = true ↔ ∃ start rest, text = start ++ rest ∧ MatchesHere re rest := by
  induction text with
  | nil =>
    rw [matchLoop, matchhere_iff]
    constructor
    · intro h
      exact ⟨[], [], rfl, h⟩
    · rintro ⟨start, rest, hnil, h⟩
      rwa [(List.append_eq_nil_iff.mp hnil.symm).2] at h
  | cons x text ih =>
    rw [matchLoop, Bool.or_eq_true, matchhere_iff, ih]
    constructor
    · rintro (h | ⟨start, rest, rfl, h⟩)
      · exact ⟨[], x :: text, rfl, h⟩
      · exact ⟨x :: start, rest, rfl, h⟩
    · rintro ⟨start, rest, heq, h⟩
      cases start with
      | nil =>
        rw [List.nil_append] at heq
        rw [heq]
        exact Or.inl h
      | cons y start =>
        obtain ⟨rfl, rfl⟩ := List.cons.inj heq
        exact Or.inr ⟨start, rest, rfl, h⟩

/-- **`match` is sound and complete.**  It returns `1` when some substring of the text is in the language of
the pattern; the substring is at the beginning of the text if the pattern starts with `^`, and at its end if
the last item is `$`. -/
theorem match_iff (re text : Text) :
    matchText re text = true ↔ ∃ start w rest, text = start ++ w ++ rest ∧ w ∈ language (items (body re))
      ∧ (startAnchored re = true → start = []) ∧ (endAnchored (body re) = true → rest = []) := by
  by_cases hcaret : re.head? = some caret
  · have hstart : startAnchored re = true := decide_eq_true hcaret
    rw [matchText, if_pos hcaret, body, if_pos hstart, matchhere_iff]
    constructor
    · rintro ⟨w, rest, rfl, hw, hlast⟩
      exact ⟨[], w, rest, rfl, hw, fun _ => rfl, hlast⟩
    · rintro ⟨start, w, rest, rfl, hw, hfirst, hlast⟩
      rw [hfirst hstart]
      exact ⟨w, rest, rfl, hw, hlast⟩
  · have hstart : ¬ startAnchored re = true := fun h => hcaret (of_decide_eq_true h)
    rw [matchText, if_neg hcaret, body, if_neg hstart, matchLoop_iff]
    constructor
    · rintro ⟨start, _, rfl, w, rest, rfl, hw, hlast⟩
      exact ⟨start, w, rest, (List.append_assoc ..).symm, hw, fun h => absurd h hstart, hlast⟩
    · rintro ⟨start, w, rest, rfl, hw, _, hlast⟩
      exact ⟨start, w ++ rest, List.append_assoc .., w, rest, rfl, hw, hlast⟩

end Xv6e.User.Match
