import Mathlib

/-!
# Linked lists in memory

A singly linked list given by the address of its first node and the `next` field of every node, with `0` for
the null pointer.

* `Chain next p L` — the nodes met from `p` on are `L`, and the last one's `next` is null;
* `walk`, `seek` — the two loops over such a list: collect its nodes, and stop at the first node that meets a
  test, remembering the one before it;
* `walk_of_chain`, `seek_found`, `seek_end`, `seek_cases` — what the loops compute on a list that ends;
* `Chain.frame`, `Chain.relink`, `Chain.replace` — what writes to `next` fields do to the list.
-/

namespace Xv6e.Library.PointerList

universe u

variable {α : Type u} [Zero α] {next next' : α → α} {p q : α} {L front rest rest' : List α}

/-- The nodes met from `p` on are `L`, and then comes the null pointer. -/
def Chain (next : α → α) : α → List α → Prop
  | p, [] => p = 0
  | p, q :: L => p = q ∧ q ≠ 0 ∧ Chain next (next q) L

@[simp]
theorem chain_nil : Chain next p [] ↔ p = 0 := Iff.rfl

theorem chain_cons : Chain next p (q :: L) ↔ p = q ∧ q ≠ 0 ∧ Chain next (next q) L := Iff.rfl

theorem Chain.head (h : Chain next p (q :: L)) : p = q := h.1

theorem Chain.tail (h : Chain next p (q :: L)) : Chain next (next q) L := h.2.2

theorem Chain.ne_zero (h : Chain next p L) : ∀ q ∈ L, q ≠ 0 := by
  induction L generalizing p with
  | nil => simp
  | cons r L ih =>
    intro q hq
    rcases List.mem_cons.mp hq with rfl | hq
    · exact h.2.1
    · exact ih h.tail q hq

/-- A node that is its own successor is the head of no list. -/
theorem not_chain_of_loop (hp : p ≠ 0) (hloop : next p = p) : ¬ Chain next p L := by
  induction L with
  | nil => exact hp
  | cons q L ih =>
    rintro ⟨rfl, _, htail⟩
    rw [hloop] at htail
    exact ih htail

/-- A list depends on the `next` fields of its own nodes only. -/
theorem Chain.frame (h : Chain next p L) (hsame : ∀ q ∈ L, next' q = next q) : Chain next' p L := by
  induction L generalizing p with
  | nil => exact h
  | cons q L ih =>
    refine ⟨h.1, h.2.1, ?_⟩
    rw [hsame q List.mem_cons_self]
    exact ih h.tail fun r hr => hsame r (List.mem_cons_of_mem q hr)

theorem Chain.suffix (h : Chain next p (front ++ q :: rest)) : Chain next q (q :: rest) := by
  induction front generalizing p with
  | nil => exact ⟨rfl, h.2⟩
  | cons r front ih => exact ih h.tail

/-- **Relinking.**  Writing the `next` field of a node replaces what follows it. -/
theorem Chain.relink (h : Chain next p (front ++ q :: rest)) (hfront : ∀ r ∈ front, next' r = next r)
    (hrest : Chain next' (next' q) rest') : Chain next' p (front ++ q :: rest') := by
  induction front generalizing p with
  | nil => exact ⟨h.1, h.2.1, hrest⟩
  | cons r front ih =>
    refine ⟨h.1, h.2.1, ?_⟩
    rw [hfront r List.mem_cons_self]
    exact ih h.tail fun s hs => hfront s (List.mem_cons_of_mem r hs)

/-- The last node of a part of a list, null when the part is empty. -/
theorem Chain.getLast?_eq_zero_iff (h : Chain next p (front ++ rest)) :
    front.getLast?.getD 0 = 0 ↔ front = [] := by
  rcases List.eq_nil_or_concat' front with rfl | ⟨init, q, rfl⟩
  · exact ⟨fun _ => rfl, fun _ => rfl⟩
  · rw [List.getLast?_concat]
    have hq : q ≠ 0 := h.ne_zero q (by simp)
    exact ⟨fun hz => absurd hz hq, fun hn => absurd hn (by simp)⟩

/-- **Replacing what follows the first nodes of a list**, by a write to the last of them, or to the head when
there are none. -/
theorem Chain.replace {p' h' : α} (h : Chain next p (front ++ rest)) (hnd : front.Nodup)
    (hnil : front = [] → p' = h') (hcons : front ≠ [] → p' = p ∧ next' (front.getLast?.getD 0) = h')
    (hkeep : ∀ q ∈ front, q ≠ front.getLast?.getD 0 → next' q = next q) (hrest : Chain next' h' rest') :
    Chain next' p' (front ++ rest') := by
  rcases List.eq_nil_or_concat' front with rfl | ⟨init, q, rfl⟩
  · rw [hnil rfl]
    exact hrest
  · obtain ⟨rfl, hq⟩ := hcons (by simp)
    rw [List.getLast?_concat] at hq hkeep
    have hnotin : q ∉ init := by
      have := (List.nodup_append.mp hnd).2.2
      intro hmem
      exact this q hmem q (by simp) rfl
    rw [List.append_assoc, List.singleton_append] at h ⊢
    refine h.relink (fun r hr => ?_) ?_
    · refine hkeep r (by simp [hr]) fun hrq => hnotin ?_
      rw [← show r = q from hrq]
      exact hr
    · rw [show next' q = h' from hq]
      exact hrest

/-- A list of distinct addresses below a bound, none of them null, is shorter than the bound. -/
theorem length_lt_of_nodup {N : ℕ} {L : List ℕ} (hnd : L.Nodup) (hL : ∀ q ∈ L, q ≠ 0 ∧ q < N) (hN : 0 < N) :
    L.length < N := by
  have hsub : L.toFinset ⊆ Finset.Ico 1 N := by
    intro q hq
    rw [List.mem_toFinset] at hq
    have := hL q hq
    exact Finset.mem_Ico.mpr ⟨by omega, this.2⟩
  have hcard := Finset.card_le_card hsub
  rw [List.toFinset_card_of_nodup hnd, Nat.card_Ico] at hcard
  omega

/-! ### The loops -/

variable [DecidableEq α]

/-- Collect the nodes from `p` on, `fuel` of them at most. -/
def walk (next : α → α) : ℕ → α → List α
  | 0, _ => []
  | fuel + 1, p => if p = 0 then [] else p :: walk next fuel (next p)

/-- Go from `current` on to the first node that meets `stop`, or to the end of the list, with the node before
it; `none` when the list is still not over after `fuel` nodes. -/
def seek (next : α → α) (stop : α → Bool) : ℕ → α → α → Option (α × α)
  | 0, _, _ => none
  | fuel + 1, prev, current =>
    if current = 0 then some (prev, current)
    else if stop current then some (prev, current)
    else seek next stop fuel current (next current)

variable {fuel : ℕ}

theorem walk_of_chain (h : Chain next p L) (hfuel : L.length ≤ fuel) : walk next fuel p = L := by
  induction L generalizing p fuel with
  | nil =>
    cases fuel with
    | zero => rfl
    | succ fuel => rw [walk, if_pos (chain_nil.mp h)]
  | cons q L ih =>
    cases fuel with
    | zero => exact absurd hfuel (by simp)
    | succ fuel =>
      obtain ⟨rfl, hne, htail⟩ := chain_cons.mp h
      rw [walk, if_neg hne, ih htail (Nat.le_of_succ_le_succ hfuel)]

variable {stop : α → Bool} {prev c : α}

/-- **Seeking** stops at the first node that meets the test, with the last of those before it. -/
theorem seek_found (h : Chain next p (front ++ c :: rest))
    (hfront : ∀ q ∈ front, stop q = false) (hc : stop c = true) (hfuel : (front ++ c :: rest).length < fuel) :
    seek next stop fuel prev p = some (front.getLast?.getD prev, c) := by
  induction front generalizing p fuel prev with
  | nil =>
    obtain ⟨n, rfl⟩ : ∃ n, fuel = n + 1 := ⟨fuel - 1, by omega⟩
    obtain ⟨rfl, hne, _⟩ := chain_cons.mp h
    rw [seek, if_neg hne, if_pos hc]
    rfl
  | cons q front ih =>
    obtain ⟨n, rfl⟩ : ∃ n, fuel = n + 1 := ⟨fuel - 1, by omega⟩
    obtain ⟨rfl, hne, htail⟩ := chain_cons.mp h
    have hp := hfront p List.mem_cons_self
    rw [seek, if_neg hne, if_neg (by rw [hp]; exact Bool.false_ne_true),
      ih htail (fun q hq => hfront q (List.mem_cons_of_mem p hq)) (Nat.lt_of_succ_lt_succ hfuel),
      List.getLast?_cons]
    rfl

/-- **Seeking** goes to the end of a list none of whose nodes meets the test. -/
theorem seek_end (h : Chain next p L) (hL : ∀ q ∈ L, stop q = false) (hfuel : L.length < fuel) :
    seek next stop fuel prev p = some (L.getLast?.getD prev, 0) := by
  induction L generalizing p fuel prev with
  | nil =>
    obtain ⟨n, rfl⟩ : ∃ n, fuel = n + 1 := ⟨fuel - 1, by omega⟩
    rw [seek, if_pos (chain_nil.mp h), chain_nil.mp h]
    rfl
  | cons q L ih =>
    obtain ⟨n, rfl⟩ : ∃ n, fuel = n + 1 := ⟨fuel - 1, by omega⟩
    obtain ⟨rfl, hne, htail⟩ := chain_cons.mp h
    have hp := hL p List.mem_cons_self
    rw [seek, if_neg hne, if_neg (by rw [hp]; exact Bool.false_ne_true),
      ih htail (fun q hq => hL q (List.mem_cons_of_mem p hq)) (Nat.lt_of_succ_lt_succ hfuel),
      List.getLast?_cons]
    rfl

/-- The two ways seeking ends. -/
theorem seek_cases (stop : α → Bool) (prev : α) (h : Chain next p L) (hfuel : L.length < fuel) :
    ((∀ q ∈ L, stop q = false) ∧ seek next stop fuel prev p = some (L.getLast?.getD prev, 0))
      ∨ ∃ front c rest, L = front ++ c :: rest ∧ (∀ q ∈ front, stop q = false) ∧ stop c = true
        ∧ seek next stop fuel prev p = some (front.getLast?.getD prev, c) := by
  cases hfind : L.find? stop with
  | none =>
    have hall : ∀ q ∈ L, stop q = false := by simpa using List.find?_eq_none.mp hfind
    exact Or.inl ⟨hall, seek_end h hall hfuel⟩
  | some c =>
    obtain ⟨hc, front, rest, rfl, hfront⟩ := List.find?_eq_some_iff_append.mp hfind
    have hfront' : ∀ q ∈ front, stop q = false := by simpa using hfront
    exact Or.inr ⟨front, c, rest, rfl, hfront', hc, seek_found h hfront' hc hfuel⟩

/-- A search ends at the first node at which it may stop. -/
theorem seek_first {q : α} (h : Chain next p L) (hfuel : L.length < fuel)
    (hseek : seek next stop fuel prev p = some (q, c)) : (L.find? stop).getD 0 = c := by
  rcases seek_cases stop prev h hfuel with ⟨hall, hend⟩ | ⟨front, b, rest, rfl, hfront, hb, hfound⟩
  · rw [hend] at hseek
    cases hseek
    rw [List.find?_eq_none.mpr fun q hq => by rw [hall q hq]; exact Bool.false_ne_true]
    rfl
  · rw [hfound] at hseek
    cases hseek
    rw [List.find?_append, List.find?_eq_none.mpr fun q hq => by rw [hfront q hq]; exact Bool.false_ne_true,
      Option.none_or, List.find?_cons_of_pos hb]
    rfl

end Xv6e.Library.PointerList
