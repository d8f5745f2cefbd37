import Mathlib

/-!
# Circular linked lists

Circular lists given by the `next` field of every node.

* `Seg next p L q` — going from `p` on one meets the nodes `L`, and then comes to `q`;
* `Ring next L` — the nodes `L` form a circle;
* `Ring.rotate`, `Ring.next_eq`, `Ring.injOn`, `Ring.relink` — a circle has no first node, the successor of a
  node, no two nodes have the same one, and what writes to `next` fields do to a circle;
* `Doubly` — a list with a head that is linked in both directions; `Doubly.unlink` and `Doubly.linkFront` move
  its nodes;
* `follow`, `Ring.follow` — the loop that goes round until a test holds.
-/

namespace Xv6e.Library.PointerRing

open Function (update update_self update_of_ne)

universe u

variable {α : Type u} {next next' prev : α → α} {p q r x : α} {L M A B C : List α}

/-- Going from `p` on one meets the nodes `L`, and then comes to `q`. -/
def Seg (next : α → α) : α → List α → α → Prop
  | p, [], q => p = q
  | p, x :: L, q => p = x ∧ Seg next (next x) L q

@[simp]
theorem seg_nil : Seg next p [] q ↔ p = q := Iff.rfl

theorem seg_cons : Seg next p (x :: L) q ↔ p = x ∧ Seg next (next x) L q := Iff.rfl

theorem seg_append : Seg next p (L ++ M) q ↔ ∃ r, Seg next p L r ∧ Seg next r M q := by
  induction L generalizing p with
  | nil => simp
  | cons x L ih =>
    rw [List.cons_append, seg_cons, ih]
    constructor
    · rintro ⟨hp, r, hL, hM⟩
      exact ⟨r, ⟨hp, hL⟩, hM⟩
    · rintro ⟨r, ⟨hp, hL⟩, hM⟩
      exact ⟨hp, r, hL, hM⟩

/-- A segment depends on the `next` fields of its own nodes only. -/
theorem Seg.frame (h : Seg next p L q) (hsame : ∀ x ∈ L, next' x = next x) : Seg next' p L q := by
  induction L generalizing p with
  | nil => exact h
  | cons x L ih =>
    refine ⟨h.1, ?_⟩
    rw [hsame x List.mem_cons_self]
    apply ih h.2
    exact fun y hy => hsame y (List.mem_cons_of_mem x hy)

/-- The successors of the nodes of a segment. -/
theorem Seg.map (h : Seg next p L q) : p :: L.map next = L ++ [q] := by
  induction L generalizing p with
  | nil => rw [seg_nil.mp h]; rfl
  | cons x L ih =>
    obtain ⟨rfl, htail⟩ := h
    rw [List.map_cons, List.cons_append, ih htail]

def Ring (next : α → α) (L : List α) : Prop := ∃ x, L.head? = some x ∧ Seg next x L x

theorem ring_cons : Ring next (x :: L) ↔ Seg next (next x) L x := by
  constructor
  · rintro ⟨y, hy, hseg⟩
    obtain rfl : x = y := Option.some.inj hy
    exact hseg.2
  · intro h
    exact ⟨x, rfl, rfl, h⟩

/-- **A circle has no first node.** -/
theorem Ring.rotate (h : Ring next (A ++ B)) : Ring next (B ++ A) := by
  cases A with
  | nil => rwa [List.nil_append, ← List.append_nil B] at h
  | cons a A =>
    cases B with
    | nil => rwa [List.append_nil] at h
    | cons b B =>
      rw [List.cons_append, ring_cons, seg_append] at h
      obtain ⟨r, hA, rfl, hB⟩ := h
      rw [List.cons_append, ring_cons, seg_append]
      exact ⟨a, hB, rfl, hA⟩

/-- The successor of a node is the next one of the list; that of the last one is the first. -/
theorem Ring.next_eq (h : Ring next (x :: L)) (hL : x :: L = A ++ p :: B) : next p = B.head?.getD x := by
  rw [hL] at h
  have hrot := h.rotate
  rw [List.cons_append, ring_cons] at hrot
  cases B with
  | cons y B => exact hrot.1
  | nil =>
    cases A with
    | nil =>
      obtain ⟨rfl, rfl⟩ := List.cons.inj hL
      exact hrot
    | cons a A =>
      obtain ⟨rfl, _⟩ := List.cons.inj hL
      exact hrot.1

/-- **No two nodes have the same successor.** -/
theorem Ring.injOn (h : Ring next L) (hnd : L.Nodup) (hp : p ∈ L) (hq : q ∈ L)
    (heq : next p = next q) : p = q := by
  cases L with
  | nil => cases hp
  | cons x L =>
    have hmap : (x :: L).map next = L ++ [x] := by
      obtain ⟨y, hy, hseg⟩ := h
      obtain rfl : x = y := Option.some.inj hy
      have := hseg.map
      rw [List.cons_append] at this
      exact (List.cons.inj this).2
    have hnd' : ((x :: L).map next).Nodup := by
      rw [hmap]
      exact (List.perm_append_singleton x L).nodup_iff.mpr hnd
    exact List.inj_on_of_nodup_map hnd' hp hq heq

/-- **Relinking.**  The nodes `B` after `p` are replaced by `M`. -/
theorem Ring.relink (h : Ring next (A ++ p :: (B ++ C))) (hA : ∀ x ∈ A, next' x = next x)
    (hC : ∀ x ∈ C, next' x = next x) (hM : ∀ r, Seg next (next p) B r → Seg next' (next' p) M r) :
    Ring next' (A ++ p :: (M ++ C)) := by
  have hrot := h.rotate
  rw [List.cons_append, ring_cons, List.append_assoc, seg_append] at hrot
  obtain ⟨r, hB, hCA⟩ := hrot
  have hnew : Ring next' (p :: (M ++ C) ++ A) := by
    rw [List.cons_append, ring_cons, List.append_assoc, seg_append]
    refine ⟨r, hM r hB, hCA.frame ?_⟩
    intro x hx
    rcases List.mem_append.mp hx with hx | hx
    · exact hC x hx
    · exact hA x hx
  exact hnew.rotate

section Links

variable [DecidableEq α]

theorem Ring.unlink (h : Ring next (A ++ p :: x :: B)) (hnd : (A ++ p :: x :: B).Nodup) :
    Ring (update next p (next x)) (A ++ p :: B) := by
  have hpB : p ∉ x :: B := (List.nodup_cons.mp (List.nodup_append.mp hnd).2.1).1
  have h' : Ring next (A ++ p :: ([x] ++ B)) := h
  have hnew : Ring (update next p (next x)) (A ++ p :: ([] ++ B)) := by
    refine h'.relink (fun y hy => ?_) (fun y hy => ?_) fun r hr => ?_
    · apply update_of_ne
      rintro rfl
      exact (List.nodup_append.mp hnd).2.2 y hy y List.mem_cons_self rfl
    · apply update_of_ne
      rintro rfl
      exact hpB (List.mem_cons_of_mem x hy)
    · exact (update_self ..).trans hr.2
  exact hnew

theorem Ring.insertAfter (h : Ring next (A ++ p :: B)) (hnd : (A ++ p :: B).Nodup) (hx : x ∉ A ++ p :: B) :
    Ring (update (update next x (next p)) p x) (A ++ p :: x :: B) := by
  have hxp : x ≠ p := fun hxp => hx (by rw [hxp]; simp)
  have hpB : p ∉ B := (List.nodup_cons.mp (List.nodup_append.mp hnd).2.1).1
  have h' : Ring next (A ++ p :: ([] ++ B)) := h
  have hother : ∀ y ∈ A ++ p :: B, y ≠ p → update (update next x (next p)) p x y = next y := by
    intro y hy hyp
    rw [update_of_ne hyp, update_of_ne]
    rintro rfl
    exact hx hy
  have hnew : Ring (update (update next x (next p)) p x) (A ++ p :: ([x] ++ B)) := by
    refine h'.relink (fun y hy => hother y (by simp [hy]) ?_) (fun y hy => hother y (by simp [hy]) ?_)
      fun r hr => ⟨?_, ?_⟩
    · rintro rfl
      exact (List.nodup_append.mp hnd).2.2 y hy y List.mem_cons_self rfl
    · rintro rfl
      exact hpB hy
    · exact update_self ..
    · rw [seg_nil, update_of_ne hxp, update_self]
      exact hr
  exact hnew

/-- A list with a head, linked in both directions. -/
def Doubly (next prev : α → α) (x : α) (L : List α) : Prop := Ring next (x :: L) ∧ Ring prev (x :: L.reverse)

omit [DecidableEq α] in
theorem exists_concat_head (x : α) (L : List α) : ∃ A, x :: L.reverse = A ++ [L.head?.getD x] := by
  cases L with
  | nil => exact ⟨[], rfl⟩
  | cons y L => exact ⟨x :: L.reverse, by simp⟩

omit [DecidableEq α] in
theorem Doubly.next_eq (h : Doubly next prev x (A ++ p :: B)) : next p = B.head?.getD x :=
  h.1.next_eq (A := x :: A) rfl

omit [DecidableEq α] in
theorem Doubly.prev_eq (h : Doubly next prev x (A ++ p :: B)) : prev p = A.reverse.head?.getD x :=
  h.2.next_eq (A := x :: B.reverse) (by simp)

/-- One direction of taking a node out. -/
theorem Ring.unlink_head (h : Ring next (x :: (A ++ p :: B))) (hnd : (x :: (A ++ p :: B)).Nodup) :
    Ring (update next (A.reverse.head?.getD x) (next p)) (x :: (A ++ B)) := by
  obtain ⟨A', hA'⟩ := exists_concat_head x A.reverse
  rw [List.reverse_reverse] at hA'
  have hlist : ∀ M, x :: (A ++ M) = A' ++ A.reverse.head?.getD x :: M := fun M => by
    rw [← List.cons_append, hA', List.append_assoc, List.singleton_append]
  rw [hlist] at h hnd ⊢
  exact h.unlink hnd

theorem Doubly.unlink (h : Doubly next prev x (A ++ p :: B)) (hnd : (x :: (A ++ p :: B)).Nodup) :
    Doubly (update next (prev p) (next p)) (update prev (next p) (prev p)) x (A ++ B) := by
  have hrev : (A ++ p :: B).reverse = B.reverse ++ p :: A.reverse := by simp
  have hnd' : (x :: (B.reverse ++ p :: A.reverse)).Nodup := by
    rw [← hrev]
    exact (List.Perm.cons x (List.reverse_perm _)).nodup_iff.mpr hnd
  constructor
  · rw [h.prev_eq]
    exact h.1.unlink_head hnd
  · have h2 := h.2
    rw [hrev] at h2
    have hnew := h2.unlink_head hnd'
    rw [List.reverse_reverse, ← h.next_eq] at hnew
    rw [List.reverse_append]
    exact hnew

theorem Doubly.linkFront (h : Doubly next prev x L) (hnd : (x :: L).Nodup) (hp : p ∉ x :: L) :
    Doubly (update (update next p (next x)) x p) (update (update prev p x) (next x) p) x
      (p :: L) := by
  constructor
  · have hnew : Ring (update (update next p (next x)) x p) ([] ++ x :: p :: L) := by
      apply Ring.insertAfter _ hnd hp
      exact h.1
    exact hnew
  · obtain ⟨A, hA⟩ := exists_concat_head x L
    have hnext : next x = L.head?.getD x := h.1.next_eq (A := []) rfl
    have hprev : prev (L.head?.getD x) = x := h.2.next_eq (B := []) hA
    have hperm : (x :: L.reverse).Perm (x :: L) := List.Perm.cons x (List.reverse_perm L)
    have hnew : Ring (update (update prev p (prev (L.head?.getD x))) (L.head?.getD x) p)
        (A ++ L.head?.getD x :: [p]) := by
      apply Ring.insertAfter
      · rw [← hA]
        exact h.2
      · rw [← hA]
        exact hperm.nodup_iff.mpr hnd
      · rw [← hA]
        exact fun hmem => hp (hperm.mem_iff.mp hmem)
    rw [hprev, ← hnext] at hnew
    have hlist : x :: (p :: L).reverse = A ++ next x :: [p] := by
      rw [hnext, List.reverse_cons, ← List.cons_append, hA, List.append_assoc]
      rfl
    rw [hlist]
    exact hnew

end Links

/-- The nodes before a node, from any node on. -/
theorem Ring.split (h : Ring next L) (hp : p ∈ L) (hq : q ∈ L) :
    ∃ F, Seg next p F q ∧ q ∉ F ∧ (∀ x ∈ F, x ∈ L) ∧ F.length < L.length := by
  obtain ⟨A, B, rfl⟩ := List.append_of_mem hp
  have hrot := h.rotate
  rw [List.cons_append] at hrot
  obtain ⟨y, hy, hseg⟩ := hrot
  obtain rfl : p = y := Option.some.inj hy
  have hmem : ∀ x, x ∈ p :: (B ++ A) ↔ x ∈ A ++ p :: B := fun x => by
    simp only [List.mem_cons, List.mem_append]
    tauto
  obtain ⟨F, G, hFG, hnot⟩ := List.eq_append_cons_of_mem ((hmem q).mpr hq)
  rw [hFG, seg_append] at hseg
  obtain ⟨r, hF, rfl, _⟩ := hseg
  refine ⟨F, hF, hnot, fun x hx => (hmem x).mp (by rw [hFG]; exact List.mem_append_left _ hx), ?_⟩
  have hlen := congrArg List.length hFG
  simp only [List.length_cons, List.length_append] at hlen ⊢
  omega

/-- Go from `p` on to the first node that meets `stop`; `none` when there is none among the first `fuel`
nodes. -/
def follow (next : α → α) (stop : α → Bool) : ℕ → α → Option α
  | 0, _ => none
  | fuel + 1, p => if stop p then some p else follow next stop fuel (next p)

theorem follow_of_seg {stop : α → Bool} {fuel : ℕ} (h : Seg next p L q) (hL : ∀ x ∈ L, stop x = false)
    (hq : stop q = true) (hfuel : L.length < fuel) : follow next stop fuel p = some q := by
  induction L generalizing p fuel with
  | nil =>
    obtain ⟨n, rfl⟩ : ∃ n, fuel = n + 1 := ⟨fuel - 1, by rw [List.length_nil] at hfuel; omega⟩
    rw [seg_nil.mp h, follow, if_pos hq]
  | cons x L ih =>
    obtain ⟨n, rfl⟩ : ∃ n, fuel = n + 1 := ⟨fuel - 1, by omega⟩
    obtain ⟨rfl, htail⟩ := h
    rw [follow, if_neg (by rw [hL p List.mem_cons_self]; exact Bool.false_ne_true)]
    apply ih htail
    · exact fun y hy => hL y (List.mem_cons_of_mem p hy)
    · exact Nat.lt_of_succ_lt_succ hfuel

/-- **Going round finds the one node that meets the test.** -/
theorem Ring.follow {stop : α → Bool} {fuel : ℕ} (h : Ring next L) (hp : p ∈ L) (hq : q ∈ L)
    (hstop : stop q = true) (hother : ∀ x ∈ L, x ≠ q → stop x = false) (hfuel : L.length ≤ fuel) :
    follow next stop fuel p = some q := by
  obtain ⟨F, hseg, hnot, hsub, hlen⟩ := h.split hp hq
  apply follow_of_seg hseg _ hstop (Nat.lt_of_lt_of_le hlen hfuel)
  intro x hx
  apply hother x (hsub x hx)
  rintro rfl
  exact hnot hx

/-- **Going round from a head** one comes to a node that meets the test, or back to the head when there is
none. -/
theorem Ring.follow_head [DecidableEq α] {f : α → Bool} {fuel : ℕ} (h : Ring next (x :: L)) (hx : x ∉ L)
    (hfuel : L.length < fuel) :
    (PointerRing.follow next (fun y => decide (y = x) || f y) fuel (next x) = some x ∧ ∀ y ∈ L, f y = false)
    ∨ ∃ y ∈ L, f y = true
      ∧ PointerRing.follow next (fun y => decide (y = x) || f y) fuel (next x) = some y := by
  rw [ring_cons] at h
  have hstop : ∀ y ∈ L, (decide (y = x) || f y) = f y := by
    intro y hy
    have hne : y ≠ x := by
      rintro rfl
      exact hx hy
    rw [decide_eq_false hne, Bool.false_or]
  cases hfind : L.find? f with
  | none =>
    have hall : ∀ y ∈ L, f y = false := fun y hy => by simpa using List.find?_eq_none.mp hfind y hy
    left
    refine ⟨follow_of_seg h (fun y hy => ?_) (by simp) hfuel, hall⟩
    rw [hstop y hy, hall y hy]
  | some y =>
    obtain ⟨hy, F, G, rfl, hF⟩ := List.find?_eq_some_iff_append.mp hfind
    obtain ⟨r, hseg, rfl, _⟩ := seg_append.mp h
    right
    refine ⟨r, by simp, hy, follow_of_seg hseg (fun z hz => ?_) ?_ ?_⟩
    · rw [hstop z (List.mem_append_left _ hz)]
      simpa using hF z hz
    · rw [hstop r (by simp), hy]
    · rw [List.length_append] at hfuel
      omega

end Xv6e.Library.PointerRing
