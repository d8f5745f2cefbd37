import Xv6e.User.Umalloc
import Xv6e.Library.RegionList
import Xv6e.Library.PointerList

/-!
# The free list of the user-level allocator

* `FreeList` — the free list is a circle through `base` in increasing order, and its blocks do not touch;
* `free_spec` — `free` puts a block back, and its loop ends;
* `carve_spec` — `malloc` takes a block, or the end of one.
-/

namespace Xv6e.User.UmallocList

open Library.PointerRing Library.RegionList Umalloc
open Function (update update_self update_of_ne)

/-- The free blocks as ranges of bytes. -/
def regions (s : Heap) (bs : List ℕ) : List (ℕ × ℕ) := bs.map fun b => (b, 8 * s.size b)

/-- The free list: `base`, which has no units, and the blocks `bs`. -/
structure FreeList (base : ℕ) (s : Heap) (bs : List ℕ) : Prop where
  ring : Ring s.ptr (base :: bs)
  freep : s.freep ∈ base :: bs
  pos : 0 < base
  above : ∀ b ∈ bs, base < b
  zero : s.size base = 0
  co : Coalesced (regions s bs)
  bound : ∀ x ∈ covered (regions s bs), x < KERNBASE

variable {base bp p k n : ℕ} {s t : Heap} {bs l r : List ℕ}

/-! ### The blocks -/

theorem regions_append (s : Heap) (l r : List ℕ) : regions s (l ++ r) = regions s l ++ regions s r :=
  List.map_append

theorem regions_cons (s : Heap) (b : ℕ) (r : List ℕ) :
    regions s (b :: r) = (b, 8 * s.size b) :: regions s r := rfl

theorem regions_congr (h : ∀ b ∈ bs, t.size b = s.size b) : regions t bs = regions s bs := by
  apply List.map_congr_left
  intro b hb
  rw [h b hb]

theorem mem_regions {b : ℕ} (hb : b ∈ bs) : (b, 8 * s.size b) ∈ regions s bs := List.mem_map_of_mem hb

namespace FreeList

section

variable (h : FreeList base s bs)
include h

theorem size_pos {b : ℕ} (hb : b ∈ bs) : 0 < s.size b := by
  have := h.co.nonempty _ (mem_regions hb)
  show 0 < s.size b
  have : 0 < 8 * s.size b := this
  omega

theorem mem_covered_of_mem {b : ℕ} (hb : b ∈ bs) : b ∈ covered (regions s bs) :=
  h.co.start_mem (mem_regions hb)

theorem end_le {b : ℕ} (hb : b ∈ bs) : b + 8 * s.size b ≤ KERNBASE := by
  have hpos := h.size_pos hb
  have := h.bound (b + 8 * s.size b - 1)
    ⟨_, mem_regions hb, by show b ≤ _; omega, by show _ < b + 8 * s.size b; omega⟩
  omega

theorem sorted : (base :: bs).Pairwise (· < ·) := by
  rw [List.pairwise_cons]
  refine ⟨h.above, ?_⟩
  have hap := h.co.apart
  rw [regions, List.pairwise_map] at hap
  exact hap.imp fun {a b} (hab : a + 8 * s.size a < b) => by omega

theorem nodup : (base :: bs).Nodup := h.sorted.imp fun hlt => Nat.ne_of_lt hlt

theorem lt_kernbase {b : ℕ} (hb : b ∈ bs) : b < KERNBASE := by
  have := h.end_le hb
  have := h.size_pos hb
  omega

/-- The list is shorter than the number of addresses below `KERNBASE`. -/
theorem length_lt (hbase : base < KERNBASE) : (base :: bs).length < KERNBASE := by
  apply Library.PointerList.length_lt_of_nodup h.nodup _ (by decide)
  intro q hq
  rcases List.mem_cons.mp hq with rfl | hq
  · exact ⟨Nat.ne_of_gt h.pos, hbase⟩
  · have := h.above q hq
    exact ⟨by omega, h.lt_kernbase hq⟩

end

end FreeList

theorem add_eq (h : p + 8 * n ≤ KERNBASE) : add p n = p + 8 * n :=
  Nat.mod_eq_of_lt (Nat.lt_of_le_of_lt h (by decide))

/-! ### The place of a block -/

/-- A block that is put back: it is past `base`, ends below `KERNBASE` and overlaps no free block. -/
structure Returned (base : ℕ) (s : Heap) (bs : List ℕ) (bp : ℕ) : Prop where
  pos : 0 < s.size bp
  above : base < bp
  bound : bp + 8 * s.size bp ≤ KERNBASE
  disj : Disjoint (Set.Ico bp (bp + 8 * s.size bp)) (covered (regions s bs))

theorem Returned.notMem (h : Returned base s bs bp) (hl : FreeList base s bs) : bp ∉ base :: bs := by
  intro hmem
  rcases List.mem_cons.mp hmem with rfl | hmem
  · exact Nat.lt_irrefl _ h.above
  · have hpos := h.pos
    exact Set.disjoint_left.mp h.disj ⟨Nat.le_refl bp, by omega⟩ (hl.mem_covered_of_mem hmem)

theorem Returned.split (h : Returned base s bs bp) (hl : FreeList base s bs) :
    ∃ l r, bs = l ++ r ∧ (∀ b ∈ l, b < bp) ∧ ∀ b ∈ r, bp < b := by
  refine ⟨bs.filter (· < bp), bs.filter (¬ · < bp), ?_, ?_, ?_⟩
  · have hsorted := (List.pairwise_cons.mp hl.sorted).2
    clear h hl
    induction bs with
    | nil => rfl
    | cons b bs ih =>
      obtain ⟨hb, hrest⟩ := List.pairwise_cons.mp hsorted
      by_cases hlt : b < bp
      · simp only [List.filter_cons, hlt, decide_true, if_true, not_true_eq_false, decide_false,
          Bool.false_eq_true, if_false, List.cons_append]
        exact congrArg _ (ih hrest)
      · have hnone : bs.filter (· < bp) = [] := by
          rw [List.filter_eq_nil_iff]
          intro c hc
          have := hb c hc
          simp only [decide_eq_true_eq]
          omega
        have hall : bs.filter (¬ · < bp) = bs := by
          rw [List.filter_eq_self]
          intro c hc
          have := hb c hc
          simp only [decide_eq_true_eq]
          omega
        simp only [List.filter_cons, hlt, decide_false, Bool.false_eq_true, if_false, not_false_eq_true,
          decide_true, if_true, hnone, List.nil_append, hall]
  · intro b hb
    simpa using (List.mem_filter.mp hb).2
  · intro b hb
    obtain ⟨hmem, hle⟩ := List.mem_filter.mp hb
    have hne : b ≠ bp := fun hbb => h.notMem hl (List.mem_cons_of_mem base (hbb ▸ hmem))
    have : bp ≤ b := by simpa using hle
    omega

/-- Where the loop of `free` ends: at a block below `bp` whose successor is above it or is `base`. -/
theorem place_iff (hl : FreeList base s bs) (hbp : base < bp) {A B : List ℕ} {x : ℕ}
    (hx : base :: bs = A ++ x :: B) : place s bp x = true ↔ x < bp ∧ ∀ y ∈ B.head?, bp < y := by
  have hnext := hl.ring.next_eq hx
  have hsorted := hl.sorted
  rw [hx] at hsorted
  have hmem : x ∈ base :: bs := by
    rw [hx]
    simp
  have hbase : base ≤ x := by
    rcases List.mem_cons.mp hmem with rfl | hmem
    · exact Nat.le_refl _
    · exact Nat.le_of_lt (hl.above x hmem)
  simp only [place, Bool.or_eq_true, Bool.and_eq_true, decide_eq_true_eq]
  rw [hnext]
  cases B with
  | nil =>
    simp only [List.head?_nil, Option.getD_none, Option.mem_def, reduceCtorEq, false_imp_iff,
      implies_true, and_true]
    omega
  | cons y B =>
    have hxy : x < y := (List.pairwise_cons.mp (List.pairwise_append.mp hsorted).2.1).1 y List.mem_cons_self
    simp only [List.head?_cons, Option.getD_some, Option.mem_def, Option.some.injEq, forall_eq']
    omega

/-- **The loop of `free` ends**, at the last block below `bp`. -/
theorem follow_place (hl : FreeList base s bs) (hbase : base < KERNBASE) (hbp : base < bp)
    (hbs : base :: bs = l ++ p :: r) (hlow : ∀ b ∈ l ++ [p], b < bp) (hhigh : ∀ b ∈ r, bp < b) :
    follow s.ptr (place s bp) ADDRESSES s.freep = some p := by
  have hsorted := hl.sorted
  apply hl.ring.follow hl.freep
  · rw [hbs]
    simp
  · rw [place_iff hl hbp hbs]
    refine ⟨hlow p (by simp), fun y hy => hhigh y (List.mem_of_mem_head? hy)⟩
  · intro x hx hne
    obtain ⟨A, B, hAB⟩ := List.append_of_mem hx
    rw [Bool.eq_false_iff]
    intro hplace
    obtain ⟨hxbp, hB⟩ := (place_iff hl hbp hAB).mp hplace
    -- `p` comes after `x`, so that the successor of `x` is not above `bp`
    have hpmem : p ∈ A ++ x :: B := by
      rw [← hAB, hbs]
      simp
    have hxl : x < p := by
      have hxmem : x ∈ l ++ p :: r := hbs ▸ hx
      rcases List.mem_append.mp hxmem with hx' | hx'
      · rw [hbs] at hsorted
        exact (List.pairwise_append.mp hsorted).2.2 x hx' p List.mem_cons_self
      · rcases List.mem_cons.mp hx' with rfl | hx'
        · exact absurd rfl hne
        · have := hhigh x hx'
          omega
    rw [hAB] at hsorted
    have hpB : p ∈ B := by
      rcases List.mem_append.mp hpmem with hp' | hp'
      · have := (List.pairwise_append.mp hsorted).2.2 p hp' x List.mem_cons_self
        omega
      · rcases List.mem_cons.mp hp' with rfl | hp'
        · exact absurd hxl (Nat.lt_irrefl _)
        · exact hp'
    cases B with
    | nil => cases hpB
    | cons y B =>
      have hy := hB y rfl
      have hpbp := hlow p (by simp)
      have hyp : y ≤ p := by
        rcases List.mem_cons.mp hpB with rfl | hpB
        · exact Nat.le_refl _
        · have hyB := (List.pairwise_cons.mp (List.pairwise_append.mp hsorted).2.1).2
          exact Nat.le_of_lt ((List.pairwise_cons.mp hyB).1 p hpB)
      omega
  · exact Nat.le_of_lt (Nat.lt_trans (hl.length_lt hbase) (by decide))

/-! ### Joining -/

/-- What the first test of `free` does: the blocks `pre` above `bp`, none or one, become part of it. -/
structure JoinedUpper (s t : Heap) (bp p : ℕ) (r pre r1 : List ℕ) : Prop where
  blocks : r = pre ++ r1
  ptr : ∀ q, Seg s.ptr (s.ptr p) pre q → t.ptr bp = q
  regions : ∀ v m, v + m = bp + 8 * s.size bp →
    absorb (v, m) (regions s r) = (v, m + 8 * (t.size bp - s.size bp)) :: UmallocList.regions s r1
  grows : s.size bp ≤ t.size bp
  other : ∀ x, x ≠ bp → t.ptr x = s.ptr x ∧ t.size x = s.size x

theorem joinUpper_spec (hl : FreeList base s bs) (hr : Returned base s bs bp) (hbs : base :: bs = l ++ p :: r)
    (hhigh : ∀ b ∈ r, bp < b) : ∃ pre r1, JoinedUpper s (joinUpper s bp p) bp p r pre r1 := by
  have hnext := hl.ring.next_eq hbs
  have hadd := add_eq hr.bound
  have hpos := hr.pos
  rw [joinUpper, hadd]
  split_ifs with hjoin
  · cases r with
    | nil =>
      -- `base` is below `bp`
      have habove := hr.above
      rw [hnext] at hjoin
      replace hjoin : bp + 8 * s.size bp = base := hjoin
      omega
    | cons c r =>
      replace hnext : s.ptr p = c := hnext
      rw [hnext] at hjoin ⊢
      refine ⟨[c], r, rfl, fun q hq => ?_, fun v m hvm => ?_, ?_, fun x hx => ⟨?_, ?_⟩⟩
      · obtain ⟨_, hq⟩ := hq
        exact (update_self ..).trans hq
      · rw [regions_cons, absorb, if_pos (hvm.trans hjoin)]
        show _ = (v, m + 8 * (update s.size bp _ bp - s.size bp)) :: _
        rw [update_self, Nat.add_sub_cancel_left]
      · show s.size bp ≤ update s.size bp _ bp
        rw [update_self]
        exact Nat.le_add_right _ _
      · exact update_of_ne hx ..
      · exact update_of_ne hx ..
  · refine ⟨[], r, rfl, fun q hq => ?_, fun v m hvm => ?_, Nat.le_refl _, fun x hx => ⟨?_, rfl⟩⟩
    · exact (update_self ..).trans hq
    · show _ = (v, m + 8 * (s.size bp - s.size bp)) :: regions s r
      rw [Nat.sub_self, Nat.mul_zero, Nat.add_zero]
      cases r with
      | nil => rfl
      | cons c r =>
        rw [regions_cons, absorb, if_neg]
        show ¬ v + m = c
        rw [hvm]
        rw [show s.ptr p = c from hnext] at hjoin
        exact hjoin
    · exact update_of_ne hx ..

/-- What `free` has done: the block is part of the list, which covers it now as well. -/
structure Freed (base : ℕ) (s t : Heap) (bs bs' : List ℕ) (bp : ℕ) : Prop where
  list : FreeList base t bs'
  covers : covered (regions t bs') = covered (regions s bs) ∪ Set.Ico bp (bp + 8 * s.size bp)
  other : ∀ x, x ∉ bs → x ≠ bp → t.size x = s.size x
  top : t.top = s.top
  refused : t.refused = s.refused
  obtained : t.obtained = s.obtained

theorem joinUpper_rest (s : Heap) (bp p : ℕ) : (joinUpper s bp p).top = s.top
    ∧ (joinUpper s bp p).refused = s.refused ∧ (joinUpper s bp p).obtained = s.obtained := by
  rw [joinUpper]
  split_ifs <;> exact ⟨rfl, rfl, rfl⟩

theorem insertBlock_rest (s : Heap) (bp p : ℕ) : (insertBlock s bp p).top = s.top
    ∧ (insertBlock s bp p).refused = s.refused ∧ (insertBlock s bp p).obtained = s.obtained := by
  rw [insertBlock, joinLower]
  split_ifs <;> exact joinUpper_rest s bp p

theorem freed_of {bs' : List ℕ} (hl : FreeList base s (l ++ r)) (hr : Returned base s (l ++ r) bp)
    (hlow : ∀ b ∈ l, b < bp) (hhigh : ∀ b ∈ r, bp < b) (hring : Ring (insertBlock s bp p).ptr (base :: bs'))
    (hp : p ∈ base :: bs') (hsub : ∀ b ∈ bs', b ∈ l ++ r ∨ b = bp)
    (hregions : regions (insertBlock s bp p) bs' = releaseAt bp (8 * s.size bp) (regions s l) (regions s r))
    (hother : ∀ x, x ∉ l ++ r → x ≠ bp → (insertBlock s bp p).size x = s.size x) :
    Freed base s (insertBlock s bp p) (l ++ r) bs' bp := by
  have hpos := hr.pos
  have habove := hr.above
  obtain ⟨hbefore, hafter⟩ := hl.co.split (k := 8 * s.size bp) (by omega) hr.disj
  have hco := hl.co
  rw [regions_append] at hco hbefore hafter
  have hrel := Coalesced.releaseAt (v := bp) (k := 8 * s.size bp) (regions s l) (regions s r) hco (by omega)
    (fun q hq => hbefore q (List.mem_append_left _ hq) ?_) fun q hq => hafter q
    (List.mem_append_right _ hq) ?_
  · obtain ⟨hco', hcov⟩ := hrel
    rw [← hregions] at hco' hcov
    rw [← regions_append] at hcov
    obtain ⟨htop, hrefused, hobtained⟩ := insertBlock_rest s bp p
    refine ⟨⟨hring, hp, hl.pos, fun b hb => ?_, ?_, hco', fun x hx => ?_⟩, hcov, hother, htop,
      hrefused, hobtained⟩
    · rcases hsub b hb with hb | rfl
      · exact hl.above b hb
      · exact hr.above
    · rw [hother base (fun hb => Nat.lt_irrefl _ (hl.above base hb)) (by omega)]
      exact hl.zero
    · rw [hcov] at hx
      rcases hx with hx | hx
      · exact hl.bound x hx
      · exact Nat.lt_of_lt_of_le hx.2 hr.bound
  · obtain ⟨b, hb, rfl⟩ := List.mem_map.mp hq
    exact hlow b hb
  · obtain ⟨b, hb, rfl⟩ := List.mem_map.mp hq
    exact Nat.le_of_lt (hhigh b hb)

theorem insertBlock_joined (h : add p ((joinUpper s bp p).size p) = bp) : insertBlock s bp p =
    { joinUpper s bp p with
      size := update (joinUpper s bp p).size p ((joinUpper s bp p).size p + (joinUpper s bp p).size bp)
      ptr := update (joinUpper s bp p).ptr p ((joinUpper s bp p).ptr bp)
      freep := p } := by
  rw [insertBlock, joinLower, if_pos h]

theorem insertBlock_linked (h : add p ((joinUpper s bp p).size p) ≠ bp) :
    insertBlock s bp p = { joinUpper s bp p with ptr := update (joinUpper s bp p).ptr p bp, freep := p } := by
  rw [insertBlock, joinLower, if_neg h]

/-- The place of a block as the last of those below it. -/
theorem last_below (base : ℕ) (l : List ℕ) :
    ∃ A p, base :: l = A ++ [p] ∧ (l = [] ∧ A = [] ∧ p = base ∨ ∃ l', l = l' ++ [p] ∧ A = base :: l') := by
  rcases List.eq_nil_or_concat' l with rfl | ⟨l', p, rfl⟩
  · exact ⟨[], base, rfl, Or.inl ⟨rfl, rfl, rfl⟩⟩
  · exact ⟨base :: l', p, rfl, Or.inr ⟨l', rfl, rfl⟩⟩

/-- **`free` puts the block back**, joined to the free blocks that it touches, and its loop ends. -/
theorem free_spec (hl : FreeList base s bs) (hbase : base < KERNBASE) (hr : Returned base s bs bp) :
    ∃ t bs', free s (bp + 8) = some t ∧ Freed base s t bs bs' bp := by
  obtain ⟨l, r, rfl, hlow, hhigh⟩ := hr.split hl
  obtain ⟨A, p, hA, hlast⟩ := last_below base l
  have hbs : base :: (l ++ r) = A ++ p :: r := by
    rw [← List.cons_append, hA, List.append_assoc, List.singleton_append]
  have hpA : ∀ b ∈ A ++ [p], b < bp := by
    rw [← hA]
    intro b hb
    rcases List.mem_cons.mp hb with rfl | hb
    · exact hr.above
    · exact hlow b hb
  have hp : p < bp := hpA p (by simp)
  have hnot := hr.notMem hl
  have hfollow := follow_place hl hbase hr.above hbs hpA hhigh
  have hfree : free s (bp + 8) = some (insertBlock s bp p) := by
    rw [free, Nat.add_sub_cancel, hfollow]
    rfl
  obtain ⟨pre, r1, hj⟩ := joinUpper_spec hl hr hbs hhigh
  obtain ⟨hpp, hps⟩ := hj.other p (Nat.ne_of_lt hp)
  have hnodup := hl.nodup
  have hring := hl.ring
  rw [hbs, hj.blocks] at hring hnodup
  have hpre : ∀ b ∈ r1, b ∈ l ++ r := fun b hb => by
    rw [hj.blocks]
    simp [hb]
  have hneA : ∀ x ∈ A, x ≠ p ∧ x ≠ bp := fun x hx => by
    refine ⟨?_, fun hxb => Nat.lt_irrefl _ (hxb ▸ hpA x (by simp [hx]))⟩
    rintro rfl
    exact (List.nodup_append.mp hnodup).2.2 x hx x List.mem_cons_self rfl
  have hneC : ∀ x ∈ r1, x ≠ p ∧ x ≠ bp := fun x hx => by
    refine ⟨?_, fun hxb => hnot (List.mem_cons_of_mem base (hxb ▸ hpre x hx))⟩
    rintro rfl
    exact (List.nodup_cons.mp (List.nodup_append.mp hnodup).2.1).1 (List.mem_append_right pre hx)
  by_cases hjoin : add p ((joinUpper s bp p).size p) = bp
  · -- `bp` becomes part of `p`, which is not `base`
    obtain ⟨l', rfl, rfl⟩ : ∃ l', l = l' ++ [p] ∧ A = base :: l' := by
      rcases hlast with ⟨_, _, rfl⟩ | hlast
      · rw [hps, hl.zero] at hjoin
        have : add p 0 = p := Nat.mod_eq_of_lt (Nat.lt_trans (Nat.lt_trans hp
          (Nat.lt_of_lt_of_le (Nat.lt_add_of_pos_right (Nat.mul_pos (by decide) hr.pos)) hr.bound))
          (by decide))
        omega
      · exact hlast
    have hpmem : p ∈ l' ++ [p] ++ r := by simp
    have hadd : p + 8 * s.size p = bp := by
      rw [hps, add_eq (hl.end_le hpmem)] at hjoin
      exact hjoin
    have hins := insertBlock_joined hjoin
    have hsize : ∀ x, x ≠ p → x ≠ bp → (insertBlock s bp p).size x = s.size x := fun x hxp hxb => by
      rw [hins]
      exact (update_of_ne hxp ..).trans (hj.other x hxb).2
    have hsizep : (insertBlock s bp p).size p = s.size p + (joinUpper s bp p).size bp := by
      rw [hins, ← hps]
      exact update_self ..
    refine ⟨_, l' ++ [p] ++ r1, hfree, freed_of hl hr hlow hhigh ?_ (by simp) (fun b hb => Or.inl ?_) ?_ ?_⟩
    · have hnew : Ring (insertBlock s bp p).ptr (base :: l' ++ p :: ([] ++ r1)) := by
        refine hring.relink (fun x hx => ?_) (fun x hx => ?_) fun q hq => ?_
        · rw [hins]
          exact (update_of_ne (hneA x hx).1 ..).trans (hj.other x (hneA x hx).2).1
        · rw [hins]
          exact (update_of_ne (hneC x hx).1 ..).trans (hj.other x (hneC x hx).2).1
        · rw [hins]
          exact (update_self ..).trans (hj.ptr q hq)
      simpa using hnew
    · rcases List.mem_append.mp hb with hb | hb
      · exact List.mem_append_left _ hb
      · exact hpre b hb
    · have hl' : regions (insertBlock s bp p) l' = regions s l' := regions_congr fun b hb =>
        hsize b (hneA b (List.mem_cons_of_mem base hb)).1 (hneA b (List.mem_cons_of_mem base hb)).2
      have hr1 : regions (insertBlock s bp p) r1 = regions s r1 := regions_congr fun b hb =>
        hsize b (hneC b hb).1 (hneC b hb).2
      have habs := hj.regions p (8 * s.size p + 8 * s.size bp) (by omega)
      rw [regions_append, regions_append, hl', hr1, releaseAt, regions_append]
      show regions s l' ++ [(p, 8 * (insertBlock s bp p).size p)] ++ regions s r1 = _
      rw [show regions s [p] = [(p, 8 * s.size p)] from rfl, List.getLast?_concat]
      simp only [List.dropLast_concat, hadd, if_true]
      rw [habs, hsizep, List.append_assoc, List.singleton_append]
      have hgrows := hj.grows
      congr 3
      omega
    · intro x hx hxb
      exact hsize x (fun hxp => hx (hxp ▸ hpmem)) hxb
  · -- `p` points to `bp`
    have hins := insertBlock_linked hjoin
    have hsize : ∀ x, x ≠ bp → (insertBlock s bp p).size x = s.size x := fun x hxb => by
      rw [hins]
      exact (hj.other x hxb).2
    have hsizeb : (insertBlock s bp p).size bp = (joinUpper s bp p).size bp := by rw [hins]
    refine ⟨_, l ++ bp :: r1, hfree, freed_of hl hr hlow hhigh ?_ ?_
      (fun b hb => ?_) ?_ fun x _ hxb => hsize x hxb⟩
    · have hnew : Ring (insertBlock s bp p).ptr (A ++ p :: ([bp] ++ r1)) := by
        refine hring.relink (fun x hx => ?_) (fun x hx => ?_) fun q hq => ⟨?_, ?_⟩
        · rw [hins]
          exact (update_of_ne (hneA x hx).1 ..).trans (hj.other x (hneA x hx).2).1
        · rw [hins]
          exact (update_of_ne (hneC x hx).1 ..).trans (hj.other x (hneC x hx).2).1
        · rw [hins]
          exact update_self ..
        · rw [hins]
          exact (update_of_ne (Nat.ne_of_gt hp) ..).trans (hj.ptr q hq)
      rw [← List.cons_append, hA]
      simpa using hnew
    · rw [← List.cons_append, hA]
      simp
    · rcases List.mem_append.mp hb with hb | hb
      · exact Or.inl (List.mem_append_left _ hb)
      · rcases List.mem_cons.mp hb with rfl | hb
        · exact Or.inr rfl
        · exact Or.inl (hpre b hb)
    · have hl' : regions (insertBlock s bp p) l = regions s l := regions_congr fun b hb =>
        hsize b (Nat.ne_of_lt (hlow b hb))
      have hr1 : regions (insertBlock s bp p) r1 = regions s r1 :=
        regions_congr fun b hb => hsize b (hneC b hb).2
      have habs := hj.regions bp (8 * s.size bp) rfl
      have hgrows := hj.grows
      have hnew : regions (insertBlock s bp p) (l ++ bp :: r1) = regions s l
          ++ absorb (bp, 8 * s.size bp) (regions s r) := by
        rw [regions_append, regions_cons, hl', hr1, habs, hsizeb]
        congr 3
        omega
      rw [hnew, releaseAt]
      rcases hlast with ⟨rfl, _, _⟩ | ⟨l', rfl, _⟩
      · rfl
      · have hpmem : p ∈ l' ++ [p] ++ r := by simp
        rw [hps, add_eq (hl.end_le hpmem)] at hjoin
        rw [regions_append, show regions s [p] = [(p, 8 * s.size p)] from rfl, List.getLast?_concat]
        simp only [if_neg hjoin]

/-! ### Taking a block -/

/-- What `malloc` takes: the range of `n` headers from `a` on, which was free. -/
structure Taken (base : ℕ) (s t : Heap) (bs bs' : List ℕ) (n a : ℕ) : Prop where
  list : FreeList base t bs'
  covers : covered (regions t bs') = covered (regions s bs) \ Set.Ico a (a + 8 * n)
  free : Set.Ico a (a + 8 * n) ⊆ covered (regions s bs)
  size : t.size a = n
  other : ∀ x, x ∉ covered (regions s bs) → t.size x = s.size x
  top : t.top = s.top
  refused : t.refused = s.refused
  obtained : t.obtained = s.obtained

theorem FreeList.around (h : FreeList base s (l ++ p :: r)) :
    (∀ b ∈ l, b + 8 * s.size b < p) ∧ ∀ b ∈ r, p + 8 * s.size p < b := by
  have hco := h.co
  rw [regions_append, regions_cons] at hco
  obtain ⟨_, hpr, hsep⟩ := coalesced_append.mp hco
  constructor
  · intro b hb
    exact hsep _ (mem_regions hb) _ List.mem_cons_self
  · intro b hb
    exact (coalesced_cons.mp hpr).2.1 _ (mem_regions hb)

theorem covered_diff {a e : ℕ} (h : FreeList base s (l ++ p :: r)) (ha : p ≤ a) (hae : a ≤ e)
    (he : e = p + 8 * s.size p) : covered (regions s l) ∪ (Set.Ico p a ∪ covered (regions s r))
      = covered (regions s (l ++ p :: r)) \ Set.Ico a e := by
  obtain ⟨hlo, hhi⟩ := h.around
  rw [regions_append, regions_cons, covered_append, covered_cons, he]
  ext x
  simp only [Set.mem_union, Set.mem_Ico, Set.mem_sdiff]
  have hl : x ∈ covered (regions s l) → x < p := by
    rintro ⟨q, hq, _, hx⟩
    obtain ⟨b, hb, rfl⟩ := List.mem_map.mp hq
    exact Nat.lt_trans hx (hlo b hb)
  have hr : x ∈ covered (regions s r) → p + 8 * s.size p < x := by
    rintro ⟨q, hq, hx, _⟩
    obtain ⟨b, hb, rfl⟩ := List.mem_map.mp hq
    exact Nat.lt_of_lt_of_le (hhi b hb) hx
  constructor
  · rintro (hx | hx | hx)
    · exact ⟨Or.inl hx, fun hc => by have := hl hx; omega⟩
    · exact ⟨Or.inr (Or.inl ⟨hx.1, by omega⟩), fun hc => by omega⟩
    · exact ⟨Or.inr (Or.inr hx), fun hc => by have := hr hx; omega⟩
  · rintro ⟨hx | hx | hx, hnot⟩
    · exact Or.inl hx
    · exact Or.inr (Or.inl ⟨hx.1, by omega⟩)
    · exact Or.inr (Or.inr hx)

theorem carve_whole {x prev : ℕ} (h : FreeList base s (l ++ x :: r)) (hprev : prev ∈ base :: (l ++ x :: r))
    (hnext : s.ptr prev = x) :
    Taken base s { s with ptr := update s.ptr prev (s.ptr x), freep := prev } (l ++ x :: r) (l ++ r)
    (s.size x) x := by
  obtain ⟨A, p, hA, _⟩ := last_below base l
  have hbs : base :: (l ++ x :: r) = A ++ p :: ([x] ++ r) := by
    rw [← List.cons_append, hA, List.append_assoc, List.singleton_append]
    rfl
  have hnodup := h.nodup
  obtain rfl : prev = p := by
    apply h.ring.injOn hnodup hprev
    · rw [hbs]
      simp
    · rw [hnext, h.ring.next_eq hbs]
      rfl
  have hring := h.ring
  rw [hbs] at hring hnodup
  have hmem : ∀ b ∈ l ++ r, b ∈ l ++ x :: r := fun b hb => by
    rcases List.mem_append.mp hb with hb | hb
    · exact List.mem_append_left _ hb
    · exact List.mem_append_right _ (List.mem_cons_of_mem x hb)
  have hcov := covered_diff h (Nat.le_refl x) (Nat.le_add_right x (8 * s.size x)) rfl
  have hempty : Set.Ico x x = ∅ := Set.Ico_self x
  rw [hempty, Set.empty_union, ← covered_append, ← regions_append] at hcov
  have hco := h.co
  rw [regions_append, regions_cons] at hco
  obtain ⟨hcl, hcr, hsep⟩ := coalesced_append.mp hco
  refine ⟨⟨?_, ?_, h.pos, fun b hb => h.above b (hmem b hb), h.zero, ?_, fun y hy => ?_⟩, hcov, ?_, rfl,
    fun _ _ => rfl, rfl, rfl, rfl⟩
  · have hnew : Ring (update s.ptr prev (s.ptr x)) (A ++ prev :: ([] ++ r)) := by
      refine hring.relink (fun y hy => ?_) (fun y hy => ?_) fun q hq => ?_
      · apply update_of_ne
        rintro rfl
        exact (List.nodup_append.mp hnodup).2.2 y hy y List.mem_cons_self rfl
      · apply update_of_ne
        rintro rfl
        exact (List.nodup_cons.mp (List.nodup_append.mp hnodup).2.1).1 (List.mem_append_right [x] hy)
      · exact (update_self ..).trans hq.2
    rw [← List.cons_append, hA]
    simpa using hnew
  · show prev ∈ base :: (l ++ r)
    rw [← List.cons_append, hA]
    simp
  · show Coalesced (regions s (l ++ r))
    rw [regions_append]
    exact coalesced_append.mpr
      ⟨hcl, (coalesced_cons.mp hcr).2.2, fun a ha b hb => hsep a ha b (List.mem_cons_of_mem _ hb)⟩
  · apply h.bound y
    have hy' : y ∈ covered (regions s (l ++ r)) := hy
    rw [hcov] at hy'
    exact hy'.1
  · intro y hy
    exact ⟨_, mem_regions (List.mem_append_right l List.mem_cons_self), hy.1, hy.2⟩

theorem carve_end {x prev : ℕ} (h : FreeList base s (l ++ x :: r)) (hprev : prev ∈ base :: (l ++ x :: r))
    (hn : 0 < n) (hlt : n < s.size x) : Taken base s { s with
      size := update (update s.size x (s.size x - n)) (x + 8 * (s.size x - n)) n
      freep := prev } (l ++ x :: r) (l ++ x :: r) n (x + 8 * (s.size x - n)) := by
  obtain ⟨hlo, hhi⟩ := h.around
  have hbx : base < x := h.above x (by simp)
  have hsize : ∀ y, y ≠ x → y ≠ x + 8 * (s.size x - n) →
      update (update s.size x (s.size x - n)) (x + 8 * (s.size x - n)) n y = s.size y :=
    fun y hyx hyq => by rw [update_of_ne hyq, update_of_ne hyx]
  have hsizex : update (update s.size x (s.size x - n)) (x + 8 * (s.size x - n)) n x = s.size x - n := by
    rw [update_of_ne (by omega), update_self]
  have hregions : regions { s with
      size := update (update s.size x (s.size x - n)) (x + 8 * (s.size x - n)) n
      freep := prev } (l ++ x :: r) = regions s l ++ (x, 8 * (s.size x - n)) :: regions s r := by
    rw [regions_append, regions_cons]
    congr 1
    · apply regions_congr
      intro b hb
      have := hlo b hb
      exact hsize b (by omega) (by omega)
    · congr 1
      · exact congrArg (fun m => (x, 8 * m)) hsizex
      · apply regions_congr
        intro b hb
        have := hhi b hb
        exact hsize b (by omega) (by omega)
  have hcov := covered_diff (a := x + 8 * (s.size x - n)) (e := x + 8 * (s.size x - n) + 8 * n) h
    (by omega) (by omega) (by omega)
  have hco := h.co
  rw [regions_append, regions_cons] at hco
  obtain ⟨hcl, hcr, hsep⟩ := coalesced_append.mp hco
  have hcov' : covered (regions { s with
      size := update (update s.size x (s.size x - n)) (x + 8 * (s.size x - n)) n
      freep := prev } (l ++ x :: r))
      = covered (regions s (l ++ x :: r)) \ Set.Ico (x + 8 * (s.size x - n))
      (x + 8 * (s.size x - n) + 8 * n) := by
    rw [hregions, covered_append, covered_cons]
    exact hcov
  have hin : Set.Ico (x + 8 * (s.size x - n)) (x + 8 * (s.size x - n) + 8 * n) ⊆ covered
      (regions s (l ++ x :: r)) := by
    intro y hy
    refine ⟨_, mem_regions (List.mem_append_right l List.mem_cons_self), ?_, ?_⟩
    · have := hy.1
      show x ≤ y
      omega
    · have := hy.2
      show y < x + 8 * s.size x
      omega
  refine ⟨⟨h.ring, hprev, h.pos, h.above, ?_, ?_, fun y hy => ?_⟩, hcov', hin, update_self .., fun y hy => ?_,
    rfl, rfl, rfl⟩
  · exact (hsize base (by omega) (by omega)).trans h.zero
  · rw [hregions]
    refine coalesced_append.mpr
      ⟨hcl, coalesced_cons.mpr ⟨?_, ?_, (coalesced_cons.mp hcr).2.2⟩, fun a ha b hb => ?_⟩
    · show 0 < 8 * (s.size x - n)
      omega
    · intro q hq
      have : x + 8 * s.size x < q.1 := (coalesced_cons.mp hcr).2.1 q hq
      show x + 8 * (s.size x - n) < q.1
      omega
    · rcases List.mem_cons.mp hb with rfl | hb
      · have : a.1 + a.2 < x := hsep a ha (x, 8 * s.size x) List.mem_cons_self
        exact this
      · exact hsep a ha b (List.mem_cons_of_mem _ hb)
  · rw [hcov'] at hy
    exact h.bound y hy.1
  · apply hsize
    · rintro rfl
      exact hy (h.mem_covered_of_mem (by simp))
    · rintro rfl
      exact hy (hin ⟨Nat.le_refl _, by omega⟩)

/-- **`malloc` takes `n` headers** from a block that has as many, and returns the address behind the first of
them. -/
theorem carve_spec {x prev : ℕ} (h : FreeList base s bs) (hx : x ∈ bs) (hprev : prev ∈ base :: bs)
    (hnext : s.ptr prev = x) (hn : 0 < n) (hle : n ≤ s.size x) :
    ∃ t bs' a, carve s n prev x = (a + 8, t) ∧ Taken base s t bs bs' n a := by
  obtain ⟨l, r, rfl⟩ := List.append_of_mem hx
  by_cases heq : s.size x = n
  · refine ⟨_, l ++ r, x, by rw [carve, if_pos heq], ?_⟩
    rw [← heq]
    exact carve_whole h hprev hnext
  · have hend := h.end_le hx
    have hadd : add x (s.size x - n) = x + 8 * (s.size x - n) := add_eq (by omega)
    refine ⟨_, l ++ x :: r, x + 8 * (s.size x - n), ?_, carve_end h hprev hn (by omega)⟩
    rw [carve, if_neg heq]
    simp only [hadd]

end Xv6e.User.UmallocList
