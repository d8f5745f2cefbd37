import Xv6e.User.UmallocList

/-!
# Programs that use the allocator

* `mallocLoop_found`, `mallocLoop_morecore` — the loop of `malloc` finds a block that is large enough if there
  is one, and otherwise goes once round and calls `morecore`;
* `Malloced`, `mallocLoop_spec` — what `malloc` has done when it returns;
* `Inv` — the free blocks and those of the program are the memory that `sbrk` returned;
* `allocator_correct` — the result, for every program.
-/

namespace Xv6e.User.UmallocRuns

open Library.PointerRing Library.RegionList Library.Transition Umalloc UmallocList

variable {base p q n fuel : ℕ} {s t : Heap} {bs F : List ℕ}

/-! ### The loop of `malloc` -/

theorem mallocLoop_scan (hseg : Seg s.ptr p F q) (hsmall : ∀ x ∈ F, s.size x < n) (hfreep : s.freep ∉ F)
    (fuel : ℕ) {prevp : ℕ} (hprev : s.ptr prevp = p) : ∃ prev, s.ptr prev = q ∧ (prev = prevp ∨ prev ∈ F)
      ∧ mallocLoop n (fuel + F.length) s prevp p = mallocLoop n fuel s prev q := by
  induction F generalizing p prevp with
  | nil => exact ⟨prevp, hprev.trans hseg, Or.inl rfl, by rw [seg_nil.mp hseg]; rfl⟩
  | cons x F ih =>
    obtain ⟨rfl, htail⟩ := hseg
    rw [List.mem_cons, not_or] at hfreep
    obtain ⟨prev, hnext, hor, heq⟩ := ih htail (fun y hy => hsmall y (List.mem_cons_of_mem p hy)) hfreep.2 rfl
    refine ⟨prev, hnext, Or.inr ?_, ?_⟩
    · rcases hor with rfl | hmem
      · exact List.mem_cons_self
      · exact List.mem_cons_of_mem p hmem
    · have hp := hsmall p List.mem_cons_self
      rw [List.length_cons, ← Nat.add_assoc, mallocLoop, if_neg (Nat.not_le.mpr hp),
        if_neg (Ne.symm hfreep.1)]
      exact heq

/-- The way round from the block after `freep` to `freep`. -/
theorem exists_round (h : FreeList base s bs) : ∃ R, Seg s.ptr (s.ptr s.freep) R s.freep ∧ s.freep ∉ R
    ∧ (∀ x, x ∈ base :: bs ↔ x = s.freep ∨ x ∈ R) ∧ (base :: bs).length = R.length + 1 := by
  obtain ⟨A, B, hAB⟩ := List.append_of_mem h.freep
  have hring := h.ring
  have hnodup := h.nodup
  rw [hAB] at hring hnodup
  have hrot := hring.rotate
  rw [List.cons_append, ring_cons] at hrot
  refine ⟨B ++ A, hrot, fun hmem => ?_, fun x => ?_, ?_⟩
  · rcases List.mem_append.mp hmem with hB | hA
    · exact (List.nodup_cons.mp (List.nodup_append.mp hnodup).2.1).1 hB
    · exact (List.nodup_append.mp hnodup).2.2 _ hA _ List.mem_cons_self rfl
  · rw [hAB]
    simp only [List.mem_append, List.mem_cons]
    tauto
  · rw [hAB]
    simp only [List.length_append, List.length_cons]
    omega

/-- **The loop of `malloc` finds a block that is large enough** if there is one. -/
theorem mallocLoop_found (h : FreeList base s bs) (hn : 0 < n) (hbig : ∃ b ∈ bs, n ≤ s.size b)
    (hfuel : (base :: bs).length ≤ fuel) : ∃ x prev, x ∈ bs ∧ prev ∈ base :: bs ∧ s.ptr prev = x
      ∧ n ≤ s.size x ∧ mallocLoop n fuel s s.freep (s.ptr s.freep) = some (carve s n prev x) := by
  obtain ⟨R, hseg, hnot, hmem, hlen⟩ := exists_round h
  have hbs : ∀ x, x ∈ base :: bs → n ≤ s.size x → x ∈ bs := fun x hx hle => by
    rcases List.mem_cons.mp hx with rfl | hx
    · rw [h.zero] at hle
      omega
    · exact hx
  -- the first block of the way round that is large enough, which may be `freep`
  obtain ⟨G, y, hGseg, hGsmall, hGnot, hy, hle, hsub, hGlen⟩ : ∃ G y, Seg s.ptr (s.ptr s.freep) G y
      ∧ (∀ x ∈ G, s.size x < n) ∧ s.freep ∉ G ∧ y ∈ base :: bs ∧ n ≤ s.size y ∧ (∀ x ∈ G, x ∈ base :: bs)
      ∧ G.length < fuel := by
    cases hfind : R.find? fun x => n ≤ s.size x with
    | some y =>
      obtain ⟨hy, G, G', rfl, hG⟩ := List.find?_eq_some_iff_append.mp hfind
      obtain ⟨r, hGseg, rfl, _⟩ := seg_append.mp hseg
      refine ⟨G, r, hGseg, fun x hx => by simpa using hG x hx, fun hf => hnot (List.mem_append_left _ hf),
        (hmem r).mpr (Or.inr (by simp)), of_decide_eq_true hy,
        fun x hx => (hmem x).mpr (Or.inr (by simp [hx])), ?_⟩
      simp only [List.length_append, List.length_cons] at hlen hfuel
      omega
    | none =>
      have hall : ∀ x ∈ R, s.size x < n := by simpa using List.find?_eq_none.mp hfind
      refine ⟨R, s.freep, hseg, hall, hnot, h.freep, ?_, fun x hx => (hmem x).mpr (Or.inr hx), by omega⟩
      obtain ⟨b, hb, hle⟩ := hbig
      rcases (hmem b).mp (List.mem_cons_of_mem base hb) with rfl | hR
      · exact hle
      · have := hall b hR
        omega
  obtain ⟨m, rfl⟩ : ∃ m, fuel = m + 1 + G.length := ⟨fuel - 1 - G.length, by omega⟩
  obtain ⟨prev, hnext, hor, heq⟩ := mallocLoop_scan hGseg hGsmall hGnot (m + 1) rfl
  refine ⟨y, prev, hbs y hy hle, ?_, hnext, hle, ?_⟩
  · rcases hor with rfl | hG
    · exact h.freep
    · exact hsub prev hG
  · rw [heq, mallocLoop, if_pos hle]

/-- **If all blocks are too small** the loop goes once round and calls `morecore`. -/
theorem mallocLoop_morecore (h : FreeList base s bs) (hn : 0 < n)
    (hsmall : ∀ b ∈ bs, s.size b < n) (fuel : ℕ) :
    mallocLoop n (fuel + (base :: bs).length) s s.freep (s.ptr s.freep) =
      match morecore s n with
      | none => none
      | some (p, s) => if p = 0 then some (0, s) else mallocLoop n fuel s p (s.ptr p) := by
  obtain ⟨R, hseg, hnot, hmem, hlen⟩ := exists_round h
  have hall : ∀ x ∈ base :: bs, s.size x < n := fun x hx => by
    rcases List.mem_cons.mp hx with rfl | hx
    · rw [h.zero]
      exact hn
    · exact hsmall x hx
  obtain ⟨prev, _, _, heq⟩ := mallocLoop_scan hseg (fun x hx => hall x ((hmem x).mpr (Or.inr hx))) hnot
    (fuel + 1) rfl
  rw [hlen, show fuel + (R.length + 1) = fuel + 1 + R.length by omega, heq]
  exact (if_neg (Nat.not_le.mpr (hall _ h.freep))).trans (if_pos rfl)

/-! ### `malloc` -/

/-- The memory of the allocator: its list, and the bytes that it has obtained, free or not. -/
structure Good (base : ℕ) (s : Heap) (bs : List ℕ) : Prop where
  list : FreeList base s bs
  sub : covered (regions s bs) ⊆ covered s.obtained
  range : ∀ x ∈ covered s.obtained, base + 8 ≤ x ∧ x < s.top
  base : base + 8 ≤ s.top
  top : s.top ≤ KERNBASE

theorem Good.base_lt (h : Good base s bs) : base < KERNBASE := by
  have := h.base
  have := h.top
  omega

theorem sbrk_cases (s : Heap) (n : ℕ) :
    (∃ rest, sbrk s n = (none, { s with answers := rest, refused := true }))
    ∨ ∃ v rest, s.top ≤ v ∧ v + n ≤ KERNBASE
      ∧ sbrk s n =
        (some v, { s with top := v + n, answers := rest, obtained := s.obtained ++ [(v, n)] }) := by
  cases ha : s.answers with
  | nil =>
    refine Or.inl ⟨[], ?_⟩
    rw [sbrk, ha]
  | cons a rest =>
    cases a with
    | none => exact Or.inl ⟨rest, by rw [sbrk, ha]⟩
    | some gap =>
      by_cases hle : s.top + gap + n ≤ KERNBASE
      · refine Or.inr ⟨s.top + gap, rest, Nat.le_add_right _ _, hle, ?_⟩
        rw [sbrk, ha]
        exact if_pos hle
      · refine Or.inl ⟨rest, ?_⟩
        rw [sbrk, ha]
        exact if_neg hle

/-- `morecore` has obtained the `m` bytes from `v` on, and they are free. -/
structure Grown (base : ℕ) (s t : Heap) (bs bs' : List ℕ) (v m : ℕ) : Prop where
  good : Good base t bs'
  fresh : s.top ≤ v
  obtained : t.obtained = s.obtained ++ [(v, m)]
  covers : covered (regions t bs') = covered (regions s bs) ∪ Set.Ico v (v + m)
  other : ∀ x, x < s.top → x ∉ covered (regions s bs) → t.size x = s.size x

theorem covered_snoc (rs : List (ℕ × ℕ)) (v m : ℕ) :
    covered (rs ++ [(v, m)]) = covered rs ∪ Set.Ico v (v + m) := by
  rw [covered_append, covered_cons, covered_nil, Set.union_empty]

theorem le_atLeast (n : ℕ) : n ≤ atLeast n ∧ 0 < atLeast n := by
  rw [atLeast]
  split_ifs <;> omega

/-- **`morecore`** fails because `sbrk` has, or adds a range with at least `n` headers. -/
theorem morecore_spec (h : Good base s bs) (hn : n * 8 < 2 ^ 31) :
    (∃ rest, morecore s n = some (0, { s with answers := rest, refused := true }))
    ∨ ∃ t bs' v m, morecore s n = some (t.freep, t) ∧ Grown base s t bs bs' v m ∧ ∃ b ∈ bs',
    n ≤ t.size b := by
  have hmod : atLeast n * 8 % ADDRESSES = 8 * atLeast n := by
    rw [Nat.mul_comm 8]
    apply Nat.mod_eq_of_lt
    rw [atLeast, ADDRESSES]
    split_ifs <;> omega
  obtain ⟨hle, hpos⟩ := le_atLeast n
  rw [morecore, hmod]
  rcases sbrk_cases s (8 * atLeast n) with ⟨rest, hfail⟩ | ⟨v, rest, hfresh, hend, hok⟩
  · left
    exact ⟨rest, by rw [hfail]⟩
  · right
    rw [hok]
    -- the header of the new block is set
    have hv : ∀ x ∈ covered (regions s bs), x < v := fun x hx =>
      Nat.lt_of_lt_of_le (h.range x (h.sub hx)).2 hfresh
    have hnotin : ∀ b ∈ bs, b ≠ v :=
      fun b hb hbv => Nat.lt_irrefl v (hbv ▸ hv b (h.list.mem_covered_of_mem hb))
    have hbase := h.base
    have hbv : base ≠ v := by omega
    generalize hs1 : ({ s with
      top := v + 8 * atLeast n
      answers := rest
      obtained := s.obtained ++ [(v, 8 * atLeast n)]
      size := Function.update s.size v (atLeast n) } : Heap) = s1
    have hsize : ∀ x, x ≠ v → s1.size x = s.size x := fun x hx => by
      rw [← hs1]
      exact Function.update_of_ne hx ..
    have hsizev : s1.size v = atLeast n := by
      rw [← hs1]
      exact Function.update_self ..
    have hregions : regions s1 bs = regions s bs := regions_congr fun b hb => hsize b (hnotin b hb)
    have hptr : s1.ptr = s.ptr := by rw [← hs1]
    have hfreep : s1.freep = s.freep := by rw [← hs1]
    have hlist : FreeList base s1 bs :=
      ⟨hptr ▸ h.list.ring, hfreep ▸ h.list.freep, h.list.pos, h.list.above,
        (hsize base hbv).trans h.list.zero, hregions ▸ h.list.co, hregions ▸ h.list.bound⟩
    have hret : Returned base s1 bs v := by
      refine ⟨by rw [hsizev]; exact hpos, by omega, by rw [hsizev]; exact hend, ?_⟩
      rw [hregions, Set.disjoint_right]
      intro x hx hx'
      have := hv x hx
      have := hx'.1
      omega
    obtain ⟨t, bs', hfree, hfreed⟩ := free_spec hlist h.base_lt hret
    have hcovers := hfreed.covers
    rw [hregions, hsizev] at hcovers
    have hobtained : t.obtained = s.obtained ++ [(v, 8 * atLeast n)] := by rw [hfreed.obtained, ← hs1]
    have htop : t.top = v + 8 * atLeast n := by rw [hfreed.top, ← hs1]
    refine ⟨t, bs', v, 8 * atLeast n, ?_,
      ⟨⟨hfreed.list, ?_, fun x hx => ?_, by omega, by omega⟩, hfresh, hobtained, hcovers,
        fun x hx hnot => ?_⟩, ?_⟩
    · rw [← hs1] at hfree
      simp only [hfree, Option.map_some]
    · rw [hcovers, hobtained, covered_snoc]
      exact Set.union_subset_union_left _ h.sub
    · rw [hobtained, covered_snoc] at hx
      rcases hx with hx | hx
      · have := h.range x hx
        omega
      · have := hx.1
        have := hx.2
        omega
    · rw [hfreed.other x (fun hb => hnot (h.list.mem_covered_of_mem hb)) (by omega)]
      exact hsize x (by omega)
    · -- the new range lies in one block
      obtain ⟨q, hq, _, hqend⟩ := hfreed.list.co.run_in_region (x := v) (k := 8 * atLeast n) (by omega)
        (by rw [hcovers]; exact Set.subset_union_right)
      obtain ⟨b, hb, rfl⟩ := List.mem_map.mp hq
      refine ⟨b, hb, ?_⟩
      replace hqend : v + 8 * atLeast n ≤ b + 8 * t.size b := hqend
      have : b ≤ v := by assumption
      omega

/-- What `malloc` has done: it failed because `sbrk` did, or it took a block, perhaps after `morecore`. -/
inductive Malloced (base : ℕ) (s : Heap) (bs : List ℕ) (n : ℕ) : ℕ → Heap → Prop
  | fails {rest : List (Option ℕ)} : Malloced base s bs n 0 { s with answers := rest, refused := true }
  | takes {t : Heap} {bs' : List ℕ} {a : ℕ} (h : Taken base s t bs bs' n a) : Malloced base s bs n (a + 8) t
  | grows {s1 t : Heap} {bs1 bs' : List ℕ} {v m a : ℕ} (hgrown : Grown base s s1 bs bs1 v m)
      (h : Taken base s1 t bs1 bs' n a) : Malloced base s bs n (a + 8) t

/-- **The loop of `malloc` ends.** -/
theorem mallocLoop_spec (h : Good base s bs) (hn : 0 < n) (hsmall : n * 8 < 2 ^ 31) :
    ∃ r t, mallocLoop n ADDRESSES s s.freep (s.ptr s.freep) = some (r, t) ∧ Malloced base s bs n r t := by
  have hlen := h.list.length_lt h.base_lt
  by_cases hbig : ∃ b ∈ bs, n ≤ s.size b
  · obtain ⟨x, prev, hx, hprev, hnext, hle, heq⟩ := mallocLoop_found h.list hn hbig
      (Nat.le_of_lt (Nat.lt_trans hlen (show KERNBASE < ADDRESSES by decide)))
    obtain ⟨t, bs', a, hcarve, htaken⟩ := carve_spec h.list hx hprev hnext hn hle
    exact ⟨a + 8, t, by rw [heq, hcarve], .takes htaken⟩
  · have hall : ∀ b ∈ bs, s.size b < n := fun b hb => Nat.lt_of_not_le fun hle => hbig ⟨b, hb, hle⟩
    obtain ⟨fuel, hfuel⟩ : ∃ fuel, ADDRESSES = fuel + (base :: bs).length :=
      ⟨ADDRESSES - (base :: bs).length, by rw [ADDRESSES]; rw [KERNBASE] at hlen; omega⟩
    rw [hfuel, mallocLoop_morecore h.list hn hall]
    rcases morecore_spec h hsmall with ⟨rest, hfail⟩ | ⟨s1, bs1, v, m, hmore, hgrown, hbig'⟩
    · rw [hfail]
      exact ⟨0, _, rfl, .fails⟩
    · have hlen1 := hgrown.good.list.length_lt hgrown.good.base_lt
      have hne : s1.freep ≠ 0 := fun hz => by
        have hmem := hgrown.good.list.freep
        have hpos := hgrown.good.list.pos
        rw [hz] at hmem
        rcases List.mem_cons.mp hmem with hb | hb
        · omega
        · have := hgrown.good.list.above 0 hb
          omega
      have hrounds : (base :: bs1).length ≤ fuel := by
        rw [ADDRESSES] at hfuel
        rw [KERNBASE] at hlen hlen1
        omega
      obtain ⟨x, prev, hx, hprev, hnext, hle, heq⟩ := mallocLoop_found hgrown.good.list hn hbig' hrounds
      obtain ⟨t, bs', a, hcarve, htaken⟩ := carve_spec hgrown.good.list hx hprev hnext hn hle
      refine ⟨a + 8, t, ?_, .grows hgrown htaken⟩
      rw [hmore]
      simp only [if_neg hne]
      rw [heq, hcarve]

/-! ### Programs -/

/-- The free blocks and those of the program are the memory that `sbrk` returned, without overlap. -/
structure Inv (base : ℕ) (h : Heap) (live : List (ℕ × ℕ)) (bs : List ℕ) : Prop where
  good : Good base h bs
  part : covered (regions h bs) ∪ covered live = covered h.obtained
  disj : Disjoint (covered (regions h bs)) (covered live)
  sep : live.Pairwise fun a b => Disjoint (Set.Ico a.1 (a.1 + a.2)) (Set.Ico b.1 (b.1 + b.2))
  size : ∀ b ∈ live, b.2 = 8 * h.size b.1 ∧ 0 < b.2

variable {live : List (ℕ × ℕ)}

variable {b : ℕ × ℕ}

theorem Inv.live_mem (h : Inv base s live bs) (hb : b ∈ live) : b.1 ∈ covered live :=
  ⟨b, hb, Nat.le_refl _, Nat.lt_add_of_pos_right (h.size b hb).2⟩

theorem Inv.live_sub (h : Inv base s live bs) : covered live ⊆ covered s.obtained := by
  rw [← h.part]
  exact Set.subset_union_right

theorem Inv.notFree (h : Inv base s live bs) (hb : b ∈ live) : b.1 ∉ covered (regions s bs) :=
  fun hfree => Set.disjoint_left.mp h.disj hfree (h.live_mem hb)

theorem Inv.answer (h : Inv base s live bs) (rest : List (Option ℕ)) (b : Bool) :
    Inv base { s with answers := rest, refused := b } live bs :=
  ⟨⟨⟨h.good.list.ring, h.good.list.freep, h.good.list.pos, h.good.list.above, h.good.list.zero,
    h.good.list.co, h.good.list.bound⟩, h.good.sub, h.good.range, h.good.base, h.good.top⟩, h.part, h.disj,
    h.sep, h.size⟩

variable {bs' : List ℕ}

theorem Inv.grown {v m : ℕ} (h : Inv base s live bs) (hg : Grown base s t bs bs' v m) :
    Inv base t live bs' := by
  have hlive : ∀ x ∈ covered live, x < s.top := fun x hx => (h.good.range x (h.live_sub hx)).2
  refine ⟨hg.good, ?_, ?_, h.sep, fun b hb => ?_⟩
  · rw [hg.covers, hg.obtained, covered_snoc, ← h.part, Set.union_right_comm]
  · rw [hg.covers, Set.disjoint_union_left]
    refine ⟨h.disj, Set.disjoint_right.mpr fun x hx hx' => ?_⟩
    have := hlive x hx
    have := hg.fresh
    have := hx'.1
    omega
  · rw [hg.other b.1 (hlive b.1 (h.live_mem hb)) (h.notFree hb)]
    exact h.size b hb

theorem Inv.taken {a : ℕ} (h : Inv base s live bs) (ht : Taken base s t bs bs' n a) (hn : 0 < n) :
    Inv base t (live ++ [(a, 8 * n)]) bs' ∧ ∀ b ∈ live,
    Disjoint (Set.Ico a (a + 8 * n)) (Set.Ico b.1 (b.1 + b.2)) := by
  have hdisj : ∀ b ∈ live, Disjoint (Set.Ico a (a + 8 * n)) (Set.Ico b.1 (b.1 + b.2)) := fun b hb =>
    Set.disjoint_of_subset ht.free (Ico_subset_covered hb) h.disj
  have hnew : Disjoint (covered (regions t bs')) (Set.Ico a (a + 8 * n)) := by
    rw [ht.covers]
    exact Set.disjoint_sdiff_left
  have hsub : covered (regions t bs') ⊆ covered (regions s bs) := by
    rw [ht.covers]
    exact Set.sdiff_subset
  refine ⟨⟨⟨ht.list, ?_, ?_, ?_, ?_⟩, ?_, ?_, ?_, ?_⟩, hdisj⟩
  · rw [ht.obtained]
    exact hsub.trans h.good.sub
  · rw [ht.obtained, ht.top]
    exact h.good.range
  · rw [ht.top]
    exact h.good.base
  · rw [ht.top]
    exact h.good.top
  · rw [covered_snoc, ht.obtained, ← h.part, ht.covers, ← Set.union_assoc, Set.union_right_comm,
      Set.sdiff_union_of_subset ht.free]
  · rw [covered_snoc, Set.disjoint_union_right]
    exact ⟨Set.disjoint_of_subset_left hsub h.disj, hnew⟩
  · rw [List.pairwise_append]
    refine ⟨h.sep, List.pairwise_singleton _ _, fun b hb c hc => ?_⟩
    rw [List.mem_singleton.mp hc]
    exact (hdisj b hb).symm
  · intro b hb
    rcases List.mem_append.mp hb with hb | hb
    · rw [ht.other b.1 (h.notFree hb)]
      exact h.size b hb
    · rw [List.mem_singleton.mp hb]
      exact ⟨by rw [ht.size], by show 0 < 8 * n; omega⟩

theorem Inv.returned (h : Inv base s live bs) (hb : b ∈ live) : Returned base s bs b.1 := by
  obtain ⟨hsize, hpos⟩ := h.size b hb
  have hlast := h.good.range (b.1 + b.2 - 1) (h.live_sub ⟨b, hb, by omega, by omega⟩)
  have hfirst := h.good.range b.1 (h.live_sub (h.live_mem hb))
  have htop := h.good.top
  refine ⟨by omega, by omega, by omega, ?_⟩
  rw [← hsize]
  exact Set.disjoint_of_subset_left (Ico_subset_covered hb) h.disj.symm

theorem Inv.freed (h : Inv base s live bs) (hb : b ∈ live) (hf : Freed base s t bs bs' b.1) :
    Inv base t (live.filter fun c => c.1 + 8 ≠ b.1 + 8) bs' := by
  obtain ⟨hsize, hpos⟩ := h.size b hb
  have hcovers := hf.covers
  rw [← hsize] at hcovers
  have hmem : ∀ c, c ∈ live.filter (fun c => c.1 + 8 ≠ b.1 + 8) ↔ c ∈ live ∧ c.1 ≠ b.1 := fun c => by
    rw [List.mem_filter, decide_eq_true_eq]
    exact and_congr_right fun _ => ⟨fun hne heq => hne (by rw [heq]), fun hne heq => hne (by omega)⟩
  have hlive : covered live = covered (live.filter fun c => c.1 + 8 ≠ b.1 + 8) ∪ Set.Ico b.1 (b.1 + b.2) := by
    ext x
    constructor
    · rintro ⟨c, hc, hlo, hhi⟩
      by_cases hcb : c.1 = b.1
      · have hc2 : c.2 = b.2 := by rw [(h.size c hc).1, hsize, hcb]
        exact Or.inr ⟨hcb ▸ hlo, by rw [← hcb, ← hc2]; exact hhi⟩
      · exact Or.inl ⟨c, (hmem c).mpr ⟨hc, hcb⟩, hlo, hhi⟩
    · rintro (⟨c, hc, hx⟩ | hx)
      · exact ⟨c, ((hmem c).mp hc).1, hx⟩
      · exact ⟨b, hb, hx.1, hx.2⟩
  have hrest : Disjoint (Set.Ico b.1 (b.1 + b.2)) (covered (live.filter fun c => c.1 + 8 ≠ b.1 + 8)) := by
    rw [Set.disjoint_right]
    rintro x ⟨c, hc, hx⟩ hxb
    obtain ⟨hcl, hne⟩ := (hmem c).mp hc
    have : Std.Symm fun a b : ℕ × ℕ => Disjoint (Set.Ico a.1 (a.1 + a.2)) (Set.Ico b.1 (b.1 + b.2)) :=
      ⟨fun _ _ hd => hd.symm⟩
    exact Set.disjoint_left.mp (h.sep.forall hcl hb fun hcb => hne (by rw [hcb])) hx hxb
  refine ⟨⟨hf.list, ?_, ?_, ?_, ?_⟩, ?_, ?_, ?_, fun c hc => ?_⟩
  · rw [hcovers, hf.obtained]
    exact Set.union_subset h.good.sub ((Ico_subset_covered hb).trans h.live_sub)
  · rw [hf.obtained, hf.top]
    exact h.good.range
  · rw [hf.top]
    exact h.good.base
  · rw [hf.top]
    exact h.good.top
  · rw [hcovers, hf.obtained, ← h.part, hlive, Set.union_assoc, Set.union_comm (Set.Ico _ _)]
  · rw [hcovers, Set.disjoint_union_left]
    refine ⟨Set.disjoint_of_subset_right ?_ h.disj, hrest⟩
    rw [hlive]
    exact Set.subset_union_left
  · exact h.sep.sublist List.filter_sublist
  · obtain ⟨hcl, hne⟩ := (hmem c).mp hc
    have hnot : c.1 ∉ bs := fun hbs => h.notFree hcl (h.good.list.mem_covered_of_mem hbs)
    rw [hf.other c.1 hnot hne]
    exact h.size c hcl

/-- A program that has not called `malloc`, or whose memory is as it should be. -/
def Sound (base : ℕ) (P : Program) : Prop :=
  Start base P ∨ ∃ bs, Inv base P.heap P.live bs

variable {P : Program}

theorem inv_initList (h : Sound base P) (answers : List (Option ℕ)) :
    ∃ bs, Inv base (initList base { P.heap with answers := answers, refused := false }) P.live bs := by
  rcases h with h | ⟨bs, h⟩
  · have hinit : initList base { P.heap with answers := answers, refused := false } =
        { P.heap with
          answers := answers
          refused := false
          ptr := Function.update P.heap.ptr base base
          size := Function.update P.heap.size base 0
          freep := base } := by
      rw [initList, if_pos h.freep]
    have hnone : covered P.heap.obtained = ∅ := by rw [h.obtained, covered_nil]
    rw [hinit, h.live]
    refine ⟨[],
      ⟨⟨?_, List.mem_cons_self, h.pos, fun b hb => (by cases hb), Function.update_self .., coalesced_nil,
        fun x hx => ?_⟩, ?_, fun x hx => ?_, h.top, h.bound⟩, ?_, ?_, List.Pairwise.nil,
        fun b hb => (by cases hb)⟩
    · rw [ring_cons]
      exact Function.update_self ..
    · obtain ⟨r, hr, _⟩ := hx
      cases hr
    · rintro x ⟨r, hr, _⟩
      cases hr
    · replace hx : x ∈ covered P.heap.obtained := hx
      rw [hnone] at hx
      cases hx
    · show covered [] ∪ covered [] = covered P.heap.obtained
      rw [hnone, covered_nil, Set.union_empty]
    · show Disjoint (covered []) (covered [])
      rw [covered_nil]
      exact Set.disjoint_empty _
  · have hne : P.heap.freep ≠ 0 := fun hz => by
      have hmem := h.good.list.freep
      have hpos := h.good.list.pos
      rw [hz] at hmem
      rcases List.mem_cons.mp hmem with hb | hb
      · omega
      · have := h.good.list.above 0 hb
        omega
    refine ⟨bs, ?_⟩
    rw [initList, if_neg hne]
    exact h.answer answers false

theorem units_bounds {nbytes : ℕ} (h : nbytes + 15 < 2 ^ 31) :
    0 < units nbytes ∧ nbytes + 8 ≤ 8 * units nbytes ∧ units nbytes * 8 < 2 ^ 31 := by
  rw [units, Nat.mod_eq_of_lt (by rw [ADDRESSES]; omega)]
  omega

/-- What a step of a program may do: `malloc` returns 0 after `sbrk` has failed, or a new block; `free` takes
one back. -/
def Does (P : Program) (e : Event) (Q : Program) : Prop :=
  match e with
  | .malloc nbytes _ =>
    (Q.returned = 0 ∧ Q.heap.refused = true ∧ Q.live = P.live)
    ∨ (Q.returned ≠ 0 ∧ ∃ b, Q.live = P.live ++ [b] ∧ b.1 + 8 = Q.returned ∧ Q.returned + nbytes ≤ b.1 + b.2
      ∧ ∀ c ∈ P.live, Disjoint (Set.Ico b.1 (b.1 + b.2)) (Set.Ico c.1 (c.1 + c.2)))
  | .free ap => Q.live = P.live.filter fun b => b.1 + 8 ≠ ap

/-- **One call**: it returns, and keeps the memory as it should be. -/
theorem sound_step {e : Event} (h : Sound base P) (ha : Allowed P e) :
    ∃ Q, step base P e = some Q ∧ Does P e Q ∧ Sound base Q := by
  cases e with
  | malloc nbytes answers =>
    obtain ⟨hpos, hbytes, hsmall⟩ := units_bounds ha
    obtain ⟨bs, hinv⟩ := inv_initList h answers
    obtain ⟨r, t, hloop, hmalloc⟩ := mallocLoop_spec hinv.good hpos hsmall
    have hstep : step base P (.malloc nbytes answers) = some
        { heap := t
          live := if r = 0 then P.live else P.live ++ [(r - 8, 8 * units nbytes)]
          returned := r } := by
      rw [step, malloc, hloop]
      rfl
    refine ⟨_, hstep, ?_⟩
    have hblock : ∀ {a : ℕ}, (if a + 8 = 0 then P.live else P.live ++ [(a + 8 - 8, 8 * units nbytes)])
        = P.live ++ [(a, 8 * units nbytes)] := fun {a} => by
      rw [if_neg (Nat.succ_ne_zero _), Nat.add_sub_cancel]
    cases hmalloc with
    | fails => exact ⟨Or.inl ⟨rfl, rfl, rfl⟩, Or.inr ⟨bs, hinv.answer _ true⟩⟩
    | @takes _ bs' a htaken =>
      obtain ⟨hinv', hdisj⟩ := hinv.taken htaken hpos
      rw [hblock]
      refine ⟨Or.inr ⟨Nat.succ_ne_zero _, (a, 8 * units nbytes), rfl, rfl, ?_, hdisj⟩, Or.inr ⟨bs', hinv'⟩⟩
      show a + 8 + nbytes ≤ a + 8 * units nbytes
      omega
    | @grows s1 _ bs1 bs' v m a hgrown htaken =>
      obtain ⟨hinv', hdisj⟩ := (hinv.grown hgrown).taken htaken hpos
      rw [hblock]
      refine ⟨Or.inr ⟨Nat.succ_ne_zero _, (a, 8 * units nbytes), rfl, rfl, ?_, hdisj⟩, Or.inr ⟨bs', hinv'⟩⟩
      show a + 8 + nbytes ≤ a + 8 * units nbytes
      omega
  | free ap =>
    obtain ⟨b, hb, rfl⟩ := ha
    rcases h with h | ⟨bs, h⟩
    · rw [h.live] at hb
      cases hb
    · obtain ⟨t, bs', hfree, hfreed⟩ := free_spec h.good.list h.good.base_lt (h.returned hb)
      refine ⟨{ P with heap := t, live := P.live.filter fun c => c.1 + 8 ≠ b.1 + 8 }, ?_, rfl,
        Or.inr ⟨bs', h.freed hb hfreed⟩⟩
      rw [step, hfree]
      rfl

variable {es : List Event}

theorem sound_run (hr : RunIf (system base) (fun _ s e => Allowed s e) es P) :
    Sound base P := by
  refine hr.induct (I := fun _ P => Sound base P) (fun P h0 => Or.inl h0) ?_
  intro es P e Q h ha hstep
  obtain ⟨Q', hQ', _, hsound⟩ := sound_step h ha
  rw [show step base P e = some Q from hstep] at hQ'
  rw [Option.some.inj hQ']
  exact hsound

theorem exists_unique_wrap (h : FreeList base s bs) : ∃! p, p ∈ base :: bs ∧ s.ptr p ≤ p := by
  have hsorted := h.sorted
  obtain ⟨A, p, hA, _⟩ := last_below base bs
  have hwrap : s.ptr p = base := by
    rw [h.ring.next_eq (A := A) (p := p) (B := []) hA]
    rfl
  refine ⟨p, ⟨by rw [hA]; simp, ?_⟩, ?_⟩
  · rw [hwrap]
    have hmem : p ∈ base :: bs := by rw [hA]; simp
    rcases List.mem_cons.mp hmem with rfl | hmem
    · exact Nat.le_refl _
    · exact Nat.le_of_lt (h.above p hmem)
  · rintro q ⟨hq, hle⟩
    obtain ⟨B, C, hBC⟩ := List.append_of_mem hq
    have hnext := h.ring.next_eq hBC
    rw [hBC] at hsorted
    cases C with
    | nil =>
      rw [hA] at hBC
      exact (List.singleton_inj.mp (List.append_inj_right' hBC rfl)).symm
    | cons c C =>
      have hlt : q < c := (List.pairwise_cons.mp (List.pairwise_append.mp hsorted).2.1).1 c List.mem_cons_self
      replace hnext : s.ptr q = c := hnext
      omega

/-- **The allocator is correct.**  In every run of a program that frees only what it was given and asks for
less than `2^31` bytes: the free list is a circle through `base` in increasing order with one place where it
wraps around, its blocks do not overlap or touch, the free blocks and those of the program are the memory that
`sbrk` returned, without overlap, and every further call returns, `malloc` with a block that has the bytes
asked for and overlaps no other, or with 0 after `sbrk` has failed. -/
theorem allocator_correct (hr : RunIf (system base) (fun _ s e => Allowed s e) es P) :
    (P.heap.freep = 0 ∧ P.live = [] ∧ P.heap.obtained = [] ∨ ∃ bs, Ring P.heap.ptr (base :: bs)
      ∧ P.heap.freep ∈ base :: bs ∧ (base :: bs).Pairwise (· < ·) ∧ (∃! p, p ∈ base :: bs ∧ P.heap.ptr p ≤ p)
      ∧ P.heap.size base = 0 ∧ Coalesced (regions P.heap bs)
      ∧ covered (regions P.heap bs) ∪ covered P.live = covered P.heap.obtained
      ∧ Disjoint (covered (regions P.heap bs)) (covered P.live))
    ∧ P.live.Pairwise (fun a b => Disjoint (Set.Ico a.1 (a.1 + a.2)) (Set.Ico b.1 (b.1 + b.2)))
    ∧ (∀ b ∈ P.live, b.2 = 8 * P.heap.size b.1)
    ∧ ∀ e, Allowed P e → ∃ Q, step base P e = some Q ∧ Does P e Q := by
  have hsound := sound_run hr
  refine ⟨?_, ?_, ?_, fun e ha => ?_⟩
  · rcases hsound with h | ⟨bs, h⟩
    · exact Or.inl ⟨h.freep, h.live, h.obtained⟩
    · exact Or.inr ⟨bs, h.good.list.ring, h.good.list.freep, h.good.list.sorted,
        exists_unique_wrap h.good.list, h.good.list.zero, h.good.list.co, h.part, h.disj⟩
  · rcases hsound with h | ⟨bs, h⟩
    · rw [h.live]
      exact List.Pairwise.nil
    · exact h.sep
  · rcases hsound with h | ⟨bs, h⟩
    · rw [h.live]
      exact fun b hb => (by cases hb)
    · exact fun b hb => (h.size b hb).1
  · obtain ⟨Q, hstep, hdoes, _⟩ := sound_step hsound ha
    exact ⟨Q, hstep, hdoes⟩

/-- A program with its memory from 8192 on, and `base` at 4096. -/
def newProgram : Program where
  heap := ⟨fun _ => 0, fun _ => 0, 0, 8192, [], false, []⟩
  live := []
  returned := 0

/-- Two blocks are taken from one call of `sbrk`, the first is freed, and a third request fails. -/
def threeCalls : List Event := [.malloc 100 [some 0], .malloc 8 [], .free 40856, .malloc 40000 [none]]

theorem start_newProgram : Start 4096 newProgram := ⟨rfl, by decide, by decide, by decide, rfl, rfl⟩

/-- The second block is still the program's. -/
theorem allocator_correct_three : ∃ P, RunIf (system 4096) (fun _ s e => Allowed s e) threeCalls P
    ∧ P.live = [(40832, 16)] ∧ P.returned = 0 ∧ ∀ b ∈ P.live, b.2 = 8 * P.heap.size b.1 := by
  obtain ⟨P, hr, hs⟩ := exists_runIf_of_map (S := system 4096) (C := fun _ s e => Allowed s e)
    (f := fun P => (P.live, P.returned)) (y := ([(40832, 16)], 0)) threeCalls start_newProgram
    (by decide +kernel)
  rw [Prod.mk.injEq] at hs
  exact ⟨P, hr, hs.1, hs.2, (allocator_correct hr).2.2.1⟩

end Xv6e.User.UmallocRuns
