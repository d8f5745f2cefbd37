import Xv6e.Memory.KernelHeap
import Xv6e.Memory.AddressSpace

/-!
# Slots of the kernel heap

The accounting of `get_new_vmem_region` and `recycle_vmem_region`: `Slots own s U Ps` says that the slots `U`
in use are distinct slots of the metadata pages `Ps`, and that every page counts those of its own.

* `getNewVmemRegion_spec` — a slot that was not in use joins the ones that are;
* `recycleVmemRegion_spec` — a slot leaves them, and a page is freed only when no slot of it is in use.
-/

namespace Xv6e.Memory.HeapSlots

open Library.Fallible
open Library.PointerList PageTable Ownership AddressSpace
open KernelHeap
open Function (update update_idem update_self update_of_ne)

variable {own own' own'' : ℕ → Owner} {s t : Kernel} {U Ps : List ℕ} {lay : Layout} {m m' m'' : Mem}

/-! ### Entries of page tables -/

/-- Page directories stay, and their entries outside `T` too. -/
structure PteFrame (T : ℕ → ℕ → Prop) (own : ℕ → Owner) (m : Mem) (own' : ℕ → Owner) (m' : Mem) : Prop where
  dir : ∀ d, own d = .dir → own' d = .dir
  pte : ∀ d va, own d = .dir → va < ADDRESSES → ¬ T d va → pteAt m' d va = pteAt m d va

variable {T : ℕ → ℕ → Prop}

theorem PteFrame.refl (own : ℕ → Owner) (m : Mem) : PteFrame T own m own m :=
  ⟨fun _ hd => hd, fun _ _ _ _ _ => rfl⟩

theorem PteFrame.trans (h : PteFrame T own m own' m') (h' : PteFrame T own' m' own'' m'') :
    PteFrame T own m own'' m'' where
  dir d hd := h'.dir d (h.dir d hd)
  pte d va hd hva hT := (h'.pte d va (h.dir d hd) hva hT).trans (h.pte d va hd hva hT)

theorem PteFrame.widen (h : PteFrame untouched own m own' m') : PteFrame T own m own' m' :=
  ⟨h.dir, fun d va hd hva _ => h.pte d va hd hva id⟩

theorem PteFrame.of_word (hw : m'.word = m.word) : PteFrame T own m own m' := by
  refine ⟨fun _ hd => hd, fun d va _ _ _ => ?_⟩
  rw [pteAt, pteAt, hw]

/-! ### Addresses of slots -/

variable {page p c : ℕ} {rest : List ℕ}

theorem PGROUNDDOWN_slotAddr {i : ℕ} (hp : page % PGSIZE = 0) (hi : i < REGIONS_PER_PAGE) :
    PGROUNDDOWN (slotAddr page i) = page := by
  simp only [PGROUNDDOWN, slotAddr, REGIONS_PER_PAGE, PGSIZE] at *
  omega

theorem slotAddr_mem {i : ℕ} (hi : i < REGIONS_PER_PAGE) :
    page ≤ slotAddr page i ∧ slotAddr page i < page + PGSIZE := by
  simp only [slotAddr, REGIONS_PER_PAGE, PGSIZE] at *
  omega

/-- The slots `U` in use, on the metadata pages `Ps`. -/
structure Slots (own : ℕ → Owner) (s : Kernel) (U Ps : List ℕ) : Prop where
  pages : Chain s.mem.pageNext s.metadataPages Ps
  pagesNodup : Ps.Nodup
  owner : ∀ P ∈ Ps, own P = .metadata
  nodup : U.Nodup
  page : ∀ p ∈ U, PGROUNDDOWN p ∈ Ps ∧ (s.region p).metadataPage = PGROUNDDOWN p
  slot : ∀ p ∈ U, ∃ i < REGIONS_PER_PAGE, p = slotAddr (PGROUNDDOWN p) i
  count : ∀ P ∈ Ps, s.mem.numRegions P = U.countP fun p => PGROUNDDOWN p = P

/-- `t` has the slots `V` in use, and keeps the regions of `U` and all that the heap does not own. -/
abbrev Serves (lay : Layout) (own : ℕ → Owner) (s t : Kernel) (U V : List ℕ) : Prop :=
  ∃ own' Ps', Owned lay own' s.kpgdir t.mem ∧ Slots own' t V Ps' ∧ t.kpgdir = s.kpgdir
    ∧ t.vmemFreeListHead = s.vmemFreeListHead ∧ (∀ q ∈ U, t.region q = s.region q)
    ∧ PteFrame untouched own s.mem own' t.mem

section

variable (hs : Slots own s U Ps)
include hs

theorem Slots.valid (ho : Owned lay own s.kpgdir s.mem) {P : ℕ} (hP : P ∈ Ps) : ValidPage lay P :=
  ho.valid P (ne_of_eq_of_ne (hs.owner P hP) (by simp))

theorem Slots.pages_length (ho : Owned lay own s.kpgdir s.mem) : Ps.length < ADDRESSES :=
  length_lt_of_nodup hs.pagesNodup (fun _ hP => ⟨(hs.valid ho hP).ne_zero, ValidPage.lt (hs.valid ho hP)⟩)
    (by decide)

theorem Slots.bounds (ho : Owned lay own s.kpgdir s.mem) (hp : p ∈ U) :
    PGROUNDDOWN p ≤ p ∧ p < PGROUNDDOWN p + PGSIZE ∧ p < ADDRESSES ∧ p ≠ 0 := by
  obtain ⟨i, hi, hpi⟩ := hs.slot p hp
  have hmem : PGROUNDDOWN p ≤ slotAddr (PGROUNDDOWN p) i ∧ slotAddr (PGROUNDDOWN p) i
      < PGROUNDDOWN p + PGSIZE :=
    slotAddr_mem hi
  obtain ⟨_, hlo, hhi, _⟩ := hs.valid ho (hs.page p hp).1
  rw [← hpi] at hmem
  refine ⟨hmem.1, hmem.2, ?_, ?_⟩
  all_goals
    simp only [KERNBASE, PHYSTOP, PGSIZE, ADDRESSES] at *
    omega

theorem Slots.length (ho : Owned lay own s.kpgdir s.mem) : U.length < ADDRESSES :=
  length_lt_of_nodup hs.nodup (fun _ hp => ⟨(hs.bounds ho hp).2.2.2, (hs.bounds ho hp).2.2.1⟩) (by decide)

theorem Slots.perm {V : List ℕ} (hp : U.Perm V) : Slots own s V Ps where
  pages := hs.pages
  pagesNodup := hs.pagesNodup
  owner := hs.owner
  nodup := hp.nodup_iff.mp hs.nodup
  page p hpV := hs.page p (hp.mem_iff.mpr hpV)
  slot p hpV := hs.slot p (hp.mem_iff.mpr hpV)
  count P hP := (hs.count P hP).trans (hp.countP_eq _)

theorem Slots.of_regions (hpages : t.metadataPages = s.metadataPages)
    (hnext : t.mem.pageNext = s.mem.pageNext) (hnum : t.mem.numRegions = s.mem.numRegions)
    (hback : ∀ p ∈ U, (t.region p).metadataPage = (s.region p).metadataPage) : Slots own t U Ps where
  pages := by rw [hnext, hpages]; exact hs.pages
  pagesNodup := hs.pagesNodup
  owner := hs.owner
  nodup := hs.nodup
  page p hp := by rw [hback p hp]; exact hs.page p hp
  slot := hs.slot
  count P hP := by rw [hnum]; exact hs.count P hP

theorem Slots.frame (ho : Owned lay own s.kpgdir s.mem) (hf : Frame T own s.mem own' m') :
    Slots own' { s with mem := m' } U Ps ∧ ∀ p ∈ U, m'.region p = s.mem.region p := by
  have hregion : ∀ p ∈ U, m'.region p = s.mem.region p := by
    intro p hp
    obtain ⟨hlo, hhi, _⟩ := hs.bounds ho hp
    exact (hf.view _ (hs.owner _ (hs.page p hp).1)).2.2 p hlo hhi
  refine ⟨⟨?_, hs.pagesNodup, ?_, hs.nodup, ?_, hs.slot, ?_⟩, hregion⟩
  · exact hs.pages.frame fun P hP => (hf.view P (hs.owner P hP)).1
  · exact fun P hP => (hf.metadata P).mpr (hs.owner P hP)
  · intro p hp
    refine ⟨(hs.page p hp).1, ?_⟩
    show (m'.region p).metadataPage = PGROUNDDOWN p
    rw [hregion p hp]
    exact (hs.page p hp).2
  · exact fun P hP => ((hf.view P (hs.owner P hP)).2.1).trans (hs.count P hP)

end

/-! ### Taking a slot -/

section

variable (ho : Owned lay own s.kpgdir s.mem)
include ho

/-- The slot at index `num_regions` of a page joins those in use, if it was not one of them. -/
theorem takeSlot_spec (hs : Slots own s U Ps) (hpage : page ∈ Ps)
    (hroom : s.mem.numRegions page < REGIONS_PER_PAGE) (hfresh : (takeSlot s page).1 ∉ U) :
    Slots own (takeSlot s page).2 ((takeSlot s page).1 :: U) Ps
      ∧ ∀ q ∈ U, (takeSlot s page).2.region q = s.region q := by
  have hval := hs.valid ho hpage
  have hround : PGROUNDDOWN (takeSlot s page).1 = page := PGROUNDDOWN_slotAddr hval.1 hroom
  have hregion : ∀ q, q ≠ (takeSlot s page).1 → (takeSlot s page).2.region q = s.region q :=
    fun q hq => if_neg hq
  have hin : ∀ q ∈ U, (takeSlot s page).2.region q = s.region q :=
    fun q hq => hregion q fun hqe => hfresh (hqe ▸ hq)
  refine ⟨⟨hs.pages, hs.pagesNodup, hs.owner, List.nodup_cons.mpr ⟨hfresh, hs.nodup⟩, ?_, ?_, ?_⟩, hin⟩
  · intro p hp
    rcases List.mem_cons.mp hp with rfl | hp
    · rw [hround]
      refine ⟨hpage, ?_⟩
      show (if (takeSlot s page).1 = (takeSlot s page).1 then _ else _ : Region).metadataPage = page
      rw [if_pos rfl]
    · rw [hin p hp]
      exact hs.page p hp
  · intro p hp
    rcases List.mem_cons.mp hp with rfl | hp
    · exact ⟨s.mem.numRegions page, hroom, by rw [hround]; rfl⟩
    · exact hs.slot p hp
  · intro P hP
    have hnum : (takeSlot s page).2.mem.numRegions P
        = if P = page then (s.mem.numRegions page + 1) % ADDRESSES else s.mem.numRegions P := rfl
    rw [hnum, List.countP_cons, hround]
    by_cases hPp : P = page
    · have hlt : s.mem.numRegions page + 1 < ADDRESSES :=
        lt_of_le_of_lt (Nat.succ_le_of_lt hroom) (by decide)
      rw [if_pos hPp, hPp, Nat.mod_eq_of_lt hlt, hs.count page hpage]
      simp
    · rw [if_neg hPp, hs.count P hP]
      simp [Ne.symm hPp]

/-- The state in which a new metadata page is at the front of the list, empty. -/
def withNewPage (s : Kernel) (r : ℕ) (rest : List ℕ) : Kernel :=
  { Kernel.setPageNext (Kernel.setNumRegions { s with mem := { s.mem with freelist := rest } } r 0) r
      s.metadataPages with metadataPages := r }

theorem Slots.newPage (hs : Slots own s U Ps) {r : ℕ} (hf : s.mem.freelist = r :: rest) :
    Owned lay (update own r .metadata) s.kpgdir (withNewPage s r rest).mem
      ∧ Slots (update own r .metadata) (withNewPage s r rest) U (r :: Ps) := by
  have hmem : r ∈ s.mem.freelist := by rw [hf]; exact List.mem_cons_self
  have hfree := ho.free r hmem
  have hval := ho.valid_of_mem hmem
  have hnotin : r ∉ Ps := fun hr => by
    have := hs.owner r hr
    rw [hfree] at this
    cases this
  have hne : ∀ P ∈ Ps, P ≠ r := fun P hP hPr => hnotin (hPr ▸ hP)
  constructor
  · exact (ho.take hf rfl).of_words rfl fun _ _ => rfl
  · refine ⟨⟨rfl, hval.ne_zero, ?_⟩, List.nodup_cons.mpr ⟨hnotin, hs.pagesNodup⟩, ?_, hs.nodup,
      ?_, hs.slot, ?_⟩
    · show Chain (withNewPage s r rest).mem.pageNext (if r = r then s.metadataPages else s.mem.pageNext r) Ps
      rw [if_pos rfl]
      exact hs.pages.frame fun P hP => if_neg (hne P hP)
    · intro P hP
      rcases List.mem_cons.mp hP with rfl | hP
      · exact update_self ..
      · rw [update_of_ne (hne P hP)]
        exact hs.owner P hP
    · exact fun p hp => ⟨List.mem_cons_of_mem r (hs.page p hp).1, (hs.page p hp).2⟩
    · intro P hP
      rcases List.mem_cons.mp hP with rfl | hP
      · have hzero : U.countP (fun p => PGROUNDDOWN p = P) = 0 := by
          rw [List.countP_eq_zero]
          intro p hp
          simp only [decide_eq_true_eq]
          exact fun hpP => hnotin (hpP ▸ (hs.page p hp).1)
        rw [hzero]
        exact if_pos rfl
      · exact (if_neg (hne P hP)).trans (hs.count P hP)

/-- Where a slot comes from: the first page with room, or a new page when all are full. -/
theorem getNewVmemRegion_cases (hs : Slots own s U Ps)
    (hok : getNewVmemRegion s = .ok (p, t)) (hp : p ≠ 0) :
    (∃ front page rest, Ps = front ++ page :: rest
        ∧ (∀ P ∈ front, ¬ s.mem.numRegions P < REGIONS_PER_PAGE) ∧ s.mem.numRegions page < REGIONS_PER_PAGE
        ∧ (p, t) = takeSlot s page)
      ∨ ∃ r rest, s.mem.freelist = r :: rest ∧ (∀ P ∈ Ps, ¬ s.mem.numRegions P < REGIONS_PER_PAGE)
        ∧ (p, t) = takeSlot (withNewPage s r rest) r := by
  rw [getNewVmemRegion] at hok
  rcases seek_cases (fun page => decide (s.mem.numRegions page < REGIONS_PER_PAGE)) 0 hs.pages
    (hs.pages_length ho) with ⟨hfull, hseek⟩ | ⟨front, page, rest, rfl, hfront, hroom, hseek⟩
  · right
    rw [hseek] at hok
    simp only [ne_eq, not_true_eq_false, if_false] at hok
    rcases kalloc_cases s.mem with ⟨_, hka⟩ | ⟨r, rest, hf, hka⟩
    · rw [hka] at hok
      cases hok
      exact absurd rfl hp
    · have hr : r ≠ 0 := (ho.valid_of_mem (by rw [hf]; exact List.mem_cons_self)).ne_zero
      rw [hka] at hok
      simp only [if_neg hr] at hok
      exact ⟨r, rest, hf, fun P hP => by simpa using hfull P hP, (Except.ok.inj hok).symm⟩
  · left
    have hpage : page ≠ 0 := hs.pages.ne_zero page (by simp)
    rw [hseek] at hok
    simp only [ne_eq, hpage, not_false_eq_true, if_true] at hok
    exact ⟨front, page, rest, rfl, fun P hP => by simpa using hfront P hP, by simpa using hroom,
      (Except.ok.inj hok).symm⟩

/-- **`get_new_vmem_region`**: a slot that was not in use joins the ones that are. -/
theorem getNewVmemRegion_spec (hs : Slots own s U Ps)
    (hok : getNewVmemRegion s = .ok (p, t)) (hp : p ≠ 0) (hfresh : p ∉ U) :
    Serves lay own s t U (p :: U) := by
  rcases getNewVmemRegion_cases ho hs hok hp with ⟨front, page, rest, hPs, _, hroom, htake⟩
    | ⟨r, rest, hf, _, htake⟩
  · rw [Prod.ext_iff] at htake
    obtain ⟨rfl, rfl⟩ := htake
    obtain ⟨hslots, hregion⟩ := takeSlot_spec ho hs (by rw [hPs]; simp) hroom hfresh
    exact ⟨own, Ps, ho.of_words rfl fun _ _ => rfl, hslots, rfl, rfl, hregion, PteFrame.of_word rfl⟩
  · rw [Prod.ext_iff] at htake
    obtain ⟨rfl, rfl⟩ := htake
    obtain ⟨ho', hs'⟩ := hs.newPage ho hf
    have hroom : (withNewPage s r rest).mem.numRegions r < REGIONS_PER_PAGE := by
      rw [show (withNewPage s r rest).mem.numRegions r = 0 from if_pos rfl]
      decide
    obtain ⟨hslots, hregion⟩ := takeSlot_spec ho' hs' List.mem_cons_self hroom hfresh
    refine ⟨_, _, ho'.of_words rfl fun _ _ => rfl, hslots, rfl, rfl, hregion, ?_⟩
    refine ⟨fun d hd => ?_, fun _ _ _ _ _ => rfl⟩
    have hfree := ho.free r (by rw [hf]; exact List.mem_cons_self)
    exact (keeps_update hfree _ d (by simp [hd])).trans hd

end

/-! ### Recycling a slot -/

theorem Slots.dropPage {front : List ℕ} (hs : Slots own s U (front ++ page :: rest))
    (hnone : ∀ p ∈ U, PGROUNDDOWN p ≠ page)
    (hpages : t.mem.region = s.mem.region) (hnum : t.mem.numRegions = s.mem.numRegions)
    (hchain : Chain t.mem.pageNext t.metadataPages (front ++ rest)) : Slots own t U (front ++ rest) := by
  have hsub : ∀ P ∈ front ++ rest, P ∈ front ++ page :: rest := by
    intro P hP
    rcases List.mem_append.mp hP with hP | hP <;> simp [hP]
  refine ⟨hchain, ?_, fun P hP => hs.owner P (hsub P hP), hs.nodup, ?_, hs.slot, ?_⟩
  · exact hs.pagesNodup.sublist (List.Sublist.append_left (List.sublist_cons_self page rest) front)
  · intro p hp
    refine ⟨?_, by rw [Kernel.region, hpages]; exact (hs.page p hp).2⟩
    have hmem := (hs.page p hp).1
    have hne := hnone p hp
    simp only [List.mem_append, List.mem_cons] at hmem ⊢
    tauto
  · intro P hP
    rw [hnum]
    exact hs.count P (hsub P hP)

theorem Slots.kfree (hs : Slots own s U Ps) (ho : Owned lay own s.kpgdir s.mem) (hown : own page = .metadata)
    (hoff : page ∉ Ps) (hk : PageTable.kfree lay page s.mem = .ok m') :
    Owned lay (update own page .free) s.kpgdir m'
      ∧ Slots (update own page .free) { s with mem := m' } U Ps
      ∧ (∀ p ∈ U, m'.region p = s.mem.region p)
      ∧ PteFrame untouched own s.mem (update own page .free) m' := by
  have hval := ho.valid page (by simp [hown])
  have hret : Owned lay (update own page .other) s.kpgdir s.mem := by
    refine ho.retire (by simp [hown]) (fun d i _ hc => ?_) (fun d va _ _ _ hc => ?_)
      fun va _ _ _ hc => ?_
    all_goals rw [hown] at hc; cases hc
  have hne : ∀ P ∈ Ps, P ≠ page := fun P hP hPp => hoff (hPp ▸ hP)
  -- with the page given up, the accounting does not depend on it
  have hs' : Slots (update own page .other) s U Ps :=
    ⟨hs.pages, hs.pagesNodup, fun P hP => by rw [update_of_ne (hne P hP)]; exact hs.owner P hP,
      hs.nodup, hs.page, hs.slot, hs.count⟩
  obtain ⟨hfree, hframe⟩ := freeOther hret (ValidPage.lt hval) (update_self ..) hk
  obtain ⟨hslots, hregion⟩ := hs'.frame hret hframe
  rw [update_idem] at hfree hframe hslots
  refine ⟨hfree, hslots, hregion, ⟨fun d hd => ?_, fun d va hd hva hT => ?_⟩⟩
  · have hdp : d ≠ page := fun hdp => by rw [hdp, hown] at hd; cases hd
    rw [update_of_ne hdp, hd]
  · have hdp : d ≠ page := fun hdp => by rw [hdp, hown] at hd; cases hd
    exact hframe.pte d va (by rw [update_of_ne hdp, hd]) hva hT

theorem Slots.uncount (hs : Slots own s (c :: U) Ps) (ho : Owned lay own s.kpgdir s.mem) :
    Slots own (s.uncount (PGROUNDDOWN c)) U Ps := by
  have hin : ∀ p ∈ U, p ∈ c :: U := fun p hp => List.mem_cons_of_mem c hp
  refine ⟨hs.pages, hs.pagesNodup, hs.owner, (List.nodup_cons.mp hs.nodup).2,
    fun p hp => hs.page p (hin p hp), fun p hp => hs.slot p (hin p hp), ?_⟩
  intro P hP
  have hcount := hs.count P hP
  have hle : U.countP (fun p => PGROUNDDOWN p = P) ≤ U.length := List.countP_le_length
  have hlen := hs.length ho
  rw [List.length_cons] at hlen
  by_cases hPc : P = PGROUNDDOWN c
  · rw [List.countP_cons, if_pos (by simp [hPc])] at hcount
    refine (if_pos hPc).trans ?_
    rw [← hPc, hcount]
    simp only [ADDRESSES] at *
    omega
  · rw [List.countP_cons, if_neg (by simp [Ne.symm hPc]), Nat.add_zero] at hcount
    exact (if_neg hPc).trans hcount

theorem linkPage_fields (s : Kernel) (prev q : ℕ) :
    (s.linkPage prev q).kpgdir = s.kpgdir ∧ (s.linkPage prev q).vmemFreeListHead = s.vmemFreeListHead
      ∧ (s.linkPage prev q).mem.region = s.mem.region ∧ (s.linkPage prev q).mem.word = s.mem.word
      ∧ (s.linkPage prev q).mem.numRegions = s.mem.numRegions
      ∧ (s.linkPage prev q).mem.freelist = s.mem.freelist := by
  rw [Kernel.linkPage]
  split <;> exact ⟨rfl, rfl, rfl, rfl, rfl, rfl⟩

theorem chain_linkPage {front : List ℕ}
    (h : Chain s.mem.pageNext s.metadataPages (front ++ page :: rest)) (hnd : (front ++ page :: rest).Nodup) :
    Chain (s.linkPage (front.getLast?.getD 0) (s.mem.pageNext page)).mem.pageNext
      (s.linkPage (front.getLast?.getD 0) (s.mem.pageNext page)).metadataPages (front ++ rest) := by
  obtain ⟨hndf, hndr, hdisj⟩ := List.nodup_append.mp hnd
  have hzero := h.getLast?_eq_zero_iff
  have hrest : Chain s.mem.pageNext (s.mem.pageNext page) rest := h.suffix.tail
  rw [Kernel.linkPage]
  by_cases hprev : front.getLast?.getD 0 = 0
  · have hnil : front = [] := hzero.mp hprev
    rw [if_neg (not_not.mpr hprev)]
    subst hnil
    exact hrest
  · rw [if_pos hprev]
    have hne : front ≠ [] := fun hnil => hprev (hzero.mpr hnil)
    have hlast : front.getLast?.getD 0 ∈ front := by
      rw [List.getLast?_eq_some_getLast hne]
      exact List.getLast_mem hne
    refine h.replace hndf (fun hnil => absurd hnil hne) (fun _ => ⟨rfl, if_pos rfl⟩)
      (fun q _ hq => if_neg hq) (hrest.frame fun q hq => if_neg fun hql => ?_)
    exact hdisj _ hlast q (List.mem_cons_of_mem page hq) hql.symm

/-- Unlinking and freeing a page of which no slot is in use. -/
theorem dropMetadataPage_spec (ho : Owned lay own s.kpgdir s.mem) (hs : Slots own s U Ps)
    (hpage : page ∈ Ps) (hnone : ∀ p ∈ U, PGROUNDDOWN p ≠ page) (hok : dropMetadataPage lay s page = .ok t) :
    Serves lay own s t U U := by
  rw [dropMetadataPage] at hok
  rcases seek_cases (fun current => decide (current = page)) 0 hs.pages (hs.pages_length ho) with
    ⟨hall, _⟩ | ⟨front, current, rest, rfl, _, hstop, hseek⟩
  · exact absurd rfl (of_decide_eq_false (hall _ hpage))
  · obtain rfl : current = page := of_decide_eq_true hstop
    rw [hseek] at hok
    simp only [if_neg (hs.valid ho hpage).ne_zero] at hok
    obtain ⟨m', hk, hret⟩ := bind_ok.mp hok
    cases hret
    obtain ⟨hkp, hhead, hregion, hword, hnum, hfl⟩ :=
      linkPage_fields s (front.getLast?.getD 0) (s.mem.pageNext current)
    have hs' := hs.dropPage hnone hregion hnum (chain_linkPage hs.pages hs.pagesNodup)
    have ho' := ho.of_words hfl fun v _ => by rw [hword]
    rw [← hkp] at ho'
    have hoff : current ∉ front ++ rest := by
      have hnd := hs.pagesNodup
      rw [List.nodup_middle] at hnd
      exact (List.nodup_cons.mp hnd).1
    obtain ⟨ho'', hs'', hreg, hpte⟩ := hs'.kfree ho' (hs.owner current hpage) hoff hk
    refine ⟨_, _, by rw [← hkp]; exact ho'', hs'', hkp, hhead, fun q hq => ?_, ?_⟩
    · exact (hreg q hq).trans (by rw [hregion]; rfl)
    · exact (PteFrame.of_word hword).trans hpte

/-- **`recycle_vmem_region`**: a slot leaves the ones in use, and a page is freed only when no slot of it is
in use. -/
theorem recycleVmemRegion_spec (ho : Owned lay own s.kpgdir s.mem) (hs : Slots own s (c :: U) Ps)
    (hok : recycleVmemRegion lay s c = .ok t) :
    Serves lay own s t U U := by
  obtain ⟨hpage, hback⟩ := hs.page c List.mem_cons_self
  have hval := hs.valid ho hpage
  have hc0 := (hs.bounds ho (List.mem_cons_self (a := c) (l := U))).2.2.2
  have hs1 := hs.uncount ho
  have ho1 : Owned lay own s.kpgdir (s.uncount (PGROUNDDOWN c)).mem := ho.of_words rfl fun _ _ => rfl
  rw [recycleVmemRegion, hback] at hok
  simp only [if_neg (show ¬ (c = 0 ∨ PGROUNDDOWN c = 0) from not_or.mpr ⟨hc0, hval.ne_zero⟩)] at hok
  by_cases hzero : (s.uncount (PGROUNDDOWN c)).mem.numRegions (PGROUNDDOWN c) = 0
  · rw [if_pos hzero] at hok
    have hnone : ∀ p ∈ U, PGROUNDDOWN p ≠ PGROUNDDOWN c := by
      have hcount := hs1.count _ hpage
      rw [hzero, eq_comm, List.countP_eq_zero] at hcount
      exact fun p hp heq => hcount p hp (by simpa using heq)
    obtain ⟨own', Ps', ho', hs', hk, hh, hr, hpte⟩ := dropMetadataPage_spec ho1 hs1 hpage hnone hok
    have hword : (s.uncount (PGROUNDDOWN c)).mem.word = s.mem.word := rfl
    exact ⟨own', Ps', ho', hs', hk, hh, hr, (PteFrame.of_word hword).trans hpte⟩
  · rw [if_neg hzero] at hok
    cases hok
    exact ⟨own, Ps, ho1, hs1, rfl, rfl, fun _ _ => rfl, PteFrame.of_word rfl⟩

/-- Recycling a slot in use returns, and gives its page back if the slot was the last one counted there. -/
theorem recycleVmemRegion_returns (ho : Owned lay own s.kpgdir s.mem) (hs : Slots own s (c :: U) Ps) :
    ∃ t, recycleVmemRegion lay s c = .ok t
      ∧ t.mem.freelist = (if s.mem.numRegions (s.region c).metadataPage = 1
        then (s.region c).metadataPage :: s.mem.freelist else s.mem.freelist)
      ∧ ∀ u, u ≠ (s.region c).metadataPage → t.mem.word u = s.mem.word u := by
  obtain ⟨hpage, hback⟩ := hs.page c List.mem_cons_self
  have hcount : s.mem.numRegions (PGROUNDDOWN c) < ADDRESSES := by
    rw [hs.count _ hpage]
    exact lt_of_le_of_lt List.countP_le_length (hs.length ho)
  have hval := hs.valid ho hpage
  have hc0 := (hs.bounds ho (List.mem_cons_self (a := c) (l := U))).2.2.2
  have hs1 := hs.uncount ho
  have ho1 : Owned lay own s.kpgdir (s.uncount (PGROUNDDOWN c)).mem := ho.of_words rfl fun _ _ => rfl
  have hlast : (s.uncount (PGROUNDDOWN c)).mem.numRegions (PGROUNDDOWN c) = 0
      ↔ s.mem.numRegions (PGROUNDDOWN c) = 1 := by
    simp only [Kernel.uncount, Kernel.setNumRegions, if_true, ADDRESSES] at *
    omega
  rw [recycleVmemRegion, hback]
  simp only [if_neg (show ¬ (c = 0 ∨ PGROUNDDOWN c = 0) from not_or.mpr ⟨hc0, hval.ne_zero⟩), hlast]
  by_cases hone : s.mem.numRegions (PGROUNDDOWN c) = 1
  · rw [if_pos hone, if_pos hone, dropMetadataPage]
    rcases seek_cases (fun current => decide (current = PGROUNDDOWN c)) 0 hs1.pages
        (hs1.pages_length ho1) with
      ⟨hall, _⟩ | ⟨front, current, rest, hPs, _, hstop, hseek⟩
    · exact absurd rfl (of_decide_eq_false (hall _ hpage))
    · obtain rfl : current = PGROUNDDOWN c := of_decide_eq_true hstop
      rw [hseek]
      simp only [if_neg hval.ne_zero, kfree_of_valid hval]
      obtain ⟨_, _, _, hword, _, hfree⟩ := linkPage_fields (s.uncount (PGROUNDDOWN c)) (front.getLast?.getD 0)
        ((s.uncount (PGROUNDDOWN c)).mem.pageNext (PGROUNDDOWN c))
      refine ⟨_, rfl, ?_, fun u hu => ?_⟩
      · show PGROUNDDOWN c :: _ = _
        rw [hfree]
        rfl
      · show (Mem.memset _ (PGROUNDDOWN c) 1).word u = _
        rw [memset_word_of_ne _ _ hu, hword]
        rfl
  · rw [if_neg hone, if_neg hone]
    exact ⟨_, rfl, rfl, fun _ _ => rfl⟩

end Xv6e.Memory.HeapSlots
