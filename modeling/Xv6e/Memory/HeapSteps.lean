import Xv6e.Memory.HeapSlots
import Xv6e.Library.RegionList

/-!
# The kernel heap refines an address-ordered free list

`FreeList lay own s L Ps` says that the nodes from `vmem_free_list_head` on are the slots `L`, and `ranges s
L` are the page ranges they hold.  The pointer code then computes the operations on lists of ranges.

* `liballocAlloc_spec` — allocation is first fit on the ranges;
* `liballocFree_spec` — release is `release` on the ranges, as long as the slot it takes was not in use;
* in both, page tables change at heap addresses of the kernel's page directory only.
-/

namespace Xv6e.Memory.HeapSteps

open Library.Fallible
open Library.PointerList Library.RegionList PageTable Ownership
open AddressSpace KernelHeap HeapSlots

variable {lay : Layout} {own own' : ℕ → Owner} {s t : Kernel} {L Ps front rest : List ℕ} {m m' : Mem}

/-- The heap addresses of a page directory. -/
def heapOf (d : ℕ) : ℕ → ℕ → Prop := fun e va => e = d ∧ InHeap va

theorem not_all_heapOf (d e : ℕ) : ¬ ∀ va, heapOf d e va := fun h => absurd (h 0).2.1 (by decide)

theorem not_all_entryOf (d va e : ℕ) : ¬ ∀ vb, entryOf d va e vb := fun h => by
  have h₁ := (h 0).2
  have h₂ := (h PGSIZE).2
  simp only [PGSIZE] at h₁ h₂
  omega

variable {d va base n kpgdir q p c k v : ℕ} {T : ℕ → ℕ → Prop} {r : Region}

theorem entryOf_heapOf {e vb : ℕ} (hva : InHeap va) (h : entryOf d va e vb) : heapOf d e vb := by
  refine ⟨h.1, ?_⟩
  have := h.2
  simp only [InHeap, PGSIZE, KERNBASE, PHYSTOP, DEVSPACE] at *
  omega

/-- Entries that take in the pages of a range, and are not all of any page directory. -/
structure Covers (T : ℕ → ℕ → Prop) (d base i n : ℕ) : Prop where
  page : ∀ j, i ≤ j → j < i + n → ∀ e vb, entryOf d ((base + j * PGSIZE) % ADDRESSES) e vb → T e vb
  proper : ∀ e, ¬ ∀ va, T e va

theorem covers_heapOf {i : ℕ} (hin : ∀ j, i ≤ j → j < i + n → InHeap ((base + j * PGSIZE) % ADDRESSES)) :
    Covers (heapOf d) d base i n :=
  ⟨fun j hj hjn _ _ => entryOf_heapOf (hin j hj hjn), not_all_heapOf d⟩

theorem Covers.next {i : ℕ} (h : Covers T d base i (n + 1)) : Covers T d base (i + 1) n :=
  ⟨fun j hj hjn => h.page j (by omega) (by omega), h.proper⟩

theorem Frame.toPteFrame (h : Frame T own m own' m') (hT : ∀ e, ¬ ∀ va, T e va) :
    PteFrame T own m own' m' :=
  ⟨fun e he => h.dir e he (hT e), h.pte⟩

/-! ### Mapping and unmapping the pages of a range -/

theorem mapKernelPage_spec {r : ℕ} (h : Owned lay own kpgdir m) (hk : own kpgdir = .dir)
    (hr : own r = .other) (hv : ValidPage lay r) (hva : InHeap va) :
    ∃ own', Owned lay own' kpgdir (mapKernelPage kpgdir m va (V2P r) (PTE_W ||| PTE_P)).2
      ∧ Frame (entryOf kpgdir va) own m own' (mapKernelPage kpgdir m va (V2P r) (PTE_W ||| PTE_P)).2 := by
  have hlt : va < ADDRESSES := lt_trans hva.2 (by decide)
  rw [mapKernelPage]
  rcases walkpgdir_alloc h hk va with ⟨_, hwalk⟩ | ⟨t, own1, m1, hwalk, h1, hf1, hk1, ht, hw, _⟩
  · rw [hwalk]
    exact ⟨own, h, Frame.refl own m⟩
  · rw [hwalk]
    have hr1 : own1 r = .other := (hk1 r (by simp [hr])).trans hr
    obtain ⟨h2, hf2⟩ := mapPage (o := .heap (va / PGSIZE)) h1 ht hw hlt hr1 hv
      (show PTE_W ||| PTE_P < PGSIZE by decide)
      rfl (by simp) (fun hlow => absurd (le_trans (by decide) hva.1) (not_le.mpr hlow)) fun _ _ => rfl
    exact ⟨_, h2, hf1.widen.trans hf2⟩

theorem mapHeapPage {r : ℕ} (h : Owned lay own kpgdir m) (hk : own kpgdir = .dir)
    (hf : m.freelist = r :: rest) (hva : InHeap va) :
    r ≠ 0 ∧ ∃ own₁ own', Owned lay own₁ kpgdir { m with freelist := rest } ∧ own₁ kpgdir = .dir
      ∧ own' kpgdir = .dir
      ∧ Owned lay own' kpgdir (mapKernelPage kpgdir { m with freelist := rest } va (V2P r)
      (PTE_W ||| PTE_P)).2 ∧ Frame (entryOf kpgdir va) own m own'
        (mapKernelPage kpgdir { m with freelist := rest } va (V2P r) (PTE_W ||| PTE_P)).2 := by
  obtain ⟨hfree, hvalid, h1, hf1⟩ := h.kalloc hf
  have hk1 : Function.update own r .other kpgdir = .dir :=
    (keeps_update hfree _ kpgdir (by simp [hk])).trans hk
  obtain ⟨own2, h2, hf2⟩ := mapKernelPage_spec h1 hk1 (Function.update_self ..) hvalid hva
  exact ⟨hvalid.ne_zero, _, own2, h1, hk1, hf2.dir kpgdir hk1 (not_all_entryOf _ _ _), h2,
    hf1.widen.trans hf2⟩

theorem mapHeapPages_spec {found : ℕ} (n i : ℕ) (h : Owned lay own kpgdir m)
    (hk : own kpgdir = .dir) (hin : ∀ j, i ≤ j → j < i + n → InHeap ((found + j * PGSIZE) % ADDRESSES))
    (hT : Covers T kpgdir found i n) (hok : mapHeapPages kpgdir found n i m = .ok m') :
    ∃ own', Owned lay own' kpgdir m' ∧ Frame T own m own' m' := by
  induction n generalizing i m own with
  | zero =>
    cases hok
    exact ⟨own, h, Frame.refl own _⟩
  | succ n ih =>
    rw [mapHeapPages] at hok
    rcases kalloc_cases m with ⟨_, hka⟩ | ⟨r, rest, hf, hka⟩
    · rw [hka] at hok
      cases hok
    · obtain ⟨hr, _, own2, _, _, hk2, h2, hf2⟩ := mapHeapPage h hk hf (hin i (le_refl i) (by omega))
      rw [hka] at hok
      simp only [if_neg hr] at hok
      obtain ⟨own', h', hf'⟩ := ih (i + 1) h2 hk2 (fun j hj hjn => hin j (by omega) (by omega)) hT.next hok
      have hfT : Frame T _ _ own2 _ := hf2.mono fun e vb _ => hT.page i (le_refl i) (by omega) e vb
      exact ⟨own', h', hfT.trans hf'⟩

theorem mapKernelPage_freelist (kpgdir : ℕ) (m : Mem) (va pa perm : ℕ) :
    m.freelist.length ≤ (mapKernelPage kpgdir m va pa perm).2.freelist.length + 1 := by
  rw [mapKernelPage, walkpgdir]
  by_cases hp : Present (m.word kpgdir (PDX va))
  · simp only [if_pos hp, setWord_freelist]
    exact Nat.le_succ _
  · simp only [if_neg hp, Bool.true_eq_false, if_false]
    rcases kalloc_cases m with ⟨_, hka⟩ | ⟨r, rest, hf, hka⟩
    · rw [hka]
      exact Nat.le_succ _
    · rw [hka, hf]
      by_cases hr : r = 0
      · simp only [if_pos hr, List.length_cons, le_refl]
      · simp only [if_neg hr, setWord_freelist, memset_freelist, List.length_cons, le_refl]

/-- With two free pages for each page of the range the mapping loop returns; it never ends otherwise than
for want of memory. -/
theorem mapHeapPages_returns (found n i : ℕ) (h : Owned lay own kpgdir m) (hk : own kpgdir = .dir)
    (hin : ∀ j, i ≤ j → j < i + n → InHeap ((found + j * PGSIZE) % ADDRESSES)) :
    (∃ m', mapHeapPages kpgdir found n i m = .ok m')
      ∨ mapHeapPages kpgdir found n i m = .error .outOfPhysicalMemory ∧ m.freelist.length < 2 * n := by
  induction n generalizing i m own with
  | zero => exact Or.inl ⟨m, rfl⟩
  | succ n ih =>
    rw [mapHeapPages]
    rcases kalloc_cases m with ⟨hf, hka⟩ | ⟨r, rest, hf, hka⟩
    · rw [hka, hf]
      exact Or.inr ⟨rfl, by simp⟩
    · obtain ⟨hr, _, own2, _, _, hk2, h2, _⟩ := mapHeapPage h hk hf (hin i (le_refl i) (by omega))
      rw [hka]
      simp only [if_neg hr]
      refine (ih (i + 1) h2 hk2 fun j hj hjn => hin j (by omega) (by omega)).imp_right ?_
      rintro ⟨herr, hshort⟩
      refine ⟨herr, ?_⟩
      have hone := mapKernelPage_freelist kpgdir { m with freelist := rest }
        ((found + i * PGSIZE) % ADDRESSES) (V2P r) (PTE_W ||| PTE_P)
      rw [hf, List.length_cons]
      simp only at hone
      omega

theorem kfreeAndUnmapPage_spec (h : Owned lay own kpgdir m) (hk : own kpgdir = .dir)
    (hva : InHeap va) (hok : kfreeAndUnmapPage lay kpgdir m va = .ok m') :
    ∃ own', Owned lay own' kpgdir m' ∧ Frame (entryOf kpgdir va) own m own' m' := by
  have hlt : va < ADDRESSES := lt_trans hva.2 (by decide)
  rw [kfreeAndUnmapPage] at hok
  rcases walkpgdir_noalloc h hk va with ⟨hwalk, _⟩ | ⟨t, hwalk, ht, hw, hpte⟩
  · rw [hwalk] at hok
    cases hok
    exact ⟨own, h, Frame.refl own _⟩
  · rw [hwalk] at hok
    simp only at hok
    by_cases hp : ¬ Present (m.word t (PTX va))
    · rw [if_pos hp] at hok
      cases hok
      exact ⟨own, h, Frame.refl own _⟩
    · rw [if_neg hp] at hok
      obtain ⟨m1, hkf, hret⟩ := bind_ok.mp hok
      cases hret
      have hown : own (P2V (PTE_ADDR (m.word t (PTX va)))) = .heap (va / PGSIZE) := by
        rw [hpte] at hp ⊢
        exact h.heap va hk hva (not_not.mp hp)
      obtain ⟨h', hf'⟩ := unmapPage h ht hw hlt (Or.inr ⟨hown, rfl⟩) (P2V_lt _) hkf
      exact ⟨_, h', hf'⟩

theorem unmapHeapPages_spec {vaddr : ℕ} (n i : ℕ) (h : Owned lay own kpgdir m)
    (hk : own kpgdir = .dir) (hin : ∀ j, i ≤ j → j < i + n → InHeap ((vaddr + j * PGSIZE) % ADDRESSES))
    (hT : Covers T kpgdir vaddr i n) (hok : unmapHeapPages lay kpgdir vaddr n i m = .ok m') :
    ∃ own', Owned lay own' kpgdir m' ∧ Frame T own m own' m' := by
  induction n generalizing i m own with
  | zero =>
    cases hok
    exact ⟨own, h, Frame.refl own _⟩
  | succ n ih =>
    obtain ⟨m1, hpage, hrest⟩ := bind_ok.mp hok
    obtain ⟨own1, h1, hf1⟩ := kfreeAndUnmapPage_spec h hk (hin i (le_refl i) (by omega)) hpage
    have hk1 := hf1.dir kpgdir hk (not_all_entryOf _ _ _)
    obtain ⟨own', h', hf'⟩ := ih (i + 1) h1 hk1 (fun j hj hjn => hin j (by omega) (by omega)) hT.next hrest
    have hfT : Frame T own m own1 m1 := hf1.mono fun e vb _ => hT.page i (le_refl i) (by omega) e vb
    exact ⟨own', h', hfT.trans hf'⟩

/-! ### The free list -/

def rangeOf (s : Kernel) (p : ℕ) : ℕ × ℕ := ((s.region p).baseVaddr / PGSIZE, (s.region p).numPages)

/-- The page ranges of a list of nodes. -/
def ranges (s : Kernel) (L : List ℕ) : List (ℕ × ℕ) := L.map (rangeOf s)

/-- The nodes of the free list are `L`, slots in use of the metadata pages `Ps`. -/
structure FreeList (lay : Layout) (own : ℕ → Owner) (s : Kernel) (L Ps : List ℕ) : Prop where
  owned : Owned lay own s.kpgdir s.mem
  kdir : own s.kpgdir = .dir
  slots : Slots own s L Ps
  chain : Chain s.next s.vmemFreeListHead L
  aligned : ∀ p ∈ L, (s.region p).baseVaddr % PGSIZE = 0

theorem ranges_append (s : Kernel) (L M : List ℕ) : ranges s (L ++ M) = ranges s L ++ ranges s M :=
  List.map_append ..

theorem ranges_congr (h : ∀ p ∈ L, rangeOf t p = rangeOf s p) : ranges t L = ranges s L :=
  List.map_congr_left h

theorem ranges_middle {r : ℕ × ℕ} (h : ranges t (front ++ q :: rest) = ranges s front ++ r :: ranges s rest) :
    ranges t front = ranges s front ∧ rangeOf t q = r ∧ ranges t rest = ranges s rest := by
  rw [ranges_append] at h
  obtain ⟨hfront, hq⟩ := List.append_inj h (by simp [ranges])
  have hq' : rangeOf t q :: ranges t rest = r :: ranges s rest := hq
  rw [List.cons.injEq] at hq'
  exact ⟨hfront, hq'⟩

theorem FreeList.length (h : FreeList lay own s L Ps) : L.length < ADDRESSES := h.slots.length h.owned

theorem FreeList.frame (h : FreeList lay own s L Ps) (ho : Owned lay own' s.kpgdir m')
    (hf : Frame T own s.mem own' m') (hT : ¬ ∀ va, T s.kpgdir va) :
    FreeList lay own' { s with mem := m' } L Ps ∧ ranges { s with mem := m' } L = ranges s L := by
  obtain ⟨hslots, hregion⟩ := h.slots.frame h.owned hf
  refine ⟨⟨ho, hf.dir _ h.kdir hT, hslots, ?_, ?_⟩, ranges_congr fun p hp => ?_⟩
  · exact h.chain.frame fun p hp => by rw [Kernel.next, Kernel.next, hregion p hp]
  · intro p hp
    show (m'.region p).baseVaddr % PGSIZE = 0
    rw [hregion p hp]
    exact h.aligned p hp
  · show ((m'.region p).baseVaddr / PGSIZE, (m'.region p).numPages) = rangeOf s p
    rw [hregion p hp]
    rfl

/-! ### Links -/

theorem link_fields (s : Kernel) (prev q : ℕ) :
    (s.link prev q).kpgdir = s.kpgdir ∧ (s.link prev q).metadataPages = s.metadataPages
      ∧ (s.link prev q).mem.word = s.mem.word ∧ (s.link prev q).mem.freelist = s.mem.freelist
      ∧ (s.link prev q).mem.pageNext = s.mem.pageNext ∧ (s.link prev q).mem.numRegions
      = s.mem.numRegions := by
  rw [Kernel.link]
  split <;> exact ⟨rfl, rfl, rfl, rfl, rfl, rfl⟩

theorem link_region (s : Kernel) (prev q p : ℕ) :
    ((s.link prev q).region p).baseVaddr = (s.region p).baseVaddr
      ∧ ((s.link prev q).region p).numPages = (s.region p).numPages
      ∧ ((s.link prev q).region p).metadataPage = (s.region p).metadataPage := by
  rw [Kernel.link]
  split
  · by_cases hp : p = prev
    · rw [hp]
      simp [Kernel.setNext, Kernel.setRegion, Kernel.region]
    · simp [Kernel.setNext, Kernel.setRegion, Kernel.region, hp]
  · exact ⟨rfl, rfl, rfl⟩

theorem rangeOf_link (s : Kernel) (prev q p : ℕ) : rangeOf (s.link prev q) p = rangeOf s p := by
  obtain ⟨hb, hn, _⟩ := link_region s prev q p
  rw [rangeOf, rangeOf, hb, hn]

/-- **Linking** puts a new list after the nodes up to `prev`. -/
theorem chain_link {old new : List ℕ} (h : Chain s.next s.vmemFreeListHead (front ++ old))
    (hnd : front.Nodup) (hnew : Chain s.next q new) (hdisj : ∀ x ∈ new, x ∉ front) :
    Chain (s.link (front.getLast?.getD 0) q).next (s.link (front.getLast?.getD 0) q).vmemFreeListHead
      (front ++ new) := by
  have hzero := h.getLast?_eq_zero_iff
  by_cases hprev : front.getLast?.getD 0 = 0
  · have hnil : front = [] := hzero.mp hprev
    rw [Kernel.link, if_neg (not_not.mpr hprev)]
    subst hnil
    exact hnew
  · have hne : front ≠ [] := fun hnil => hprev (hzero.mpr hnil)
    have hlast : front.getLast?.getD 0 ∈ front := by
      rw [List.getLast?_eq_some_getLast hne]
      exact List.getLast_mem hne
    have hself : (s.setNext (front.getLast?.getD 0) q).next (front.getLast?.getD 0) = q := by
      simp [Kernel.next, Kernel.setNext, Kernel.setRegion]
    have hother : ∀ p, p ≠ front.getLast?.getD 0 → (s.setNext (front.getLast?.getD 0) q).next p
        = s.next p := by
      intro p hp
      simp [Kernel.next, Kernel.setNext, Kernel.setRegion, hp]
    rw [Kernel.link, if_pos hprev]
    refine h.replace hnd (fun hnil => absurd hnil hne) (fun _ => ⟨rfl, hself⟩) (fun p _ hp => hother p hp)
      (hnew.frame fun p hp => hother p fun heq => hdisj p hp ?_)
    rw [heq]
    exact hlast

/-! ### Allocation -/

/-- The regions of the free list lie in the heap. -/
def HeapBounds (s : Kernel) (L : List ℕ) : Prop :=
  ∀ p ∈ L, KHEAP_START ≤ (s.region p).baseVaddr
    ∧ (s.region p).baseVaddr + (s.region p).numPages * PGSIZE ≤ KHEAP_END

def InBounds (rs : List (ℕ × ℕ)) : Prop :=
  ∀ r ∈ rs, KHEAP_START / PGSIZE ≤ r.1 ∧ r.1 + r.2 ≤ KHEAP_END / PGSIZE

theorem HeapBounds.of_ranges (hal : ∀ p ∈ L, (s.region p).baseVaddr % PGSIZE = 0)
    (h : InBounds (ranges s L)) : HeapBounds s L := by
  intro p hp
  have hr := h (rangeOf s p) (List.mem_map_of_mem hp)
  have halp := hal p hp
  simp only [rangeOf, KHEAP_START_eq, KHEAP_END_eq, PGSIZE] at *
  omega

theorem setRegion_slots {U : List ℕ} (hs : Slots own s U Ps)
    (hback : r.metadataPage = (s.region p).metadataPage) : Slots own (s.setRegion p r) U Ps := by
  refine hs.of_regions rfl rfl rfl fun q _ => ?_
  by_cases hq : q = p
  · rw [hq, ← hback]
    simp [Kernel.setRegion, Kernel.region]
  · simp [Kernel.setRegion, Kernel.region, hq]

theorem setRegion_region_self (s : Kernel) (p : ℕ) (r : Region) : (s.setRegion p r).region p = r := by
  simp [Kernel.setRegion, Kernel.region]

theorem setRegion_region_of_ne (s : Kernel) (r : Region) (h : q ≠ p) :
    (s.setRegion p r).region q = s.region q := by
  simp [Kernel.setRegion, Kernel.region, h]

theorem setRegion_next_of_ne (s : Kernel) (r : Region) (h : q ≠ p) :
    (s.setRegion p r).next q = s.next q := by
  simp [Kernel.setRegion, Kernel.next, h]

theorem rangeOf_setRegion_of_ne (s : Kernel) (r : Region) (h : q ≠ p) :
    rangeOf (s.setRegion p r) q = rangeOf s q := by
  rw [rangeOf, rangeOf, setRegion_region_of_ne s r h]

section

variable (h : FreeList lay own s (front ++ c :: rest) Ps)
include h

theorem FreeList.ne_of_mem :
    (∀ q ∈ front, q ≠ c) ∧ (∀ q ∈ rest, q ≠ c) ∧ (∀ q ∈ rest, q ∉ front) ∧ front.Nodup := by
  obtain ⟨hf, hr, hdisj⟩ := List.nodup_append.mp h.slots.nodup
  refine ⟨fun q hq hqc => hdisj q hq c List.mem_cons_self hqc, fun q hq hqc => ?_, fun q hq hqf => ?_, hf⟩
  · exact (List.nodup_cons.mp hr).1 (hqc ▸ hq)
  · exact hdisj q hqf q (List.mem_cons_of_mem c hq) rfl

/-- **The range of a node changes in place.** -/
theorem FreeList.setRegion
    (hback : r.metadataPage = (s.region c).metadataPage) (hnext : r.next = (s.region c).next)
    (hal : r.baseVaddr % PGSIZE = 0) :
    FreeList lay own (s.setRegion c r) (front ++ c :: rest) Ps
      ∧ ranges (s.setRegion c r) (front ++ c :: rest)
        = ranges s front ++ (r.baseVaddr / PGSIZE, r.numPages) :: ranges s rest := by
  obtain ⟨hfc, hrc, _, _⟩ := h.ne_of_mem
  refine ⟨⟨h.owned.of_words rfl fun _ _ => rfl, h.kdir, setRegion_slots h.slots hback, ?_, ?_⟩, ?_⟩
  · refine h.chain.frame fun q _ => ?_
    by_cases hq : q = c
    · rw [hq]
      exact (congrArg Region.next (setRegion_region_self s c r)).trans hnext
    · exact setRegion_next_of_ne s _ hq
  · intro q hq
    by_cases hqc : q = c
    · rw [hqc, setRegion_region_self]
      exact hal
    · rw [setRegion_region_of_ne s _ hqc]
      exact h.aligned q hq
  · rw [ranges_append, ranges_congr fun q hq => rangeOf_setRegion_of_ne s _ (hfc q hq)]
    show _ ++ rangeOf _ c :: ranges _ rest = _
    rw [ranges_congr fun q hq => rangeOf_setRegion_of_ne s _ (hrc q hq), rangeOf, setRegion_region_self]

theorem FreeList.unlinked :
    Slots own (s.link (front.getLast?.getD 0) (s.next c)) (c :: (front ++ rest)) Ps
      ∧ Owned lay own (s.link (front.getLast?.getD 0) (s.next c)).kpgdir
      (s.link (front.getLast?.getD 0) (s.next c)).mem := by
  obtain ⟨hkp, hmp, hword, hfl, hpn, hnr⟩ := link_fields s (front.getLast?.getD 0) (s.next c)
  refine ⟨(h.slots.of_regions hmp hpn hnr fun p _ => (link_region s _ _ p).2.2).perm List.perm_middle, ?_⟩
  rw [hkp]
  exact h.owned.of_words hfl fun v _ => by rw [hword]

theorem unlink_recycle
    (hok : recycleVmemRegion lay (s.link (front.getLast?.getD 0) (s.next c)) c = .ok t) :
    ∃ own' Ps', FreeList lay own' t (front ++ rest) Ps' ∧ ranges t (front ++ rest) = ranges s (front ++ rest)
      ∧ t.kpgdir = s.kpgdir ∧ PteFrame untouched own s.mem own' t.mem := by
  obtain ⟨_, _, hdisj, hnd⟩ := h.ne_of_mem
  obtain ⟨hkp, _, hword, _, _, _⟩ := link_fields s (front.getLast?.getD 0) (s.next c)
  have hchain := chain_link h.chain hnd h.chain.suffix.tail hdisj
  obtain ⟨hslots, howned⟩ := h.unlinked
  obtain ⟨own', Ps', ho', hs', hk', hh', hr', hpte⟩ := recycleVmemRegion_spec howned hslots hok
  have hrange : ∀ p ∈ front ++ rest, rangeOf t p = rangeOf s p := by
    intro p hp
    rw [rangeOf, hr' p hp]
    exact rangeOf_link s _ _ p
  have hkp' : t.kpgdir = s.kpgdir := hk'.trans hkp
  refine ⟨own', Ps', ⟨?_, ?_, hs', ?_, ?_⟩, ranges_congr hrange, hkp', (PteFrame.of_word hword).trans hpte⟩
  · rw [hk']
    exact ho'
  · rw [hkp']
    exact hpte.dir _ h.kdir
  · rw [hh']
    exact hchain.frame fun p hp => congrArg Region.next (hr' p hp)
  · intro p hp
    rw [hr' p hp, (link_region s _ _ p).1]
    refine h.aligned p ?_
    rcases List.mem_append.mp hp with hp | hp <;> simp [hp]

/-- **The region found** gives up the pages asked for. -/
theorem carve_spec (hk : k ≤ (s.region c).numPages)
    (hlt : (s.region c).baseVaddr + (s.region c).numPages * PGSIZE < ADDRESSES)
    (hok : carve lay s (front.getLast?.getD 0) c k = .ok t) :
    ∃ own' L' Ps', FreeList lay own' t L' Ps' ∧ t.kpgdir = s.kpgdir ∧ PteFrame untouched own s.mem own' t.mem
      ∧ ranges t L' = ranges s front ++ if (rangeOf s c).2 = k then ranges s rest
          else ((rangeOf s c).1 + k, (rangeOf s c).2 - k) :: ranges s rest := by
  rw [carve] at hok
  by_cases hfit : (s.region c).numPages = k
  · rw [if_pos hfit] at hok
    obtain ⟨own', Ps', hfree, hranges, hkp, hpte⟩ := unlink_recycle h hok
    refine ⟨own', _, Ps', hfree, hkp, hpte, ?_⟩
    rw [hranges, ranges_append, if_pos (show (rangeOf s c).2 = k from hfit)]
  · rw [if_neg hfit] at hok
    cases hok
    have hal := h.aligned c (by simp)
    have hbase : ((s.region c).baseVaddr + k * PGSIZE) % ADDRESSES = (s.region c).baseVaddr + k * PGSIZE := by
      refine Nat.mod_eq_of_lt (lt_of_le_of_lt ?_ hlt)
      exact Nat.add_le_add_left (Nat.mul_le_mul_right _ hk) _
    have hpage : ((s.region c).baseVaddr + k * PGSIZE) % PGSIZE = 0
        ∧ ((s.region c).baseVaddr + k * PGSIZE) / PGSIZE = (rangeOf s c).1 + k := by
      simp only [rangeOf, PGSIZE] at *
      omega
    obtain ⟨hfree, hranges⟩ := h.setRegion (r := { s.region c with
      baseVaddr := ((s.region c).baseVaddr + k * PGSIZE) % ADDRESSES
      numPages := (s.region c).numPages - k }) rfl rfl (by rw [hbase]; exact hpage.1)
    refine ⟨own, _, Ps, hfree, rfl, PteFrame.of_word rfl, ?_⟩
    rw [hranges, if_neg (show ¬ (rangeOf s c).2 = k from hfit)]
    simp only [hbase, hpage.2]
    rfl

theorem carve_returns :
    ∃ t, carve lay s (front.getLast?.getD 0) c k = .ok t
      ∧ t.mem.freelist = (if (s.region c).numPages = k ∧ s.mem.numRegions (s.region c).metadataPage = 1
        then (s.region c).metadataPage :: s.mem.freelist else s.mem.freelist)
      ∧ ∀ u, u ≠ (s.region c).metadataPage → t.mem.word u = s.mem.word u := by
  rw [carve]
  by_cases hfit : (s.region c).numPages = k
  · rw [if_pos hfit]
    obtain ⟨_, _, hword, hfl, _, hnr⟩ := link_fields s (front.getLast?.getD 0) (s.next c)
    obtain ⟨hslots, howned⟩ := h.unlinked
    obtain ⟨t, ht, hfree, hwords⟩ := recycleVmemRegion_returns howned hslots
    have hmeta := (link_region s (front.getLast?.getD 0) (s.next c) c).2.2
    rw [hmeta, hnr, hfl] at hfree
    refine ⟨t, ht, by simpa only [hfit, true_and] using hfree, fun u hu => ?_⟩
    rw [hwords u (by rw [hmeta]; exact hu), hword]
  · rw [if_neg hfit]
    exact ⟨_, rfl, (if_neg fun hc => hfit hc.1).symm, fun _ _ => rfl⟩

theorem carve_length (hok : carve lay s (front.getLast?.getD 0) c k = .ok t) :
    s.mem.freelist.length ≤ t.mem.freelist.length := by
  obtain ⟨t', ht', hfree, _⟩ := carve_returns (k := k) h
  obtain rfl : t = t' := Except.ok.inj (hok.symm.trans ht')
  rw [hfree]
  split
  · rw [List.length_cons]
    exact Nat.le_succ _
  · exact le_refl _

end

theorem page_inHeap {j : ℕ} (hlo : KHEAP_START ≤ base) (hhi : base + n * PGSIZE ≤ KHEAP_END) (hj : j < n) :
    InHeap ((base + j * PGSIZE) % ADDRESSES) := by
  have hS : KHEAP_START = KERNBASE + PHYSTOP := rfl
  simp only [hS, KHEAP_END, InHeap, KERNBASE, PHYSTOP, DEVSPACE, PGSIZE, ADDRESSES] at *
  omega

/-- Where first fit finds its region, in the nodes. -/
theorem alloc_seek (h : FreeList lay own s L Ps) (k : ℕ) :
    (firstFit k (ranges s L) = none
        ∧ seek s.next (fun r => decide (k ≤ (s.region r).numPages)) ADDRESSES 0 s.vmemFreeListHead
          = some (L.getLast?.getD 0, 0))
      ∨ ∃ front c rest, L = front ++ c :: rest ∧ k ≤ (s.region c).numPages ∧ c ≠ 0
        ∧ firstFit k (ranges s L) = some ((rangeOf s c).1, ranges s front ++ if (rangeOf s c).2 = k
            then ranges s rest else ((rangeOf s c).1 + k, (rangeOf s c).2 - k) :: ranges s rest)
        ∧ seek s.next (fun r => decide (k ≤ (s.region r).numPages)) ADDRESSES 0 s.vmemFreeListHead
          = some (front.getLast?.getD 0, c) := by
  rcases seek_cases (fun r => decide (k ≤ (s.region r).numPages)) 0 h.chain h.length with
    ⟨hall, hseek⟩ | ⟨front, c, rest, rfl, hfront, hc, hseek⟩
  · refine Or.inl ⟨firstFit_eq_none_iff.mpr fun r hr => ?_, hseek⟩
    obtain ⟨p, hp, rfl⟩ := List.mem_map.mp hr
    exact not_le.mp (of_decide_eq_false (hall p hp))
  · have hck : k ≤ (s.region c).numPages := of_decide_eq_true hc
    refine Or.inr ⟨front, c, rest, rfl, hck, h.chain.ne_zero c (by simp), ?_, hseek⟩
    rw [ranges_append]
    refine firstFit_append (fun r hr => ?_) hck
    obtain ⟨p, hp, rfl⟩ := List.mem_map.mp hr
    exact not_le.mp (of_decide_eq_false (hfront p hp))

/-- **`liballoc_alloc` is first fit**: what it returns, and the free list it leaves. -/
theorem liballocAlloc_spec (T : ℕ → ℕ → Prop) {w : ℕ} (h : FreeList lay own s L Ps) (hb : HeapBounds s L)
    (hk : 0 < k) (hT : (∀ j, 0 ≤ j → j < 0 + k → InHeap ((w + j * PGSIZE) % ADDRESSES))
      → Covers T s.kpgdir w 0 k) (hok : liballocAlloc lay s k = .ok (w, t)) :
    (firstFit k (ranges s L) = none ∧ w = 0 ∧ t = s)
      ∨ ∃ v rs own' L' Ps', firstFit k (ranges s L) = some (v, rs) ∧ w = v * PGSIZE
        ∧ FreeList lay own' t L' Ps' ∧ ranges t L' = rs ∧ t.kpgdir = s.kpgdir
        ∧ PteFrame T own s.mem own' t.mem := by
  rw [liballocAlloc, if_neg (by omega)] at hok
  rcases alloc_seek h k with ⟨hnone, hseek⟩ | ⟨front, c, rest, rfl, hck, hc0, hfit, hseek⟩
  · rw [hseek] at hok
    simp only [if_true] at hok
    cases hok
    exact Or.inl ⟨hnone, rfl, rfl⟩
  · right
    rw [hseek] at hok
    simp only [if_neg hc0] at hok
    obtain ⟨t1, hcarve, hok⟩ := bind_ok.mp hok
    obtain ⟨m2, hmap, hret⟩ := bind_ok.mp hok
    cases hret
    obtain ⟨hlo, hhi⟩ := hb c (by simp)
    have hlt : (s.region c).baseVaddr + (s.region c).numPages * PGSIZE < ADDRESSES :=
      lt_of_le_of_lt hhi (by decide)
    obtain ⟨own1, L1, Ps1, h1, hkp1, hpte1, hranges1⟩ := carve_spec h hck hlt hcarve
    have hmapin : ∀ j, 0 ≤ j → j < 0 + k → InHeap (((s.region c).baseVaddr + j * PGSIZE) % ADDRESSES) :=
      fun j _ hj => page_inHeap hlo hhi (by omega)
    have hcov : Covers T t1.kpgdir (s.region c).baseVaddr 0 k := by
      rw [hkp1]
      exact hT hmapin
    obtain ⟨own2, h2, hf2⟩ := mapHeapPages_spec k 0 h1.owned h1.kdir hmapin hcov hmap
    obtain ⟨h3, hranges3⟩ := h1.frame h2 hf2 (hcov.proper _)
    refine ⟨_, _, own2, L1, Ps1, hfit, ?_, h3, hranges3.trans hranges1, hkp1, ?_⟩
    · have hal := h.aligned c (by simp)
      show (s.region c).baseVaddr = (s.region c).baseVaddr / PGSIZE * PGSIZE
      simp only [PGSIZE] at *
      omega
    · exact hpte1.widen.trans (Frame.toPteFrame hf2 hcov.proper)

/-- **`liballoc_alloc` returns**, unless there are fewer than two free pages for each page asked for; and then
it can only panic for want of memory. -/
theorem liballocAlloc_returns (h : FreeList lay own s L Ps) (hb : HeapBounds s L) (hk : 0 < k) :
    (∃ r, liballocAlloc lay s k = .ok r)
      ∨ liballocAlloc lay s k = .error .outOfPhysicalMemory ∧ s.mem.freelist.length < 2 * k := by
  rw [liballocAlloc, if_neg (by omega)]
  rcases alloc_seek h k with ⟨_, hseek⟩ | ⟨front, c, rest, rfl, hck, hc0, _, hseek⟩
  · rw [hseek]
    exact Or.inl ⟨_, rfl⟩
  · rw [hseek]
    simp only [if_neg hc0]
    obtain ⟨hlo, hhi⟩ := hb c (by simp)
    have hlt : (s.region c).baseVaddr + (s.region c).numPages * PGSIZE < ADDRESSES :=
      lt_of_le_of_lt hhi (by decide)
    obtain ⟨t1, hcarve, _⟩ := carve_returns (k := k) h
    have hle := carve_length h hcarve
    obtain ⟨own1, L1, Ps1, h1, _, _, _⟩ := carve_spec h hck hlt hcarve
    rw [hcarve]
    rcases mapHeapPages_returns (s.region c).baseVaddr k 0 h1.owned h1.kdir
      (fun j _ hj => page_inHeap hlo hhi (by omega)) with ⟨m', hm'⟩ | ⟨herr, hshort⟩
    · refine Or.inl ⟨((s.region c).baseVaddr, { t1 with mem := m' }), ?_⟩
      show (mapHeapPages t1.kpgdir (s.region c).baseVaddr k 0 t1.mem >>= fun m =>
        (.ok ((s.region c).baseVaddr, { t1 with mem := m }) : Except Stop (ℕ × Kernel))) = _
      rw [hm']
      rfl
    · refine Or.inr ⟨?_, by omega⟩
      show (mapHeapPages t1.kpgdir (s.region c).baseVaddr k 0 t1.mem >>= fun m =>
        (.ok ((s.region c).baseVaddr, { t1 with mem := m }) : Except Stop (ℕ × Kernel))) = _
      rw [herr]
      rfl

/-! ### Release -/

/-- Without wrap-around the end of a region is the end of its page range. -/
theorem regionEnd_eq_iff (hal : r.baseVaddr % PGSIZE = 0)
    (hlt : r.baseVaddr + r.numPages * PGSIZE < ADDRESSES) (hv : v % PGSIZE = 0) :
    regionEnd r = v ↔ r.baseVaddr / PGSIZE + r.numPages = v / PGSIZE := by
  rw [regionEnd, Nat.mod_eq_of_lt hlt]
  simp only [PGSIZE] at *
  omega

/-- **A new node** for a range, in a slot that was not in use. -/
theorem insertNew {s1 : Kernel} (h : FreeList lay own s (front ++ rest) Ps)
    (hv : v % PGSIZE = 0) (hnew : getNewVmemRegion s = .ok (p, s1)) (hp : p ≠ 0) (hfresh : p ∉ front ++ rest)
    (ht : t = (s1.setRegion p { s1.region p with
      baseVaddr := v, numPages := k, next := (rest.head?).getD 0 }).link (front.getLast?.getD 0) p) :
    ∃ own' Ps', FreeList lay own' t (front ++ p :: rest) Ps'
      ∧ ranges t (front ++ p :: rest) = ranges s front ++ (v / PGSIZE, k) :: ranges s rest
      ∧ t.kpgdir = s.kpgdir ∧ PteFrame untouched own s.mem own' t.mem := by
  obtain ⟨own', Ps', ho', hs', hk', hh', hr', hpte⟩ := getNewVmemRegion_spec h.owned h.slots hnew hp hfresh
  obtain ⟨hpf, hpr⟩ : p ∉ front ∧ p ∉ rest := by simpa using hfresh
  obtain ⟨hnf, _, hdisj⟩ := List.nodup_append.mp h.slots.nodup
  generalize hs2 : s1.setRegion p { s1.region p with
    baseVaddr := v, numPages := k, next := (rest.head?).getD 0 } = s2 at ht
  have hs2self : s2.region p = { s1.region p with
      baseVaddr := v, numPages := k, next := (rest.head?).getD 0 } := by
    rw [← hs2, setRegion_region_self]
  have hs2ne : ∀ q ∈ front ++ rest, s2.region q = s.region q := by
    intro q hq
    have hqp : q ≠ p := fun hqp => hfresh (by rw [← hqp]; exact hq)
    rw [← hs2, setRegion_region_of_ne s1 _ hqp, hr' q hq]
  have hs2mem : s2.kpgdir = s.kpgdir ∧ s2.vmemFreeListHead = s.vmemFreeListHead ∧ s2.mem.word = s1.mem.word
      ∧ s2.mem.freelist = s1.mem.freelist := by
    rw [← hs2]
    exact ⟨hk', hh', rfl, rfl⟩
  obtain ⟨hk2, hh2, hw2, hf2⟩ := hs2mem
  have hslots2 : Slots own' s2 (p :: (front ++ rest)) Ps' := by
    rw [← hs2]
    exact setRegion_slots hs' rfl
  -- the old list is still there, and the new node goes before its second part
  have hchain2 : Chain s2.next s2.vmemFreeListHead (front ++ rest) := by
    rw [hh2]
    exact h.chain.frame fun q hq => congrArg Region.next (hs2ne q hq)
  have hrest2 : Chain s2.next ((rest.head?).getD 0) rest := by
    cases rest with
    | nil => rfl
    | cons c rest => exact hchain2.suffix
  have hnode : Chain s2.next p (p :: rest) := by
    refine ⟨rfl, hp, ?_⟩
    rw [show s2.next p = (rest.head?).getD 0 from congrArg Region.next hs2self]
    exact hrest2
  have hlink := chain_link hchain2 hnf hnode (fun x hx hxf => by
    rcases List.mem_cons.mp hx with rfl | hx
    · exact hpf hxf
    · exact hdisj x hxf x hx rfl)
  rw [← ht] at hlink
  obtain ⟨hkp, hmp, hword, hfl, hpn, hnr⟩ := link_fields s2 (front.getLast?.getD 0) p
  rw [← ht] at hkp hmp hword hfl hpn hnr
  have hreg : ∀ q, (t.region q).baseVaddr = (s2.region q).baseVaddr
    ∧ (t.region q).numPages = (s2.region q).numPages
      ∧ (t.region q).metadataPage = (s2.region q).metadataPage := by
    intro q
    rw [ht]
    exact link_region s2 _ _ q
  have hrange : ∀ q ∈ front ++ rest, rangeOf t q = rangeOf s q := by
    intro q hq
    rw [rangeOf, rangeOf, (hreg q).1, (hreg q).2.1, hs2ne q hq]
  have hkt : t.kpgdir = s.kpgdir := hkp.trans hk2
  have hwt : t.mem.word = s1.mem.word := hword.trans hw2
  refine ⟨own', Ps', ⟨?_, ?_, ?_, hlink, ?_⟩, ?_, hkt, hpte.trans (PteFrame.of_word hwt)⟩
  · rw [hkt]
    exact ho'.of_words (hfl.trans hf2) fun u _ => by rw [hwt]
  · rw [hkt]
    exact hpte.dir _ h.kdir
  · exact (hslots2.of_regions hmp hpn hnr fun q _ => (hreg q).2.2).perm List.perm_middle.symm
  · intro q hq
    rw [(hreg q).1]
    by_cases hqp : q = p
    · rw [hqp, hs2self]
      exact hv
    · have hq' : q ∈ front ++ rest := by
        simp only [List.mem_append, List.mem_cons] at hq ⊢
        tauto
      rw [hs2ne q hq']
      exact h.aligned q hq'
  · rw [ranges_append, ranges_congr fun q hq => hrange q (List.mem_append_left rest hq)]
    show _ ++ rangeOf t p :: ranges t rest = _
    rw [ranges_congr fun q hq => hrange q (List.mem_append_right front hq), rangeOf, (hreg p).1, (hreg p).2.1,
      hs2self]

/-- **Coalescing forwards** is `absorb`. -/
theorem coalesceForward_spec {node : ℕ} (h : FreeList lay own s (front ++ node :: rest) Ps)
    (hb : HeapBounds s (node :: rest)) (hok : coalesceForward lay s node ((rest.head?).getD 0) = .ok t) :
    ∃ own' L' Ps', FreeList lay own' t L' Ps' ∧ t.kpgdir = s.kpgdir ∧ PteFrame untouched own s.mem own' t.mem
      ∧ ranges t L' = ranges s front ++ absorb (rangeOf s node) (ranges s rest) := by
  have hbound : ∀ q ∈ node :: rest, (s.region q).baseVaddr + (s.region q).numPages * PGSIZE < ADDRESSES :=
    fun q hq => lt_of_le_of_lt (hb q hq).2 (by decide)
  rw [coalesceForward] at hok
  cases rest with
  | nil =>
    simp only [List.head?_nil, Option.getD_none, ne_eq, not_true_eq_false, false_and, if_false] at hok
    cases hok
    exact ⟨own, _, Ps, h, rfl, PteFrame.refl own _, by rw [ranges_append]; rfl⟩
  | cons c rest =>
    have hc0 : c ≠ 0 := h.chain.ne_zero c (by simp)
    have halc := h.aligned c (by simp)
    have htouch := regionEnd_eq_iff (h.aligned node (by simp)) (hbound node List.mem_cons_self) halc
    simp only [List.head?_cons, Option.getD_some, ne_eq, hc0, not_false_eq_true, true_and] at hok
    rw [show ranges s (c :: rest) = rangeOf s c :: ranges s rest from rfl, absorb]
    by_cases hjoin : regionEnd (s.region node) = (s.region c).baseVaddr
    · rw [if_pos hjoin] at hok
      rw [if_pos (show (rangeOf s node).1 + (rangeOf s node).2 = (rangeOf s c).1 from htouch.mp hjoin)]
      have hsum : ((s.region node).numPages + (s.region c).numPages) % ADDRESSES
          = (s.region node).numPages + (s.region c).numPages := by
        refine Nat.mod_eq_of_lt ?_
        have h1 := hbound node List.mem_cons_self
        have h2 := hbound c (by simp)
        have h3 := htouch.mp hjoin
        simp only [PGSIZE, ADDRESSES] at *
        omega
      rw [hsum] at hok
      -- growing the node and linking it past the next one is one write in the code, two here
      obtain ⟨hfree1, hranges1⟩ := h.setRegion (r := { s.region node with
        numPages := (s.region node).numPages + (s.region c).numPages }) rfl rfl (h.aligned node (by simp))
      generalize hs1 : s.setRegion node { s.region node with
        numPages := (s.region node).numPages + (s.region c).numPages } = s1 at hfree1 hranges1
      have hs1eq : s.setRegion node { s.region node with
          numPages := (s.region node).numPages + (s.region c).numPages, next := s.next c }
          = s1.link (((front ++ [node]).getLast?).getD 0) (s1.next c) := by
        have hn0 : node ≠ 0 := h.chain.ne_zero node (by simp)
        have hcn : c ≠ node := (h.ne_of_mem).2.1 c List.mem_cons_self
        rw [List.getLast?_concat, Option.getD_some, Kernel.link, if_pos hn0, ← hs1, Kernel.setNext,
          setRegion_region_self, setRegion_next_of_ne s _ hcn]
        simp only [Kernel.setRegion, Kernel.mk.injEq, Mem.mk.injEq, and_true, true_and]
        funext a
        by_cases ha : a = node <;> simp [ha]
      rw [hs1eq] at hok
      have hfree1' : FreeList lay own s1 ((front ++ [node]) ++ c :: rest) Ps := by
        rw [List.append_assoc, List.singleton_append]
        exact hfree1
      obtain ⟨own', Ps', hfree', hranges', hkp', hpte'⟩ := unlink_recycle hfree1' hok
      have hword : s1.mem.word = s.mem.word := by rw [← hs1]; rfl
      refine ⟨own', _, Ps', hfree', ?_, (PteFrame.of_word hword).trans hpte', ?_⟩
      · rw [hkp', ← hs1]
        rfl
      · obtain ⟨hf, hn, hc⟩ := ranges_middle hranges1
        have hr : ranges s1 rest = ranges s rest := (List.cons.inj hc).2
        rw [hranges', ranges_append, ranges_append, hf, hr, List.append_assoc]
        show _ ++ (rangeOf s1 node :: _) = _
        rw [hn]
        rfl
    · rw [if_neg hjoin] at hok
      cases hok
      rw [if_neg (show ¬ (rangeOf s node).1 + (rangeOf s node).2 = (rangeOf s c).1 from
        fun hc => hjoin (htouch.mpr hc))]
      exact ⟨own, _, Ps, h, rfl, PteFrame.refl own _, by rw [ranges_append]; rfl⟩

/-- Where `liballoc_free` puts a range: after the nodes that start before it. -/
theorem free_seek (h : FreeList lay own s L Ps) (v : ℕ) :
    ∃ front rest, L = front ++ rest ∧ (∀ q ∈ front, (s.region q).baseVaddr < v)
      ∧ (∀ q ∈ rest.head?, v ≤ (s.region q).baseVaddr)
      ∧ seek s.next (fun r => decide ¬ (s.region r).baseVaddr < v) ADDRESSES 0 s.vmemFreeListHead
        = some (front.getLast?.getD 0, (rest.head?).getD 0) := by
  rcases seek_cases (fun r => decide ¬ (s.region r).baseVaddr < v) 0 h.chain h.length with
    ⟨hall, hseek⟩ | ⟨front, c, rest, rfl, hfront, hc, hseek⟩
  · refine ⟨L, [], (List.append_nil L).symm, fun q hq => ?_, by simp, hseek⟩
    exact not_not.mp (of_decide_eq_false (hall q hq))
  · refine ⟨front, c :: rest, rfl, fun q hq => ?_, fun q hq => ?_, hseek⟩
    · exact not_not.mp (of_decide_eq_false (hfront q hq))
    · obtain rfl : c = q := Option.some.inj hq
      exact not_lt.mp (of_decide_eq_true hc)

theorem FreeList.bounds {r : ℕ × ℕ} (h : FreeList lay own' t (front ++ q :: rest) Ps)
    (hr : KHEAP_START / PGSIZE ≤ r.1 ∧ r.1 + r.2 ≤ KHEAP_END / PGSIZE) (hq : rangeOf t q = r)
    (hrest : ranges t rest = ranges s rest) (hb : InBounds (ranges s rest)) : HeapBounds t (q :: rest) := by
  refine HeapBounds.of_ranges (fun p hp => h.aligned p (List.mem_append_right front hp)) fun x hx => ?_
  rcases List.mem_cons.mp hx with rfl | hx
  · rw [hq]
    exact hr
  · rw [show (rest.map (rangeOf _)) = ranges s rest from hrest] at hx
    exact hb x hx

theorem release_extend (h : FreeList lay own s (front ++ q :: rest) Ps)
    (hb : InBounds (ranges s (front ++ q :: rest))) (hv : v % PGSIZE = 0) (hhi : v + k * PGSIZE ≤ KHEAP_END)
    (hend : regionEnd (s.region q) = v)
    (hok : coalesceForward lay (s.setRegion q { s.region q with
      numPages := ((s.region q).numPages + k) % ADDRESSES }) q ((rest.head?).getD 0) = .ok t) :
    (rangeOf s q).1 + (rangeOf s q).2 = v / PGSIZE
      ∧ ∃ own' L' Ps', FreeList lay own' t L' Ps' ∧ t.kpgdir = s.kpgdir
      ∧ PteFrame untouched own s.mem own' t.mem
        ∧ ranges t L' = ranges s front ++ absorb ((rangeOf s q).1, (rangeOf s q).2 + k) (ranges s rest) := by
  have hal := h.aligned q (by simp)
  obtain ⟨hlo, hle⟩ := HeapBounds.of_ranges h.aligned hb q (by simp)
  have htouch := (regionEnd_eq_iff hal (lt_of_le_of_lt hle (by decide)) hv).mp hend
  have hsum : ((s.region q).numPages + k) % ADDRESSES = (s.region q).numPages + k := by
    refine Nat.mod_eq_of_lt ?_
    simp only [KHEAP_END_eq, PGSIZE, ADDRESSES] at *
    omega
  rw [hsum] at hok
  obtain ⟨h1, hr1⟩ := h.setRegion (r := { s.region q with numPages := (s.region q).numPages + k }) rfl rfl hal
  obtain ⟨hf1, hq1, hrest1⟩ := ranges_middle hr1
  have hb1 := h1.bounds (by
    have := hb (rangeOf s q) (List.mem_map_of_mem (by simp))
    simp only [rangeOf, KHEAP_END_eq, PGSIZE] at *
    omega) hq1 hrest1 fun r hr =>
      hb r (by rw [ranges_append]; exact List.mem_append_right _ (List.mem_cons_of_mem _ hr))
  obtain ⟨own', L', Ps', hfree, hkp, hpte, hranges⟩ := coalesceForward_spec h1 hb1 hok
  have hset : PteFrame untouched own s.mem own (s.setRegion q { s.region q with
      numPages := (s.region q).numPages + k }).mem := PteFrame.of_word rfl
  refine ⟨htouch, own', L', Ps', hfree, hkp, hset.trans hpte, ?_⟩
  rw [hranges, hf1, hq1, hrest1]
  rfl

theorem release_insert {s1 : Kernel} (h : FreeList lay own s (front ++ rest) Ps)
    (hb : InBounds (ranges s (front ++ rest))) (hv : v % PGSIZE = 0)
    (hin : KHEAP_START / PGSIZE ≤ v / PGSIZE ∧ v / PGSIZE + k ≤ KHEAP_END / PGSIZE)
    (hnew : getNewVmemRegion s = .ok (p, s1)) (hp : p ≠ 0) (hfresh : p ∉ front ++ rest)
    (hok : coalesceForward lay ((s1.setRegion p { s1.region p with
      baseVaddr := v, numPages := k, next := (rest.head?).getD 0 }).link (front.getLast?.getD 0) p) p
        ((rest.head?).getD 0) = .ok t) :
    ∃ own' L' Ps', FreeList lay own' t L' Ps' ∧ t.kpgdir = s.kpgdir ∧ PteFrame untouched own s.mem own' t.mem
      ∧ ranges t L' = ranges s front ++ absorb (v / PGSIZE, k) (ranges s rest) := by
  obtain ⟨own1, Ps1, h1, hr1, hkp1, hpte1⟩ := insertNew h hv hnew hp hfresh rfl
  obtain ⟨hf1, hp1, hrest1⟩ := ranges_middle hr1
  generalize (s1.setRegion p { s1.region p with
    baseVaddr := v, numPages := k, next := (rest.head?).getD 0 }).link (front.getLast?.getD 0) p = s2 at *
  have hb1 := h1.bounds hin hp1 hrest1 fun r hr =>
    hb r (by rw [ranges_append]; exact List.mem_append_right _ hr)
  obtain ⟨own', L', Ps', hfree, hkp, hpte, hranges⟩ := coalesceForward_spec h1 hb1 hok
  refine ⟨own', L', Ps', hfree, hkp.trans hkp1, hpte1.trans hpte, ?_⟩
  rw [hranges, hf1, hp1, hrest1]

/-- **`liballoc_free` is `release`**, as long as the slot it takes is not on the free list. -/
theorem liballocFree_spec (T : ℕ → ℕ → Prop) {b : Bool} (h : FreeList lay own s L Ps)
    (hb : InBounds (ranges s L)) (hv : v % PGSIZE = 0) (hlo : KHEAP_START ≤ v)
    (hhi : v + k * PGSIZE ≤ KHEAP_END) (hk : 0 < k) (hT : Covers T s.kpgdir v 0 k)
    (hfresh : ∀ p ∈ takenSlot lay s v k, p ∉ L) (hok : liballocFree lay s v k = .ok (b, t)) :
    ∃ m, unmapHeapPages lay s.kpgdir v k 0 s.mem = .ok m
      ∧ ∃ own' own'' L' Ps', FreeList lay own' t L' Ps' ∧ ranges t L' = release (v / PGSIZE) k (ranges s L)
      ∧ t.kpgdir = s.kpgdir ∧ PteFrame T own s.mem own' t.mem ∧ own'' s.kpgdir = .dir
      ∧ PteFrame untouched own'' m own' t.mem := by
  have hv0 : ¬ (v = 0 ∨ k = 0) := by
    have := KHEAP_START_eq
    omega
  rw [liballocFree, if_neg hv0] at hok
  rw [takenSlot, if_neg hv0] at hfresh
  obtain ⟨m1, hunmap, hok⟩ := bind_ok.mp hok
  simp only [hunmap] at hfresh
  obtain ⟨own1, ho1, hf1⟩ := unmapHeapPages_spec k 0 h.owned h.kdir
    (fun j _ hj => page_inHeap hlo hhi (by omega)) hT hunmap
  obtain ⟨h1, hr1⟩ := h.frame ho1 hf1 (hT.proper _)
  have hpte1 : PteFrame T own s.mem own1 m1 := Frame.toPteFrame hf1 hT.proper
  have hdir1 : own1 s.kpgdir = .dir := hpte1.dir _ h.kdir
  generalize hs1 : { s with mem := m1 } = s1 at hok hfresh h1 hr1
  have hk1 : s1.kpgdir = s.kpgdir := by rw [← hs1]
  have hm1 : s1.mem = m1 := by rw [← hs1]
  obtain ⟨front, rest, rfl, hfront, hrest, hseek⟩ := free_seek h1 v
  simp only [hseek] at hok hfresh
  obtain ⟨⟨node, s2⟩, hins, hok⟩ := bind_ok.mp hok
  obtain ⟨t', hfwd, hret⟩ := bind_ok.mp hok
  cases hret
  -- the ranges split where the nodes do
  have hbefore : ∀ r ∈ ranges s1 front, r.1 < v / PGSIZE := by
    intro r hr
    obtain ⟨q, hq, rfl⟩ := List.mem_map.mp hr
    have hlt := hfront q hq
    have hal := h1.aligned q (List.mem_append_left rest hq)
    simp only [rangeOf, PGSIZE] at *
    omega
  have hafter : ∀ r ∈ (ranges s1 rest).head?, v / PGSIZE ≤ r.1 := by
    intro r hr
    rw [ranges, List.head?_map] at hr
    obtain ⟨q, hq, rfl⟩ := Option.map_eq_some_iff.mp hr
    exact Nat.div_le_div_right (hrest q hq)
  have hrelease : release (v / PGSIZE) k (ranges s (front ++ rest))
      = releaseAt (v / PGSIZE) k (ranges s1 front) (ranges s1 rest) := by
    rw [← hr1, ranges_append]
    exact release_append hbefore hafter
  have hb1 : InBounds (ranges s1 (front ++ rest)) := by rw [hr1]; exact hb
  have hvin : KHEAP_START / PGSIZE ≤ v / PGSIZE ∧ v / PGSIZE + k ≤ KHEAP_END / PGSIZE := by
    simp only [KHEAP_START_eq, KHEAP_END_eq, PGSIZE] at *
    omega
  rw [hrelease]
  rw [insertFreed] at hins
  by_cases hback : front.getLast?.getD 0 ≠ 0 ∧ regionEnd (s1.region (front.getLast?.getD 0)) = v
  · rw [if_pos hback] at hins
    cases hins
    have hne : front ≠ [] := fun hnil => hback.1 (by rw [hnil]; rfl)
    obtain ⟨init, q, rfl⟩ := (List.eq_nil_or_concat' front).resolve_left hne
    rw [List.getLast?_concat, Option.getD_some] at hback hfwd
    rw [List.append_assoc, List.singleton_append] at h1 hb1
    obtain ⟨htouch, own', L', Ps', hfree, hkp, hpte, hranges⟩ := release_extend h1 hb1 hv hhi hback.2 hfwd
    refine ⟨m1, hunmap, own', own1, L', Ps', hfree, ?_, hkp.trans hk1, hpte1.trans (hm1 ▸ hpte.widen),
      hdir1, hm1 ▸ hpte⟩
    rw [hranges, ranges_append, releaseAt, show ranges s1 [q] = [rangeOf s1 q] from rfl, List.getLast?_concat]
    simp only [List.dropLast_concat, if_pos htouch]
  · rw [if_neg hback] at hins
    obtain ⟨⟨p, s3⟩, hnew, hins⟩ := bind_ok.mp hins
    simp only at hins
    by_cases hp : p = 0
    · rw [if_pos hp] at hins
      cases hins
    · rw [if_neg hp] at hins
      cases hins
      have hpfresh : node ∉ front ++ rest := by
        refine hfresh node ?_
        rw [show s.vmemFreeListHead = s1.vmemFreeListHead from by rw [← hs1], hseek]
        simp only [if_neg hback, hnew]
        rfl
      obtain ⟨own', L', Ps', hfree, hkp, hpte, hranges⟩ := release_insert h1 hb1 hv hvin hnew hp hpfresh hfwd
      refine ⟨m1, hunmap, own', own1, L', Ps', hfree, ?_, hkp.trans hk1, hpte1.trans (hm1 ▸ hpte.widen),
        hdir1, hm1 ▸ hpte⟩
      rw [hranges, releaseAt]
      rcases List.eq_nil_or_concat' front with rfl | ⟨init, q, rfl⟩
      · rfl
      · -- the last region before the range does not end where the range starts
        have hq0 : q ≠ 0 := h1.chain.ne_zero q (by simp)
        have hal := h1.aligned q (by simp)
        have hle := (HeapBounds.of_ranges h1.aligned hb1 q (by simp)).2
        rw [List.getLast?_concat, Option.getD_some] at hback
        have hno : ¬ (rangeOf s1 q).1 + (rangeOf s1 q).2 = v / PGSIZE := fun htouch =>
          hback ⟨hq0, (regionEnd_eq_iff hal (lt_of_le_of_lt hle (by decide)) hv).mpr htouch⟩
        rw [ranges_append, show ranges s1 [q] = [rangeOf s1 q] from rfl, List.getLast?_concat]
        simp only [if_neg hno]

end Xv6e.Memory.HeapSteps
