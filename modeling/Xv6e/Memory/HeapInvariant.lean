import Xv6e.Memory.HeapSteps

/-!
# Invariants of the kernel heap

Runs of the heap from `kheap_init`, with any allocations and any releases of pages in use.

* `heap_step`, `heapInv_run` — as long as every slot taken was not in use, the free list keeps its accounting,
  and its ranges with the pages in use partition the heap;
* `smallHeap` — a machine small enough to evaluate runs on.
-/

namespace Xv6e.Memory.HeapInvariant

open Library.Fallible
open Library.PointerList Library.RegionList Library.Transition PageTable
open Ownership AddressSpace KernelHeap HeapSlots
open HeapSteps

variable {lay : Layout} {own own' : ℕ → Owner} {s t : Kernel} {L Ps : List ℕ} {A : Finset ℕ} {es : List Event}

def heapPages : Set ℕ := Set.Ico (KHEAP_START / PGSIZE) (KHEAP_END / PGSIZE)

/-- The free list and the pages in use. -/
structure HeapInv (lay : Layout) (own : ℕ → Owner) (A : Finset ℕ) (s : Kernel) (L Ps : List ℕ) : Prop where
  list : FreeList lay own s L Ps
  coalesced : Coalesced (ranges s L)
  tiles : covered (ranges s L) = heapPages \ ↑A
  within : (↑A : Set ℕ) ⊆ heapPages

section

variable (h : HeapInv lay own A s L Ps)
include h

theorem HeapInv.freeSlots_eq : freeSlots s = L :=
  walk_of_chain h.list.chain (le_of_lt h.list.length)

theorem HeapInv.metadataList_eq : metadataList s = Ps :=
  walk_of_chain h.list.slots.pages (le_of_lt (h.list.slots.pages_length h.list.owned))

theorem HeapInv.inBounds : InBounds (ranges s L) := by
  intro r hr
  have hpos := h.coalesced.nonempty r hr
  have hmem : ∀ x, r.1 ≤ x → x < r.1 + r.2 → x ∈ heapPages := by
    intro x hlo hhi
    have hx : x ∈ covered (ranges s L) := ⟨r, hr, hlo, hhi⟩
    rw [h.tiles] at hx
    exact hx.1
  have hfirst := hmem r.1 (le_refl _) (by omega)
  have hlast := hmem (r.1 + r.2 - 1) (by omega) (by omega)
  refine ⟨hfirst.1, ?_⟩
  have := hlast.2
  omega

theorem HeapInv.bounds : HeapBounds s L :=
  HeapBounds.of_ranges h.list.aligned h.inBounds

theorem HeapInv.frame {T : ℕ → ℕ → Prop} {m' : Mem} (ho : Owned lay own' s.kpgdir m')
    (hf : Frame T own s.mem own' m') (hT : ¬ ∀ va, T s.kpgdir va) :
    HeapInv lay own' A { s with mem := m' } L Ps := by
  obtain ⟨hlist, hranges⟩ := h.list.frame ho hf hT
  exact ⟨hlist, by rw [hranges]; exact h.coalesced, by rw [hranges]; exact h.tiles, h.within⟩

end

/-! ### The heap at boot -/

/-- The kernel before `kheap_init`: some assignment of owners fits its memory, and the heap's globals are
null. -/
structure Boot (lay : Layout) (own : ℕ → Owner) (b : Kernel) : Prop where
  owned : Owned lay own b.kpgdir b.mem
  kdir : own b.kpgdir = .dir
  noPages : b.metadataPages = 0
  noRegions : b.vmemFreeListHead = 0

/-- **`kheap_init`** leaves the whole heap free. -/
theorem kheapInit_spec {b : Kernel} (hb : Boot lay own b) (hok : kheapInit b = .ok s) :
    ∃ own' L Ps, HeapInv lay own' ∅ s L Ps ∧ s.kpgdir = b.kpgdir
      ∧ PteFrame untouched own b.mem own' s.mem := by
  obtain ⟨⟨p, b1⟩, hnew, hok⟩ := bind_ok.mp hok
  simp only at hok
  by_cases hp : p = 0
  · rw [if_pos hp] at hok
    cases hok
  · rw [if_neg hp] at hok
    cases hok
    have hempty : Slots own b [] [] :=
      ⟨hb.noPages, List.nodup_nil, by simp, List.nodup_nil, by simp, by simp, by simp⟩
    obtain ⟨own', Ps, ho', hs', hk', _, _, hpte⟩ :=
      getNewVmemRegion_spec hb.owned hempty hnew hp List.not_mem_nil
    have hset := setRegion_slots (p := p) (r := { b1.region p with
      baseVaddr := KHEAP_START, numPages := (KHEAP_END - KHEAP_START) / PGSIZE, next := 0 }) hs' rfl
    have hrange : ranges { (b1.setRegion p { b1.region p with
          baseVaddr := KHEAP_START, numPages := (KHEAP_END - KHEAP_START) / PGSIZE, next := 0 }) with
        vmemFreeListHead := p } [p] = [(KHEAP_START / PGSIZE, (KHEAP_END - KHEAP_START) / PGSIZE)] := by
      rw [ranges, List.map_singleton, rangeOf]
      simp only [Kernel.region, Kernel.setRegion, if_true]
    refine ⟨own', [p], Ps, ⟨⟨?_, ?_, ?_, ?_, ?_⟩, ?_, ?_, by simp⟩, hk', ?_⟩
    · show Owned lay own' b1.kpgdir _
      rw [hk']
      exact ho'.of_words rfl fun _ _ => rfl
    · show own' b1.kpgdir = .dir
      rw [hk']
      exact hpte.dir _ hb.kdir
    · exact hset.of_regions rfl rfl rfl fun _ _ => rfl
    · refine ⟨rfl, hp, ?_⟩
      simp [Kernel.next, Kernel.setRegion]
    · intro q hq
      rw [List.mem_singleton.mp hq]
      simp only [Kernel.region, Kernel.setRegion, if_true]
      decide
    · rw [hrange]
      exact coalesced_cons.mpr ⟨by decide, by simp, coalesced_nil⟩
    · rw [hrange, covered_cons, covered_nil, Finset.coe_empty, Set.sdiff_empty, Set.union_empty, heapPages]
      rfl
    · exact hpte.trans (PteFrame.of_word rfl)

/-! ### One call -/

/-- The slot a release takes is not on the free list. -/
def FreshSlot (lay : Layout) (s : Kernel) : Event → Prop
  | .alloc _ _ => True
  | .free vaddr numPages => ∀ p ∈ takenSlot lay s vaddr numPages, p ∉ freeSlots s

theorem pagesOf_coe (v k : ℕ) : (↑(pagesOf v k) : Set ℕ) = Set.Ico (v / PGSIZE) (v / PGSIZE + k) := by
  rw [pagesOf, Finset.coe_Ico]

theorem alloc_step {k v : ℕ} (h : HeapInv lay own A s L Ps) (hstep : step lay s (.alloc k v) = some t) :
    ∃ own' L' Ps', HeapInv lay own' (if v = 0 then A else A ∪ pagesOf v k) t L' Ps' ∧ t.kpgdir = s.kpgdir
      ∧ PteFrame (heapOf s.kpgdir) own s.mem own' t.mem := by
  rw [step] at hstep
  cases halloc : liballocAlloc lay s k with
  | error e =>
    rw [halloc] at hstep
    cases hstep
  | ok r =>
    obtain ⟨w, t'⟩ := r
    rw [halloc] at hstep
    obtain ⟨rfl, rfl⟩ := guard_eq.mp hstep
    rcases Nat.eq_zero_or_pos k with rfl | hk
    · rw [liballocAlloc, if_pos rfl] at halloc
      cases halloc
      exact ⟨own, L, Ps, by rw [if_pos rfl]; exact h, rfl, PteFrame.refl own _⟩
    · rcases liballocAlloc_spec _ h.list h.bounds hk covers_heapOf halloc with
        ⟨_, rfl, rfl⟩ | ⟨n, rs, own', L', Ps', hfit, rfl, hlist, hranges, hkp, hpte⟩
      · exact ⟨own, L, Ps, by rw [if_pos rfl]; exact h, rfl, PteFrame.refl own _⟩
      · obtain ⟨hco, hcov, _⟩ := h.coalesced.firstFit hk hfit
        have hsub := firstFit_subset h.coalesced hfit
        have hheap : Set.Ico n (n + k) ⊆ heapPages := by
          intro x hx
          have := hsub hx
          rw [h.tiles] at this
          exact this.1
        have hpg : (↑(pagesOf (n * PGSIZE) k) : Set ℕ) = Set.Ico n (n + k) := by
          rw [pagesOf_coe, Nat.mul_div_cancel _ (by decide)]
        have hn : n * PGSIZE ≠ 0 := by
          have hlow := (hheap ⟨le_refl n, by omega⟩).1
          simp only [KHEAP_START_eq, PGSIZE] at *
          omega
        refine ⟨own', L', Ps', ⟨hlist, ?_, ?_, ?_⟩, hkp, hpte⟩
        · rw [hranges]
          exact hco
        · rw [hranges, hcov, h.tiles, if_neg hn, Finset.coe_union, hpg, Set.sdiff_sdiff]
        · rw [if_neg hn, Finset.coe_union, hpg]
          exact Set.union_subset h.within hheap

theorem last_mem (n : ℕ) {k : ℕ} (hk : 0 < k) : n + k - 1 ∈ Set.Ico n (n + k) := ⟨by omega, by omega⟩

theorem HeapInv.range_bounds {v k : ℕ} (h : HeapInv lay own A s L Ps) (hk : 0 < k) (hv : v % PGSIZE = 0)
    (hsub : pagesOf v k ⊆ A) : KHEAP_START ≤ v ∧ v + k * PGSIZE ≤ KHEAP_END := by
  have hmem : ∀ x ∈ Set.Ico (v / PGSIZE) (v / PGSIZE + k), x ∈ heapPages :=
    fun x hx => h.within (hsub (Finset.mem_Ico.mpr hx))
  have h1 := (hmem _ ⟨le_refl _, Nat.lt_add_of_pos_right hk⟩).1
  have h2 := (hmem _ (last_mem (v / PGSIZE) hk)).2
  simp only [KHEAP_START_eq, KHEAP_END_eq, PGSIZE] at *
  omega

theorem free_step {v k : ℕ} (h : HeapInv lay own A s L Ps) (hv : v % PGSIZE = 0) (hsub : pagesOf v k ⊆ A)
    (hfresh : FreshSlot lay s (.free v k)) (hstep : step lay s (.free v k) = some t) :
    ∃ own' L' Ps', HeapInv lay own' (A \ pagesOf v k) t L' Ps' ∧ t.kpgdir = s.kpgdir
      ∧ PteFrame (heapOf s.kpgdir) own s.mem own' t.mem := by
  rw [step] at hstep
  cases hfree : liballocFree lay s v k with
  | error e =>
    rw [hfree] at hstep
    cases hstep
  | ok r =>
    obtain ⟨b, t'⟩ := r
    rw [hfree] at hstep
    obtain rfl : t' = t := Option.some.inj hstep
    rcases Nat.eq_zero_or_pos k with rfl | hk
    · rw [liballocFree, if_pos (Or.inr rfl)] at hfree
      cases hfree
      refine ⟨own, L, Ps, ?_, rfl, PteFrame.refl own _⟩
      rw [show pagesOf v 0 = ∅ from Finset.Ico_self _, Finset.sdiff_empty]
      exact h
    · have hsub' : Set.Ico (v / PGSIZE) (v / PGSIZE + k) ⊆ (↑A : Set ℕ) := by
        rw [← pagesOf_coe]
        exact Finset.coe_subset.mpr hsub
      have hbounds := h.range_bounds hk hv hsub
      have hdisj : Disjoint (Set.Ico (v / PGSIZE) (v / PGSIZE + k)) (covered (ranges s L)) := by
        rw [h.tiles, Set.disjoint_left]
        exact fun x hx hfreex => hfreex.2 (hsub' hx)
      obtain ⟨_, _, own', _, L', Ps', hlist, hranges, hkp, hpte, _⟩ :=
        liballocFree_spec _ h.list h.inBounds hv hbounds.1
        hbounds.2 hk (covers_heapOf fun j _ hj => page_inHeap hbounds.1 hbounds.2 (by omega))
        (fun p hp => h.freeSlots_eq ▸ hfresh p hp) hfree
      obtain ⟨hco, hcov⟩ := h.coalesced.release hk hdisj
      refine ⟨own', L', Ps', ⟨hlist, ?_, ?_, ?_⟩, hkp, hpte⟩
      · rw [hranges]
        exact hco
      · rw [hranges, hcov, h.tiles, Finset.coe_sdiff, pagesOf_coe]
        ext x
        simp only [Set.mem_union, Set.mem_sdiff]
        by_cases hx : x ∈ Set.Ico (v / PGSIZE) (v / PGSIZE + k)
        · simp only [hx, or_true, not_true_eq_false, and_false, not_false_eq_true, and_true, true_iff]
          exact h.within (hsub' hx)
        · simp only [hx, or_false, not_false_eq_true, and_true]
      · rw [Finset.coe_sdiff]
        exact Set.sdiff_subset.trans h.within

/-- **One call** of the heap that takes no slot in use. -/
theorem heap_step {e : Event} (h : HeapInv lay own (allocated es) s L Ps) (ha : Allowed es e)
    (hfresh : FreshSlot lay s e) (hstep : step lay s e = some t) :
    ∃ own' L' Ps', HeapInv lay own' (allocated (es ++ [e])) t L' Ps' ∧ t.kpgdir = s.kpgdir
      ∧ PteFrame (heapOf s.kpgdir) own s.mem own' t.mem := by
  rw [allocated_snoc]
  cases e with
  | alloc k v => exact alloc_step h hstep
  | free v k => exact free_step h ha.1 ha.2.2 hfresh hstep

/-! ### Runs -/

def system (lay : Layout) : System Kernel Event where
  init s := ∃ b own, Boot lay own b ∧ kheapInit b = .ok s
  step := step lay

/-- Calls allowed, that take no slot in use. -/
def AllowedFresh (lay : Layout) (es : List Event) (s : Kernel) (e : Event) : Prop :=
  Allowed es e ∧ FreshSlot lay s e

/-- **The invariant over runs** whose condition keeps them from taking a slot in use. -/
theorem heapInv_run {C : List Event → Kernel → Event → Prop}
    (hC : ∀ es s e own L Ps, HeapInv lay own (allocated es) s L Ps → C es s e → AllowedFresh lay es s e)
    (hr : RunIf (system lay) C es s) : ∃ own L Ps, HeapInv lay own (allocated es) s L Ps := by
  refine hr.induct (I := fun es s => ∃ own L Ps, HeapInv lay own (allocated es) s L Ps) ?_ ?_
  · rintro s ⟨b, own, hb, hok⟩
    obtain ⟨own', L, Ps, h, _⟩ := kheapInit_spec hb hok
    exact ⟨own', L, Ps, h⟩
  · rintro es s e t ⟨own, L, Ps, h⟩ hc hstep
    obtain ⟨ha, hfresh⟩ := hC es s e own L Ps h hc
    obtain ⟨own', L', Ps', h', _⟩ := heap_step h ha hfresh hstep
    exact ⟨own', L', Ps', h'⟩

instance (lay : Layout) (s : Kernel) : (e : Event) → Decidable (FreshSlot lay s e)
  | .alloc _ _ => isTrue trivial
  | .free vaddr numPages =>
    inferInstanceAs (Decidable (∀ p ∈ takenSlot lay s vaddr numPages, p ∉ freeSlots s))

instance (lay : Layout) (es : List Event) (s : Kernel) (e : Event) : Decidable (AllowedFresh lay es s e) :=
  inferInstanceAs (Decidable (_ ∧ _))

/-! ### A small machine -/

/-- A kernel with fourteen pages of data. -/
def smallLayout : Layout := ⟨0x80108000, 0x80116000, by decide, by decide, by decide, by decide⟩

/-- Twelve free pages, and an empty page directory below them. -/
def smallBoot : Kernel :=
  ⟨⟨(List.range 12).map fun i => 0x80400000 + 4096 * i, fun _ _ => 0, fun _ => 0, fun _ => 0,
    fun _ => ⟨0, 0, 0, 0⟩⟩, 0x803FF000, 0, 0⟩

def smallOwn (v : ℕ) : Owner :=
  if v ∈ smallBoot.mem.freelist then .free else if v = smallBoot.kpgdir then .dir else .other

theorem boot_small : Boot smallLayout smallOwn smallBoot := by
  have hvalid : ∀ v ∈ smallBoot.kpgdir :: smallBoot.mem.freelist,
      v % PGSIZE = 0 ∧ KERNBASE ≤ v ∧ v < KERNBASE + PHYSTOP ∧ smallLayout.kernelEnd ≤ v := by
    decide
  refine ⟨owned_of_zero (fun _ _ => rfl) (fun v hv => if_pos hv) (by decide) fun v hv =>
    hvalid v ?_, by decide, rfl, rfl⟩
  rw [smallOwn] at hv
  by_contra hmem
  rw [List.mem_cons, not_or] at hmem
  rw [if_neg hmem.2, if_neg hmem.1] at hv
  exact hv rfl

def smallHeap : Kernel :=
  match kheapInit smallBoot with
  | .ok s => s
  | .error _ => smallBoot

theorem init_small : (system smallLayout).init smallHeap := by
  refine ⟨smallBoot, smallOwn, boot_small, ?_⟩
  have hok : (kheapInit smallBoot).toBool = true := by decide +kernel
  rw [smallHeap]
  cases hinit : kheapInit smallBoot with
  | ok s => rfl
  | error e =>
    rw [hinit] at hok
    cases hok

end Xv6e.Memory.HeapInvariant
