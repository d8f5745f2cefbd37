import Xv6e.Memory.HeapInvariant

/-!
# Slots of the free list are shared

`recycle_vmem_region` only decrements the counter of a page, and `get_new_vmem_region` hands out the slot at
that index.  When a slot other than the last one has been recycled, the page has a hole and its last slot is
still on the free list: the next slot handed out is that one.  A page allocated, released, allocated and
released is enough (`slots_shared`): the free list becomes a cycle.

* `SlotsOk` — the slots of the free list are distinct, the list ends, and the metadata pages count them;
* `slots_never_shared` — so it is in every run in which slots are taken from pages without a hole only
  (`NoHole`).
-/

namespace Xv6e.Memory.SlotReuse

open Library.PointerList Library.RegionList Library.Transition PageTable
open Ownership AddressSpace KernelHeap HeapSlots
open HeapSteps HeapInvariant

variable {lay : Layout} {own : ℕ → Owner} {s t : Kernel} {L Ps : List ℕ} {es : List Event}

/-- The free list and the metadata pages fit together. -/
structure SlotsOk (s : Kernel) : Prop where
  /-- The list ends. -/
  ends : Chain s.next s.vmemFreeListHead (freeSlots s)
  /-- Its slots are distinct. -/
  distinct : (freeSlots s).Nodup
  /-- The list of metadata pages ends. -/
  pagesEnd : Chain s.mem.pageNext s.metadataPages (metadataList s)
  /-- A page counts its slots on the free list. -/
  counted : ∀ page ∈ metadataList s,
    s.mem.numRegions page = (freeSlots s).countP fun p => PGROUNDDOWN p = page
  /-- No page that holds a slot on the free list has been freed: it is still among the metadata pages, and not
  on the allocator's free list. -/
  live : ∀ p ∈ freeSlots s, PGROUNDDOWN p ∈ metadataList s ∧ PGROUNDDOWN p ∉ s.mem.freelist

/-- The page a slot would be taken from. -/
def pageWithRoom (s : Kernel) : Option ℕ :=
  (metadataList s).find? fun page => s.mem.numRegions page < REGIONS_PER_PAGE

/-- A release that does not extend a region finds its slot in a page without a hole: none of the page's slots
from index `num_regions` on is on the free list. -/
def NoHole (s : Kernel) : Event → Prop
  | .alloc _ _ => True
  | .free vaddr _ => (∀ q ∈ freeSlots s, regionEnd (s.region q) ≠ vaddr) → ∀ page ∈ pageWithRoom s,
      ∀ i < REGIONS_PER_PAGE, s.mem.numRegions page ≤ i → slotAddr page i ∉ freeSlots s

/-- Calls allowed, on pages without a hole. -/
def AllowedNoHole (es : List Event) (s : Kernel) (e : Event) : Prop := Allowed es e ∧ NoHole s e

/-! ### No hole, no slot taken twice -/

theorem prev_of_end {A : Finset ℕ} {front rest : List ℕ} {v q : ℕ}
    (h : HeapInv lay own A s (front ++ rest) Ps) (hv : v % PGSIZE = 0)
    (hfront : ∀ p ∈ front, (s.region p).baseVaddr < v) (hrest : ∀ p ∈ rest.head?, v ≤ (s.region p).baseVaddr)
    (hq : q ∈ front ++ rest) (hend : regionEnd (s.region q) = v) : front.getLast?.getD 0 = q := by
  have hal : ∀ p ∈ front ++ rest, (s.region p).baseVaddr % PGSIZE = 0 := h.list.aligned
  have htouch : (rangeOf s q).1 + (rangeOf s q).2 = v / PGSIZE :=
    (regionEnd_eq_iff (hal q hq) (lt_of_le_of_lt (h.bounds q hq).2 (by decide)) hv).mp hend
  have hco := h.coalesced
  rw [ranges_append] at hco
  obtain ⟨hcf, hcr, _⟩ := coalesced_append.mp hco
  have hpos := h.coalesced.nonempty _ (List.mem_map_of_mem hq)
  rcases List.mem_append.mp hq with hqf | hqr
  · -- a later region before the range would start past the end of this one
    obtain ⟨init, z, rfl⟩ := (List.eq_nil_or_concat' front).resolve_left (List.ne_nil_of_mem hqf)
    rw [List.getLast?_concat, Option.getD_some]
    rcases List.mem_append.mp hqf with hqi | hqz
    · rw [ranges_append] at hcf
      have hlt := (coalesced_append.mp hcf).2.2 (rangeOf s q) (List.mem_map_of_mem hqi) (rangeOf s z)
        (by simp [ranges])
      have hz := hfront z (by simp)
      have halz := hal z (by simp)
      simp only [rangeOf, PGSIZE] at *
      omega
    · exact (List.mem_singleton.mp hqz).symm
  · -- the regions after the range start past it
    exfalso
    cases rest with
    | nil => cases hqr
    | cons c rest =>
      have hc := hrest c rfl
      have hle : (rangeOf s c).1 ≤ (rangeOf s q).1 := by
        rcases List.mem_cons.mp hqr with rfl | hqr
        · exact le_refl _
        · have := (coalesced_cons.mp hcr).2.1 (rangeOf s q) (List.mem_map_of_mem hqr)
          omega
      have halc := hal c (by simp)
      simp only [rangeOf, PGSIZE] at *
      omega

/-- **Without a hole the slot taken is not in use.** -/
theorem fresh_of_noHole {e : Event} (h : HeapInv lay own (allocated es) s L Ps) (ha : Allowed es e)
    (hno : NoHole s e) : FreshSlot lay s e := by
  cases e with
  | alloc k v => trivial
  | free v k =>
    obtain ⟨hv, _, hsub⟩ := ha
    intro p hp
    rw [h.freeSlots_eq]
    rw [takenSlot] at hp
    by_cases hz : v = 0 ∨ k = 0
    · rw [if_pos hz] at hp
      cases hp
    rw [if_neg hz] at hp
    have hk : 0 < k := by omega
    obtain ⟨hlo, hhi⟩ := h.range_bounds hk hv hsub
    cases hunmap : unmapHeapPages lay s.kpgdir v k 0 s.mem with
    | error e =>
      rw [hunmap] at hp
      cases hp
    | ok m1 =>
      rw [hunmap] at hp
      have hin : ∀ j, 0 ≤ j → j < 0 + k → InHeap ((v + j * PGSIZE) % ADDRESSES) :=
        fun j _ hj => page_inHeap hlo hhi (by omega)
      obtain ⟨own1, ho1, hf1⟩ := unmapHeapPages_spec k 0 h.list.owned h.list.kdir hin
        (covers_heapOf hin) hunmap
      obtain ⟨h1, hr1⟩ := h.list.frame ho1 hf1 (not_all_heapOf _ _)
      have hregion := (h.list.slots.frame h.list.owned hf1).2
      have hviews := fun P hP => (hf1.view P (h.list.slots.owner P hP)).2.1
      obtain ⟨front, rest, hL, hfront, hrest, hseek⟩ := free_seek h1 v
      simp only [hseek] at hp
      by_cases hback : front.getLast?.getD 0 ≠ 0
          ∧ regionEnd (({ s with mem := m1 } : Kernel).region (front.getLast?.getD 0)) = v
      · rw [if_pos hback] at hp
        cases hp
      rw [if_neg hback] at hp
      cases hnew : getNewVmemRegion { s with mem := m1 } with
      | error e =>
        rw [hnew] at hp
        cases hp
      | ok r =>
        obtain ⟨p', s2⟩ := r
        rw [hnew] at hp
        obtain rfl : p' = p := Option.some.inj hp
        intro hpL
        have hp0 : p' ≠ 0 := h.list.chain.ne_zero p' hpL
        -- no region ends at the range: the hypothesis on holes applies
        have hends : ∀ q ∈ freeSlots s, regionEnd (s.region q) ≠ v := by
          rw [h.freeSlots_eq]
          intro q hq hend
          subst hL
          have hlast := prev_of_end h hv
            (fun x hx => by
              rw [← show m1.region x = s.region x from hregion x (List.mem_append_left rest hx)]
              exact hfront x hx)
            (fun x hx => by
              rw [← show m1.region x = s.region x from
                hregion x (List.mem_append_right front (List.mem_of_mem_head? hx))]
              exact hrest x hx) hq hend
          refine hback ?_
          rw [hlast]
          refine ⟨h.list.chain.ne_zero q hq, ?_⟩
          show regionEnd (m1.region q) = v
          rw [hregion q hq]
          exact hend
        have hholes := hno hends
        rw [pageWithRoom, h.metadataList_eq, h.freeSlots_eq] at hholes
        rcases getNewVmemRegion_cases h1.owned h1.slots hnew hp0 with
          ⟨fr, page, re, hPs, hfull, hroom, htake⟩ | ⟨r, re, hfl, _, htake⟩
        · have hpage : page ∈ Ps := by rw [hPs]; simp
          have hnum := hviews page hpage
          have hfind : Ps.find? (fun page => decide (s.mem.numRegions page < REGIONS_PER_PAGE))
              = some page := by
            refine List.find?_eq_some_iff_append.mpr ⟨?_, fr, re, hPs, fun P hP => ?_⟩
            · rw [← hnum]
              exact decide_eq_true hroom
            · have hPn := hviews P (by rw [hPs]; simp [hP])
              have := hfull P hP
              rw [show (({ s with mem := m1 } : Kernel).mem.numRegions P)
                = s.mem.numRegions P from hPn] at this
              simpa using this
          refine hholes page hfind (s.mem.numRegions page) (by rw [← hnum]; exact hroom) (le_refl _) ?_
          have hslot : p' = slotAddr page (m1.numRegions page) := congrArg Prod.fst htake
          rw [← hnum, ← hslot]
          exact hpL
        · -- a slot of a page that was free until now
          have hslot : p' = slotAddr r 0 := (congrArg Prod.fst htake).trans (by
            show slotAddr r (if r = r then 0 else _) = slotAddr r 0
            rw [if_pos rfl])
          have hr : r ∈ m1.freelist := by rw [show m1.freelist = r :: re from hfl]; exact List.mem_cons_self
          have hval := h1.owned.valid_of_mem hr
          have hmeta := h1.slots.owner _ (h1.slots.page p' hpL).1
          rw [hslot, PGROUNDDOWN_slotAddr hval.1 (by decide), h1.owned.free r hr] at hmeta
          cases hmeta

theorem slotsOk_of_inv {A : Finset ℕ} (h : HeapInv lay own A s L Ps) : SlotsOk s := by
  have hL := h.freeSlots_eq
  have hP := h.metadataList_eq
  refine ⟨?_, ?_, ?_, ?_, ?_⟩
  · rw [hL]
    exact h.list.chain
  · rw [hL]
    exact h.list.slots.nodup
  · rw [hP]
    exact h.list.slots.pages
  · rw [hL, hP]
    exact h.list.slots.count
  · rw [hL, hP]
    intro p hp
    have hpage := (h.list.slots.page p hp).1
    refine ⟨hpage, fun hfree => ?_⟩
    have hown := h.list.owned.free _ hfree
    rw [h.list.slots.owner _ hpage] at hown
    cases hown

/-- **Slots are never shared** in runs that take slots from pages without a hole. -/
theorem slots_never_shared (hr : RunIf (system lay) AllowedNoHole es s) :
    SlotsOk s ∧ ∀ e, AllowedNoHole es s e → FreshSlot lay s e := by
  obtain ⟨own, L, Ps, h⟩ := heapInv_run
    (fun es s e own L Ps h hc => ⟨hc.1, fresh_of_noHole h hc.1 hc.2⟩) hr
  exact ⟨slotsOk_of_inv h, fun e he => fresh_of_noHole h he.1 he.2⟩

instance (s : Kernel) : (e : Event) → Decidable (NoHole s e)
  | .alloc _ _ => isTrue trivial
  | .free vaddr _ => inferInstanceAs (Decidable ((∀ q ∈ freeSlots s, regionEnd (s.region q) ≠ vaddr) →
      ∀ page ∈ pageWithRoom s, ∀ i < REGIONS_PER_PAGE, s.mem.numRegions page ≤ i
      → slotAddr page i ∉ freeSlots s))

instance (es : List Event) (s : Kernel) (e : Event) : Decidable (AllowedNoHole es s e) :=
  inferInstanceAs (Decidable (_ ∧ _))

/-- Two pages are allocated and the first of them released, into the second slot of the page. -/
def releaseFirst : List Event := [.alloc 1 KHEAP_START, .alloc 1 (KHEAP_START + PGSIZE), .free KHEAP_START 1]

theorem slots_never_shared_releaseFirst :
    ∃ s, RunIf (system smallLayout) AllowedNoHole releaseFirst s ∧ (freeSlots s).length = 2 ∧ SlotsOk s := by
  obtain ⟨s, hr, hlen⟩ := exists_runIf_of_map (f := fun s => (freeSlots s).length) (y := 2)
    (C := AllowedNoHole) releaseFirst init_small (by decide +kernel)
  exact ⟨s, hr, hlen, (slots_never_shared hr).1⟩

/-! ### A page allocated and released twice -/

/-- Slots are never shared, whatever callers that only release pages in use do. -/
def SlotsNeverShared (lay : Layout) : Prop :=
  ∀ es s, RunIf (system lay) (fun es _ e => Allowed es e) es s →
    SlotsOk s ∧ ∀ e, Allowed es e → FreshSlot lay s e

/-- The first release takes slot 1 and absorbs the region of slot 0, whose recycling leaves the page with the
counter 1 and slot 1 in use.  The second release takes slot 1 again. -/
def releaseTwice : List Event :=
  [.alloc 1 KHEAP_START, .free KHEAP_START 1, .alloc 1 KHEAP_START, .free KHEAP_START 1]

/-- **Slots are shared**: the free list of the small machine becomes a cycle. -/
theorem slots_shared : ¬ SlotsNeverShared smallLayout := by
  intro hall
  obtain ⟨s, hr, hloop⟩ := exists_runIf_of_map
    (f := fun s : Kernel => decide (s.vmemFreeListHead ≠ 0 ∧ s.next s.vmemFreeListHead = s.vmemFreeListHead))
    (y := true) (C := fun es _ e => Allowed es e) releaseTwice init_small (by decide +kernel)
  obtain ⟨hne, hself⟩ := of_decide_eq_true hloop
  exact not_chain_of_loop hne hself (hall releaseTwice s hr).1.ends

end Xv6e.Memory.SlotReuse
