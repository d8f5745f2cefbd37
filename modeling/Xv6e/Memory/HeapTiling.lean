import Xv6e.Memory.HeapInvariant

/-!
# The kernel heap is tiled

In every run that takes no slot in use, the regions of the free list and the pages in use partition the heap,
the regions are sorted and never touch, and `liballoc_alloc` is first fit: it refuses a request exactly when
there is no run of that many free pages.

* `Tiles`, `FirstFitAt`, `NoWrap` — the partition, allocation, and the absence of wrap-around;
* `heap_tiles` — all three, in every state of such a run; `regions_determined` — what is in use determines the
  free list.
-/

namespace Xv6e.Memory.HeapTiling

open Library.PointerList Library.RegionList Library.Transition PageTable
open Ownership KernelHeap HeapSlots HeapSteps
open HeapInvariant

variable {lay : Layout} {own : ℕ → Owner} {s : Kernel} {L Ps : List ℕ} {A : Finset ℕ} {es : List Event}

/-- The address just past a region, without wrap-around. -/
def endVaddr (r : Region) : ℕ := r.baseVaddr + r.numPages * PGSIZE

/-- The regions of the free list and the pages in use partition the heap. -/
structure Tiles (s : Kernel) (A : Finset ℕ) : Prop where
  /-- The list ends. -/
  ends : Chain s.next s.vmemFreeListHead (freeSlots s)
  /-- Regions are non-empty ranges of pages of the heap. -/
  region : ∀ p ∈ freeSlots s, 0 < (s.region p).numPages ∧ (s.region p).baseVaddr % PGSIZE = 0
    ∧ KHEAP_START ≤ (s.region p).baseVaddr ∧ endVaddr (s.region p) ≤ KHEAP_END
  /-- They are sorted by address, disjoint, and never adjacent. -/
  apart : (freeSlots s).Pairwise fun p q => endVaddr (s.region p) < (s.region q).baseVaddr
  /-- Pages in use are pages of the heap. -/
  inUse : ∀ n ∈ A, KHEAP_START ≤ n * PGSIZE ∧ (n + 1) * PGSIZE ≤ KHEAP_END
  /-- Every address of the heap is in a region or in a page in use, and never in both. -/
  partition : ∀ x, KHEAP_START ≤ x → x < KHEAP_END →
    (x / PGSIZE ∈ A ↔ ¬ ∃ p ∈ freeSlots s, (s.region p).baseVaddr ≤ x ∧ x < endVaddr (s.region p))

/-- A run of `k` pages of the heap from page `n` on, none of them in use. -/
def FreeRun (A : Finset ℕ) (n k : ℕ) : Prop := ∀ x, n ≤ x → x < n + k → x ∈ heapPages ∧ x ∉ A

structure FirstFitAt (lay : Layout) (s : Kernel) (A : Finset ℕ) (k : ℕ) : Prop where
  /-- With no run of `k` free pages it returns `0` and changes nothing. -/
  refuses : (¬ ∃ n, FreeRun A n k) → liballocAlloc lay s k = .ok (0, s)
  /-- With one, it returns the start of the lowest region with `k` pages, and panics only for want of physical
  memory: two free pages for each page asked for are enough. -/
  finds : (∃ n, FreeRun A n k) → ∃ p ∈ freeSlots s, k ≤ (s.region p).numPages ∧ (s.region p).baseVaddr ≠ 0
    ∧ (∀ q ∈ freeSlots s, k ≤ (s.region q).numPages → (s.region p).baseVaddr ≤ (s.region q).baseVaddr)
    ∧ (∀ v t, liballocAlloc lay s k = .ok (v, t) → v = (s.region p).baseVaddr)
    ∧ ((∃ t, liballocAlloc lay s k = .ok ((s.region p).baseVaddr, t))
      ∨ liballocAlloc lay s k = .error .outOfPhysicalMemory ∧ s.mem.freelist.length < 2 * k)

/-- No address computed from a region and a number of pages wraps around: in `liballoc_alloc` the new base and
the addresses of the pages mapped, in `liballoc_free` those of the pages unmapped, the end of a region, and
the end of the node that holds the range, new or extended. -/
structure NoWrap (s : Kernel) (A : Finset ℕ) : Prop where
  alloc : ∀ p ∈ freeSlots s, ∀ k ≤ (s.region p).numPages, (s.region p).baseVaddr + k * PGSIZE < ADDRESSES
  free : ∀ v k, 0 < k → v % PGSIZE = 0 → pagesOf v k ⊆ A → v + k * PGSIZE < ADDRESSES
    ∧ ∀ p ∈ freeSlots s, endVaddr (s.region p) = v →
      (s.region p).baseVaddr + ((s.region p).numPages + k) * PGSIZE < ADDRESSES

/-! ### From the invariant -/

theorem tiles_of_inv (h : HeapInv lay own A s L Ps) : Tiles s A := by
  have hL := h.freeSlots_eq
  have hmem : ∀ p ∈ L, rangeOf s p ∈ ranges s L := fun p hp => List.mem_map_of_mem hp
  refine ⟨by rw [hL]; exact h.list.chain, ?_, ?_, ?_, ?_⟩
  · rw [hL]
    intro p hp
    exact ⟨h.coalesced.nonempty _ (hmem p hp), h.list.aligned p hp, h.bounds p hp⟩
  · rw [hL]
    have hpair := h.coalesced.apart
    rw [ranges, List.pairwise_map] at hpair
    refine hpair.imp_of_mem fun {p q} hp hq hlt => ?_
    have halp := h.list.aligned p hp
    have halq := h.list.aligned q hq
    simp only [rangeOf, endVaddr, PGSIZE] at *
    omega
  · intro n hn
    have := h.within hn
    simp only [heapPages, Set.mem_Ico, KHEAP_START_eq, KHEAP_END_eq, PGSIZE] at *
    omega
  · intro x hlo hhi
    rw [hL]
    have hx : x / PGSIZE ∈ heapPages := by
      simp only [heapPages, Set.mem_Ico, KHEAP_START_eq, KHEAP_END_eq, PGSIZE] at *
      omega
    have hcov : x / PGSIZE ∈ covered (ranges s L) ↔ x / PGSIZE ∉ A := by
      rw [h.tiles]
      exact ⟨fun hc => hc.2, fun hc => ⟨hx, hc⟩⟩
    rw [← not_iff_not, ← hcov, not_not, mem_covered]
    constructor
    · rintro ⟨r, hr, h1, h2⟩
      obtain ⟨p, hp, rfl⟩ := List.mem_map.mp hr
      have halp := h.list.aligned p hp
      refine ⟨p, hp, ?_⟩
      simp only [rangeOf, endVaddr, PGSIZE] at *
      omega
    · rintro ⟨p, hp, h1, h2⟩
      have halp := h.list.aligned p hp
      refine ⟨rangeOf s p, hmem p hp, ?_⟩
      simp only [rangeOf, endVaddr, PGSIZE] at *
      omega

theorem freeRun_iff (h : HeapInv lay own A s L Ps) {n k : ℕ} :
    FreeRun A n k ↔ Set.Ico n (n + k) ⊆ covered (ranges s L) := by
  rw [h.tiles]
  exact ⟨fun hrun x hx => hrun x hx.1 hx.2, fun hsub x h1 h2 => hsub ⟨h1, h2⟩⟩

theorem firstFitAt_of_inv {k : ℕ} (h : HeapInv lay own A s L Ps) (hk : 0 < k) : FirstFitAt lay s A k := by
  have hnone : firstFit k (ranges s L) = none ↔ ¬ ∃ n, FreeRun A n k := by
    simp only [freeRun_iff h]
    exact firstFit_eq_none_iff_no_run h.coalesced hk
  refine ⟨fun hno => ?_, fun hrun => ?_⟩
  · -- nothing can go wrong when nothing is found
    rcases alloc_seek h.list k with ⟨_, hseek⟩ | ⟨_, _, _, _, _, _, hfit, _⟩
    · rw [liballocAlloc, if_neg (by omega), hseek]
      rfl
    · rw [hnone.mpr hno] at hfit
      cases hfit
  · rcases alloc_seek h.list k with ⟨hnil, _⟩ | ⟨front, c, rest, hsplit, hck, hc0, hfit, _⟩
    · exact absurd hrun (hnone.mp hnil)
    · have hcL : c ∈ L := by rw [hsplit]; simp
      have hal := h.list.aligned c hcL
      obtain ⟨r, hr, hrv, _, hlow⟩ := firstFit_lowest h.coalesced hfit
      have hbase : (rangeOf s c).1 * PGSIZE = (s.region c).baseVaddr := by
        simp only [rangeOf, PGSIZE] at *
        omega
      have hvalue : ∀ v t, liballocAlloc lay s k = .ok (v, t) → v = (s.region c).baseVaddr := by
        intro v t hok
        rcases liballocAlloc_spec _ h.list h.bounds hk covers_heapOf hok with ⟨hnil, _⟩
          | ⟨n, rs, _, _, _, hfit', rfl, _⟩
        · rw [hnil] at hfit
          cases hfit
        · rw [hfit, Option.some.injEq, Prod.mk.injEq] at hfit'
          rw [← hfit'.1, hbase]
      refine ⟨c, by rw [h.freeSlots_eq]; exact hcL, hck, ?_, ?_, hvalue, ?_⟩
      · have hlo := (h.bounds c hcL).1
        have := KHEAP_START_eq
        omega
      · intro q hq hkq
        rw [h.freeSlots_eq] at hq
        have halq := h.list.aligned q hq
        have hle := hlow (rangeOf s q) (List.mem_map_of_mem hq) hkq
        simp only [rangeOf, PGSIZE] at *
        omega
      · refine (liballocAlloc_returns h.list h.bounds hk).imp_left ?_
        rintro ⟨⟨v, t⟩, hok⟩
        refine ⟨t, ?_⟩
        rw [hok, hvalue v t hok]

theorem noWrap_of_inv (h : HeapInv lay own A s L Ps) : NoWrap s A := by
  constructor
  · intro p hp k hk
    rw [h.freeSlots_eq] at hp
    have hle := (h.bounds p hp).2
    have hmul : k * PGSIZE ≤ (s.region p).numPages * PGSIZE := Nat.mul_le_mul_right _ hk
    simp only [KHEAP_END_eq, ADDRESSES] at *
    omega
  · intro v k hk hv hsub
    have hvk := (h.range_bounds hk hv hsub).2
    refine ⟨lt_of_le_of_lt hvk (by decide), fun p _ hend => lt_of_le_of_lt ?_
      (show KHEAP_END < ADDRESSES by decide)⟩
    simp only [endVaddr, PGSIZE] at *
    omega

/-- **The kernel heap is tiled.** -/
theorem heap_tiles (hr : RunIf (system lay) (AllowedFresh lay) es s) :
    Tiles s (allocated es) ∧ (∀ k, 0 < k → FirstFitAt lay s (allocated es) k) ∧ NoWrap s (allocated es) := by
  obtain ⟨own, L, Ps, h⟩ := heapInv_run (fun _ _ _ _ _ _ _ hc => hc) hr
  exact ⟨tiles_of_inv h, fun k hk => firstFitAt_of_inv h hk, noWrap_of_inv h⟩

/-- Two pages are allocated and the first of them released: its range takes a second slot. -/
def twoPages : List Event :=
  [.alloc 1 KHEAP_START, .alloc 1 (KHEAP_START + PGSIZE), .free KHEAP_START 1]

theorem heap_tiles_twoPages : ∃ s, RunIf (system smallLayout) (AllowedFresh smallLayout) twoPages s
    ∧ (freeSlots s).length = 2 ∧ Tiles s (allocated twoPages)
    ∧ FirstFitAt smallLayout s (allocated twoPages) 1 ∧ NoWrap s (allocated twoPages) := by
  obtain ⟨s, hr, hlen⟩ := exists_runIf_of_map (f := fun s => (freeSlots s).length) (y := 2)
    (C := AllowedFresh smallLayout) twoPages init_small (by decide +kernel)
  obtain ⟨htiles, hfit, hwrap⟩ := heap_tiles hr
  exact ⟨s, hr, hlen, htiles, hfit 1 Nat.one_pos, hwrap⟩

/-- **The heap has no memory of its history**: the pages in use determine the free regions, and what
`liballoc_alloc` returns. -/
theorem regions_determined {es' : List Event} {s' : Kernel} (hr : RunIf (system lay) (AllowedFresh lay) es s)
    (hr' : RunIf (system lay) (AllowedFresh lay) es' s') (hA : allocated es = allocated es') :
    ranges s (freeSlots s) = ranges s' (freeSlots s') ∧ ∀ k v t v' t', 0 < k
      → liballocAlloc lay s k = .ok (v, t) → liballocAlloc lay s' k = .ok (v', t') → v = v' := by
  obtain ⟨own, L, Ps, h⟩ := heapInv_run (fun _ _ _ _ _ _ _ hc => hc) hr
  obtain ⟨own', L', Ps', h'⟩ := heapInv_run (fun _ _ _ _ _ _ _ hc => hc) hr'
  have heq : ranges s L = ranges s' L' := h.coalesced.ext h'.coalesced (by rw [h.tiles, h'.tiles, hA])
  rw [h.freeSlots_eq, h'.freeSlots_eq]
  refine ⟨heq, fun k v t v' t' hk hok hok' => ?_⟩
  rcases liballocAlloc_spec _ h.list h.bounds hk covers_heapOf hok with ⟨hfit, hv, _⟩
    | ⟨n, _, _, _, _, hfit, hv, _⟩ <;>
    rcases liballocAlloc_spec _ h'.list h'.bounds hk covers_heapOf hok' with ⟨hfit', hv', _⟩
      | ⟨n', _, _, _, _, hfit', hv', _⟩ <;>
    rw [heq, hfit'] at hfit <;> cases hfit <;> rw [hv, hv']

/-- A page that is taken and given back leaves the heap as it was at the start. -/
theorem regions_determined_small : ∃ s, RunIf (system smallLayout) (AllowedFresh smallLayout)
    [.alloc 1 KHEAP_START, .free KHEAP_START 1] s
      ∧ ranges s (freeSlots s) = ranges smallHeap (freeSlots smallHeap) := by
  obtain ⟨s, hr, _⟩ := exists_runIf_of_map (f := fun _ => ()) (y := ()) (C := AllowedFresh smallLayout)
    [.alloc 1 KHEAP_START, .free KHEAP_START 1] init_small (by decide +kernel)
  exact ⟨s, hr, (regions_determined hr (.init init_small) (by decide)).1⟩

end Xv6e.Memory.HeapTiling
