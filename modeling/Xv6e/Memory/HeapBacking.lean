import Xv6e.Memory.KernelMappings
import Xv6e.Memory.Frames

/-!
# What backs an allocation of the kernel heap

`liballoc_alloc` takes a page for every page of the block from `kalloc`, and `map_kernel_page` one more for
every page table that is missing.  The loop stops with a panic when the first is not to be had; that
`map_kernel_page` failed for want of the second is not looked at.

* `Room` — there is a free page for every page of the block and every page table it needs;
* `mapHeapPages_backed` — with room the loop maps every page, without room the pages it maps are not all;
* `alloc_backed_iff_room` — an allocation is backed, and its frames come back with its release, exactly when
  there was room for it;
* `alloc_unmapped` — with one free page, one page is allocated and not mapped.
-/

namespace Xv6e.Memory.HeapBacking

open Library.Fallible
open Library.PointerList Library.RegionList Library.Transition PageTable
open Ownership AddressSpace KernelHeap HeapSlots
open HeapSteps HeapInvariant SlotReuse Supply
open KernelMappings Frames

variable {lay : Layout} {own own' : ℕ → Owner} {kpgdir d : ℕ} {m m' : Mem} {s t : Kernel}
  {L Ps front rest : List ℕ} {x y : Machine} {cs : List Call} {A : Finset ℕ} {v n : ℕ}

/-! ### The pages of a block -/

/-- The entries of a page directory for the pages of a block. -/
def blockOf (d v n : ℕ) : ℕ → ℕ → Prop := fun e vb => e = d ∧ vb / PGSIZE ∈ pagesOf v n

variable {base j i va : ℕ}

theorem page_eq (hhi : base + n * PGSIZE ≤ KHEAP_END) (hj : j < n) :
    (base + j * PGSIZE) % ADDRESSES = base + j * PGSIZE := by
  simp only [KHEAP_END_eq, PGSIZE, ADDRESSES] at *
  omega

theorem page_div (base j : ℕ) : (base + j * PGSIZE) / PGSIZE = base / PGSIZE + j :=
  Nat.add_mul_div_right base j (by decide)

theorem covers_block (hlo : KHEAP_START ≤ base) (hhi : base + (i + n) * PGSIZE ≤ KHEAP_END) :
    Covers (blockOf d (base + i * PGSIZE) n) d base i n := by
  constructor
  · rintro j hij hjn e vb ⟨he, hpage⟩
    rw [page_eq hhi hjn, page_div] at hpage
    refine ⟨he, ?_⟩
    rw [hpage, pagesOf, page_div, Finset.mem_Ico]
    omega
  · intro e hall
    have hzero := (Finset.mem_Ico.mp (hall 0).2).1
    simp only [KHEAP_START_eq, PGSIZE] at *
    omega

theorem covers_whole (hlo : KHEAP_START ≤ v) (hhi : v + n * PGSIZE ≤ KHEAP_END) :
    Covers (blockOf d v n) d v 0 n := by
  have hcov := covers_block (d := d) (n := n) (i := 0) hlo (by rw [Nat.zero_add]; exact hhi)
  rw [Nat.zero_mul, Nat.add_zero] at hcov
  exact hcov

/-! ### Page tables that a block needs -/

/-- The page tables that pages `i` to `i + n` of a range are without. -/
def missing (m : Mem) (d base i n : ℕ) : Finset ℕ :=
  ((Finset.range n).image fun j => PDX (base + (i + j) * PGSIZE)).filter fun e => ¬ Present (m.word d e)

theorem mem_missing {e : ℕ} :
    e ∈ missing m d base i n ↔ (∃ j < n, PDX (base + (i + j) * PGSIZE) = e) ∧ ¬ Present (m.word d e) := by
  simp only [missing, Finset.mem_filter, Finset.mem_image, Finset.mem_range]

theorem missing_congr (h : m'.word d = m.word d) : missing m' d base i n = missing m d base i n := by
  rw [missing, missing, h]

/-- With the page table of its first page made, a range needs those of the rest. -/
theorem card_missing_succ
    (h : ∀ e, Present (m'.word d e) ↔ e = PDX (base + i * PGSIZE) ∨ Present (m.word d e)) :
    (missing m d base i (n + 1)).card
      = (if Present (m.word d (PDX (base + i * PGSIZE))) then 0 else 1)
      + (missing m' d base (i + 1) n).card := by
  have herase : missing m' d base (i + 1) n
      = (missing m d base i (n + 1)).erase (PDX (base + i * PGSIZE)) := by
    ext e
    rw [Finset.mem_erase, mem_missing, mem_missing, h, not_or]
    constructor
    · rintro ⟨⟨j, hj, hje⟩, hne, habs⟩
      exact ⟨hne, ⟨j + 1, by omega, by rw [← hje, Nat.add_right_comm i 1 j, Nat.add_assoc i j 1]⟩, habs⟩
    · rintro ⟨hne, ⟨j, hj, hje⟩, habs⟩
      refine ⟨?_, hne, habs⟩
      cases j with
      | zero => exact absurd hje.symm hne
      | succ j => exact ⟨j, by omega, by rw [← hje, Nat.add_right_comm i 1 j, Nat.add_assoc i j 1]⟩
  rw [herase]
  by_cases hp : Present (m.word d (PDX (base + i * PGSIZE)))
  · rw [if_pos hp, Nat.zero_add, Finset.erase_eq_of_notMem fun hmem => (mem_missing.mp hmem).2 hp]
  · have hmem : PDX (base + i * PGSIZE) ∈ missing m d base i (n + 1) :=
      mem_missing.mpr ⟨⟨0, Nat.succ_pos n, rfl⟩, hp⟩
    have hpos := Finset.card_pos.mpr ⟨_, hmem⟩
    rw [if_neg hp, Finset.card_erase_of_mem hmem]
    omega

/-- A page mapped takes a page table from the free list if there is none. -/
structure Tables (d va : ℕ) (m m' : Mem) : Prop where
  free : ∃ taken, m.freelist = taken ++ m'.freelist
    ∧ taken.length = if Present (m.word d (PDX va)) then 0 else 1
  word : ∀ e, Present (m'.word d e) ↔ e = PDX va ∨ Present (m.word d e)

/-- `map_kernel_page` fails only when it needs a page table and there is no page. -/
theorem mapKernelPage_tables (h : Owned lay own kpgdir m) (hk : own kpgdir = .dir) (va pa perm : ℕ) :
    (m.freelist = [] ∧ ¬ Present (m.word kpgdir (PDX va)) ∧ (mapKernelPage kpgdir m va pa perm).2 = m)
      ∨ Tables kpgdir va m (mapKernelPage kpgdir m va pa perm).2 := by
  rw [mapKernelPage, walkpgdir]
  by_cases hp : Present (m.word kpgdir (PDX va))
  · have ht := (h.table_of_present hk (PDX_lt va) hp).1
    have hne : kpgdir ≠ P2V (PTE_ADDR (m.word kpgdir (PDX va))) := fun hc => by
      rw [← hc, hk] at ht
      cases ht
    refine Or.inr ⟨⟨[], ?_, by rw [if_pos hp]; rfl⟩, fun e => ?_⟩
    · simp only [if_pos hp, setWord_freelist, List.nil_append]
    · simp only [if_pos hp]
      rw [setWord_word_of_ne _ _ _ hne]
      refine ⟨Or.inr, ?_⟩
      rintro (rfl | he)
      · exact hp
      · exact he
  · simp only [if_neg hp, Bool.true_eq_false, if_false]
    rcases kalloc_cases m with ⟨hf, hka⟩ | ⟨r, rest, hf, hka⟩
    · left
      rw [hka]
      exact ⟨hf, hp, rfl⟩
    · right
      obtain ⟨hfree, hvalid, _⟩ := h.kalloc hf
      have hne : kpgdir ≠ r := fun hc => by
        rw [hc, hfree] at hk
        cases hk
      rw [hka]
      simp only [if_neg hvalid.ne_zero]
      refine ⟨⟨[r], ?_, by rw [if_neg hp]; rfl⟩, fun e => ?_⟩
      · rw [hf, setWord_freelist, setWord_freelist, memset_freelist]
        rfl
      · rw [setWord_word_of_ne _ _ _ hne, setWord_word, memset_word_of_ne _ _ hne]
        by_cases he : e = PDX va
        · rw [if_pos he]
          exact ⟨fun _ => Or.inl he, fun _ => present_tableEntry r⟩
        · rw [if_neg he]
          exact ⟨Or.inr, fun hor => hor.resolve_left he⟩

/-! ### The mapping loop -/

/-- The entry of a page that the loop maps. -/
def heapEntry (r : ℕ) : ℕ := V2P r ||| (PTE_W ||| PTE_P) ||| PTE_P

theorem present_heapEntry (r : ℕ) : Present (heapEntry r) := present_or _

theorem heapEntry_writable (r : ℕ) : heapEntry r &&& PTE_W ≠ 0 := by
  rw [heapEntry, Nat.and_or_distrib_right, Nat.and_or_distrib_right]
  intro hc
  obtain ⟨hc, _⟩ := Nat.or_eq_zero_iff.mp hc
  exact absurd (Nat.or_eq_zero_iff.mp hc).2 (by decide)

/-- **The mapping loop.**  If there are free pages for the pages of the range and the page tables missing,
each page is mapped to one of them; if there are not and the loop is over, a page is not mapped. -/
theorem mapHeapPages_backed {found : ℕ} (n i : ℕ) (h : Owned lay own kpgdir m) (hk : own kpgdir = .dir)
    (hlo : KHEAP_START ≤ found) (hhi : found + (i + n) * PGSIZE ≤ KHEAP_END)
    (hok : mapHeapPages kpgdir found n i m = .ok m') :
    (n + (missing m kpgdir found i n).card ≤ m.freelist.length
        ∧ ∀ j, i ≤ j → j < i + n → ∃ r ∈ m.freelist, pteAt m' kpgdir (found + j * PGSIZE) = heapEntry r)
      ∨ m.freelist.length < n + (missing m kpgdir found i n).card
        ∧ ∃ j, i ≤ j ∧ j < i + n ∧ ¬ Present (pteAt m' kpgdir (found + j * PGSIZE)) := by
  induction n generalizing i m own with
  | zero =>
    refine Or.inl ⟨?_, fun j hij hji => absurd hji (by omega)⟩
    rw [missing, Finset.range_zero, Finset.image_empty, Finset.filter_empty, Finset.card_empty]
    exact Nat.zero_le _
  | succ n ih =>
    rw [mapHeapPages] at hok
    rcases kalloc_cases m with ⟨_, hka⟩ | ⟨r, rest, hf, hka⟩
    · rw [hka] at hok
      cases hok
    have hva : (found + i * PGSIZE) % ADDRESSES = found + i * PGSIZE := page_eq hhi (by omega)
    have hheap : InHeap ((found + i * PGSIZE) % ADDRESSES) := page_inHeap hlo hhi (by omega)
    have hlt : found + i * PGSIZE < ADDRESSES := by
      rw [← hva]
      exact Nat.mod_lt _ (by decide)
    obtain ⟨hr, _, own2, h1, hk1, hk2, h2, _⟩ := mapHeapPage h hk hf hheap
    rw [hka] at hok
    simp only [if_neg hr] at hok
    have hmiss : missing m kpgdir found i (n + 1)
        = missing { m with freelist := rest } kpgdir found i (n + 1) :=
      missing_congr rfl
    rw [hva] at hok h2 hheap
    have hlen : m.freelist.length = rest.length + 1 := by rw [hf, List.length_cons]
    rcases mapKernelPage_tables h1 hk1 (found + i * PGSIZE) (V2P r) (PTE_W ||| PTE_P) with
      ⟨hnil, habs, hm2⟩ | htab
    · -- no page for the page table: the next page is not to be had either, so this was the last one
      obtain rfl : rest = [] := hnil
      rw [hm2] at hok
      cases n with
      | succ n => cases hok
      | zero =>
        cases hok
        have hcard : 0 < (missing { m with freelist := [] } kpgdir found i (0 + 1)).card :=
          Finset.card_pos.mpr ⟨_, mem_missing.mpr ⟨⟨0, Nat.one_pos, rfl⟩, habs⟩⟩
        refine Or.inr ⟨?_, i, le_refl i, by omega, ?_⟩
        · rw [hmiss, hlen, List.length_nil]
          omega
        · rw [pteAt, if_neg habs]
          exact not_present_zero
    · obtain ⟨⟨taken, hfree, htaken⟩, hword⟩ := htab
      have hcard := card_missing_succ (n := n) hword
      have htable : rest = [] → Present (m.word kpgdir (PDX (found + i * PGSIZE))) := by
        rintro rfl
        by_contra habs
        rw [if_neg habs, List.length_eq_one_iff] at htaken
        obtain ⟨_, rfl⟩ := htaken
        cases hfree
      have hpte := mapKernelPage_pte h1 hk1 htable hlt hlt (V2P r) (PTE_W ||| PTE_P)
      rw [if_pos rfl] at hpte
      generalize
        (mapKernelPage kpgdir { m with freelist := rest } (found + i * PGSIZE) (V2P r) (PTE_W ||| PTE_P)).2
        = m2 at *
      have hlen2 : rest.length = taken.length + m2.freelist.length := by
        rw [← List.length_append, ← hfree]
      have hhi2 : found + (i + 1 + n) * PGSIZE ≤ KHEAP_END := by
        rw [Nat.add_right_comm i 1 n]
        exact hhi
      rcases ih (i + 1) h2 hk2 hhi2 hok with ⟨hroom, hpages⟩ | ⟨hshort, j, hij, hji, habs⟩
      · refine Or.inl ⟨by rw [hmiss, hlen, hlen2, hcard]; omega, fun j hij hji => ?_⟩
        rcases Nat.eq_or_lt_of_le hij with rfl | hlt'
        · -- the rest of the loop leaves the page alone
          obtain ⟨_, _, hf3⟩ := mapHeapPages_spec n (i + 1) h2 hk2
            (fun j _ hj => page_inHeap hlo hhi2 hj) (covers_block hlo hhi2) hok
          refine ⟨r, by rw [hf]; exact List.mem_cons_self, ?_⟩
          rw [hf3.pte kpgdir _ hk2 hlt, hpte]
          · rfl
          · rintro ⟨_, hmem⟩
            rw [pagesOf, page_div, page_div, Finset.mem_Ico] at hmem
            omega
        · obtain ⟨q, hq, hentry⟩ := hpages j (by omega) (by omega)
          refine ⟨q, ?_, hentry⟩
          rw [hf]
          exact List.mem_cons_of_mem r (show q ∈ rest by
            rw [show rest = taken ++ m2.freelist from hfree]
            exact List.mem_append_right taken hq)
      · exact Or.inr ⟨by rw [hmiss, hlen, hlen2, hcard]; omega, j, by omega, by omega, habs⟩

/-! ### The unmapping loop -/

theorem kfreeAndUnmapPage_frame (h : Owned lay own kpgdir m) (hk : own kpgdir = .dir) (hva : InHeap va)
    (hp : Present (pteAt m kpgdir va)) :
    ∃ m1, kfreeAndUnmapPage lay kpgdir m va = .ok m1 ∧ m1.freelist = frameAt m kpgdir va :: m.freelist
      ∧ ¬ Present (pteAt m1 kpgdir va) := by
  rcases walkpgdir_noalloc h hk va with ⟨_, hzero⟩ | ⟨t, hwalk, ht, hw, hpte⟩
  · rw [hzero] at hp
    exact absurd hp not_present_zero
  have hown : own (frameAt m kpgdir va) = .heap (va / PGSIZE) := h.heap va hk hva hp
  have hval := h.valid _ (ne_of_eq_of_ne hown (fun h => by cases h))
  have htval := h.valid t (by simp [ht])
  have hkt : kpgdir ≠ t := fun hc => by
    rw [← hc, hk] at ht
    cases ht
  have hkf : kpgdir ≠ frameAt m kpgdir va := fun hc => by
    rw [← hc, hk] at hown
    cases hown
  have hkfree := kfree_of_valid (m := m) hval
  generalize hm1 :
    ({ m.memset (frameAt m kpgdir va) 1 with freelist := frameAt m kpgdir va :: m.freelist } : Mem) = m1
    at hkfree
  have hcode : kfreeAndUnmapPage lay kpgdir m va = .ok (m1.setWord t (PTX va) 0) := by
    rw [kfreeAndUnmapPage, hwalk]
    simp only [hpte, if_neg (not_not.mpr hp)]
    rw [frameAt] at hkfree
    rw [hkfree]
    rfl
  refine ⟨_, hcode, by rw [setWord_freelist, ← hm1], ?_⟩
  have hdir : (m1.setWord t (PTX va) 0).word kpgdir (PDX va) = tableEntry t := by
    rw [setWord_word_of_ne _ _ _ hkt, ← hm1]
    show (m.memset (frameAt m kpgdir va) 1).word kpgdir (PDX va) = _
    rw [memset_word_of_ne _ _ hkf, hw]
  rw [pteAt, hdir, if_pos (present_tableEntry t), frame_tableEntry htval, setWord_word, if_pos rfl]
  exact not_present_zero

/-- **The unmapping loop** over pages that are mapped gives their frames back, the last one first. -/
theorem unmapHeapPages_frames (n i : ℕ) (h : Owned lay own kpgdir m) (hk : own kpgdir = .dir)
    (hlo : KHEAP_START ≤ v) (hhi : v + (i + n) * PGSIZE ≤ KHEAP_END)
    (hp : ∀ j, i ≤ j → j < i + n → Present (pteAt m kpgdir (v + j * PGSIZE))) :
    ∃ m', unmapHeapPages lay kpgdir v n i m = .ok m'
      ∧ m'.freelist = ((List.range' i n).map fun j => frameAt m kpgdir (v + j * PGSIZE)).reverse ++ m.freelist
      ∧ ∀ j, i ≤ j → j < i + n → ¬ Present (pteAt m' kpgdir (v + j * PGSIZE)) := by
  induction n generalizing i m own with
  | zero => exact ⟨m, rfl, rfl, fun j hij hji => absurd hji (by omega)⟩
  | succ n ih =>
    have hva : (v + i * PGSIZE) % ADDRESSES = v + i * PGSIZE := page_eq hhi (by omega)
    have hheap : InHeap (v + i * PGSIZE) := by
      rw [← hva]
      exact page_inHeap hlo hhi (by omega)
    have hlt : ∀ j, j < i + (n + 1) → v + j * PGSIZE < ADDRESSES := by
      intro j hj
      rw [← page_eq hhi hj]
      exact Nat.mod_lt _ (by decide)
    obtain ⟨m1, hcode, hfree1, hgone⟩ := kfreeAndUnmapPage_frame h hk hheap (hp i (le_refl i) (by omega))
    obtain ⟨own1, h1, hf1⟩ := kfreeAndUnmapPage_spec h hk hheap hcode
    have hk1 := hf1.dir kpgdir hk (not_all_entryOf _ _ _)
    have hsame : ∀ j, i < j → j < i + (n + 1) →
        pteAt m1 kpgdir (v + j * PGSIZE) = pteAt m kpgdir (v + j * PGSIZE) := by
      intro j hij hj
      refine hf1.pte kpgdir _ hk (hlt j hj) fun hU => ?_
      have := hU.2
      rw [page_div, page_div] at this
      omega
    have hhi' : v + (i + 1 + n) * PGSIZE ≤ KHEAP_END := by
      rw [Nat.add_right_comm i 1 n]
      exact hhi
    obtain ⟨m', hrest, hfree', hgone'⟩ := ih (i + 1) h1 hk1 hhi' fun j hij hji => by
      rw [hsame j (by omega) (by omega)]
      exact hp j (by omega) (by omega)
    have hframes : ∀ j ∈ List.range' (i + 1) n,
        frameAt m1 kpgdir (v + j * PGSIZE) = frameAt m kpgdir (v + j * PGSIZE) := by
      intro j hj
      obtain ⟨hij, hji⟩ := List.mem_range'_1.mp hj
      rw [frameAt, frameAt, hsame j (by omega) (by omega)]
    refine ⟨m', ?_, ?_, fun j hij hji => ?_⟩
    · rw [unmapHeapPages, hva, hcode]
      exact hrest
    · rw [hfree', hfree1, List.map_congr_left hframes, List.range'_succ, List.map_cons, List.reverse_cons,
        List.append_assoc, List.singleton_append]
    · rcases Nat.eq_or_lt_of_le hij with rfl | hlt'
      · -- the rest of the loop leaves the page alone
        obtain ⟨_, _, hf2⟩ := unmapHeapPages_spec n (i + 1) h1 hk1 (fun j _ hj => page_inHeap hlo hhi' hj)
          (covers_block hlo hhi') hrest
        rw [hf2.pte kpgdir _ hk1 (hlt i (by omega))]
        · exact hgone
        · rintro ⟨_, hmem⟩
          rw [pagesOf, page_div, page_div, Finset.mem_Ico] at hmem
          omega
      · exact hgone' j (by omega) (by omega)

/-! ### The release returns -/

/-- A slot is to be had as long as there is a free page. -/
theorem getNewVmemRegion_returns {U : List ℕ} (ho : Owned lay own s.kpgdir s.mem) (hs : Slots own s U Ps)
    (hfree : s.mem.freelist ≠ []) : ∃ p t, getNewVmemRegion s = .ok (p, t) ∧ p ≠ 0 := by
  have hslot : ∀ page i, slotAddr page i ≠ 0 := fun page i => by
    rw [slotAddr]
    omega
  rw [getNewVmemRegion]
  rcases seek_cases (fun page => decide (s.mem.numRegions page < REGIONS_PER_PAGE)) 0 hs.pages
    (hs.pages_length ho) with ⟨_, hseek⟩ | ⟨front, page, rest, rfl, _, _, hseek⟩
  · rw [hseek]
    simp only [ne_eq, not_true_eq_false, if_false]
    rcases kalloc_cases s.mem with ⟨hf, _⟩ | ⟨r, rest, hf, hka⟩
    · exact absurd hf hfree
    · have hr : r ≠ 0 := (ho.valid_of_mem (by rw [hf]; exact List.mem_cons_self)).ne_zero
      rw [hka]
      simp only [if_neg hr]
      exact ⟨_, _, rfl, hslot _ _⟩
  · have hpage : page ≠ 0 := hs.pages.ne_zero page (by simp)
    rw [hseek]
    simp only [ne_eq, hpage, not_false_eq_true, if_true]
    exact ⟨_, _, rfl, hslot _ _⟩

theorem coalesceForward_returns {node : ℕ} (h : FreeList lay own s (front ++ node :: rest) Ps) :
    ∃ t, coalesceForward lay s node ((rest.head?).getD 0) = .ok t := by
  rw [coalesceForward]
  split
  · cases rest with
    | nil =>
      rename_i hjoin
      exact absurd rfl hjoin.1
    | cons c rest =>
      -- the region absorbed is a slot in use, and growing the node before it keeps the slots
      have hperm : (front ++ node :: c :: rest).Perm (c :: (front ++ node :: rest)) := by
        simpa using @List.perm_middle _ c (front ++ [node]) rest
      have hslots := setRegion_slots (p := node) (r := { s.region node with
        numPages := ((s.region node).numPages + (s.region c).numPages) % ADDRESSES
        next := s.next c }) (h.slots.perm hperm) rfl
      generalize hs1 : s.setRegion node { s.region node with
        numPages := ((s.region node).numPages + (s.region c).numPages) % ADDRESSES
        next := s.next c } = s1 at hslots
      have ho1 : Owned lay own s1.kpgdir s1.mem := by
        rw [← hs1]
        exact h.owned.of_words rfl fun _ _ => rfl
      obtain ⟨t, ht, _⟩ := recycleVmemRegion_returns ho1 hslots
      rw [← hs1] at ht
      exact ⟨t, ht⟩
  · exact ⟨s, rfl⟩

/-- **`liballoc_free` returns** once its pages are unmapped and there is a free page. -/
theorem liballocFree_returns (h : FreeList lay own s L Ps) (hv : v % PGSIZE = 0) (hlo : KHEAP_START ≤ v)
    (hhi : v + n * PGSIZE ≤ KHEAP_END) (hn : 0 < n) (hfresh : ∀ p ∈ takenSlot lay s v n, p ∉ L)
    (hunmap : unmapHeapPages lay s.kpgdir v n 0 s.mem = .ok m) (hfree : m.freelist ≠ []) :
    ∃ t, liballocFree lay s v n = .ok (true, t) := by
  have hv0 : ¬ (v = 0 ∨ n = 0) := by
    have := KHEAP_START_eq
    omega
  have hin : ∀ j, 0 ≤ j → j < 0 + n → InHeap ((v + j * PGSIZE) % ADDRESSES) :=
    fun j _ hj => page_inHeap hlo hhi (by omega)
  obtain ⟨own1, ho1, hf1⟩ := unmapHeapPages_spec n 0 h.owned h.kdir hin (covers_heapOf hin) hunmap
  obtain ⟨h1, _⟩ := h.frame ho1 hf1 (not_all_heapOf _ _)
  rw [takenSlot, if_neg hv0] at hfresh
  simp only [hunmap] at hfresh
  obtain ⟨front, rest, rfl, _, _, hseek⟩ := free_seek h1 v
  have hfwd : ∀ node s2 own2 Ps2 front2, FreeList lay own2 s2 (front2 ++ node :: rest) Ps2 →
      insertFreed { s with mem := m } (front.getLast?.getD 0) ((rest.head?).getD 0) v n = .ok (node, s2) →
      ∃ t, liballocFree lay s v n = .ok (true, t) := by
    intro node s2 own2 Ps2 front2 h2 hins
    obtain ⟨t, ht⟩ := coalesceForward_returns h2
    refine ⟨t, ?_⟩
    rw [liballocFree, if_neg hv0]
    simp only [hunmap, bind, Except.bind, hseek, hins, ht]
  by_cases hback : front.getLast?.getD 0 ≠ 0
      ∧ regionEnd (Kernel.region { s with mem := m } (front.getLast?.getD 0)) = v
  · have hne : front ≠ [] := fun hnil => hback.1 (by rw [hnil]; rfl)
    obtain ⟨init, q, rfl⟩ := (List.eq_nil_or_concat' front).resolve_left hne
    rw [List.append_assoc, List.singleton_append] at h1
    refine hfwd _ _ _ _ init (h1.setRegion (r := { Kernel.region { s with mem := m } q with
      numPages := ((Kernel.region { s with mem := m } q).numPages + n) % ADDRESSES }) rfl rfl
        (h1.aligned q (by simp))).1 ?_
    rw [insertFreed, if_pos hback, List.getLast?_concat, Option.getD_some]
  · obtain ⟨p, s1, hnew, hp⟩ := getNewVmemRegion_returns h1.owned h1.slots hfree
    have hpfresh : p ∉ front ++ rest := by
      refine hfresh p ?_
      rw [hseek]
      simp only [if_neg hback, hnew]
      rfl
    obtain ⟨own2, Ps2, h2, _⟩ := insertNew (k := n) h1 hv hnew hp hpfresh rfl
    refine hfwd p _ own2 Ps2 front h2 ?_
    rw [insertFreed, if_neg hback, hnew]
    exact if_neg hp

/-! ### Room for an allocation -/

/-- The first region of the free list with enough pages; `0` if there is none. -/
def fit (s : Kernel) (n : ℕ) : ℕ := ((freeSlots s).find? fun r => n ≤ (s.region r).numPages).getD 0

/-- The pages that `kalloc` can give during the allocation: when the region is used up and its slot is the
only one counted in its metadata page, that page is freed first. -/
def pool (s : Kernel) (n : ℕ) : List ℕ :=
  if (s.region (fit s n)).numPages = n ∧ s.mem.numRegions (s.region (fit s n)).metadataPage = 1
  then (s.region (fit s n)).metadataPage :: s.mem.freelist else s.mem.freelist

/-- There is a page for every page of the block and for every page table it needs. -/
def Room (s : Kernel) (n : ℕ) : Prop :=
  n + (missing s.mem s.kpgdir (s.region (fit s n)).baseVaddr 0 n).card ≤ (pool s n).length

instance (s : Kernel) (n : ℕ) : Decidable (Room s n) := inferInstanceAs (Decidable (_ ≤ _))

def blockFrames (s : Kernel) (v n : ℕ) : List ℕ := (List.range n).map fun j => frameAt s.mem s.kpgdir
    (v + j * PGSIZE)

/-- **A block is backed**: its pages are present and writeable and map frames taken from `kalloc` by the
allocation, one each, that no other page of the heap or of a process maps; other translations are as
before. -/
structure Backed (x : Machine) (n v : ℕ) (t : Kernel) : Prop where
  mapped : ∀ j < n, ∃ pa u, translation t.mem t.kpgdir (v + j * PGSIZE) = some (pa, true, u)
  taken : ∀ f ∈ blockFrames t v n, f ∈ pool x.kernel n ∧ f ∉ t.mem.freelist
  distinct : (blockFrames t v n).Nodup
  only : ∀ d va, (d = t.kpgdir ∧ InHeap va ∧ va / PGSIZE ∉ pagesOf v n) ∨ (d ∈ x.procs ∧ va < KERNBASE) →
    Present (pteAt t.mem d va) → frameAt t.mem d va ∉ blockFrames t v n
  others : ∀ va < ADDRESSES, va / PGSIZE ∉ pagesOf v n →
    translation t.mem t.kpgdir va = translation x.kernel.mem x.kernel.kpgdir va

/-- The machine from a given state on. -/
def resumed (lay : Layout) (z : Machine) : System Machine Call where
  init y := y = z
  step := Machine.step lay

/-- A call other than a release of pages of the block. -/
def Spares (v n : ℕ) : Call → Prop
  | .heap (.free vaddr numPages) => Disjoint (pagesOf vaddr numPages) (pagesOf v n)
  | _ => True

/-- **The release of a block gives its frames back**: whatever calls come between, `liballoc_free` returns,
its loop hands exactly the frames of the block to `kfree`, and the pages are not mapped in the end. -/
def GivesBack (lay : Layout) (cs : List Call) (z : Machine) (n v : ℕ) : Prop :=
  ∀ ds y, RunIf (resumed lay z) (fun ds y c => CallNoHole (cs ++ ds) y c ∧ Spares v n c) ds y →
    CallNoHole (cs ++ ds) y (.heap (.free v n)) →
    ∃ m t, unmapHeapPages lay y.kernel.kpgdir v n 0 y.kernel.mem = .ok m
      ∧ m.freelist = (blockFrames z.kernel v n).reverse ++ y.kernel.mem.freelist
      ∧ liballocFree lay y.kernel v n = .ok (true, t)
      ∧ ∀ va < ADDRESSES, va / PGSIZE ∈ pagesOf v n → translation t.mem t.kpgdir va = none

/-! ### What an allocation does -/

/-- What an allocation that returns an address has done: the region found is carved, which frees at most a
metadata page, and its first pages are mapped. -/
structure Allocates (lay : Layout) (A : Finset ℕ) (s : Kernel) (n v : ℕ) (t : Kernel) : Prop where
  base : v = (s.region (fit s n)).baseVaddr
  aligned : v % PGSIZE = 0
  lower : KHEAP_START ≤ v
  upper : v + n * PGSIZE ≤ KHEAP_END
  unused : Disjoint A (pagesOf v n)
  kpgdir : t.kpgdir = s.kpgdir
  others : ∀ va < ADDRESSES, va / PGSIZE ∉ pagesOf v n → pteAt t.mem s.kpgdir va = pteAt s.mem s.kpgdir va
  maps : ∃ own m, Owned lay own s.kpgdir m ∧ own s.kpgdir = .dir ∧ m.freelist = pool s n
    ∧ m.word s.kpgdir = s.mem.word s.kpgdir ∧ mapHeapPages s.kpgdir v n 0 m = .ok t.mem

theorem fit_eq {c : ℕ} (h : HeapInv lay own A s (front ++ c :: rest) Ps)
    (hseek : seek s.next (fun r => decide (n ≤ (s.region r).numPages)) ADDRESSES 0 s.vmemFreeListHead
      = some (front.getLast?.getD 0, c)) : fit s n = c := by
  rw [fit, h.freeSlots_eq]
  exact seek_first h.list.chain h.list.length hseek

theorem liballocAlloc_allocates (h : HeapInv lay own A s L Ps) (hn : 0 < n) (hv : v ≠ 0)
    (hok : liballocAlloc lay s n = .ok (v, t)) : Allocates lay A s n v t := by
  have hcode := hok
  rw [liballocAlloc, if_neg (by omega)] at hok
  rcases alloc_seek h.list n with ⟨_, hseek⟩ | ⟨front, c, rest, rfl, hck, hc0, hfit, hseek⟩
  · rw [hseek] at hok
    simp only [if_true] at hok
    cases hok
    exact absurd rfl hv
  rw [hseek] at hok
  simp only [if_neg hc0] at hok
  obtain ⟨t1, hcarve, hok⟩ := bind_ok.mp hok
  obtain ⟨m2, hmap, hret⟩ := bind_ok.mp hok
  cases hret
  have hmem : c ∈ front ++ c :: rest := by simp
  obtain ⟨hlo, hhi⟩ := h.bounds c hmem
  have hlt : (s.region c).baseVaddr + (s.region c).numPages * PGSIZE < ADDRESSES :=
    lt_of_le_of_lt hhi (by decide)
  obtain ⟨own1, L1, Ps1, h1, hkp1, _, _⟩ := carve_spec h.list hck hlt hcarve
  obtain ⟨t1', hcarve', hfree, hwords⟩ := carve_returns (k := n) h.list
  obtain rfl : t1 = t1' := Except.ok.inj (hcarve.symm.trans hcarve')
  have hfitc := fit_eq h hseek
  have hupper : (s.region c).baseVaddr + n * PGSIZE ≤ KHEAP_END :=
    le_trans (Nat.add_le_add_left (Nat.mul_le_mul_right _ hck) _) hhi
  have hmeta : own (s.region c).metadataPage = .metadata := by
    obtain ⟨hpage, hback⟩ := h.list.slots.page c hmem
    rw [hback]
    exact h.list.slots.owner _ hpage
  have hkmeta : s.kpgdir ≠ (s.region c).metadataPage := fun hc => by
    rw [← hc, h.list.kdir] at hmeta
    cases hmeta
  obtain ⟨b, rs, own', L', Ps', hfit', hbase, _, _, _, hpte⟩ :=
    (liballocAlloc_spec _ h.list h.bounds hn (fun _ => covers_whole hlo hupper) hcode).resolve_left
      fun hc => hv hc.2.1
  refine ⟨by rw [hfitc], h.list.aligned c hmem, hlo, hupper, ?_, hkp1, fun va hva hout => ?_,
    own1, t1.mem, ?_⟩
  · rw [Finset.disjoint_left]
    intro p hp hblock
    rw [hbase, pagesOf, Nat.mul_div_cancel _ (by decide)] at hblock
    have hcovered := firstFit_subset h.coalesced hfit' (Finset.mem_Ico.mp hblock)
    rw [h.tiles] at hcovered
    exact hcovered.2 hp
  · exact hpte.pte s.kpgdir va h.list.kdir hva fun hU => hout hU.2
  · rw [hkp1] at hmap
    refine ⟨hkp1 ▸ h1.owned, hkp1 ▸ h1.kdir, ?_, hwords _ hkmeta, hmap⟩
    rw [hfree, pool, hfitc]

theorem Allocates.room (h : Allocates lay A s n v t) :
    (Room s n ∧ ∀ j < n, ∃ r ∈ pool s n, pteAt t.mem s.kpgdir (v + j * PGSIZE) = heapEntry r)
      ∨ ¬ Room s n ∧ ∃ j < n, ¬ Present (pteAt t.mem s.kpgdir (v + j * PGSIZE)) := by
  obtain ⟨own, m, ho, hk, hfree, hword, hmap⟩ := h.maps
  have hroom : Room s n ↔ n + (missing m s.kpgdir v 0 n).card ≤ m.freelist.length := by
    rw [Room, missing_congr hword, hfree, h.base]
  rw [hroom]
  rcases mapHeapPages_backed n 0 ho hk h.lower (by rw [Nat.zero_add]; exact h.upper) hmap with
    ⟨hle, hpages⟩ | ⟨hlt, j, _, hj, habs⟩
  · refine Or.inl ⟨hle, fun j hj => ?_⟩
    rw [← hfree]
    exact hpages j (Nat.zero_le j) (by omega)
  · exact Or.inr ⟨not_le.mpr hlt, j, by omega, habs⟩

/-! ### Backed blocks -/

theorem mem_blockFrames {f : ℕ} :
    f ∈ blockFrames t v n ↔ ∃ j < n, frameAt t.mem t.kpgdir (v + j * PGSIZE) = f := by
  simp only [blockFrames, List.mem_map, List.mem_range]

theorem Allocates.inHeap (h : Allocates lay A s n v t) (hj : j < n) : InHeap (v + j * PGSIZE) := by
  rw [← page_eq h.upper hj]
  exact page_inHeap h.lower h.upper hj

theorem inHeap_lt (h : InHeap va) : va < ADDRESSES := lt_trans h.2 (by decide)

/-- **With room an allocation is backed.** -/
theorem MachineInv.backed {B : Finset ℕ} {L' Ps' : List ℕ} (h : MachineInv lay own A x L Ps)
    (hz : MachineInv lay own' B { x with kernel := t } L' Ps') (ha : Allocates lay A x.kernel n v t)
    (hpages : ∀ j < n, ∃ r ∈ pool x.kernel n, pteAt t.mem x.kernel.kpgdir (v + j * PGSIZE) = heapEntry r) :
    Backed x n v t := by
  have ho' : Owned lay own' t.kpgdir t.mem := hz.heap.list.owned
  have hk' : own' t.kpgdir = .dir := hz.heap.list.kdir
  rw [← ha.kpgdir] at hpages
  have hpresent : ∀ j < n, Present (pteAt t.mem t.kpgdir (v + j * PGSIZE)) := fun j hj => by
    obtain ⟨r, _, hr⟩ := hpages j hj
    rw [hr]
    exact present_heapEntry r
  have howner : ∀ j < n, own' (frameAt t.mem t.kpgdir (v + j * PGSIZE)) = .heap (v / PGSIZE + j) :=
      fun j hj => by
    rw [← page_div]
    exact ho'.heap _ hk' (ha.inHeap hj) (hpresent j hj)
  constructor
  · intro j hj
    obtain ⟨r, _, hr⟩ := hpages j hj
    rw [translate_eq ho' hk', if_pos (hpresent j hj), hr]
    exact ⟨_, _, by rw [decide_eq_true (heapEntry_writable r)]⟩
  · intro f hf
    obtain ⟨j, hj, rfl⟩ := mem_blockFrames.mp hf
    refine ⟨?_, fun hmem => ?_⟩
    · -- frames on the free list of before, or freed before the loop, are valid pages
      obtain ⟨own1, m, ho1, _, hfree, _, _⟩ := ha.maps
      obtain ⟨r, hr, hentry⟩ := hpages j hj
      have hval : ValidPage lay r := ho1.valid_of_mem (by rw [hfree]; exact hr)
      have hframe : frameAt t.mem t.kpgdir (v + j * PGSIZE) = r := by
        rw [frameAt, hentry, heapEntry, Nat.or_assoc]
        exact frame_of_or hval (by decide)
      rw [hframe]
      exact hr
    · have hfree := ho'.free _ hmem
      rw [howner j hj] at hfree
      cases hfree
  · refine List.Nodup.map_on (fun i hi j hj heq => ?_) List.nodup_range
    have hi' := howner i (List.mem_range.mp hi)
    rw [heq, howner j (List.mem_range.mp hj)] at hi'
    have hpage := Owner.heap.inj hi'
    omega
  · rintro d va hother hp hmem
    obtain ⟨j, hj, hframe⟩ := mem_blockFrames.mp hmem
    have hj' := howner j hj
    rcases hother with ⟨rfl, hva, hout⟩ | ⟨hd, hva⟩
    · have hown : own' (frameAt t.mem t.kpgdir va) = .heap (va / PGSIZE) := ho'.heap va hk' hva hp
      rw [← hframe, hj'] at hown
      have hpage := Owner.heap.inj hown
      refine hout ?_
      rw [← hpage, pagesOf, Finset.mem_Ico]
      omega
    · have hown : own' (frameAt t.mem d va) = .user d (va / PGSIZE) := ho'.user d va (hz.dir d hd).1 hva hp
      rw [← hframe, hj'] at hown
      cases hown
  · intro va hva hout
    rw [translate_eq ho' hk', translate_eq h.heap.list.owned h.heap.list.kdir, ha.kpgdir,
      ha.others va hva hout]

/-! ### The block while it is in use -/

theorem alloc_entry {k w : ℕ} (h : HeapInv lay own A s L Ps)
    (hstep : KernelHeap.step lay s (.alloc k w) = some t) (hva : va < ADDRESSES) (hin : va / PGSIZE ∈ A) :
    t.kpgdir = s.kpgdir ∧ pteAt t.mem s.kpgdir va = pteAt s.mem s.kpgdir va := by
  rw [KernelHeap.step] at hstep
  cases halloc : liballocAlloc lay s k with
  | error e =>
    rw [halloc] at hstep
    cases hstep
  | ok r =>
    obtain ⟨w', t'⟩ := r
    rw [halloc] at hstep
    obtain ⟨rfl, rfl⟩ := guard_eq.mp hstep
    rcases Nat.eq_zero_or_pos k with rfl | hk
    · rw [liballocAlloc, if_pos rfl] at halloc
      cases halloc
      exact ⟨rfl, rfl⟩
    · by_cases hw : w' = 0
      · rcases liballocAlloc_spec _ h.list h.bounds hk covers_heapOf halloc with
          ⟨_, _, rfl⟩ | ⟨b, _, _, _, _, hfit, hb, _⟩
        · exact ⟨rfl, rfl⟩
        · -- no region of the heap starts at address 0
          have hcovered := firstFit_subset h.coalesced hfit ⟨le_refl b, by omega⟩
          rw [h.tiles] at hcovered
          have hlow := hcovered.1.1
          simp only [KHEAP_START_eq, PGSIZE] at *
          omega
      · have ha := liballocAlloc_allocates h hk hw halloc
        exact ⟨ha.kpgdir, ha.others va hva (Finset.disjoint_left.mp ha.unused hin)⟩

theorem free_entry {k w : ℕ} {b : Bool} (h : HeapInv lay own A s L Ps) (hw : w % PGSIZE = 0)
    (hsub : pagesOf w k ⊆ A) (hk : 0 < k) (hfresh : FreshSlot lay s (.free w k))
    (hok : liballocFree lay s w k = .ok (b, t)) : t.kpgdir = s.kpgdir
      ∧ (∀ va < ADDRESSES, va / PGSIZE ∉ pagesOf w k → pteAt t.mem s.kpgdir va = pteAt s.mem s.kpgdir va)
      ∧ ∃ m, unmapHeapPages lay s.kpgdir w k 0 s.mem = .ok m
        ∧ ∀ va < ADDRESSES, pteAt t.mem s.kpgdir va = pteAt m s.kpgdir va := by
  obtain ⟨hlo, hhi⟩ := h.range_bounds hk hw hsub
  obtain ⟨m, hunmap, own', own'', L', Ps', _, _, hkp, hpte, hdir, hrest⟩ :=
    liballocFree_spec _ h.list h.inBounds hw hlo hhi
    hk (covers_whole hlo hhi) (fun p hp => h.freeSlots_eq ▸ hfresh p hp) hok
  exact ⟨hkp, fun va hva hout => hpte.pte _ va h.list.kdir hva fun hU => hout hU.2, m, hunmap,
    fun va hva => hrest.pte _ va hdir hva id⟩

/-- A call that is no release of its pages keeps the entries of a block in use. -/
theorem MachineInv.entry {c : Call} (h : MachineInv lay own (allocated (heapEvents cs)) x L Ps)
    (hc : CallNoHole cs x c) (hsp : Spares v n c) (hstep : x.step lay c = some y) (hva : InHeap va)
    (hblock : va / PGSIZE ∈ pagesOf v n) (hin : va / PGSIZE ∈ allocated (heapEvents cs)) :
    y.kernel.kpgdir = x.kernel.kpgdir
      ∧ pteAt y.kernel.mem x.kernel.kpgdir va = pteAt x.kernel.mem x.kernel.kpgdir va := by
  by_cases hheap : ∃ e, c = .heap e
  · obtain ⟨e, rfl⟩ := hheap
    obtain ⟨s, hs, rfl⟩ := Option.map_eq_some_iff.mp hstep
    cases e with
    | alloc k w => exact alloc_entry h.heap hs (inHeap_lt hva) hin
    | free w k =>
      have hfresh := @fresh_of_noHole lay _ _ _ _ _ _ h.heap hc.1 hc.2
      rw [KernelHeap.step] at hs
      cases hfree : liballocFree lay x.kernel w k with
      | error e =>
        rw [hfree] at hs
        cases hs
      | ok r =>
        obtain ⟨b, s'⟩ := r
        rw [hfree] at hs
        obtain rfl : s' = s := Option.some.inj hs
        rcases Nat.eq_zero_or_pos k with rfl | hk
        · rw [liballocFree, if_pos (Or.inr rfl)] at hfree
          cases hfree
          exact ⟨rfl, rfl⟩
        · obtain ⟨hkp, hout, _⟩ := free_entry h.heap hc.1.1 hc.1.2.2 hk hfresh hfree
          exact ⟨hkp, hout va (inHeap_lt hva) (Finset.disjoint_right.mp hsp hblock)⟩
  · obtain ⟨_, _, _, _, hkept⟩ := h.step hc hstep
    obtain ⟨hkp, hent⟩ := hkept fun e he => hheap ⟨e, he⟩
    exact ⟨hkp, hent va (le_trans (by decide) hva.1) (inHeap_lt hva)⟩

theorem subset_allocated {c : Call} (hin : pagesOf v n ⊆ allocated (heapEvents cs)) (hsp : Spares v n c) :
    pagesOf v n ⊆ allocated (heapEvents (cs ++ [c])) := by
  rw [heapEvents_snoc]
  cases c with
  | heap e =>
    rw [allocated_snoc]
    cases e with
    | alloc k w =>
      show pagesOf v n ⊆ if w = 0 then allocated _ else allocated _ ∪ pagesOf w k
      split
      · exact hin
      · exact hin.trans Finset.subset_union_left
    | free w k => exact Finset.subset_sdiff.mpr ⟨hin, Disjoint.symm hsp⟩
  | setupkvm | copyuvm | allocuvm | deallocuvm | freevm => exact hin

/-- The block during the calls that come between its allocation and its release. -/
structure InUse (lay : Layout) (cs : List Call) (z : Machine) (n v : ℕ) (y : Machine) : Prop where
  inv : ∃ own L Ps, MachineInv lay own (allocated (heapEvents cs)) y L Ps
  block : pagesOf v n ⊆ allocated (heapEvents cs)
  kpgdir : y.kernel.kpgdir = z.kernel.kpgdir
  entry : ∀ j < n, pteAt y.kernel.mem y.kernel.kpgdir (v + j * PGSIZE)
    = pteAt z.kernel.mem z.kernel.kpgdir (v + j * PGSIZE)

theorem mem_pagesOf (hj : j < n) : (v + j * PGSIZE) / PGSIZE ∈ pagesOf v n := by
  rw [page_div, pagesOf, Finset.mem_Ico]
  omega

/-- **A block stays as it was allocated** until it is released. -/
theorem inUse_run {z : Machine} {ds : List Call} (hn : 0 < n) (hz : InUse lay cs z n v z)
    (hheap : ∀ j < n, InHeap (v + j * PGSIZE))
    (hr : RunIf (resumed lay z) (fun ds y c => CallNoHole (cs ++ ds) y c ∧ Spares v n c) ds y) :
    InUse lay (cs ++ ds) z n v y := by
  refine hr.induct (I := fun ds y => InUse lay (cs ++ ds) z n v y) ?_ ?_
  · rintro y rfl
    rw [List.append_nil]
    exact hz
  · rintro ds y c y' ⟨⟨own, L, Ps, hinv⟩, hblock, hkp, hent⟩ ⟨hc, hsp⟩ hstep
    rw [← List.append_assoc]
    obtain ⟨own', L', Ps', hinv', _⟩ := hinv.step hc hstep
    have hpage : ∀ j < n, _ := fun j hj =>
      MachineInv.entry hinv hc hsp hstep (hheap j hj) (mem_pagesOf hj) (hblock (mem_pagesOf hj))
    refine ⟨⟨own', L', Ps', hinv'⟩, subset_allocated hblock hsp, (hpage 0 hn).1.trans hkp, fun j hj => ?_⟩
    rw [(hpage j hj).1, (hpage j hj).2]
    exact hent j hj

theorem pteAt_block (hv : v % PGSIZE = 0) (hva : va / PGSIZE ∈ pagesOf v n) :
    ∃ j < n, ∀ m, pteAt m d va = pteAt m d (v + j * PGSIZE) := by
  rw [pagesOf, Finset.mem_Ico] at hva
  refine ⟨va / PGSIZE - v / PGSIZE, by omega, fun m => ?_⟩
  rw [← pteAt_page m d va]
  congr 1
  simp only [PGSIZE] at *
  omega

/-- **The release of a block that was mapped gives its frames back.** -/
theorem InUse.givesBack {z : Machine} (hn : 0 < n) (hz : InUse lay cs z n v z) (hv : v % PGSIZE = 0)
    (hlo : KHEAP_START ≤ v) (hhi : v + n * PGSIZE ≤ KHEAP_END)
    (hp : ∀ j < n, Present (pteAt z.kernel.mem z.kernel.kpgdir (v + j * PGSIZE))) :
    GivesBack lay cs z n v := by
  intro ds y hr hc
  have hheap : ∀ j < n, InHeap (v + j * PGSIZE) := fun j hj => by
    rw [← page_eq hhi hj]
    exact page_inHeap hlo hhi hj
  obtain ⟨⟨own, L, Ps, hinv⟩, hblock, hkp, hent⟩ := inUse_run hn hz hheap hr
  have hlist := hinv.heap.list
  have hfresh := @fresh_of_noHole lay _ _ _ _ _ _ hinv.heap hc.1 hc.2
  obtain ⟨m, hunmap, hfree, hgone⟩ := unmapHeapPages_frames (v := v) n 0 hlist.owned hlist.kdir hlo
    (by rw [Nat.zero_add]; exact hhi) fun j _ hj => by
      rw [hent j (by omega)]
      exact hp j (by omega)
  have hframes : ((List.range' 0 n).map fun j => frameAt y.kernel.mem y.kernel.kpgdir (v + j * PGSIZE))
      = blockFrames z.kernel v n := by
    rw [← List.range_eq_range', blockFrames]
    refine List.map_congr_left fun j hj => ?_
    rw [frameAt, frameAt, hent j (List.mem_range.mp hj)]
  rw [hframes] at hfree
  have hne : m.freelist ≠ [] := by
    intro hnil
    have hlen := congrArg List.length hfree
    rw [hnil, List.length_append, List.length_reverse, blockFrames, List.length_map, List.length_range,
      List.length_nil] at hlen
    omega
  obtain ⟨t, ht⟩ :=
    liballocFree_returns hlist hv hlo hhi hn (fun p hp => hinv.heap.freeSlots_eq ▸ hfresh p hp) hunmap hne
  refine ⟨m, t, hunmap, hfree, ht, fun va hva hin => ?_⟩
  obtain ⟨hkt, _, m', hunmap', hsame⟩ := free_entry hinv.heap hv hblock hn hfresh ht
  obtain rfl : m = m' := Except.ok.inj (hunmap.symm.trans hunmap')
  obtain ⟨j, hj, hpage⟩ := pteAt_block (d := y.kernel.kpgdir) hv hin
  have habs : ¬ Present (pteAt t.mem y.kernel.kpgdir va) := by
    rw [hsame va hva, hpage m]
    exact hgone j (Nat.zero_le j) (by omega)
  rw [hkt, translation]
  exact if_neg fun hc => habs hc.2

/-! ### Backed exactly with room -/

/-- **An allocation is backed, and its release gives the frames back, exactly when there was room for it**: a
free page for every page of the block and for every page table that its pages are without. -/
theorem alloc_backed_iff_room (hr : RunIf (machines lay) CallNoHole cs x) (hn : 0 < n)
    (hok : liballocAlloc lay x.kernel n = .ok (v, t)) (hv : v ≠ 0) :
    (Backed x n v t ∧ GivesBack lay (cs ++ [.heap (.alloc n v)]) { x with kernel := t } n v)
      ↔ Room x.kernel n := by
  obtain ⟨own, L, Ps, h⟩ := machineInv_run hr
  have ha := liballocAlloc_allocates h.heap hn hv hok
  have hwords : n < ADDRESSES := by
    have hupper := ha.upper
    simp only [KHEAP_END_eq, PGSIZE, ADDRESSES] at *
    omega
  have hstep : x.step lay (.heap (.alloc n v)) = some { x with kernel := t } := by
    show (KernelHeap.step lay x.kernel (.alloc n v)).map _ = _
    rw [KernelHeap.step, hok]
    simp only [if_true, Option.map_some]
  obtain ⟨own', L', Ps', hz, _⟩ := h.step (c := .heap (.alloc n v)) ⟨hwords, trivial⟩ hstep
  rcases ha.room with ⟨hroom, hpages⟩ | ⟨hno, j, hj, habs⟩
  · refine iff_of_true ⟨MachineInv.backed h hz ha hpages, ?_⟩ hroom
    refine InUse.givesBack hn ⟨⟨own', L', Ps', hz⟩, ?_, rfl, fun _ _ => rfl⟩ ha.aligned ha.lower ha.upper
      fun j hj => ?_
    · rw [heapEvents_snoc, allocated_snoc]
      show pagesOf v n ⊆ if v = 0 then _ else _
      rw [if_neg hv]
      exact Finset.subset_union_right
    · obtain ⟨r, _, hr⟩ := hpages j hj
      show Present (pteAt t.mem t.kpgdir _)
      rw [ha.kpgdir, hr]
      exact present_heapEntry r
  · refine iff_of_false (fun hb => ?_) hno
    obtain ⟨pa, u, hmapped⟩ := hb.1.mapped j hj
    rw [translation, ha.kpgdir] at hmapped
    rw [if_neg fun hc : _ ∧ _ => habs hc.2] at hmapped
    cases hmapped

/-- With all of the heap free and a free page, an allocation of one page returns. -/
theorem liballocAlloc_one_returns (h : HeapInv lay own ∅ s L Ps) (hfree : s.mem.freelist ≠ []) :
    ∃ v t, liballocAlloc lay s 1 = .ok (v, t) ∧ v ≠ 0 := by
  rcases alloc_seek h.list 1 with ⟨hnone, _⟩ | ⟨front, c, rest, rfl, hck, hc0, _, hseek⟩
  · exact absurd hnone (firstFit_one h)
  obtain ⟨hlo, hhi⟩ := h.bounds c (by simp)
  have hlt : (s.region c).baseVaddr + (s.region c).numPages * PGSIZE < ADDRESSES :=
    lt_of_le_of_lt hhi (by decide)
  obtain ⟨t1, hcarve, _⟩ := carve_returns (k := 1) h.list
  obtain ⟨own1, L1, Ps1, h1, _⟩ := carve_spec h.list hck hlt hcarve
  have hpos := List.length_pos_of_ne_nil hfree
  have hle := carve_length h.list hcarve
  rcases kalloc_cases t1.mem with ⟨hnil, _⟩ | ⟨r, rest', hf, hka⟩
  · rw [hnil, List.length_nil] at hle
    omega
  have hr := (h1.owned.valid_of_mem (v := r) (by rw [hf]; exact List.mem_cons_self)).ne_zero
  obtain ⟨m', hmap⟩ : ∃ m', mapHeapPages t1.kpgdir (s.region c).baseVaddr 1 0 t1.mem = .ok m' := by
    rw [mapHeapPages, hka]
    simp only [if_neg hr]
    exact ⟨_, rfl⟩
  refine ⟨(s.region c).baseVaddr, { t1 with mem := m' }, ?_, fun hz => ?_⟩
  · rw [liballocAlloc, if_neg Nat.one_ne_zero, hseek]
    simp only [if_neg hc0, hcarve, bind, Except.bind, hmap]
  · rw [hz] at hlo
    exact absurd hlo (by decide)

/-- On a machine with enough memory, a page is allocated. -/
theorem alloc_backed_one : ∃ x v t, RunIf (machines smallLayout) CallNoHole [] x
    ∧ liballocAlloc smallLayout x.kernel 1 = .ok (v, t) ∧ v ≠ 0 ∧ Backed x 1 v t
    ∧ GivesBack smallLayout [.heap (.alloc 1 v)] { x with kernel := t } 1 v := by
  obtain ⟨x, hinit, hlen, _⟩ := exists_init
  have hr : RunIf (machines smallLayout) CallNoHole [] x := RunIf.init hinit
  obtain ⟨own, L, Ps, h⟩ := machineInv_run hr
  have hfree : x.kernel.mem.freelist ≠ [] := fun hnil => by
    rw [hnil, List.length_nil] at hlen
    omega
  obtain ⟨v, t, hok, hv⟩ := liballocAlloc_one_returns h.heap hfree
  have hroom : Room x.kernel 1 := by
    have hcard :
        (missing x.kernel.mem x.kernel.kpgdir (x.kernel.region (fit x.kernel 1)).baseVaddr 0 1).card ≤ 1 :=
      (Finset.card_filter_le _ _).trans Finset.card_image_le
    have hpool : x.kernel.mem.freelist.length ≤ (pool x.kernel 1).length := by
      rw [pool]
      split
      · exact Nat.le_succ _
      · exact le_refl _
    rw [Room]
    omega
  exact ⟨x, v, t, hr, hok, hv, (alloc_backed_iff_room hr Nat.one_pos hok hv).mpr hroom⟩

/-! ### A page that is not mapped -/

theorem Owned.take (h : Owned lay own kpgdir m) (k : ℕ) :
    Owned lay own kpgdir { m with freelist := m.freelist.take k } :=
  ⟨fun v hv => h.free v (List.mem_of_mem_take hv), h.nodup.sublist (List.take_sublist k _), h.valid, h.table,
    h.user, h.heap⟩

/-- A machine with one free page left after `kheap_init`, and no page table for the heap. -/
theorem exists_onePage : ∃ x, (machines smallLayout).init x ∧ x.kernel.mem.freelist.length = 1
    ∧ (∀ va, InHeap va → ¬ Present (x.kernel.mem.word x.kernel.kpgdir (PDX va)))
    ∧ x.kernel.vmemFreeListHead ≠ 0
    ∧ (x.kernel.region x.kernel.vmemFreeListHead).numPages = (KHEAP_END - KHEAP_START) / PGSIZE := by
  obtain ⟨own, d, m, ho, hdir, hlen, hent, htables⟩ := exists_kvm
  have hb : Boot smallLayout own ⟨{ m with freelist := m.freelist.take 2 }, d, 0, 0⟩ :=
    ⟨Owned.take ho 2, hdir, rfl, rfl⟩
  have htwo : (m.freelist.take 2).length = 2 := by
    rw [List.length_take]
    omega
  obtain ⟨s, hs, hlen', hword, hhead, hwhole⟩ := kheapInit_returns hb fun hnil => by
    rw [show m.freelist.take 2 = [] from hnil] at htwo
    cases htwo
  obtain ⟨_, _, _, _, hk, _⟩ := kheapInit_spec hb hs
  refine ⟨⟨s, []⟩, ⟨rfl, _, own, hb, fun va _ hhi => hent va hhi, hs⟩, ?_, fun va hva => ?_, hhead, hwhole⟩
  · simp only at hlen'
    rw [htwo] at hlen'
    show s.mem.freelist.length = 1
    omega
  · have hout : ∀ k ∈ kmap smallLayout, AvoidsTable (PDX va) (Kmap.first k) (Kmap.last k) := by
      -- the heap starts and ends with a page table
      intro k hkm vb hlo hhi hpdx
      obtain ⟨hrange, hrow⟩ := kmap_rows smallLayout k hkm
      have hlt := lt_of_le_of_lt hhi hrange.lt
      have hvb : InHeap vb := by
        simp only [InHeap, PDX, NPDENTRIES, KERNBASE, PHYSTOP, DEVSPACE, ADDRESSES] at *
        omega
      have hPG : 0 < PGSIZE := by decide
      have := hrow vb hvb
      omega
    show ¬ Present (s.mem.word s.kpgdir (PDX va))
    rw [hword, hk, show _ = _ from htables _ hout]
    exact not_present_zero

/-- **An allocation that is not backed**: with one free page left, one page is allocated, and no address is
mapped. -/
theorem alloc_unmapped : ∃ x v t, RunIf (machines smallLayout) CallNoHole [] x
    ∧ liballocAlloc smallLayout x.kernel 1 = .ok (v, t) ∧ v ≠ 0 ∧ translation t.mem t.kpgdir v = none := by
  obtain ⟨x, hinit, hlen, htables, hhead, hwhole⟩ := exists_onePage
  have hr : RunIf (machines smallLayout) CallNoHole [] x := RunIf.init hinit
  obtain ⟨own, L, Ps, h⟩ := machineInv_run hr
  have hfree : x.kernel.mem.freelist ≠ [] := fun hnil => by
    rw [hnil] at hlen
    cases hlen
  obtain ⟨v, t, hok, hv⟩ := liballocAlloc_one_returns h.heap hfree
  have ha := liballocAlloc_allocates h.heap Nat.one_pos hv hok
  have hsize : (KHEAP_END - KHEAP_START) / PGSIZE = 458752 := by decide
  -- the region found is the whole heap, so no metadata page is freed
  have hfit : fit x.kernel 1 = x.kernel.vmemFreeListHead := by
    rw [fit, HeapInv.freeSlots_eq h.heap]
    cases hL : L with
    | nil => exact absurd (chain_nil.mp (hL ▸ h.heap.list.chain)) hhead
    | cons p rest =>
      obtain ⟨hp, _⟩ := chain_cons.mp (hL ▸ h.heap.list.chain)
      rw [List.find?_cons_of_pos (by rw [← hp, hwhole, hsize]; decide), ← hp]
      rfl
  have hnoroom : ¬ Room x.kernel 1 := by
    have hpool : (pool x.kernel 1).length = 1 := by
      rw [pool, if_neg fun hc => by rw [hfit, hwhole, hsize] at hc; exact absurd hc.1 (by decide), hlen]
    have hcard : 0
        < (missing x.kernel.mem x.kernel.kpgdir (x.kernel.region (fit x.kernel 1)).baseVaddr 0 1).card := by
      refine Finset.card_pos.mpr ⟨_, mem_missing.mpr ⟨⟨0, Nat.one_pos, rfl⟩, ?_⟩⟩
      rw [← ha.base]
      exact htables _ (ha.inHeap Nat.one_pos)
    rw [Room]
    omega
  obtain ⟨_, j, hj, habs⟩ := ha.room.resolve_left fun hc => hnoroom hc.1
  obtain rfl : j = 0 := by omega
  rw [Nat.zero_mul, Nat.add_zero] at habs
  refine ⟨x, v, t, hr, hok, hv, ?_⟩
  rw [translation, ha.kpgdir]
  exact if_neg fun hc => habs hc.2

end Xv6e.Memory.HeapBacking
