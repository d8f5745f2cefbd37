import Xv6e.Memory.HeapInvariant

/-!
# Enough memory

When the calls that build address spaces and extend the heap succeed.  A page directory has `NPDENTRIES`
entries, and every page table fills one of them: the free pages less the entries still absent is a quantity
that no walk changes (`Spare`), so a page directory and `NPDENTRIES` more free pages are enough.

* `setupkvm_returns`, `setupkvm_dirWord` — `setupkvm` returns a page directory, with the page tables of `kmap`
  only;
* `mapHeapPages_mapped`, `liballocAlloc_mapped` — the pages `liballoc_alloc` returns are mapped;
* `kheapInit_returns` — `kheap_init` returns.
-/

namespace Xv6e.Memory.Supply

open Library.Fallible
open Library.PointerList Library.RegionList PageTable
open Ownership AddressSpace KernelHeap HeapSlots
open HeapSteps HeapInvariant

variable {lay : Layout} {own own' : ℕ → Owner} {kpgdir d c : ℕ} {m m' : Mem} {s t : Kernel} {L Ps : List ℕ}

/-! ### Page tables to come -/

/-- The entries of a page directory without a page table. -/
def absent (m : Mem) (d : ℕ) : Finset ℕ := (Finset.range NPDENTRIES).filter fun i => ¬ Present (m.word d i)

/-- There are `c` free pages more than page tables to come. -/
def Spare (m : Mem) (d c : ℕ) : Prop := m.freelist.length = (absent m d).card + c

theorem absent_congr (h : m'.word d = m.word d) : absent m' d = absent m d := by
  rw [absent, absent, h]

theorem absent_of_zero (hz : ∀ i, m.word d i = 0) : (absent m d).card = NPDENTRIES := by
  have hall : absent m d = Finset.range NPDENTRIES := by
    refine Finset.filter_true_of_mem fun i _ => ?_
    rw [hz]
    exact not_present_zero
  rw [hall, Finset.card_range]

theorem absent_attach {i r : ℕ} : absent (m.setWord d i (tableEntry r)) d = (absent m d).erase i := by
  ext j
  simp only [absent, Finset.mem_filter, Finset.mem_erase, setWord_word]
  by_cases hj : j = i
  · rw [if_pos hj]
    simp only [present_tableEntry, not_true_eq_false, and_false, hj, ne_eq, false_and]
  · rw [if_neg hj]
    simp only [ne_eq, hj, not_false_eq_true, true_and]

/-- **A walk keeps what there is to spare**, and finds memory for its page table. -/
theorem walkpgdir_spare (h : Owned lay own kpgdir m) (hd : own d = .dir) (hs : Spare m d c) (va : ℕ) :
    (walkpgdir m d va true).1 ≠ none ∧ Spare (walkpgdir m d va true).2 d c := by
  rw [walkpgdir]
  by_cases hp : Present (m.word d (PDX va))
  · simp only [if_pos hp]
    exact ⟨by simp, hs⟩
  · simp only [if_neg hp, Bool.true_eq_false, if_false]
    have hmem : PDX va ∈ absent m d := Finset.mem_filter.mpr ⟨Finset.mem_range.mpr (PDX_lt va), hp⟩
    have hpos := Finset.card_pos.mpr ⟨_, hmem⟩
    rcases kalloc_cases m with ⟨hf, _⟩ | ⟨r, rest, hf, hk⟩
    · rw [Spare, hf, List.length_nil] at hs
      omega
    · have hr := h.free r (by rw [hf]; exact List.mem_cons_self)
      have hdr : d ≠ r := fun hdr => by rw [hdr, hr] at hd; cases hd
      rw [hk]
      simp only [if_neg (h.valid r (by simp [hr])).ne_zero]
      refine ⟨by simp, ?_⟩
      have hsame : absent (Mem.memset { m with freelist := rest } r 0) d = absent m d :=
        absent_congr (memset_word_of_ne _ _ hdr)
      rw [Spare, absent_attach, hsame, Finset.card_erase_of_mem hmem]
      rw [Spare, hf, List.length_cons] at hs
      show rest.length = _
      omega

theorem Spare.setWord {t i w : ℕ} (hs : Spare m d c) (hne : d ≠ t) : Spare (m.setWord t i w) d c := by
  rw [Spare, absent_congr (setWord_word_of_ne m i w hne)]
  exact hs

/-! ### Address spaces -/

/-- The loop of `mappages` over absent kernel addresses returns. -/
theorem mapLoop_returns {last : ℕ} (hk : d ≠ kpgdir) (perm fuel a pa : ℕ) (h : Owned lay own kpgdir m)
    (hd : own d = .dir) (hr : KernelRange a last) (hfuel : last < a + fuel * PGSIZE) (hs : Spare m d c)
    (habsent : ∀ va, a ≤ va → va < last + PGSIZE → va < ADDRESSES → ¬ Present (pteAt m d va)) :
    ∃ m', mapLoop d last perm fuel a pa m = .ok (true, m') ∧ Spare m' d c := by
  induction fuel generalizing a pa m own with
  | zero =>
    have := hr.le
    omega
  | succ fuel ih =>
    have hva : a < ADDRESSES := lt_of_le_of_lt hr.le hr.lt
    obtain ⟨hsome, hspare⟩ := walkpgdir_spare h hd hs a
    rw [mapLoop]
    rcases walkpgdir_alloc h hd a with ⟨_, hwalk⟩ | ⟨t, own1, m1, hwalk, h1, hf1, hk1, ht, hw, hent⟩
    · rw [hwalk] at hsome
      exact absurd rfl hsome
    · rw [hwalk] at hspare ⊢
      have hd1 : own1 d = .dir := (hk1 d (by simp [hd])).trans hd
      have hdt : d ≠ t := fun hdt => by rw [← hdt, hd1] at ht; cases ht
      obtain ⟨h2, _, hpte⟩ := setKernelPte hk h1 hd1 ht hw hr.kernel hva (pa ||| perm ||| PTE_P)
      have hp : ¬ Present (m1.word t (PTX a)) := by
        rw [hent]
        exact habsent a (le_refl a) (lt_of_le_of_lt hr.le (Nat.lt_add_of_pos_right (by decide))) hva
      simp only [if_neg hp]
      by_cases hlast : a = last
      · rw [if_pos hlast]
        exact ⟨_, rfl, hspare.setWord hdt⟩
      · rw [if_neg hlast]
        obtain ⟨hstep, hnext⟩ := hr.next hlast
        rw [hstep]
        refine ih _ _ h2 hd1 hnext ?_ (hspare.setWord hdt) fun va hlo hhi hlt => ?_
        · simp only [PGSIZE] at *
          omega
        · -- the page just mapped is below the rest of the range
          have hpage : va / PGSIZE ≠ a / PGSIZE := by
            have := hr.first_aligned
            simp only [PGSIZE] at *
            omega
          rw [hpte va hlt, if_neg hpage, hf1.pte d va hd hlt id]
          exact habsent va (by omega) hhi hlt

/-- The loop of `setupkvm` over rows whose addresses are absent returns the page directory. -/
theorem mapRows_returns (hk : d ≠ kpgdir) (rows : List Kmap)
    (hrows : ∀ k ∈ rows, KernelRange (Kmap.first k) (Kmap.last k))
    (hsorted : rows.Pairwise fun k q => Kmap.last k + PGSIZE ≤ Kmap.first q) (h : Owned lay own kpgdir m)
    (hd : own d = .dir) (hs : Spare m d c)
    (habsent : ∀ k ∈ rows, ∀ va, Kmap.first k ≤ va → va < ADDRESSES → ¬ Present (pteAt m d va)) :
    ∃ m', mapRows lay d rows m = .ok (d, m') ∧ Spare m' d c := by
  induction rows generalizing m own with
  | nil => exact ⟨m, rfl, hs⟩
  | cons k rows ih =>
    have hr := hrows k List.mem_cons_self
    obtain ⟨hlater, hsorted⟩ := List.pairwise_cons.mp hsorted
    obtain ⟨m1, hmap, hs1⟩ := mapLoop_returns hk k.perm PAGES _ k.physStart h hd hr
      (by
        have := hr.lt
        simp only [PAGES, PGSIZE, ADDRESSES] at *
        omega) hs (fun va hlo _ hlt => habsent k List.mem_cons_self va hlo hlt)
    obtain ⟨own1, h1, _, hk1, hent⟩ := mapLoop_spec hk _ _ _ h hd hr hmap
    have hd1 : own1 d = .dir := (hk1 d (by simp [hd])).trans hd
    obtain ⟨m2, hrest, hs2⟩ := ih (fun q hq => hrows q (List.mem_cons_of_mem k hq)) hsorted h1 hd1 hs1
      fun q hq va hlo hlt => by
        have hout : Kmap.last k + PGSIZE ≤ va := le_trans (hlater q hq) hlo
        rw [hent rfl va hlt, rangeEntry_of_outside hr (Or.inr hout)]
        exact habsent q (List.mem_cons_of_mem k hq) va hlo hlt
    refine ⟨m2, ?_, hs2⟩
    rw [mapRows, mappages]
    show (mapLoop d (Kmap.last k) k.perm PAGES (Kmap.first k) k.physStart m >>= _) = _
    rw [hmap]
    exact hrest

/-- **`setupkvm` returns** a page directory when there is a page for it and one for each of its entries. -/
theorem setupkvm_returns (h : Owned lay own kpgdir m) (hk : own kpgdir ≠ .free)
    (hfree : NPDENTRIES < m.freelist.length) :
    ∃ d m', setupkvm lay m = .ok (d, m') ∧ d ≠ 0
      ∧ m.freelist.length ≤ m'.freelist.length + (NPDENTRIES + 1) := by
  rcases kalloc_cases m with ⟨hf, _⟩ | ⟨d, rest, hf, hka⟩
  · rw [hf, List.length_nil] at hfree
    exact absurd hfree (Nat.not_lt_zero _)
  · obtain ⟨hown, hvalid, h1, _, hz⟩ := newDir h hf
    have hdk : d ≠ kpgdir := fun hdk => hk (by rw [← hdk, hown])
    rw [hf, List.length_cons] at hfree
    have hs : Spare (Mem.memset { m with freelist := rest } d 0) d (rest.length - NPDENTRIES) := by
      rw [Spare, absent_of_zero hz]
      show rest.length = _
      omega
    obtain ⟨m', hmap, hs'⟩ := mapRows_returns hdk (kmap lay) (fun k hkm => (kmap_rows lay k hkm).1)
      (kmap_sorted lay) h1 (Function.update_self ..) hs fun _ _ va _ _ => by
        rw [pteAt_of_zero hz]
        exact not_present_zero
    refine ⟨d, m', ?_, hvalid.ne_zero, ?_⟩
    · rw [setupkvm, hka]
      simp only [if_neg hvalid.ne_zero, show ¬ DEVSPACE < P2V PHYSTOP from by decide, if_false]
      exact hmap
    · rw [Spare] at hs'
      rw [hf, List.length_cons]
      omega

/-! ### The page tables of a new page directory -/

theorem walkpgdir_dirWord (h : Owned lay own kpgdir m) (hd : own d = .dir) {va i : ℕ} (hi : i ≠ PDX va) :
    (walkpgdir m d va true).2.word d i = m.word d i := by
  rw [walkpgdir]
  by_cases hp : Present (m.word d (PDX va))
  · rw [if_pos hp]
  simp only [if_neg hp, Bool.true_eq_false, if_false]
  rcases kalloc_cases m with ⟨_, hka⟩ | ⟨r, rest, hf, hka⟩
  · rw [hka]
    rfl
  obtain ⟨hfree, hvalid, _⟩ := h.kalloc hf
  have hne : d ≠ r := fun hc => by rw [hc, hfree] at hd; cases hd
  rw [hka]
  simp only [if_neg hvalid.ne_zero]
  rw [setWord_word, if_neg hi, memset_word_of_ne _ _ hne]

/-- No address of a range has its entry in a given page table. -/
def AvoidsTable (i a last : ℕ) : Prop := ∀ vb, a ≤ vb → vb ≤ last → PDX vb ≠ i

theorem mapLoop_dirWord {last perm i : ℕ} {ok : Bool} (hk : d ≠ kpgdir) (fuel a pa : ℕ)
    (h : Owned lay own kpgdir m) (hd : own d = .dir) (hr : KernelRange a last) (hi : AvoidsTable i a last)
    (hok : mapLoop d last perm fuel a pa m = .ok (ok, m')) : m'.word d i = m.word d i := by
  induction fuel generalizing a pa m own with
  | zero => cases hok
  | succ fuel ih =>
    have haK := hr.kernel
    have hva : a < ADDRESSES := lt_of_le_of_lt hr.le hr.lt
    have hword := walkpgdir_dirWord h hd (hi a (le_refl a) hr.le).symm
    rw [mapLoop] at hok
    rcases walkpgdir_alloc h hd a with ⟨_, hwalk⟩ | ⟨t, own₁, m₁, hwalk, h₁, _, hkeep, ht, hw, _⟩
    all_goals rw [hwalk] at hok hword
    · cases hok
      rfl
    simp only at hok hword
    have hd₁ : own₁ d = .dir := (hkeep d (by simp [hd])).trans hd
    have hdt : d ≠ t := fun hc => by rw [← hc, hd₁] at ht; cases ht
    by_cases hp : Present (m₁.word t (PTX a))
    · rw [if_pos hp] at hok
      cases hok
    rw [if_neg hp] at hok
    obtain ⟨h₂, _, _⟩ := setKernelPte hk h₁ hd₁ ht hw haK hva (pa ||| perm ||| PTE_P)
    have hset : (m₁.setWord t (PTX a) (pa ||| perm ||| PTE_P)).word d i = m.word d i := by
      rw [setWord_word_of_ne _ _ _ hdt, hword]
    by_cases hlast : a = last
    · rw [if_pos hlast] at hok
      cases hok
      exact hset
    · rw [if_neg hlast] at hok
      obtain ⟨hstep, hnext⟩ := hr.next hlast
      rw [hstep] at hok
      rw [ih _ _ h₂ hd₁ hnext (fun vb hlo => hi vb (by omega)) hok, hset]

theorem mapRows_dirWord {i r : ℕ} (hk : d ≠ kpgdir) (rows : List Kmap)
    (hrows : ∀ k ∈ rows, KernelRange (Kmap.first k) (Kmap.last k))
    (hi : ∀ k ∈ rows, AvoidsTable i (Kmap.first k) (Kmap.last k)) (h : Owned lay own kpgdir m)
    (hd : own d = .dir) (hok : mapRows lay d rows m = .ok (r, m')) (hr : r ≠ 0) :
    m'.word d i = m.word d i := by
  induction rows generalizing m own with
  | nil =>
    cases hok
    rfl
  | cons k rows ih =>
    obtain ⟨⟨ok, m₁⟩, hmap, hrest⟩ := bind_ok.mp hok
    have hrange := hrows k List.mem_cons_self
    obtain ⟨own₁, h₁, _, hkeep, _⟩ := mapLoop_spec hk _ _ _ h hd hrange hmap
    have hd₁ : own₁ d = .dir := (hkeep d (by simp [hd])).trans hd
    cases ok with
    | true =>
      rw [ih (fun q hq => hrows q (List.mem_cons_of_mem k hq))
        (fun q hq => hi q (List.mem_cons_of_mem k hq)) h₁ hd₁ hrest]
      exact mapLoop_dirWord hk _ _ _ h hd hrange (hi k List.mem_cons_self) hmap
    | false =>
      obtain ⟨m₂, _, hret⟩ := bind_ok.mp hrest
      cases hret
      exact absurd rfl hr

/-- **A new page directory** has the page tables of the rows of `kmap` only. -/
theorem setupkvm_dirWord {i : ℕ} (h : Owned lay own kpgdir m) (hk : own kpgdir ≠ .free)
    (hok : setupkvm lay m = .ok (d, m')) (hd : d ≠ 0)
    (hi : ∀ k ∈ kmap lay, AvoidsTable i (Kmap.first k) (Kmap.last k)) : m'.word d i = 0 := by
  rw [setupkvm] at hok
  rcases kalloc_cases m with ⟨_, hka⟩ | ⟨r, rest, hf, hka⟩
  · rw [hka] at hok
    cases hok
    exact absurd rfl hd
  obtain ⟨hfree, hvalid, h₁, _, hz⟩ := newDir h hf
  have hdir : Function.update own r .dir r = .dir := Function.update_self ..
  have hrk : r ≠ kpgdir := fun hc => hk (by rw [← hc, hfree])
  rw [hka] at hok
  simp only [if_neg hvalid.ne_zero, show ¬ DEVSPACE < P2V PHYSTOP from by decide, if_false] at hok
  have hrows := fun k hkm => (kmap_rows lay k hkm).1
  obtain ⟨_, _, _, hres⟩ := mapRows_spec hrk _ hrows h₁ hdir hok
  obtain ⟨rfl, _⟩ := hres.resolve_left hd
  rw [mapRows_dirWord hrk _ hrows hi h₁ hdir hok hd, hz]

/-! ### Pages of the heap -/

theorem mapKernelPage_pte (h : Owned lay own kpgdir m) (hk : own kpgdir = .dir) {va vb : ℕ}
    (hfree : m.freelist = [] → Present (m.word kpgdir (PDX va))) (hva : va < ADDRESSES) (hvb : vb < ADDRESSES)
    (pa perm : ℕ) :
    pteAt (mapKernelPage kpgdir m va pa perm).2 kpgdir vb
      = if vb / PGSIZE = va / PGSIZE then pa ||| perm ||| PTE_P else pteAt m kpgdir vb := by
  rw [mapKernelPage]
  rcases walkpgdir_alloc h hk va with ⟨hf, hwalk⟩ | ⟨t, own1, m1, hwalk, h1, hf1, hk1, ht, hw, _⟩
  · rw [walkpgdir, if_pos (hfree hf)] at hwalk
    cases hwalk
  · rw [hwalk]
    have hk2 : own1 kpgdir = .dir := (hk1 kpgdir (by simp [hk])).trans hk
    show pteAt (m1.setWord t (PTX va) (pa ||| perm ||| PTE_P)) kpgdir vb = _
    rw [h1.pteAt_setWord _ ht hw hva hk2 hvb, hf1.pte kpgdir vb hk hvb id]
    simp only [true_and]

/-- The mapping loop of `liballoc_alloc` maps its pages and unmaps none. -/
theorem mapHeapPages_mapped {found : ℕ} (n i : ℕ) (h : Owned lay own kpgdir m) (hk : own kpgdir = .dir)
    (hin : ∀ j, i ≤ j → j < i + n → InHeap ((found + j * PGSIZE) % ADDRESSES))
    (hfree : 2 * n ≤ m.freelist.length) (hok : mapHeapPages kpgdir found n i m = .ok m') {vb : ℕ}
    (hvb : vb < ADDRESSES)
    (hpage : Present (pteAt m kpgdir vb) ∨ ∃ j, i ≤ j ∧ j < i + n ∧ vb = (found + j * PGSIZE) % ADDRESSES) :
    Present (pteAt m' kpgdir vb) := by
  induction n generalizing i m own with
  | zero =>
    cases hok
    refine hpage.resolve_right ?_
    rintro ⟨j, hlo, hhi, _⟩
    omega
  | succ n ih =>
    rw [mapHeapPages] at hok
    rcases kalloc_cases m with ⟨_, hka⟩ | ⟨r, rest, hf, hka⟩
    · rw [hka] at hok
      cases hok
    · obtain ⟨hr, _, own2, h1, hk1, hk2, h2, _⟩ := mapHeapPage h hk hf (hin i (le_refl i) (by omega))
      rw [hka] at hok
      simp only [if_neg hr] at hok
      have hlt : (found + i * PGSIZE) % ADDRESSES < ADDRESSES := Nat.mod_lt _ (by decide)
      have hone := mapKernelPage_freelist kpgdir { m with freelist := rest }
        ((found + i * PGSIZE) % ADDRESSES) (V2P r) (PTE_W ||| PTE_P)
      rw [hf, List.length_cons] at hfree
      simp only at hone
      have hne : ({ m with freelist := rest } : Mem).freelist ≠ [] := by
        rintro rfl
        rw [List.length_nil] at hfree
        omega
      have hpte := mapKernelPage_pte h1 hk1 (fun hnil => absurd hnil hne) hlt hvb (V2P r) (PTE_W ||| PTE_P)
      refine ih (i + 1) h2 hk2 (fun j hj hjn => hin j (by omega) (by omega)) (by omega) hok ?_
      rw [hpte, pteAt_freelist]
      by_cases hhere : vb / PGSIZE = (found + i * PGSIZE) % ADDRESSES / PGSIZE
      · rw [if_pos hhere]
        exact Or.inl (present_or _)
      · rw [if_neg hhere]
        refine hpage.imp_right ?_
        rintro ⟨j, hlo, hhi, heq⟩
        refine ⟨j, ?_, by omega, heq⟩
        rcases Nat.eq_or_lt_of_le hlo with rfl | hlt
        · exact absurd (by rw [heq]) hhere
        · exact hlt

/-- **The pages that `liballoc_alloc` returns are mapped** in the kernel's page directory, when there are two
free pages for each. -/
theorem liballocAlloc_mapped {k w j : ℕ} (h : FreeList lay own s L Ps) (hb : HeapBounds s L) (hk : 0 < k)
    (hfree : 2 * k ≤ s.mem.freelist.length) (hok : liballocAlloc lay s k = .ok (w, t)) (hw : w ≠ 0)
    (hj : j < k) : Present (pteAt t.mem t.kpgdir ((w + j * PGSIZE) % ADDRESSES)) := by
  rw [liballocAlloc, if_neg (by omega)] at hok
  rcases alloc_seek h k with ⟨_, hseek⟩ | ⟨front, c, rest, rfl, hck, hc0, _, hseek⟩
  · rw [hseek] at hok
    simp only [if_true] at hok
    cases hok
    exact absurd rfl hw
  · rw [hseek] at hok
    simp only [if_neg hc0] at hok
    obtain ⟨t1, hcarve, hok⟩ := bind_ok.mp hok
    obtain ⟨m2, hmap, hret⟩ := bind_ok.mp hok
    cases hret
    obtain ⟨hlo, hhi⟩ := hb c (by simp)
    have hlt : (s.region c).baseVaddr + (s.region c).numPages * PGSIZE < ADDRESSES :=
      lt_of_le_of_lt hhi (by decide)
    obtain ⟨own1, L1, Ps1, h1, _, _, _⟩ := carve_spec h hck hlt hcarve
    have hle := carve_length h hcarve
    exact mapHeapPages_mapped k 0 h1.owned h1.kdir (fun j _ hj => page_inHeap hlo hhi (by omega))
      (by omega) hmap (Nat.mod_lt _ (by decide)) (Or.inr ⟨j, Nat.zero_le j, by omega, rfl⟩)

/-- **`kheap_init` returns** when there is a free page. -/
theorem kheapInit_returns {b : Kernel} (hb : Boot lay own b) (hfree : b.mem.freelist ≠ []) :
    ∃ s, kheapInit b = .ok s ∧ b.mem.freelist.length = s.mem.freelist.length + 1 ∧ s.mem.word = b.mem.word
      ∧ s.vmemFreeListHead ≠ 0 ∧ (s.region s.vmemFreeListHead).numPages
      = (KHEAP_END - KHEAP_START) / PGSIZE := by
  rcases kalloc_cases b.mem with ⟨hf, _⟩ | ⟨r, rest, hf, hka⟩
  · exact absurd hf hfree
  · have hvalid := hb.owned.valid_of_mem (v := r) (by rw [hf]; exact List.mem_cons_self)
    have hseek : seek b.mem.pageNext
      (fun page => decide (b.mem.numRegions page < REGIONS_PER_PAGE)) ADDRESSES 0
        b.metadataPages = some (0, 0) :=
      seek_end (L := []) hb.noPages (by simp) (by decide)
    have hnew : getNewVmemRegion b = .ok (takeSlot (withNewPage b r rest) r) := by
      rw [getNewVmemRegion, hseek]
      simp only [ne_eq, not_true_eq_false, if_false, hka, if_neg hvalid.ne_zero]
      rfl
    have hslot : slotAddr r ((withNewPage b r rest).mem.numRegions r) ≠ 0 := by
      have := hvalid.ne_zero
      rw [slotAddr]
      omega
    rw [kheapInit, hnew]
    refine ⟨_, if_neg hslot, ?_, rfl, hslot, ?_⟩
    · rw [hf, List.length_cons]
      rfl
    · exact congrArg Region.numPages (if_pos rfl)

end Xv6e.Memory.Supply
