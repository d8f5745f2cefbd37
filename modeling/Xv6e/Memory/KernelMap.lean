import Xv6e.Memory.CopiedSpaces

/-!
# The map that `setupkvm` builds

A page directory and its page tables are two levels of words; `flat` says what they come to for one address.
`mappages` goes from the first page of a range to the last, and ends when the two are equal: for the devices,
the last row of `kmap`, both the size of the row and the end of its range wrap around.

* `Directory` — a page directory whose tables are pages of their own; `translation_eq_flat`;
* `mappages_flat` — `mappages` changes exactly the pages between two addresses, the way round the end of the
  address space included;
* `kernelMap`, `kernel_map_exact` — the documented map, and `setupkvm`.
-/

namespace Xv6e.Memory.KernelMap

open PageTable Ownership AddressSpace Frames NewSpaces
open Growproc (exists_exact)
open HeapInvariant (smallLayout smallBoot)
open CopiedSpaces (emptyMem owned_empty length_emptyMem)
open Supply (setupkvm_returns)

variable {lay : Layout} {m : Mem} {d va : ℕ}

/-! ### Two levels -/

/-- A page directory: its page tables are pages that are not free, each the table of one entry. -/
structure Directory (lay : Layout) (m : Mem) (d : ℕ) : Prop where
  free : ∀ v ∈ m.freelist, ValidPage lay v
  nodup : m.freelist.Nodup
  dir : d ∉ m.freelist
  table : ∀ i < NPDENTRIES, Present (m.word d i) →
    ∃ t, ValidPage lay t ∧ m.word d i = tableEntry t ∧ t ≠ d ∧ t ∉ m.freelist
  inj : ∀ i < NPDENTRIES, ∀ j < NPDENTRIES, Present (m.word d i) → m.word d i = m.word d j → i = j

def flat (pte va : ℕ) : Option (ℕ × Bool × Bool) :=
  if Present pte then some (PTE_ADDR pte + va % PGSIZE, pte &&& PTE_W ≠ 0, pte &&& PTE_U ≠ 0) else none

/-- **The two levels come to one entry**: an entry of the directory restricts nothing. -/
theorem translation_eq_flat (h : Directory lay m d) (va : ℕ) :
    translation m d va = flat (pteAt m d va) va := by
  rw [translation, flat]
  by_cases hp : Present (m.word d (PDX va))
  · obtain ⟨t, _, hw, _⟩ := h.table _ (PDX_lt va) hp
    by_cases hq : Present (pteAt m d va)
    · simp only [hq, and_true, if_true, hw, present_tableEntry t, tableEntry_and (b := PTE_W) t _ rfl,
        tableEntry_and (b := PTE_U) t _ rfl]
    · simp only [hq, and_false, if_false]
  · have hz : pteAt m d va = 0 := if_neg hp
    simp only [hp, false_and, if_false, hz, if_neg not_present_zero]

theorem directory_of_owned {own : ℕ → Owner} {kpgdir : ℕ} (h : Owned lay own kpgdir m) (hd : own d = .dir) :
    Directory lay m d where
  free _ hv := h.valid_of_mem hv
  nodup := h.nodup
  dir hmem := by
    have hfree := h.free d hmem
    rw [hd] at hfree
    cases hfree
  table i hi hp := by
    obtain ⟨t, ht, hw⟩ := h.table d i hd hi hp
    refine ⟨t, h.valid t (by simp [ht]), hw, ?_, ?_⟩
    · rintro rfl
      rw [hd] at ht
      cases ht
    · intro hmem
      rw [h.free t hmem] at ht
      cases ht
  inj i hi j hj hp heq := by
    obtain ⟨ht, _⟩ := h.table_of_present hd hi hp
    obtain ⟨ht', _⟩ := h.table_of_present hd hj (heq ▸ hp)
    rw [← heq, ht] at ht'
    injection ht'

/-- **A walk that may create a page table** changes no entry. -/
theorem Directory.walk (h : Directory lay m d) (va : ℕ) :
    walkpgdir m d va true = (none, m)
      ∨ ∃ t m', walkpgdir m d va true = (some (t, PTX va), m') ∧ Directory lay m' d
        ∧ (∀ vb, pteAt m' d vb = pteAt m d vb) ∧ ValidPage lay t
        ∧ m'.word d (PDX va) = tableEntry t ∧ m'.word t (PTX va) = pteAt m d va := by
  rw [walkpgdir]
  by_cases hp : Present (m.word d (PDX va))
  · obtain ⟨t, hvt, hw, _, _⟩ := h.table _ (PDX_lt va) hp
    refine Or.inr ⟨t, m, ?_, h, fun _ => rfl, hvt, hw, ?_⟩
    · simp only [if_pos hp]
      rw [hw, frame_tableEntry hvt]
    · rw [pteAt, if_pos hp, hw, frame_tableEntry hvt]
  · simp only [if_neg hp, Bool.true_eq_false, if_false]
    rcases kalloc_cases m with ⟨_, hk⟩ | ⟨r, rest, hf, hk⟩
    · left
      rw [hk]
      exact if_pos rfl
    right
    have hmem : r ∈ m.freelist := by rw [hf]; exact List.mem_cons_self
    have hsub : ∀ v ∈ rest, v ∈ m.freelist := fun v hv => by rw [hf]; exact List.mem_cons_of_mem r hv
    have hvr := h.free r hmem
    have hdr : d ≠ r := fun hdr => h.dir (hdr ▸ hmem)
    have hnodup := h.nodup
    rw [hf] at hnodup
    set m₁ := (Mem.memset { m with freelist := rest } r 0).setWord d (PDX va) (tableEntry r)
    -- the directory has one entry more, for a table of zeros
    have hword : ∀ i, m₁.word d i = if i = PDX va then tableEntry r else m.word d i := by
      intro i
      rw [setWord_word, memset_word_of_ne _ _ hdr]
    have hother : ∀ t, t ≠ d → t ≠ r → m₁.word t = m.word t := by
      intro t htd htr
      rw [setWord_word_of_ne _ _ _ htd, memset_word_of_ne _ _ htr]
    have hzero : ∀ i, m₁.word r i = 0 := by
      intro i
      rw [setWord_word_of_ne _ _ _ hdr.symm, memset_word_self]
      rfl
    have hfresh : ∀ i < NPDENTRIES, Present (m.word d i) → m.word d i ≠ tableEntry r := by
      intro i hi hpi heq
      obtain ⟨t, hvt, hw, _, hnot⟩ := h.table i hi hpi
      have htr : t = r := by rw [← frame_tableEntry hvt, ← hw, heq, frame_tableEntry hvr]
      exact hnot (htr ▸ hmem)
    refine ⟨r, _, ?_,
      ⟨fun v hv => h.free v (hsub v hv), (List.nodup_cons.mp hnodup).2, fun hv => h.dir (hsub d hv), ?_, ?_⟩,
      ?_, hvr, by rw [hword, if_pos rfl], by rw [hzero, pteAt, if_neg hp]⟩
    · rw [hk]
      exact if_neg hvr.ne_zero
    · intro i hi hpi
      rw [hword] at hpi ⊢
      by_cases hiv : i = PDX va
      · rw [if_pos hiv]
        exact ⟨r, hvr, rfl, hdr.symm, (List.nodup_cons.mp hnodup).1⟩
      · rw [if_neg hiv] at hpi ⊢
        obtain ⟨t, hvt, hw, htd, hnot⟩ := h.table i hi hpi
        exact ⟨t, hvt, hw, htd, fun hv => hnot (hsub t hv)⟩
    · intro i hi j hj hpi heq
      rw [hword, hword] at heq
      rw [hword] at hpi
      split_ifs at heq hpi with h1 h2 h2
      · rw [h1, h2]
      · exact absurd heq.symm (hfresh j hj (heq ▸ present_tableEntry r))
      · exact absurd heq (hfresh i hi hpi)
      · exact h.inj i hi j hj hpi heq
    · intro vb
      rw [pteAt, pteAt, hword]
      by_cases hiv : PDX vb = PDX va
      · rw [if_pos hiv, if_pos (present_tableEntry r), frame_tableEntry hvr, hzero, if_neg (hiv ▸ hp)]
      · rw [if_neg hiv]
        by_cases hpb : Present (m.word d (PDX vb))
        · obtain ⟨t, hvt, hw, htd, hnot⟩ := h.table _ (PDX_lt vb) hpb
          rw [if_pos hpb, if_pos hpb, hw, frame_tableEntry hvt, hother t htd fun htr => hnot (htr ▸ hmem)]
        · rw [if_neg hpb, if_neg hpb]

/-- **Writing an entry** changes what the directory says of one page. -/
theorem Directory.write (h : Directory lay m d) {t : ℕ} (hvt : ValidPage lay t)
    (hw : m.word d (PDX va) = tableEntry t) (hva : va < ADDRESSES) (w : ℕ) :
    Directory lay (m.setWord t (PTX va) w) d
      ∧ ∀ vb < ADDRESSES, pteAt (m.setWord t (PTX va) w) d vb = if vb / PGSIZE = va / PGSIZE then w
      else pteAt m d vb := by
  have hp : Present (m.word d (PDX va)) := by
    rw [hw]
    exact present_tableEntry t
  have htd : t ≠ d := by
    obtain ⟨t', hvt', hw', htd', _⟩ := h.table _ (PDX_lt va) hp
    rw [← frame_tableEntry hvt, ← hw, hw', frame_tableEntry hvt']
    exact htd'
  have hword : (m.setWord t (PTX va) w).word d = m.word d := setWord_word_of_ne _ _ _ htd.symm
  refine ⟨⟨h.free, h.nodup, h.dir, ?_, ?_⟩, fun vb hvb => ?_⟩
  · rw [hword]
    exact h.table
  · rw [hword]
    exact h.inj
  · simp only [← samePage_iff hva hvb]
    rw [pteAt, pteAt, hword]
    by_cases hpb : Present (m.word d (PDX vb))
    · obtain ⟨t', hvt', hw', _, _⟩ := h.table _ (PDX_lt vb) hpb
      rw [if_pos hpb, if_pos hpb, hw', frame_tableEntry hvt']
      by_cases htt : t' = t
      · -- one table has one entry of the directory
        have hdx : PDX vb = PDX va := h.inj _ (PDX_lt vb) _ (PDX_lt va) hpb (by rw [hw', hw, htt])
        rw [htt, setWord_word, hdx]
        simp only [true_and]
      · have hdx : PDX vb ≠ PDX va := by
          intro hdx
          rw [hdx, hw] at hw'
          exact htt (by rw [← frame_tableEntry hvt', ← hw', frame_tableEntry hvt])
        rw [setWord_word_of_ne _ _ _ htt, if_neg fun hc => hdx hc.1]
    · rw [if_neg hpb, if_neg hpb, if_neg]
      rintro ⟨hdx, _⟩
      exact hpb (hdx ▸ hp)

/-! ### `mappages` -/

/-- The pages from the page of `a` on to the page of `vb`, round the end of the address space. -/
def pagesTo (a vb : ℕ) : ℕ := (vb / PGSIZE + PAGES - a / PGSIZE) % PAGES

variable {a vb last perm b p : ℕ}

theorem pagesTo_next (ha : a < ADDRESSES) (hvb : vb < ADDRESSES) (hne : vb / PGSIZE ≠ a / PGSIZE) :
    pagesTo a vb = pagesTo ((a + PGSIZE) % ADDRESSES) vb + 1 := by
  simp only [pagesTo, PGSIZE, PAGES, ADDRESSES] at *
  omega

theorem pagesTo_eq_zero (ha : a < ADDRESSES) (hvb : vb < ADDRESSES) :
    pagesTo a vb = 0 ↔ vb / PGSIZE = a / PGSIZE := by
  simp only [pagesTo, PGSIZE, PAGES, ADDRESSES] at *
  omega

theorem offset_next (pa k : ℕ) :
    ((pa + PGSIZE) % ADDRESSES + k * PGSIZE) % ADDRESSES = (pa + (k + 1) * PGSIZE) % ADDRESSES := by
  rw [Nat.mod_add_mod, Nat.add_mul, Nat.one_mul, Nat.add_assoc, Nat.add_comm PGSIZE]

/-- **One turn of the loop of `mappages`**: no page for a page table, or the entry of `a` is written. -/
theorem mapLoop_turn (last perm fuel pa : ℕ) (h : Directory lay m d) (ha : a < ADDRESSES)
    (hfree : ¬ Present (pteAt m d a)) : mapLoop d last perm (fuel + 1) a pa m = .ok (false, m)
      ∨ ∃ m₁, Directory lay m₁ d
        ∧ (∀ vb < ADDRESSES, pteAt m₁ d vb = if vb / PGSIZE = a / PGSIZE then pa ||| perm ||| PTE_P
        else pteAt m d vb) ∧ mapLoop d last perm (fuel + 1) a pa m = if a = last then .ok (true, m₁)
          else mapLoop d last perm fuel ((a + PGSIZE) % ADDRESSES) ((pa + PGSIZE) % ADDRESSES) m₁ := by
  rw [mapLoop]
  rcases h.walk a with hwalk | ⟨t, m₁, hwalk, h₁, hsame, hvt, hw, hval⟩
  · rw [hwalk]
    exact Or.inl rfl
  · obtain ⟨h₂, hpte⟩ := h₁.write hvt hw ha (pa ||| perm ||| PTE_P)
    refine Or.inr ⟨_, h₂, fun vb hvb => ?_, ?_⟩
    · rw [hpte vb hvb, hsame]
    · rw [hwalk]
      simp only [hval, if_neg hfree]

/-- **The loop of `mappages`** over the page of `a` and the `n` pages after it: it writes their entries, or
runs out of pages for page tables; other entries stay. -/
theorem mapLoop_flat (perm n fuel a pa : ℕ) (h : Directory lay m d) (ha : a < ADDRESSES)
    (hal : a % PGSIZE = 0) (hpa : pa < ADDRESSES) (hn : n < PAGES) (hfuel : n < fuel)
    (hlast : last = (a + n * PGSIZE) % ADDRESSES)
    (hfree : ∀ vb < ADDRESSES, pagesTo a vb ≤ n → ¬ Present (pteAt m d vb)) :
    ∃ ok m', mapLoop d last perm fuel a pa m = .ok (ok, m') ∧ Directory lay m' d
      ∧ (∀ vb < ADDRESSES, n < pagesTo a vb → pteAt m' d vb = pteAt m d vb)
      ∧ (ok = true → ∀ vb < ADDRESSES, pagesTo a vb ≤ n →
        pteAt m' d vb = (pa + pagesTo a vb * PGSIZE) % ADDRESSES ||| perm ||| PTE_P) := by
  induction n generalizing fuel a pa m with
  | zero =>
    obtain ⟨fuel, rfl⟩ : ∃ k, fuel = k + 1 := ⟨fuel - 1, by omega⟩
    have hzero := (pagesTo_eq_zero ha ha).mpr rfl
    rcases mapLoop_turn last perm fuel pa h ha (hfree a ha (le_of_eq hzero)) with
      hloop | ⟨m₁, h₁, hpte, hloop⟩
    · exact ⟨false, m, hloop, h, fun _ _ _ => rfl, fun hf => by cases hf⟩
    · have hdone : a = last := by
        rw [hlast, Nat.zero_mul, Nat.add_zero, Nat.mod_eq_of_lt ha]
      rw [if_pos hdone] at hloop
      refine ⟨true, m₁, hloop, h₁, fun vb hvb hout => ?_, fun _ vb hvb hin => ?_⟩
      · rw [hpte vb hvb, if_neg]
        intro hc
        have := (pagesTo_eq_zero ha hvb).mpr hc
        omega
      · have hz := Nat.le_zero.mp hin
        rw [hpte vb hvb, if_pos ((pagesTo_eq_zero ha hvb).mp hz), hz, Nat.zero_mul, Nat.add_zero,
          Nat.mod_eq_of_lt hpa]
  | succ n ih =>
    obtain ⟨fuel, rfl⟩ : ∃ k, fuel = k + 1 := ⟨fuel - 1, by omega⟩
    have hzero := (pagesTo_eq_zero ha ha).mpr rfl
    rcases mapLoop_turn last perm fuel pa h ha
      (hfree a ha (by rw [hzero]; exact Nat.zero_le _)) with hloop | ⟨m₁, h₁, hpte, hloop⟩
    · exact ⟨false, m, hloop, h, fun _ _ _ => rfl, fun hf => by cases hf⟩
    · have hmore : a ≠ last := by
        simp only [hlast, PGSIZE, PAGES, ADDRESSES] at *
        omega
      rw [if_neg hmore] at hloop
      -- the page of `a` is the only one of the range that the rest of the loop does not reach
      have hnext : ∀ vb < ADDRESSES, vb / PGSIZE ≠ a / PGSIZE →
          pagesTo a vb = pagesTo ((a + PGSIZE) % ADDRESSES) vb + 1 := fun vb hvb => pagesTo_next ha hvb
      have hself : ∀ vb < ADDRESSES, vb / PGSIZE = a / PGSIZE →
          pagesTo ((a + PGSIZE) % ADDRESSES) vb = PAGES - 1 := fun vb hvb heq => by
        simp only [pagesTo, PGSIZE, PAGES, ADDRESSES] at *
        omega
      have hfree' : ∀ vb < ADDRESSES, pagesTo ((a + PGSIZE) % ADDRESSES) vb ≤ n
          → ¬ Present (pteAt m₁ d vb) := by
        intro vb hvb hle
        have hne : vb / PGSIZE ≠ a / PGSIZE := fun heq => by
          have := hself vb hvb heq
          omega
        rw [hpte vb hvb, if_neg hne]
        exact hfree vb hvb (by rw [hnext vb hvb hne]; omega)
      obtain ⟨ok, m', hrest, h', hout, hin⟩ :=
        ih fuel ((a + PGSIZE) % ADDRESSES) ((pa + PGSIZE) % ADDRESSES) h₁
        (Nat.mod_lt _ (by decide)) (next_page_aligned hal) (Nat.mod_lt _ (by decide)) (by omega) (by omega)
        (by rw [hlast, offset_next]) hfree'
      refine ⟨ok, m', hloop.trans hrest, h', fun vb hvb hgt => ?_, fun hok vb hvb hle => ?_⟩
      · have hne : vb / PGSIZE ≠ a / PGSIZE := fun heq => by
          have := (pagesTo_eq_zero ha hvb).mpr heq
          omega
        have hone := hnext vb hvb hne
        rw [hout vb hvb (by omega), hpte vb hvb, if_neg hne]
      · by_cases heq : vb / PGSIZE = a / PGSIZE
        · rw [hout vb hvb (by rw [hself vb hvb heq]; omega), hpte vb hvb, if_pos heq,
            (pagesTo_eq_zero ha hvb).mpr heq, Nat.zero_mul, Nat.add_zero, Nat.mod_eq_of_lt hpa]
        · have hone := hnext vb hvb heq
          rw [hin hok vb hvb (by omega), hone, offset_next]

/-- The pages from one to another, round the end of the address space if the second lies below the first. -/
def Between (first last page : ℕ) : Prop :=
  if first ≤ last then first ≤ page ∧ page ≤ last else first ≤ page ∨ page ≤ last

/-- The last page of a range, `PGROUNDDOWN(va + size - 1)`. -/
def lastPage (va size : ℕ) : ℕ := PGROUNDDOWN ((va + size + (ADDRESSES - 1)) % ADDRESSES)

theorem lastPage_spec (va size : ℕ) : lastPage va size % PGSIZE = 0 ∧ lastPage va size < ADDRESSES := by
  simp only [lastPage, PGROUNDDOWN, PGSIZE, ADDRESSES]
  omega

theorem pagesTo_eq (ha : a < ADDRESSES) (hvb : vb < ADDRESSES) :
    pagesTo a vb = if a / PGSIZE ≤ vb / PGSIZE then vb / PGSIZE - a / PGSIZE
    else vb / PGSIZE + PAGES - a / PGSIZE := by
  split_ifs <;> simp only [pagesTo, PGSIZE, PAGES, ADDRESSES] at * <;> omega

theorem between_iff (hva : va < ADDRESSES) (hvb : vb < ADDRESSES) (hlast : last < ADDRESSES)
    (hal : last % PGSIZE = 0) :
    Between (PGROUNDDOWN va) last (PGROUNDDOWN vb) ↔ pagesTo va vb ≤ pagesTo va last := by
  rw [Between, pagesTo_eq hva hvb, pagesTo_eq hva hlast]
  split_ifs <;> simp only [PGROUNDDOWN, PGSIZE, PAGES, ADDRESSES] at * <;> omega

theorem add_pagesTo (ha : a < ADDRESSES) (hal : a % PGSIZE = 0) (hlast : last < ADDRESSES)
    (hl : last % PGSIZE = 0) : last = (a + pagesTo a last * PGSIZE) % ADDRESSES := by
  rw [pagesTo_eq ha hlast]
  split_ifs <;> simp only [PGSIZE, PAGES, ADDRESSES] at * <;> omega

/-- **What `mappages` does on pages that are not mapped**: it returns, the entries of other pages stay, and if
it returns 0 every page from `PGROUNDDOWN(va)` to `PGROUNDDOWN(va + size - 1)` has its own entry. -/
theorem mappages_flat {size pa : ℕ} (perm : ℕ) (h : Directory lay m d) (hva : va < ADDRESSES)
    (hpa : pa < ADDRESSES)
    (hfree : ∀ vb < ADDRESSES, Between (PGROUNDDOWN va) (lastPage va size) (PGROUNDDOWN vb)
    → ¬ Present (pteAt m d vb)) : ∃ ok m', mappages m d va size pa perm = .ok (ok, m') ∧ Directory lay m' d
      ∧ (∀ vb < ADDRESSES, ¬ Between (PGROUNDDOWN va) (lastPage va size) (PGROUNDDOWN vb)
        → pteAt m' d vb = pteAt m d vb)
      ∧ (ok = true → ∀ vb < ADDRESSES, Between (PGROUNDDOWN va) (lastPage va size) (PGROUNDDOWN vb) →
        pteAt m' d vb = (pa + pagesTo va vb * PGSIZE) % ADDRESSES ||| perm ||| PTE_P) := by
  obtain ⟨hal, hlt⟩ := lastPage_spec va size
  have hfirst : PGROUNDDOWN va < ADDRESSES ∧ PGROUNDDOWN va % PGSIZE = 0 := by
    simp only [PGROUNDDOWN, PGSIZE, ADDRESSES] at *
    omega
  have hsame : ∀ vb, pagesTo (PGROUNDDOWN va) vb = pagesTo va vb := fun vb => by
    rw [pagesTo, pagesTo, PGROUNDDOWN, Nat.mul_div_cancel _ (by decide)]
  obtain ⟨ok, m', hloop, h', hout, hin⟩ :=
    mapLoop_flat perm (pagesTo (PGROUNDDOWN va) (lastPage va size)) PAGES
    (PGROUNDDOWN va) pa h hfirst.1 hfirst.2 hpa (Nat.mod_lt _ (by decide)) (Nat.mod_lt _ (by decide))
    (add_pagesTo hfirst.1 hfirst.2 hlt hal) fun vb hvb hle =>
      hfree vb hvb ((between_iff hva hvb hlt hal).mpr (by rwa [hsame, hsame] at hle))
  simp only [hsame] at hout hin
  refine ⟨ok, m', hloop, h', fun vb hvb hnot => ?_, fun hok vb hvb hbet => ?_⟩
  · exact hout vb hvb (not_le.mp fun hle => hnot ((between_iff hva hvb hlt hal).mpr hle))
  · exact hin hok vb hvb ((between_iff hva hvb hlt hal).mp hbet)

/-! ### `setupkvm` -/

/-- **The documented map** of the kernel: physical memory at `KERNBASE`, read-only between `KERNLINK` and
`data`, and devices at their own addresses. -/
def kernelMap (lay : Layout) (va : ℕ) : Option (ℕ × Bool × Bool) :=
  if KERNBASE ≤ va ∧ va < KERNBASE + PHYSTOP then
    some (va - KERNBASE, ¬ (KERNLINK ≤ va ∧ va < lay.data), false)
  else if DEVSPACE ≤ va then some (va, true, false)
  else none

theorem rangeEntry_of_inside (fuel a pa x : ℕ) (hr : KernelRange a last) (hva : a ≤ va)
    (hlt : va < last + PGSIZE) (hfuel : last - a < fuel * PGSIZE) (hpa : pa + (last - a) < ADDRESSES) :
    rangeEntry va last perm fuel a pa x = pa + (PGROUNDDOWN va - a) ||| perm ||| PTE_P := by
  induction fuel generalizing a pa x with
  | zero => omega
  | succ fuel ih =>
    have hle := hr.le
    have hal := hr.first_aligned
    have hlal := hr.last_aligned
    rw [rangeEntry]
    by_cases hdone : a = last
    · have hpage : va / PGSIZE = a / PGSIZE ∧ PGROUNDDOWN va - a = 0 := by
        simp only [PGROUNDDOWN, PGSIZE] at *
        omega
      simp only [if_pos hdone, if_pos hpage.1, hpage.2, Nat.add_zero]
    · obtain ⟨hnext, hr'⟩ := hr.next hdone
      simp only [if_neg hdone]
      have hpa' : (pa + PGSIZE) % ADDRESSES = pa + PGSIZE := Nat.mod_eq_of_lt (by
        have := hr'.le
        omega)
      rw [hnext, hpa']
      by_cases hpage : va / PGSIZE = a / PGSIZE
      · rw [rangeEntry_of_outside hr' (Or.inl (by simp only [PGSIZE] at *; omega)), if_pos hpage]
        have hzero : PGROUNDDOWN va - a = 0 := by
          simp only [PGROUNDDOWN, PGSIZE] at *
          omega
        rw [hzero, Nat.add_zero]
      · have hge : a + PGSIZE ≤ PGROUNDDOWN va := by
          simp only [PGROUNDDOWN, PGSIZE] at *
          omega
        have hge' : a + PGSIZE ≤ va := le_trans hge (by simp only [PGROUNDDOWN]; exact Nat.div_mul_le_self ..)
        rw [ih (a + PGSIZE) (pa + PGSIZE) _ hr' hge' (by
          have := hr'.le
          simp only [PGSIZE] at *
          omega) (by
          have := hr'.le
          omega)]
        have hsum : pa + PGSIZE + (PGROUNDDOWN va - (a + PGSIZE)) = pa + (PGROUNDDOWN va - a) := by omega
        rw [hsum]

theorem rowEntry_eq {k : Kmap} (hr : KernelRange (Kmap.first k) (Kmap.last k))
    (hpa : k.physStart + (Kmap.last k - Kmap.first k) < ADDRESSES) (x : ℕ) :
    rowEntry va x k = if Kmap.first k ≤ va ∧ va < Kmap.last k + PGSIZE
      then k.physStart + (PGROUNDDOWN va - Kmap.first k) ||| k.perm ||| PTE_P else x := by
  rw [rowEntry]
  by_cases hin : Kmap.first k ≤ va ∧ va < Kmap.last k + PGSIZE
  · have hfuel : Kmap.last k - Kmap.first k < PAGES * PGSIZE :=
      lt_of_le_of_lt (Nat.sub_le _ _) (lt_of_lt_of_le hr.lt (by decide))
    rw [if_pos hin, rangeEntry_of_inside _ _ _ _ hr hin.1 hin.2 hfuel hpa]
  · rw [if_neg hin, rangeEntry_of_outside hr (by omega)]

theorem row_bounds (lay : Layout) : (kmap lay).map (fun k => (Kmap.first k, Kmap.last k + PGSIZE)) =
    [(KERNBASE, KERNLINK), (KERNLINK, lay.data), (lay.data, KERNBASE + PHYSTOP), (DEVSPACE, ADDRESSES)] := by
  obtain ⟨data, kernelEnd, hgt, hlt, hal, _⟩ := lay
  simp only [KERNLINK, KERNBASE, EXTMEM, PHYSTOP, PGSIZE] at hgt hlt hal
  simp only [kmap, List.map_cons, List.map_nil, List.cons.injEq, Prod.mk.injEq, and_true]
  refine ⟨⟨?_, ?_⟩, ⟨?_, ?_⟩, ⟨?_, ?_⟩, ⟨?_, ?_⟩⟩
  all_goals
    simp only [Kmap.first, Kmap.last, Kmap.size, PGROUNDDOWN, V2P, KERNLINK, KERNBASE, EXTMEM, PHYSTOP,
      DEVSPACE, PGSIZE, ADDRESSES] at * <;> omega

/-- A row of `kmap` maps its range to physical addresses that do not wrap around. -/
theorem row_phys (lay : Layout) : ∀ k ∈ kmap lay, k.physStart + (Kmap.last k - Kmap.first k) < ADDRESSES := by
  obtain ⟨data, kernelEnd, hgt, hlt, hal, _⟩ := lay
  intro k hk
  simp only [kmap, List.mem_cons, List.not_mem_nil, or_false] at hk
  simp only [KERNLINK, KERNBASE, EXTMEM, PHYSTOP, PGSIZE] at hgt hlt hal
  rcases hk with rfl | rfl | rfl | rfl
  all_goals
    simp only [Kmap.first, Kmap.last, Kmap.size, PGROUNDDOWN, V2P, KERNLINK, KERNBASE, EXTMEM, PHYSTOP,
      DEVSPACE, PGSIZE, ADDRESSES] at *
    omega

theorem le_page (hal : b % PGSIZE = 0) (hva : b ≤ va) : b ≤ PGROUNDDOWN va := by
  simp only [PGROUNDDOWN, PGSIZE] at *
  omega

theorem V2P_add_page (hal : b % PGSIZE = 0) (hb : KERNBASE ≤ b) (hlt : b < ADDRESSES) (hva : b ≤ va) :
    V2P b + (PGROUNDDOWN va - b) = PGROUNDDOWN va - KERNBASE := by
  simp only [V2P, PGROUNDDOWN, PGSIZE, KERNBASE, ADDRESSES] at *
  omega

/-- **The entry that `setupkvm` gives an address.** -/
theorem kernelEntry_eq (lay : Layout) (hva : va < ADDRESSES) : kernelEntry lay va =
    if KERNBASE ≤ va ∧ va < KERNBASE + PHYSTOP
    then PGROUNDDOWN va - KERNBASE ||| (if KERNLINK ≤ va ∧ va < lay.data then 0 else PTE_W) ||| PTE_P
    else if DEVSPACE ≤ va then PGROUNDDOWN va ||| PTE_W ||| PTE_P
    else 0 := by
  have hrow : ∀ k ∈ kmap lay, ∀ x, rowEntry va x k = if Kmap.first k ≤ va ∧ va < Kmap.last k + PGSIZE
      then k.physStart + (PGROUNDDOWN va - Kmap.first k) ||| k.perm ||| PTE_P else x :=
    fun k hk x => rowEntry_eq (kmap_rows lay k hk).1 (row_phys lay k hk) x
  have hbounds := row_bounds lay
  simp only [kmap, List.map_cons, List.map_nil, List.cons.injEq, Prod.mk.injEq, and_true] at hbounds
  simp only [kmap, List.forall_mem_cons, List.not_mem_nil, false_imp_iff, implies_true, and_true] at hrow
  obtain ⟨⟨f₁, l₁⟩, ⟨f₂, l₂⟩, ⟨f₃, l₃⟩, f₄, l₄⟩ := hbounds
  obtain ⟨r₁, r₂, r₃, r₄⟩ := hrow
  rw [kernelEntry, kmap, List.foldl_cons, List.foldl_cons, List.foldl_cons, List.foldl_cons, List.foldl_nil]
  rw [r₄, r₃, r₂, r₁]
  rw [f₁, f₂, f₃, f₄, l₁, l₂, l₃, l₄]
  have hgt := lay.data_gt
  have hlt := lay.data_lt
  have hdev : KERNBASE + PHYSTOP ≤ DEVSPACE := by decide
  have hlink : KERNBASE ≤ KERNLINK := by decide
  by_cases h₄ : DEVSPACE ≤ va
  · rw [if_pos ⟨h₄, hva⟩, if_neg (by omega), if_pos h₄, Nat.add_sub_cancel' (le_page (by decide) h₄)]
  rw [if_neg (by omega), if_neg h₄]
  by_cases h₃ : lay.data ≤ va ∧ va < KERNBASE + PHYSTOP
  · rw [if_pos h₃, if_pos (by omega), if_neg (by omega),
      V2P_add_page lay.data_aligned (by omega) (by simp only [KERNBASE, PHYSTOP, ADDRESSES] at *; omega) h₃.1]
  rw [if_neg h₃]
  by_cases h₂ : KERNLINK ≤ va ∧ va < lay.data
  · rw [if_pos h₂, if_pos (by omega), if_pos h₂, V2P_add_page (by decide) (by decide) (by decide) h₂.1]
  rw [if_neg h₂, if_neg h₂]
  by_cases h₁ : KERNBASE ≤ va ∧ va < KERNLINK
  · rw [if_pos h₁, if_pos (by omega), Nat.zero_add]
  · rw [if_neg h₁, if_neg (by omega)]

theorem and_of_page {f : ℕ} (hp : p % PGSIZE = 0) (hb : b < PGSIZE) : (p ||| f) &&& b = f &&& b := by
  have hzero : p &&& b = 0 := by
    obtain ⟨q, rfl⟩ : ∃ q, p = 2 ^ 12 * q := ⟨p / PGSIZE, by simp only [PGSIZE] at *; omega⟩
    apply Nat.eq_of_testBit_eq
    intro i
    rw [Nat.testBit_and, Nat.testBit_two_pow_mul, Nat.zero_testBit]
    by_cases hi : 12 ≤ i
    · rw [Nat.testBit_lt_two_pow (lt_of_lt_of_le hb (Nat.pow_le_pow_right (n := 2) (by decide) hi)),
        Bool.and_false]
    · simp [hi]
  rw [Nat.and_or_distrib_right, hzero, Nat.zero_or]

theorem flat_entry (hp : p % PGSIZE = 0) (hperm : perm = 0 ∨ perm = PTE_W) (va : ℕ) :
    flat (p ||| perm ||| PTE_P) va = some (p + va % PGSIZE, decide (perm ≠ 0), false) := by
  have haddr : PTE_ADDR (p ||| perm ||| PTE_P) = p := by
    have hlt : perm ||| PTE_P < PGSIZE := or_flags_lt (by rcases hperm with rfl | rfl <;> decide)
    rw [Nat.or_assoc, or_flags hp hlt, PTE_ADDR]
    simp only [PGSIZE] at *
    omega
  rw [flat, if_pos (present_or _), haddr, Nat.or_assoc]
  rcases hperm with rfl | rfl
  · rw [and_of_page hp (by decide), and_of_page hp (by decide)]
    rfl
  · rw [and_of_page hp (by decide), and_of_page hp (by decide)]
    rfl

theorem flat_kernelEntry (lay : Layout) (hva : va < ADDRESSES) :
    flat (kernelEntry lay va) va = kernelMap lay va := by
  rw [kernelEntry_eq lay hva, kernelMap]
  by_cases hmem : KERNBASE ≤ va ∧ va < KERNBASE + PHYSTOP
  · have hpage : (PGROUNDDOWN va - KERNBASE) % PGSIZE = 0 ∧ PGROUNDDOWN va - KERNBASE + va % PGSIZE
        = va - KERNBASE := by
      simp only [PGROUNDDOWN, PGSIZE, KERNBASE] at *
      omega
    rw [if_pos hmem, if_pos hmem]
    by_cases htext : KERNLINK ≤ va ∧ va < lay.data
    · rw [if_pos htext, flat_entry hpage.1 (Or.inl rfl), hpage.2]
      simp [htext]
    · rw [if_neg htext, flat_entry hpage.1 (Or.inr rfl), hpage.2]
      simp [htext, PTE_W]
  · rw [if_neg hmem, if_neg hmem]
    by_cases hdev : DEVSPACE ≤ va
    · have hpage : PGROUNDDOWN va % PGSIZE = 0 ∧ PGROUNDDOWN va + va % PGSIZE = va := by
        simp only [PGROUNDDOWN, PGSIZE]
        omega
      rw [if_pos hdev, if_pos hdev, flat_entry hpage.1 (Or.inr rfl), hpage.2]
      rfl
    · rw [if_neg hdev, if_neg hdev, flat, if_neg not_present_zero]

theorem kernelEntry_user (lay : Layout) (hva : va < ADDRESSES) : kernelEntry lay va &&& PTE_U = 0 := by
  rw [kernelEntry_eq lay hva]
  have hpage : (PGROUNDDOWN va - KERNBASE) % PGSIZE = 0 ∧ PGROUNDDOWN va % PGSIZE = 0 := by
    simp only [PGROUNDDOWN, PGSIZE, KERNBASE]
    omega
  split_ifs
  · rw [Nat.or_assoc, and_of_page hpage.1 (by decide)]
    rfl
  · rw [Nat.or_assoc, and_of_page hpage.1 (by decide)]
    rfl
  · rw [Nat.or_assoc, and_of_page hpage.2 (by decide)]
    rfl
  · rfl

/-- The free list holds pages of the allocator, each once. -/
structure FreePages (lay : Layout) (m : Mem) : Prop where
  valid : ∀ v ∈ m.freelist, ValidPage lay v
  nodup : m.freelist.Nodup

/-- Of a free list, every page is free and nothing else is known. -/
theorem owned_of_freePages (h : FreePages lay m) :
    Owned lay (fun v => if v ∈ m.freelist then .free else .other) 0 m where
  free v hv := if_pos hv
  nodup := h.nodup
  valid v hv := by
    by_contra hnot
    exact hv (if_neg fun hmem => hnot (h.valid v hmem))
  table d i hd _ _ := by split_ifs at hd
  user d va hd _ _ := by split_ifs at hd
  heap va hd _ _ := by split_ifs at hd

/-- **`setupkvm` returns**, and a page directory that it returns translates addresses as documented; no entry
of its page tables has `PTE_U`. -/
theorem setupkvm_map (hend : KERNBASE < lay.kernelEnd) (h : FreePages lay m) :
    ∃ r m', setupkvm lay m = .ok (r, m') ∧ (r ≠ 0 → ∀ va < ADDRESSES, translation m' r va = kernelMap lay va
      ∧ pteAt m' r va &&& PTE_U = 0) := by
  obtain ⟨own, hexact, _⟩ := exists_exact (owned_of_freePages h)
  have hk : own 0 ≠ .free := fun hfree =>
    (hexact.valid 0 (ne_of_eq_of_ne hfree fun h => by cases h)).ne_zero rfl
  obtain ⟨r, m', hok, _⟩ := setupkvm_exact hend hexact hk
  refine ⟨r, m', hok, fun hr va hva => ?_⟩
  obtain ⟨own', howned, _, hout⟩ := setupkvm_spec hexact.toOwned hk hok
  obtain ⟨_, hdir, hpte⟩ := hout.resolve_left hr
  rw [translation_eq_flat (directory_of_owned howned hdir), hpte va hva]
  exact ⟨flat_kernelEntry lay hva, kernelEntry_user lay hva⟩

/-- **`setupkvm` builds the documented map, and `mappages` maps exactly its range.**  `setupkvm` always
returns, and a page directory that it returns translates every address as documented, with no `PTE_U` in its
page tables.  `mappages` on pages that are not mapped always returns; it changes the translation of no page
but those from `PGROUNDDOWN(va)` to `PGROUNDDOWN(va + size - 1)`, and when it returns 0 it has changed all of
these. -/
theorem kernel_map_exact (hend : KERNBASE < lay.kernelEnd) :
    (∀ m, FreePages lay m → ∃ r m', setupkvm lay m = .ok (r, m')
      ∧ (r ≠ 0 → ∀ va < ADDRESSES, translation m' r va = kernelMap lay va ∧ pteAt m' r va &&& PTE_U = 0))
    ∧ ∀ m d va size pa perm, Directory lay m d → va < ADDRESSES → 0 < size → pa < ADDRESSES →
      (∀ vb < ADDRESSES, Between (PGROUNDDOWN va) (lastPage va size) (PGROUNDDOWN vb)
      → ¬ Present (pteAt m d vb)) → ∃ ok m', mappages m d va size pa perm = .ok (ok, m')
        ∧ (∀ vb < ADDRESSES, ¬ Between (PGROUNDDOWN va) (lastPage va size) (PGROUNDDOWN vb) →
          translation m' d vb = translation m d vb)
        ∧ (ok = true → ∀ vb < ADDRESSES, Between (PGROUNDDOWN va) (lastPage va size) (PGROUNDDOWN vb) →
          translation m d vb = none ∧ translation m' d vb ≠ none
          ∧ translation m' d vb
          = flat ((pa + pagesTo va vb * PGSIZE) % ADDRESSES ||| perm ||| PTE_P) vb) := by
  refine ⟨fun m h => setupkvm_map hend h, fun m d va size pa perm h hva _ hpa hfree => ?_⟩
  obtain ⟨ok, m', hok, h', hout, hin⟩ := mappages_flat perm h hva hpa hfree
  refine ⟨ok, m', hok, fun vb hvb hnot => ?_, fun htrue vb hvb hbet => ?_⟩
  · rw [translation_eq_flat h', translation_eq_flat h, hout vb hvb hnot]
  · have hnew : translation m' d vb
        = flat ((pa + pagesTo va vb * PGSIZE) % ADDRESSES ||| perm ||| PTE_P) vb := by
      rw [translation_eq_flat h', hin htrue vb hvb hbet]
    refine ⟨?_, ?_, hnew⟩
    · rw [translation_eq_flat h, flat, if_neg (hfree vb hvb hbet)]
    · rw [hnew, flat, if_pos (present_or _)]
      exact Option.some_ne_none _

/-- With 2048 free pages there is a page directory. -/
theorem kernel_map_exact_empty : ∃ r m', setupkvm smallLayout (emptyMem 2048) = .ok (r, m') ∧ r ≠ 0
    ∧ ∀ va < ADDRESSES, translation m' r va = kernelMap smallLayout va := by
  have howned := owned_empty (n := 2048) (le_refl _)
  have hfree : FreePages smallLayout (emptyMem 2048) := ⟨fun v hv => howned.valid_of_mem hv, howned.nodup⟩
  obtain ⟨d, m₁, hsetup, hne, _⟩ := setupkvm_returns (owned_of_freePages hfree)
    (by rw [if_neg fun hmem => (hfree.valid 0 hmem).ne_zero rfl]; exact fun h => by cases h)
    (by rw [length_emptyMem]; decide)
  obtain ⟨r, m', hok, hmap⟩ := (kernel_map_exact (by decide)).1 (emptyMem 2048) hfree
  have hr : r = d := by
    rw [hok] at hsetup
    exact congrArg Prod.fst (Except.ok.inj hsetup)
  exact ⟨r, m', hok, hr ▸ hne, fun va hva => (hmap (hr ▸ hne) va hva).1⟩

end Xv6e.Memory.KernelMap
