import Xv6e.Memory.FrameCalls

/-!
# New address spaces

`setupkvm` and `copyuvm` make a page directory from free pages, or give back every page they have taken.

* `Made` — a page directory that was a free page, and what has been taken for it; `unmade` — `freevm` undoes
  it;
* `setupkvm_exact`, `copyuvm_exact` — the two calls.
-/

namespace Xv6e.Memory.NewSpaces

open PageTable Ownership AddressSpace Frames FrameCalls
open Function (update update_idem update_self update_of_ne update_eq_self)

variable {lay : Layout} {own own' own'' : ℕ → Owner} {kpgdir d : ℕ} {m m' m'' : Mem} {U V : ℕ → Prop}

/-- Page directory `d` has been made from a free page; what has been taken since belongs to it. -/
structure Made (lay : Layout) (kpgdir d : ℕ) (own : ℕ → Owner) (m : Mem) (own' : ℕ → Owner)
    (m' : Mem) : Prop where
  exact : Exact lay own' kpgdir m'
  free : own d = .free
  dir : own' d = .dir
  gains : ∀ v, v ≠ d → own' v = own v ∨ own v = .free ∧ dirOf (own' v) = some d
  pte : ∀ e va, own e = .dir → va < ADDRESSES → pteAt m' e va = pteAt m e va
  words : ∀ v, own v ≠ .free → (own v).paging = false → m'.word v = m.word v

theorem Made.keep (h : Made lay kpgdir d own m own' m') {v : ℕ} (hv : own v ≠ .free) : own' v = own v := by
  have hvd : v ≠ d := fun hvd => hv (by rw [hvd, h.free])
  exact (h.gains v hvd).resolve_right fun hf => hv hf.1

theorem Made.grow (h : Made lay kpgdir d own m own' m') (hg : Grown lay kpgdir d U own' m' own'' m'') :
    Made lay kpgdir d own m own'' m'' where
  exact := hg.exact
  free := h.free
  dir := by rw [hg.keep (by rw [h.dir]; exact (by simp)), h.dir]
  gains v hv := by
    rcases h.gains v hv with hv' | ⟨hfree, hof⟩
    · rw [← hv']
      rcases hg.gains v with hv'' | ⟨hfree, ⟨i, hi⟩ | ⟨p, _, hp⟩⟩
      · exact Or.inl hv''
      · exact Or.inr ⟨hfree, by rw [hi]; rfl⟩
      · exact Or.inr ⟨hfree, by rw [hp]; rfl⟩
    · have hne : own' v ≠ .free := fun hf => by
        rw [hf] at hof
        cases hof
      rw [hg.keep hne]
      exact Or.inr ⟨hfree, hof⟩
  pte e va he hva := by
    have hed : e ≠ d := fun hed => by
      rw [hed, h.free] at he
      cases he
    rw [hg.pte e va (by rw [h.keep (by simp [he]), he]) hva fun hc => hed hc.1, h.pte e va he hva]
  words v hfv hpv := by
    have hv := h.keep hfv
    rw [hg.words v (by rw [hv]; exact hfv) (by rw [hv]; exact hpv), h.words v hfv hpv]

/-- A call that has given back every page it took: only the order and the contents of free pages may
differ. -/
structure Unchanged (lay : Layout) (kpgdir : ℕ) (own : ℕ → Owner) (m m' : Mem) : Prop where
  exact : Exact lay own kpgdir m'
  pte : ∀ e va, own e = .dir → va < ADDRESSES → pteAt m' e va = pteAt m e va
  words : ∀ v, own v ≠ .free → (own v).paging = false → m'.word v = m.word v

theorem unchanged_refl (h : Exact lay own kpgdir m) : Unchanged lay kpgdir own m m :=
  ⟨h, fun _ _ _ _ => rfl, fun _ _ _ => rfl⟩

theorem Unchanged.grown (h : Unchanged lay kpgdir own m m') : Grown lay kpgdir d U own m own m' :=
  ⟨h.exact, fun _ => Or.inl rfl, fun e va he hva _ => h.pte e va he hva, h.words⟩

theorem dirOf_ne_of_free (h : Exact lay own kpgdir m) (hd : own d = .free) (v : ℕ) :
    dirOf (own v) ≠ some d := by
  intro hv
  have hdir : own d = .dir := by
    cases hown : own v with
    | table e i =>
      rw [hown] at hv
      rw [← Option.some.inj hv]
      exact (h.linked v e i hown).1
    | user e p =>
      rw [hown] at hv
      rw [← Option.some.inj hv]
      exact (h.mapped v e p hown).1
    | _ =>
      rw [hown] at hv
      cases hv
  rw [hd] at hdir
  cases hdir

/-- **`freevm` of a new page directory** gives back all that was taken for it. -/
theorem unmade (hend : KERNBASE < lay.kernelEnd) (h : Exact lay own kpgdir m)
    (hm : Made lay kpgdir d own m own' m') :
    ∃ m'', freevm lay m' d = .ok m'' ∧ Unchanged lay kpgdir own m m'' := by
  obtain ⟨m'', hfree, hexact, hpte, hwords⟩ := freevm_exact hend hm.exact hm.dir
  have hnot := dirOf_ne_of_free h hm.free
  have howners : handOver .free own' d = own := by
    funext v
    by_cases hvd : v = d
    · rw [hvd, hm.free]
      exact if_pos (Or.inl rfl)
    rcases hm.gains v hvd with hv | ⟨hf, hof⟩
    · rw [handOver_of_ne hvd (by rw [hv]; exact hnot v), hv]
    · rw [hf]
      exact if_pos (Or.inr hof)
  rw [howners] at hexact
  refine ⟨m'', hfree, hexact, fun e va he hva => ?_, fun v hfv hpv => ?_⟩
  · have hed : e ≠ d := fun hed => by
      rw [hed, hm.free] at he
      cases he
    rw [hpte e va (by rw [hm.keep (by simp [he]), he]) hed hva, hm.pte e va he hva]
  · have hv := hm.keep hfv
    rw [hwords v (by rw [hv]; exact hfv) (by rw [hv]; exact hpv) (by rw [hv]; exact hnot v),
      hm.words v hfv hpv]

/-! ### `setupkvm` -/

/-- The addresses of the pages from `a` to `last`. -/
def range (a last : ℕ) : ℕ → Prop := fun va => a ≤ va ∧ va < last + PGSIZE

/-- The loop of `mappages` over kernel addresses that have no entry yet; it may run out of memory. -/
theorem mapLoop_kernel {last w : ℕ} (hk : d ≠ kpgdir) (fuel a pa : ℕ) (h : Exact lay own kpgdir m)
    (hd : own d = .dir) (hr : KernelRange a last) (hfuel : last < a + fuel * PGSIZE)
    (habsent : ∀ va, range a last va → ¬ Present (pteAt m d va)) :
    ∃ ok own' m', mapLoop d last w fuel a pa m = .ok (ok, m')
      ∧ Grown lay kpgdir d (range a last) own m own' m' := by
  induction fuel generalizing a pa m own with
  | zero =>
    have := hr.le
    omega
  | succ fuel ih =>
    have hlt : a < ADDRESSES := lt_of_le_of_lt hr.le hr.lt
    have hpage : ∀ va, pageOf a va → range a last va := fun va hva => by
      have h1 := hr.first_aligned
      have h2 := hr.le
      simp only [pageOf, range, PGSIZE] at *
      omega
    rw [mapLoop]
    rcases h.walk hd a with hwalk | ⟨t, own₁, m₁, hwalk, hg, ht, hw, hentry⟩
    · simp only [hwalk]
      exact ⟨false, own, m, rfl, Grown.refl h⟩
    simp only [hwalk]
    have hd₁ : own₁ d = .dir := by rw [hg.keep (by simp [hd]), hd]
    have habsentA : ¬ Present (m₁.word t (PTX a)) := by
      rw [hentry]
      exact habsent a (hpage a rfl)
    rw [if_neg habsentA]
    have hset := hg.exact.setKernel (pa ||| w ||| PTE_P) hk ht hw hr.kernel hlt
    have hboth : Grown lay kpgdir d (pageOf a) own m own₁ (m₁.setWord t (PTX a) (pa ||| w ||| PTE_P)) :=
      (hg.mono fun _ hf => hf.elim).trans hset
    by_cases hlast : a = last
    · rw [if_pos hlast]
      exact ⟨true, own₁, _, rfl, hboth.mono hpage⟩
    · obtain ⟨hstep, hnext⟩ := hr.next hlast
      have hsub : ∀ va, range (a + PGSIZE) last va → range a last va ∧ ¬ pageOf a va := fun va hva => by
        have h1 := hr.first_aligned
        simp only [pageOf, range, PGSIZE] at *
        omega
      obtain ⟨ok, own₂, m₂, hloop, hg₂⟩ := ih (a + PGSIZE) ((pa + PGSIZE) % ADDRESSES) hboth.exact hd₁ hnext
        (by rw [Nat.succ_mul] at hfuel; omega)
        (fun va hva => by
          obtain ⟨hin, hnot⟩ := hsub va hva
          have hvalt : va < ADDRESSES := by
            have h1 := hr.lt
            have h2 := hr.last_aligned
            have h3 := hva.2
            simp only [PGSIZE, ADDRESSES] at *
            omega
          rw [hboth.pte d va hd hvalt fun hc => hnot hc.2]
          exact habsent va hin)
      rw [if_neg hlast, hstep]
      exact ⟨ok, own₂, m₂, hloop, (hboth.mono hpage).trans (hg₂.mono fun va hva => (hsub va hva).1)⟩

/-- The loop of `setupkvm`: the kernel part of the page directory grows, or the page directory goes. -/
theorem mapRows_exact (hend : KERNBASE < lay.kernelEnd) (h : Exact lay own kpgdir m) (hk : d ≠ kpgdir)
    (rows : List Kmap) (hrange : ∀ k ∈ rows, KernelRange (Kmap.first k) (Kmap.last k))
    (hsorted : rows.Pairwise fun k k' => Kmap.last k + PGSIZE ≤ Kmap.first k')
    (hm : Made lay kpgdir d own m own' m')
    (habsent : ∀ k ∈ rows, ∀ va, range (Kmap.first k) (Kmap.last k) va → ¬ Present (pteAt m' d va)) :
    ∃ r m'', mapRows lay d rows m' = .ok (r, m'')
      ∧ (r = 0 ∧ Unchanged lay kpgdir own m m''
        ∨ r = d ∧ ∃ own'', Made lay kpgdir d own m own'' m'' ∧ ∀ va < KERNBASE,
        pteAt m'' d va = pteAt m' d va) := by
  induction rows generalizing own' m' with
  | nil => exact ⟨d, m', rfl, Or.inr ⟨rfl, own', hm, fun _ _ => rfl⟩⟩
  | cons k rows ih =>
    have hr := hrange k List.mem_cons_self
    obtain ⟨hhead, htail⟩ := List.pairwise_cons.mp hsorted
    obtain ⟨ok, own₁, m₁, hloop, hg⟩ :=
      mapLoop_kernel (w := k.perm) hk PAGES (Kmap.first k) k.physStart hm.exact hm.dir hr (by
        have h1 := hr.lt
        simp only [PAGES, PGSIZE, ADDRESSES] at *
        omega)
      (habsent k List.mem_cons_self)
    have hmap : mappages m' d k.virt k.size k.physStart k.perm = .ok (ok, m₁) := hloop
    have hm₁ := hm.grow hg
    rw [mapRows, hmap]
    cases ok with
    | false =>
      obtain ⟨m₂, hfree, hun⟩ := unmade hend h hm₁
      refine ⟨0, m₂, ?_, Or.inl ⟨rfl, hun⟩⟩
      show (freevm lay m₁ d >>= fun m => .ok (0, m)) = _
      rw [hfree]
      rfl
    | true =>
      have hkept : ∀ va < ADDRESSES, ¬ range (Kmap.first k) (Kmap.last k) va
          → pteAt m₁ d va = pteAt m' d va :=
        fun va hva hout => hg.pte d va hm.dir hva fun hc => hout hc.2
      obtain ⟨r, m₂, hrest, hout⟩ := ih (fun k' hk' => hrange k' (List.mem_cons_of_mem k hk')) htail hm₁
        (fun k' hk' va hva => by
          have hlt : va < ADDRESSES := by
            have h1 := (hrange k' (List.mem_cons_of_mem k hk')).lt
            have h2 := (hrange k' (List.mem_cons_of_mem k hk')).last_aligned
            have h3 := hva.2
            simp only [PGSIZE, ADDRESSES] at *
            omega
          rw [hkept va hlt fun hc => ?_]
          · exact habsent k' (List.mem_cons_of_mem k hk') va hva
          · have h1 := hhead k' hk'
            have h2 := hc.2
            have h3 := hva.1
            omega)
      refine ⟨r, m₂, hrest, hout.imp id ?_⟩
      rintro ⟨hrd, own₂, hm₂, hpte⟩
      refine ⟨hrd, own₂, hm₂, fun va hva => ?_⟩
      rw [hpte va hva, hkept va (lt_trans hva (by decide)) fun hc => ?_]
      have h1 := hr.kernel
      have h2 := hc.1
      omega

/-- **`setupkvm`** makes a page directory with no user pages, or gives back what it has taken. -/
theorem setupkvm_exact (hend : KERNBASE < lay.kernelEnd) (h : Exact lay own kpgdir m)
    (hk : own kpgdir ≠ .free) : ∃ d m', setupkvm lay m = .ok (d, m') ∧ (d = 0 ∧ Unchanged lay kpgdir own m m'
      ∨ d ≠ 0 ∧ ∃ own', Made lay kpgdir d own m own' m' ∧ ∀ va < KERNBASE, ¬ Present (pteAt m' d va)) := by
  rw [setupkvm]
  rcases kalloc_cases m with ⟨_, hka⟩ | ⟨d, rest, hf, hka⟩
  · rw [hka]
    exact ⟨0, m, rfl, Or.inl ⟨rfl, unchanged_refl h⟩⟩
  obtain ⟨hfree, hvd, h1⟩ := h.take hf
  have hother : update own d .other d = .other := update_self ..
  set m₁ := Mem.memset { m with freelist := rest } d 0
  obtain ⟨h2, hpte2⟩ := h1.write (k := m₁) (v := d) (by rw [hother]; rfl) rfl
    fun u hu => memset_word_of_ne _ 0 hu
  have hz : ∀ i, m₁.word d i = 0 := fun i => memset_word_self ..
  have h3 := h2.promote hother hvd hz
  rw [update_idem] at h3
  have hne : ∀ v, own v ≠ .free → v ≠ d := fun v hv hvd => hv (by rw [hvd, hfree])
  have hm : Made lay kpgdir d own m (update own d .dir) m₁ := by
    refine ⟨h3, hfree, update_self .., fun v hv => Or.inl (update_of_ne hv ..), fun e va he hva => ?_,
      fun v hfv _ => memset_word_of_ne _ 0 (hne v hfv)⟩
    rw [hpte2 e va (by rw [update_of_ne (hne e (by simp [he])), he])]
    rfl
  have hzero : ∀ va, pteAt m₁ d va = 0 := pteAt_of_zero hz
  obtain ⟨r, m', hrows, hout⟩ := mapRows_exact hend h (fun hdk => hk (hdk ▸ hfree)) (kmap lay)
    (fun k hk' => (kmap_rows lay k hk').1) (kmap_sorted lay) hm fun k _ va _ => by
      rw [hzero]
      exact not_present_zero
  refine ⟨r, m', ?_, hout.imp id ?_⟩
  · rw [hka]
    simp only [if_neg hvd.ne_zero]
    rw [if_neg (by decide)]
    exact hrows
  · rintro ⟨hrd, own', hm', hpte⟩
    rw [hrd]
    refine ⟨hvd.ne_zero, own', hm', fun va hva => ?_⟩
    rw [hpte va hva, hzero]
    exact not_present_zero

/-! ### `copyuvm` -/

theorem take_give (h : Exact lay own kpgdir m) {r : ℕ} {rest : List ℕ} (hf : m.freelist = r :: rest)
    (hf' : m'.freelist = rest) (hword : ∀ u, u ≠ r → m'.word u = m.word u) :
    ∃ m'', kfree lay r m' = .ok m'' ∧ Unchanged lay kpgdir own m m'' := by
  obtain ⟨hr, hvr, h1⟩ := h.take hf
  have hother : update own r .other r = .other := update_self ..
  obtain ⟨h2, hpte2⟩ := h1.write (k := m') (v := r) (by rw [hother]; rfl) hf' hword
  obtain ⟨m'', hk, h3, hword3, hpte3⟩ := h2.give hvr hother
  have hback : update own r .free = own := by
    rw [← hr, update_eq_self]
  rw [update_idem, hback] at h3
  have hne : ∀ v, own v ≠ .free → v ≠ r := fun v hv hvr' => hv (by rw [hvr', hr])
  refine ⟨m'', hk, h3, fun e va he hva => ?_,
    fun v hfv _ => by rw [hword3 v (hne v hfv), hword v (hne v hfv)]⟩
  have he1 : update own r .other e = .dir := by
    rw [update_of_ne (hne e (by simp [he])), he]
  rw [hpte3 e va he1, hpte2 e va he1]
  rfl

/-- The panics of `copyuvm`, when a page of the parent is not there. -/
def Missing (m : Mem) (pgdir sz : ℕ) (x : Stop) : Prop :=
  (x = .pteShouldExist ∨ x = .pageNotPresent) ∧ ∃ va < sz, ¬ Present (pteAt m pgdir va)

/-- How `copyuvm` leaves the new page directory: with the pages below the size, or gone. -/
def Copied (lay : Layout) (kpgdir sz r : ℕ) (own : ℕ → Owner) (m m' : Mem) : Prop :=
  r = 0 ∧ Unchanged lay kpgdir own m m'
  ∨ r ≠ 0 ∧ ∃ own', Made lay kpgdir r own m own' m' ∧ ∀ va < KERNBASE, Present (pteAt m' r va) ↔ span 0 sz va

/-- The pages below `i` are mapped with the flags that the parent has for them, and have the same contents. -/
def Copies (m : Mem) (pgdir : ℕ) (m' : Mem) (d i : ℕ) : Prop :=
  ∀ va < KERNBASE, span 0 i va → PTE_FLAGS (pteAt m' d va) = PTE_FLAGS (pteAt m pgdir va)
    ∧ m'.word (frameAt m' d va) = m.word (frameAt m pgdir va)

theorem flags_of_entry {r pte : ℕ} (hv : ValidPage lay r) (hp : Present pte) :
    PTE_FLAGS (V2P r ||| PTE_FLAGS pte ||| PTE_P) = PTE_FLAGS pte := by
  have hflags : PTE_FLAGS pte ||| PTE_P = PTE_FLAGS pte := by
    have hodd : PTE_FLAGS pte = 2 ^ 1 * (PTE_FLAGS pte / 2) + 1 := by
      have := present_iff.mp hp
      simp only [PTE_FLAGS, PGSIZE] at *
      omega
    rw [hodd, Nat.two_pow_add_eq_or_of_lt (by decide), Nat.or_assoc, PTE_P, Nat.or_self]
  have hlt : PTE_FLAGS pte < PGSIZE := Nat.mod_lt _ (by decide)
  have hal : V2P r % PGSIZE = 0 := by
    obtain ⟨h0, h1, h2, _⟩ := hv
    simp only [V2P, ADDRESSES, KERNBASE, PHYSTOP, PGSIZE] at *
    omega
  rw [Nat.or_assoc, hflags, or_flags hal hlt]
  simp only [PTE_FLAGS, PGSIZE] at *
  omega

theorem Copies.next {pgdir i r w : ℕ} (hm : Made lay kpgdir d own m own' m') (hal : i % PGSIZE = 0)
    (hp : Present (pteAt m pgdir i)) (hvr : ValidPage lay r)
    (hpages : ∀ va < KERNBASE, span 0 i va → Present (pteAt m' d va)) (hc : Copies m pgdir m' d i)
    (hg : Grown lay kpgdir d (pageOf i) own' m' own'' m'') (hw : w = PTE_FLAGS (pteAt m pgdir i))
    (hpte : pteAt m'' d i = V2P r ||| w ||| PTE_P) (hframe : frameAt m'' d i = r)
    (hword : m''.word r = m.word (frameAt m pgdir i)) : Copies m pgdir m'' d (i + PGSIZE) := by
  intro va hva hspan
  by_cases hpage : pageOf i va
  · -- the new page
    have hpageD : pteAt m'' d va = pteAt m'' d i := by rw [← pteAt_page m'' d va, hpage, pteAt_page]
    have hpageP : pteAt m pgdir va = pteAt m pgdir i := by rw [← pteAt_page m pgdir va, hpage, pteAt_page]
    have hfP : frameAt m pgdir va = frameAt m pgdir i := by rw [frameAt, hpageP, frameAt]
    have hfD : frameAt m'' d va = r := by rw [frameAt, hpageD, ← hframe, frameAt]
    refine ⟨?_, by rw [hfD, hfP, hword]⟩
    rw [hpageD, hpageP, hpte, hw, flags_of_entry hvr hp]
  · -- a page from before
    have hold : span 0 i va := by
      simp only [span, pageOf, PGSIZE] at *
      omega
    have hsame : pteAt m'' d va = pteAt m' d va :=
      hg.pte d va hm.dir (lt_trans hva (by decide)) fun hU => hpage hU.2
    have hown : own' (frameAt m' d va) = .user d (va / PGSIZE) :=
      hm.exact.user d va hm.dir hva (hpages va hva hold)
    have hfD : frameAt m'' d va = frameAt m' d va := by rw [frameAt, hsame, frameAt]
    rw [hsame, hfD, hg.words _ (by simp [hown]) (by rw [hown]; rfl)]
    exact hc va hva hold

/-- The loop of `copyuvm`, when it has come to page `i`. -/
theorem copyLoop_exact (hend : KERNBASE < lay.kernelEnd) {pgdir sz : ℕ} (hsz : sz ≤ KERNBASE)
    (h : Exact lay own kpgdir m) (hpg : own pgdir = .dir) (hd0 : d ≠ 0) (n i : ℕ) (hal : i % PGSIZE = 0)
    (hn : sz ≤ i + n * PGSIZE) (hlast : i = 0 ∨ i < sz + PGSIZE) (hm : Made lay kpgdir d own m own' m')
    (hpages : ∀ va < KERNBASE, Present (pteAt m' d va) ↔ span 0 i va) (hcopies : Copies m pgdir m' d i) :
    (∃ x, copyLoop lay pgdir d sz (n + 1) i m' = .error x ∧ Missing m pgdir sz x)
    ∨ ∃ r m'', copyLoop lay pgdir d sz (n + 1) i m' = .ok (r, m'') ∧ Copied lay kpgdir sz r own m m''
      ∧ (r ≠ 0 → Copies m pgdir m'' r sz) := by
  have hdone : ∀ {i : ℕ} {own' : ℕ → Owner} {m' : Mem}, i % PGSIZE = 0 → (i = 0 ∨ i < sz + PGSIZE) → sz ≤ i →
      Made lay kpgdir d own m own' m' → (∀ va < KERNBASE, Present (pteAt m' d va) ↔ span 0 i va)
      → Copies m pgdir m' d i →
      Copied lay kpgdir sz d own m m' ∧ (d ≠ 0 → Copies m pgdir m' d sz) :=
      fun {i own' m'} hal hlast hle hm hpages hc => by
    have hspan : ∀ va, span 0 i va ↔ span 0 sz va := fun va => by
      simp only [span, PGSIZE] at *
      omega
    exact ⟨Or.inr ⟨hd0, own', hm, fun va hva => (hpages va hva).trans (hspan va)⟩,
      fun _ va hva hs => hc va hva ((hspan va).mpr hs)⟩
  induction n generalizing i own' m' with
  | zero =>
    refine Or.inr ⟨d, m', ?_, hdone hal hlast (by omega) hm hpages hcopies⟩
    rw [copyLoop, if_pos (by omega)]
  | succ n ih =>
    by_cases hle : sz ≤ i
    · refine Or.inr ⟨d, m', ?_, hdone hal hlast hle hm hpages hcopies⟩
      rw [copyLoop, if_pos hle]
    have hiK : i < KERNBASE := by omega
    have hilt : i < ADDRESSES := lt_trans hiK (by decide)
    have hpgne : pgdir ≠ d := fun hc => by
      rw [hc, hm.free] at hpg
      cases hpg
    have hpg' : own' pgdir = .dir := by rw [hm.keep (by simp [hpg]), hpg]
    rw [copyLoop, if_neg hle]
    rcases walkpgdir_noalloc hm.exact.toOwned hpg' i with ⟨hwalk, hpte⟩ | ⟨t, hwalk, _, _, hpte⟩
    · refine Or.inl ⟨.pteShouldExist, by simp only [hwalk], Or.inl rfl, i, by omega, ?_⟩
      rw [← hm.pte pgdir i hpg hilt, hpte]
      exact not_present_zero
    simp only [hwalk, hpte]
    by_cases hp : Present (pteAt m' pgdir i)
    swap
    · refine Or.inl ⟨.pageNotPresent, by rw [if_pos hp], Or.inr rfl, i, by omega, ?_⟩
      rw [← hm.pte pgdir i hpg hilt]
      exact hp
    rw [if_neg (not_not.mpr hp)]
    rcases kalloc_cases m' with ⟨_, hka⟩ | ⟨r, rest, hf, hka⟩
    · obtain ⟨m₂, hfree, hun⟩ := unmade hend h hm
      refine Or.inr ⟨0, m₂, ?_, Or.inl ⟨rfl, hun⟩, fun h0 => absurd rfl h0⟩
      rw [hka]
      simp only [if_true, hfree]
      rfl
    obtain ⟨hr, hvr, _⟩ := hm.exact.take hf
    rw [hka]
    simp only [if_neg hvr.ne_zero]
    have habsent : ¬ Present (pteAt m' d i) := fun hc => by
      have := ((hpages i hiK).mp hc).2
      simp only [PGSIZE] at *
      omega
    have hfill : ∀ u, u ≠ r →
        (Mem.copyPage { m' with freelist := rest } r (P2V (PTE_ADDR (pteAt m' pgdir i)))).word u
        = m'.word u := by
      intro u hu
      funext j
      exact if_neg hu
    rcases mappages_user hm.exact hm.dir hiK hal habsent
      (Nat.mod_lt (pteAt m' pgdir i) (by decide : 0 < PGSIZE)) hf rfl hfill
      with hmap | ⟨own₂, m₂, hmap, hg, hentry, hpres, hframe, hword⟩
    · -- no memory for a page table
      obtain ⟨m₂, hk, hun⟩ := take_give hm.exact hf rfl hfill
      obtain ⟨m₃, hfree, hun'⟩ := unmade hend h (hm.grow (U := fun _ => False) hun.grown)
      refine Or.inr ⟨0, m₃, ?_, Or.inl ⟨rfl, hun'⟩, fun h0 => absurd rfl h0⟩
      rw [PTE_FLAGS, hmap]
      show (kfree lay r _ >>= fun m => freevm lay m d >>= fun m => .ok (0, m)) = _
      rw [hk]
      show (freevm lay m₂ d >>= fun m => .ok (0, m)) = _
      rw [hfree]
      rfl
    · have hnext : (i + PGSIZE) % ADDRESSES = i + PGSIZE := by
        simp only [PGSIZE, ADDRESSES, KERNBASE] at hiK ⊢
        omega
      have hpages' : ∀ va < KERNBASE, Present (pteAt m₂ d va) ↔ span 0 (i + PGSIZE) va := fun va hva => by
        have hspan : span 0 (i + PGSIZE) va ↔ span 0 i va ∨ pageOf i va := by
          simp only [span, pageOf, PGSIZE] at *
          omega
        rw [hspan]
        by_cases hpage : pageOf i va
        · rw [← pteAt_page, hpage, pteAt_page]
          exact ⟨fun _ => Or.inr hpage, fun _ => hpres⟩
        · rw [hg.pte d va hm.dir (lt_trans hva (by decide)) fun hc => hpage hc.2, hpages va hva]
          exact ⟨Or.inl, fun hc => hc.resolve_right hpage⟩
      have hpteP : pteAt m' pgdir i = pteAt m pgdir i := hm.pte pgdir i hpg hilt
      have hsrc : m₂.word r = m.word (frameAt m pgdir i) := by
        have hownS : own (frameAt m pgdir i) = .user pgdir (i / PGSIZE) :=
          h.user pgdir i hpg hiK (by rw [← hpteP]; exact hp)
        rw [hword, ← hm.words _ (by simp [hownS]) (by rw [hownS]; rfl)]
        funext j
        show (if r = r then m'.word (P2V (PTE_ADDR (pteAt m' pgdir i))) j else _) = _
        rw [if_pos rfl, hpteP, frameAt]
      have hcopies' := hcopies.next hm hal (by rw [← hpteP]; exact hp) hvr
        (fun va hva => (hpages va hva).mpr) hg (by rw [hpteP]; rfl) hentry hframe hsrc
      have hrest := ih (i + PGSIZE) (by simp only [PGSIZE] at *; omega) (by rw [Nat.succ_mul] at hn; omega)
        (Or.inr (by omega)) (hm.grow hg) hpages' hcopies'
      rw [PTE_FLAGS, hmap]
      show (∃ x, copyLoop lay pgdir d sz (n + 1) ((i + PGSIZE) % ADDRESSES) m₂ = .error x ∧ _)
        ∨ ∃ r m'', copyLoop lay pgdir d sz (n + 1) ((i + PGSIZE) % ADDRESSES) m₂ = .ok (r, m'') ∧ _
      rw [hnext]
      exact hrest

/-- **`copyuvm`** makes a page directory with copies of the pages below the size, or gives back what it has
taken; it panics only if a page of the parent is missing. -/
theorem copyuvm_copies (hend : KERNBASE < lay.kernelEnd) {pgdir sz : ℕ} (hsz : sz ≤ KERNBASE)
    (h : Exact lay own kpgdir m) (hk : own kpgdir ≠ .free) (hpg : own pgdir = .dir) :
    (∃ x, copyuvm lay m pgdir sz = .error x ∧ Missing m pgdir sz x)
    ∨ ∃ r m', copyuvm lay m pgdir sz = .ok (r, m') ∧ Copied lay kpgdir sz r own m m'
      ∧ (r ≠ 0 → Copies m pgdir m' r sz) := by
  obtain ⟨d, m₁, hset, ⟨hd, hun⟩ | ⟨hd, own₁, hm, hempty⟩⟩ := setupkvm_exact hend h hk
  · refine Or.inr ⟨0, m₁, ?_, Or.inl ⟨rfl, hun⟩, fun h0 => absurd rfl h0⟩
    rw [copyuvm, hset]
    exact if_pos hd
  · have hcopy : copyuvm lay m pgdir sz = copyLoop lay pgdir d sz (PAGES + 1) 0 m₁ := by
      rw [copyuvm, hset]
      exact if_neg hd
    rw [hcopy]
    refine copyLoop_exact hend hsz h hpg hd PAGES 0 rfl (by simp only [PAGES, PGSIZE, KERNBASE] at *; omega)
      (Or.inl rfl) hm
      (fun va hva => ⟨fun hp => absurd hp (hempty va hva), fun hs => absurd hs.2 (Nat.not_lt_zero _)⟩)
      fun va _ hs => absurd hs.2 (Nat.not_lt_zero _)

theorem copyuvm_exact (hend : KERNBASE < lay.kernelEnd) {pgdir sz : ℕ} (hsz : sz ≤ KERNBASE)
    (h : Exact lay own kpgdir m) (hk : own kpgdir ≠ .free) (hpg : own pgdir = .dir) :
    (∃ x, copyuvm lay m pgdir sz = .error x ∧ Missing m pgdir sz x)
    ∨ ∃ r m', copyuvm lay m pgdir sz = .ok (r, m') ∧ Copied lay kpgdir sz r own m m' := by
  refine (copyuvm_copies hend hsz h hk hpg).imp_right ?_
  rintro ⟨r, m', hok, hc, _⟩
  exact ⟨r, m', hok, hc⟩

end Xv6e.Memory.NewSpaces
