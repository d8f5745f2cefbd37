import Xv6e.Memory.AddressSpace

/-!
# Pages and their only owners

`Owned` says where the entries of page tables lead.  `Exact` adds the other direction: a page that counts as
free is on the free list, a page table is in the directory entry it belongs to, and a user page is mapped at
its address.  So no page is lost, and every page has exactly one use.

* `Exact.take`, `Exact.give`, `Exact.walk`, `Exact.mapUser`, `Exact.unmapUser`, `Exact.setKernel` — the
  elementary steps;
* `Grown` — a page directory has taken free pages, as page tables and user pages; `Shrunk` — it has given some
  back.
-/

namespace Xv6e.Memory.Frames

open Library.Transition (update_cases)
open PageTable Ownership AddressSpace

variable {lay : Layout} {own own' own'' : ℕ → Owner} {kpgdir : ℕ} {m m' m'' : Mem}

/-- The page that a page directory maps at an address. -/
def frameAt (m : Mem) (d va : ℕ) : ℕ := P2V (PTE_ADDR (pteAt m d va))

/-- Owners that fit the memory, in both directions. -/
structure Exact (lay : Layout) (own : ℕ → Owner) (kpgdir : ℕ) (m : Mem) :
    Prop extends Owned lay own kpgdir m where
  listed : ∀ v, own v = .free → v ∈ m.freelist
  linked : ∀ v d i, own v = .table d i → own d = .dir ∧ i < NPDENTRIES ∧ m.word d i = tableEntry v
  mapped : ∀ v d p, own v = .user d p → own d = .dir ∧ p * PGSIZE < KERNBASE
    ∧ Present (pteAt m d (p * PGSIZE)) ∧ frameAt m d (p * PGSIZE) = v

theorem pteAt_page (m : Mem) (d va : ℕ) : pteAt m d (va / PGSIZE * PGSIZE) = pteAt m d va := by
  have hdir : PDX (va / PGSIZE * PGSIZE) = PDX va := by
    simp only [PDX, PGSIZE, NPDENTRIES]
    omega
  have htab : PTX (va / PGSIZE * PGSIZE) = PTX va := by
    simp only [PTX, PGSIZE, NPDENTRIES]
    omega
  rw [pteAt, pteAt, hdir, htab]

section

variable (h : Exact lay own kpgdir m)
include h

theorem Exact.update {r : ℕ} {o : Owner} (hr : own r ≠ .dir)
    (howned : Owned lay (Function.update own r o) kpgdir m')
    (hlist : ∀ v, v ≠ r → v ∈ m.freelist → v ∈ m'.freelist) (hfree : o = .free → r ∈ m'.freelist)
    (hword : ∀ v d i, v ≠ r → own v = .table d i → own d = .dir → m'.word d i = m.word d i)
    (htable : ∀ d i, o = .table d i → own d = .dir ∧ i < NPDENTRIES ∧ m'.word d i = tableEntry r)
    (hpte : ∀ v d p, v ≠ r → own v = .user d p → own d = .dir → p * PGSIZE < KERNBASE →
      pteAt m' d (p * PGSIZE) = pteAt m d (p * PGSIZE))
    (huser : ∀ d p, o = .user d p → own d = .dir ∧ p * PGSIZE < KERNBASE ∧ Present (pteAt m' d (p * PGSIZE))
      ∧ frameAt m' d (p * PGSIZE) = r) : Exact lay (Function.update own r o) kpgdir m' := by
  have hdir : ∀ d, own d = .dir → Function.update own r o d = .dir := fun d hd => by
    have hne : d ≠ r := fun hdr => hr (hdr ▸ hd)
    rw [Function.update_of_ne hne, hd]
  refine ⟨howned, fun v hv => ?_, fun v d i hv => ?_, fun v d p hv => ?_⟩
  · obtain ⟨hvr, hv⟩ | ⟨hvr, hv⟩ := update_cases hv
    · rw [hvr]
      exact hfree hv
    · exact hlist v hvr (h.listed v hv)
  · obtain ⟨hvr, hv⟩ | ⟨hvr, hv⟩ := update_cases hv
    · obtain ⟨hd, hi, hw⟩ := htable d i hv
      rw [hvr]
      exact ⟨hdir d hd, hi, hw⟩
    · obtain ⟨hd, hi, hw⟩ := h.linked v d i hv
      exact ⟨hdir d hd, hi, by rw [hword v d i hvr hv hd, hw]⟩
  · obtain ⟨hvr, hv⟩ | ⟨hvr, hv⟩ := update_cases hv
    · obtain ⟨hd, hp, hpres, hframe⟩ := huser d p hv
      rw [hvr]
      exact ⟨hdir d hd, hp, hpres, hframe⟩
    · obtain ⟨hd, hp, hpres, hframe⟩ := h.mapped v d p hv
      rw [frameAt, hpte v d p hvr hv hd hp]
      exact ⟨hdir d hd, hp, hpres, hframe⟩

theorem Exact.of_words (hf : m'.freelist = m.freelist)
    (hw : ∀ v, (own v).paging = true → m'.word v = m.word v) : Exact lay own kpgdir m' where
  toOwned := h.toOwned.of_words hf hw
  listed v hv := by
    rw [hf]
    exact h.listed v hv
  linked v d i hv := by
    obtain ⟨hd, hi, hword⟩ := h.linked v d i hv
    exact ⟨hd, hi, by rw [hw d (by rw [hd]; rfl), hword]⟩
  mapped v d p hv := by
    obtain ⟨hd, hp, hpres, hframe⟩ := h.mapped v d p hv
    rw [frameAt, h.pteAt_congr hw hd]
    exact ⟨hd, hp, hpres, hframe⟩

/-! ### The allocator -/

/-- **A page from `kalloc`** belongs to the caller. -/
theorem Exact.take {r : ℕ} {rest : List ℕ} (hf : m.freelist = r :: rest) :
    own r = .free ∧ ValidPage lay r
      ∧ Exact lay (Function.update own r .other) kpgdir { m with freelist := rest } := by
  obtain ⟨hr, hvalid, howned, _⟩ := h.toOwned.kalloc hf
  refine ⟨hr, hvalid, h.update (by simp [hr]) howned (fun v hvr hv => ?_) (by simp)
    (fun _ _ _ _ _ _ => rfl) (by simp) (fun _ _ _ _ _ _ _ => rfl) (by simp)⟩
  rw [hf] at hv
  exact (List.mem_cons.mp hv).resolve_left hvr

/-- **`kfree` of a page of the caller's.** -/
theorem Exact.give {v : ℕ} (hvalid : ValidPage lay v) (hv : own v = .other) :
    ∃ m', kfree lay v m = .ok m' ∧ Exact lay (Function.update own v .free) kpgdir m'
      ∧ (∀ u, u ≠ v → m'.word u = m.word u) ∧ ∀ d va, own d = .dir → pteAt m' d va = pteAt m d va := by
  have hk := kfree_of_valid (m := m) hvalid
  have hword : ∀ u, u ≠ v → ({ m.memset v 1 with freelist := v :: m.freelist } : Mem).word u = m.word u :=
    fun u hu => memset_word_of_ne m 1 hu
  have hpte : ∀ d va, own d = .dir →
      pteAt { m.memset v 1 with freelist := v :: m.freelist } d va = pteAt m d va := by
    intro d va hd
    refine h.pteAt_congr (fun u hu => hword u fun huv => ?_) hd va
    rw [huv, hv] at hu
    cases hu
  refine ⟨_, hk, h.update (by simp [hv]) (h.toOwned.kfree (ValidPage.lt hvalid) hv hk) ?_ ?_ ?_
    (by simp) ?_ (by simp), hword, hpte⟩
  · exact fun u _ hu => List.mem_cons_of_mem v hu
  · exact fun _ => List.mem_cons_self
  · intro u d i _ _ hd
    have hne : d ≠ v := fun hdv => by
      rw [hdv, hv] at hd
      cases hd
    rw [hword d hne]
  · exact fun u d p _ _ hd _ => hpte d _ hd

theorem Exact.write {k : Mem} {v : ℕ} (hv : (own v).paging = false) (hf : k.freelist = m.freelist)
    (hw : ∀ u, u ≠ v → k.word u = m.word u) :
    Exact lay own kpgdir k ∧ ∀ d va, own d = .dir → pteAt k d va = pteAt m d va := by
  have hpaging : ∀ u, (own u).paging = true → k.word u = m.word u := fun u hu => by
    refine hw u fun huv => ?_
    rw [huv, hv] at hu
    cases hu
  exact ⟨h.of_words hf hpaging, fun d va hd => h.pteAt_congr hpaging hd va⟩

/-- **A page of zeros becomes a page directory.** -/
theorem Exact.promote {r : ℕ} (hr : own r = .other) (hv : ValidPage lay r)
    (hz : ∀ i, m.word r i = 0) : Exact lay (Function.update own r .dir) kpgdir m :=
  h.update (by simp [hr]) (h.toOwned.promote hr hv hz) (fun _ _ hm => hm) (by simp)
    (fun _ _ _ _ _ _ => rfl) (by simp) (fun _ _ _ _ _ _ _ => rfl) (by simp)

end

/-! ### Page directories that grow -/

/-- Page directory `d` has taken free pages, as page tables and as user pages in `U`; entries outside `U` and
the contents of all other pages are as before. -/
structure Grown (lay : Layout) (kpgdir d : ℕ) (U : ℕ → Prop) (own : ℕ → Owner) (m : Mem)
    (own' : ℕ → Owner) (m' : Mem) : Prop where
  exact : Exact lay own' kpgdir m'
  gains : ∀ v, own' v = own v
    ∨ own v = .free ∧ ((∃ i, own' v = .table d i) ∨ ∃ p, U (p * PGSIZE) ∧ own' v = .user d p)
  pte : ∀ e va, own e = .dir → va < ADDRESSES → ¬ (e = d ∧ U va) → pteAt m' e va = pteAt m e va
  words : ∀ v, own v ≠ .free → (own v).paging = false → m'.word v = m.word v

variable {d : ℕ} {U V : ℕ → Prop}

theorem Grown.refl (h : Exact lay own kpgdir m) : Grown lay kpgdir d U own m own m :=
  ⟨h, fun _ => Or.inl rfl, fun _ _ _ _ _ => rfl, fun _ _ _ => rfl⟩

theorem Grown.keep (h : Grown lay kpgdir d U own m own' m') {v : ℕ} (hv : own v ≠ .free) : own' v = own v :=
  (h.gains v).resolve_right fun hf => hv hf.1

theorem Grown.mono (h : Grown lay kpgdir d U own m own' m') (hUV : ∀ va, U va → V va) :
    Grown lay kpgdir d V own m own' m' where
  exact := h.exact
  gains v := by
    rcases h.gains v with hv | ⟨hf, hi | ⟨p, hp, hv⟩⟩
    · exact Or.inl hv
    · exact Or.inr ⟨hf, Or.inl hi⟩
    · exact Or.inr ⟨hf, Or.inr ⟨p, hUV _ hp, hv⟩⟩
  pte e va he hva hV := h.pte e va he hva fun hU => hV ⟨hU.1, hUV va hU.2⟩
  words := h.words

theorem Grown.trans (h : Grown lay kpgdir d U own m own' m') (h' : Grown lay kpgdir d U own' m' own'' m'') :
    Grown lay kpgdir d U own m own'' m'' where
  exact := h'.exact
  gains v := by
    rcases h.gains v with hv | ⟨hf, hv⟩
    · rw [← hv]
      exact h'.gains v
    · have hne : own' v ≠ .free := by
        rcases hv with ⟨i, hv⟩ | ⟨p, _, hv⟩ <;> rw [hv] <;> simp
      rw [h'.keep hne]
      exact Or.inr ⟨hf, hv⟩
  pte e va he hva hU := by
    have hkeep : own' e = .dir := by rw [h.keep (by simp [he]), he]
    rw [h'.pte e va hkeep hva hU, h.pte e va he hva hU]
  words v hv hp := by
    have hkeep := h.keep hv
    rw [h'.words v (by rw [hkeep]; exact hv) (by rw [hkeep]; exact hp), h.words v hv hp]

/-- **A walk that may create a page table.** -/
theorem Exact.walk (h : Exact lay own kpgdir m) (hd : own d = .dir) (va : ℕ) :
    walkpgdir m d va true = (none, m)
    ∨ ∃ t own' m', walkpgdir m d va true = (some (t, PTX va), m')
      ∧ Grown lay kpgdir d (fun _ => False) own m own' m'
      ∧ own' t = .table d (PDX va) ∧ m'.word d (PDX va) = tableEntry t
      ∧ m'.word t (PTX va) = pteAt m d va := by
  rw [walkpgdir]
  by_cases hp : Present (m.word d (PDX va))
  · obtain ⟨ht, hw⟩ := h.table_of_present hd (PDX_lt va) hp
    refine Or.inr ⟨_, own, m, if_pos hp, Grown.refl h, ht, hw, ?_⟩
    rw [pteAt, if_pos hp]
  simp only [if_neg hp, Bool.true_eq_false, if_false]
  rcases kalloc_cases m with ⟨_, hk⟩ | ⟨r, rest, hf, hk⟩
  · left
    rw [hk]
    exact if_pos rfl
  right
  obtain ⟨hr, hvr, h1⟩ := h.take hf
  have hother : Function.update own r .other r = .other := Function.update_self ..
  have hdr : d ≠ r := fun hdr => by
    rw [hdr, hr] at hd
    cases hd
  have hd1 : Function.update own r .other d = .dir := by rw [Function.update_of_ne hdr, hd]
  set m₁ := Mem.memset { m with freelist := rest } r 0
  obtain ⟨h2, hpte2⟩ := h1.write (k := m₁) (v := r) (by rw [hother]; rfl) rfl
    fun u hu => memset_word_of_ne _ 0 hu
  have hz : ∀ j, m₁.word r j = 0 := fun j => memset_word_self ..
  have hp2 : ¬ Present (m₁.word d (PDX va)) := by
    rw [memset_word_of_ne _ _ hdr]
    exact hp
  have howned := h2.toOwned.attach hother hvr hz hd1 hp2
  have hpte3 : ∀ e vb, Function.update own r .other e = .dir →
      pteAt (m₁.setWord d (PDX va) (tableEntry r)) e vb = pteAt m e vb :=
    fun e vb he => (h2.pteAt_attach hother hvr hz hd1 hp2 he vb).trans (hpte2 e vb he)
  have hword : ∀ u, u ≠ r → u ≠ d →
      (m₁.setWord d (PDX va) (tableEntry r)).word u = m.word u :=
    fun u hur hud => (setWord_word_of_ne _ _ _ hud).trans (memset_word_of_ne _ 0 hur)
  have h3 : Exact lay (Function.update (Function.update own r .other) r (.table d (PDX va))) kpgdir
      (m₁.setWord d (PDX va) (tableEntry r)) := by
    refine h2.update (by simp) howned (fun _ _ hv => hv) (by simp) ?_ ?_ ?_ (by simp)
    · intro v e i hvr' hv he
      by_cases hed : e = d
      · rw [hed, setWord_word]
        -- the entry that was absent belonged to no page
        have hi : i ≠ PDX va := fun hi => by
          rw [hed, hi] at hv
          have hw := (h2.linked v d _ hv).2.2
          rw [hw] at hp2
          exact hp2 (present_tableEntry v)
        rw [if_neg hi]
      · rw [setWord_word_of_ne _ _ _ hed]
    · intro e i hei
      obtain ⟨rfl, rfl⟩ := Owner.table.inj hei
      exact ⟨hd1, PDX_lt va, by rw [setWord_word, if_pos rfl]⟩
    · intro v e p _ _ he _
      rw [hpte3 e _ he, hpte2 e _ he]
      rfl
  rw [Function.update_idem] at h3
  have hdir : ∀ e, own e = .dir → Function.update own r .other e = .dir := fun e he => by
    have her : e ≠ r := fun her => by
      rw [her, hr] at he
      cases he
    rw [Function.update_of_ne her, he]
  refine ⟨r, _, _, ?_, ⟨h3, fun v => ?_, fun e vb he _ _ => hpte3 e vb (hdir e he), fun v hv hpv => ?_⟩,
    Function.update_self .., ?_, ?_⟩
  · rw [hk]
    exact if_neg hvr.ne_zero
  · by_cases hv : v = r
    · rw [hv, Function.update_self]
      exact Or.inr ⟨hr, Or.inl ⟨_, rfl⟩⟩
    · rw [Function.update_of_ne hv]
      exact Or.inl rfl
  · refine hword v (fun hvr' => hv (by rw [hvr', hr])) fun hvd => ?_
    rw [hvd, hd] at hpv
    cases hpv
  · rw [setWord_word, if_pos rfl]
  · rw [setWord_word_of_ne _ _ _ hdr.symm, hz, pteAt, if_neg hp]

theorem frame_of_entry {r perm : ℕ} (hv : ValidPage lay r) (hperm : perm < PGSIZE) :
    P2V (PTE_ADDR (V2P r ||| perm ||| PTE_P)) = r := by
  rw [Nat.or_assoc]
  exact frame_of_or hv (or_flags_lt hperm)

def pageOf (va : ℕ) : ℕ → Prop := fun vb => vb / PGSIZE = va / PGSIZE

/-- **Mapping a page of the caller's** in the user part of a page directory, at an entry that is absent. -/
theorem Exact.mapUser (h : Exact lay own kpgdir m) {t va r perm : ℕ} (hd : own d = .dir)
    (ht : own t = .table d (PDX va)) (hw : m.word d (PDX va) = tableEntry t) (hva : va < KERNBASE)
    (hr : own r = .other) (hv : ValidPage lay r) (hperm : perm < PGSIZE)
    (habsent : ¬ Present (pteAt m d va)) :
    Exact lay (Function.update own r (.user d (va / PGSIZE))) kpgdir
    (m.setWord t (PTX va) (V2P r ||| perm ||| PTE_P))
      ∧ (∀ e vb, own e = .dir → vb < ADDRESSES → pteAt (m.setWord t (PTX va) (V2P r ||| perm ||| PTE_P)) e vb
        = if e = d ∧ vb / PGSIZE = va / PGSIZE then V2P r ||| perm ||| PTE_P else pteAt m e vb) := by
  have hlt : va < ADDRESSES := lt_trans hva (by decide)
  have hpage : va / PGSIZE * PGSIZE < KERNBASE := lt_of_le_of_lt (Nat.div_mul_le_self va PGSIZE) hva
  have hpte := fun e vb he hvb => h.pteAt_setWord (V2P r ||| perm ||| PTE_P) ht hw hlt (e := e)
    (b := vb) he hvb
  obtain ⟨howned, _⟩ := mapPage h.toOwned (o := .user d (va / PGSIZE)) ht hw hlt hr hv hperm rfl (by simp)
    (fun _ => rfl) fun _ hheap => absurd hheap.1 (by simp only [KERNBASE, PHYSTOP] at *; omega)
  refine ⟨h.update (by simp [hr]) howned (fun _ _ hm => hm) (by simp) ?_ (by simp) ?_ ?_, hpte⟩
  · intro v e i _ _ he
    have het : e ≠ t := fun het => by
      rw [het, ht] at he
      cases he
    rw [setWord_word_of_ne m _ _ het]
  · intro v e p _ hown he hp
    rw [hpte e _ he (lt_trans hp (by decide)), if_neg]
    rintro ⟨rfl, hsame⟩
    rw [Nat.mul_div_cancel p (by decide)] at hsame
    have hpres := (h.mapped v e p hown).2.2.1
    rw [hsame, pteAt_page] at hpres
    exact habsent hpres
  · intro e p hep
    obtain ⟨rfl, rfl⟩ := Owner.user.inj hep
    have hentry : pteAt (m.setWord t (PTX va) (V2P r ||| perm ||| PTE_P)) d (va / PGSIZE * PGSIZE)
        = V2P r ||| perm ||| PTE_P := by
      rw [hpte d _ hd (lt_trans hpage (by decide)), if_pos ⟨rfl, Nat.mul_div_cancel _ (by decide)⟩]
    refine ⟨hd, hpage, ?_, ?_⟩
    · rw [hentry]
      exact present_or _
    · rw [frameAt, hentry]
      exact frame_of_entry hv hperm

/-- **Unmapping a user page and freeing it.** -/
theorem Exact.unmapUser (h : Exact lay own kpgdir m) {t va : ℕ} (hd : own d = .dir)
    (ht : own t = .table d (PDX va)) (hw : m.word d (PDX va) = tableEntry t) (hva : va < KERNBASE)
    (hp : Present (pteAt m d va)) :
    ∃ m', kfree lay (frameAt m d va) m = .ok m' ∧ own (frameAt m d va) = .user d (va / PGSIZE)
      ∧ Exact lay (Function.update own (frameAt m d va) .free) kpgdir (m'.setWord t (PTX va) 0)
      ∧ (∀ e vb, own e = .dir → vb < ADDRESSES → pteAt (m'.setWord t (PTX va) 0) e vb
        = if e = d ∧ vb / PGSIZE = va / PGSIZE then 0 else pteAt m e vb)
      ∧ ∀ u, u ≠ frameAt m d va → u ≠ t → (m'.setWord t (PTX va) 0).word u = m.word u := by
  have hlt : va < ADDRESSES := lt_trans hva (by decide)
  have hown : own (frameAt m d va) = .user d (va / PGSIZE) := h.user d va hd hva hp
  have hvalid : ValidPage lay (frameAt m d va) := h.valid _ (by simp [hown])
  have htv : t ≠ frameAt m d va := fun htv => by
    rw [← htv, ht] at hown
    cases hown
  have hk := kfree_of_valid (m := m) hvalid
  obtain ⟨howned, hframe⟩ := unmapPage h.toOwned ht hw hlt (Or.inl hown) (P2V_lt _) hk
  have hword : ∀ u, u ≠ frameAt m d va → u ≠ t →
      (({ m.memset (frameAt m d va) 1 with freelist := frameAt m d va :: m.freelist } : Mem).setWord t
        (PTX va) 0).word u
        = m.word u := fun u huv hut => (setWord_word_of_ne _ _ _ hut).trans (memset_word_of_ne m 1 huv)
  have hclear : ∀ vb, vb / PGSIZE = va / PGSIZE →
      pteAt (({ m.memset (frameAt m d va) 1 with freelist := frameAt m d va :: m.freelist } : Mem).setWord t
        (PTX va) 0) d vb = 0 := by
    intro vb hvb
    have hdt : d ≠ t := fun hdt => by
      rw [hdt, ht] at hd
      cases hd
    have hdv : d ≠ frameAt m d va := fun hdv => by
      rw [← hdv, hd] at hown
      cases hown
    rw [← pteAt_page, hvb, pteAt_page, pteAt, hword d hdv hdt, hw, if_pos (present_tableEntry t),
      frame_tableEntry (h.valid t (by simp [ht])), setWord_word, if_pos rfl]
  have hpte : ∀ e vb, own e = .dir → vb < ADDRESSES →
      pteAt (({ m.memset (frameAt m d va) 1 with freelist := frameAt m d va :: m.freelist } : Mem).setWord t
        (PTX va) 0) e vb = if e = d ∧ vb / PGSIZE = va / PGSIZE then 0 else pteAt m e vb := by
    intro e vb he hvb
    by_cases hhere : e = d ∧ vb / PGSIZE = va / PGSIZE
    · rw [if_pos hhere, hhere.1]
      exact hclear vb hhere.2
    · rw [if_neg hhere]
      exact hframe.pte e vb he hvb hhere
  refine ⟨_, hk, hown, h.update (by simp [hown]) howned ?_ ?_ ?_ (by simp) ?_ (by simp), hpte, hword⟩
  · exact fun v _ hv => List.mem_cons_of_mem _ hv
  · exact fun _ => List.mem_cons_self
  · intro v e i _ _ he
    have het : e ≠ t := fun het => by
      rw [het, ht] at he
      cases he
    have hev : e ≠ frameAt m d va := fun hev => by
      rw [← hev, he] at hown
      cases hown
    rw [hword e hev het]
  · intro v e p hv hvown he hpk
    rw [hpte e _ he (lt_trans hpk (by decide)), if_neg]
    rintro ⟨rfl, hsame⟩
    rw [Nat.mul_div_cancel p (by decide)] at hsame
    have hfr := (h.mapped v e p hvown).2.2.2
    rw [frameAt, hsame, pteAt_page] at hfr
    exact hv hfr.symm

/-- **Writing an entry of the kernel part** of a page directory that is not the kernel's own. -/
theorem Exact.setKernel (h : Exact lay own kpgdir m) {t va : ℕ} (w : ℕ) (hk : d ≠ kpgdir)
    (ht : own t = .table d (PDX va)) (hw : m.word d (PDX va) = tableEntry t) (hva : KERNBASE ≤ va)
    (hlt : va < ADDRESSES) : Grown lay kpgdir d (pageOf va) own m own (m.setWord t (PTX va) w) := by
  have hpte := fun e vb he hvb => h.pteAt_setWord w ht hw hlt (e := e) (b := vb) he hvb
  have hdt : ∀ e, own e = .dir → e ≠ t := fun e he het => by
    rw [het, ht] at he
    cases he
  refine ⟨⟨h.setPte ht hw hlt (fun hc => absurd hva (not_le.mpr hc)) fun hc => absurd hc hk,
    h.listed, ?_, ?_⟩, fun _ => Or.inl rfl, fun e vb he hvb hU => (hpte e vb he hvb).trans (if_neg hU),
    fun v _ hpv => ?_⟩
  · intro v e i hv
    obtain ⟨he, hi, hword⟩ := h.linked v e i hv
    exact ⟨he, hi, by rw [setWord_word_of_ne m _ _ (hdt e he), hword]⟩
  · intro v e p hv
    obtain ⟨he, hp, hpres, hframe⟩ := h.mapped v e p hv
    have hne : ¬ (e = d ∧ p * PGSIZE / PGSIZE = va / PGSIZE) := by
      rintro ⟨_, hsame⟩
      rw [Nat.mul_div_cancel p (by decide)] at hsame
      simp only [PGSIZE, KERNBASE] at *
      omega
    rw [frameAt, hpte e _ he (lt_trans hp (by decide)), if_neg hne]
    exact ⟨he, hp, hpres, hframe⟩
  · refine setWord_word_of_ne m _ _ fun hvt => ?_
    rw [hvt, ht] at hpv
    cases hpv

/-! ### Page directories that shrink -/

/-- Page directory `d` has given its user pages in `U` back. -/
structure Shrunk (lay : Layout) (kpgdir d : ℕ) (U : ℕ → Prop) (own : ℕ → Owner) (m : Mem)
    (own' : ℕ → Owner) (m' : Mem) : Prop where
  exact : Exact lay own' kpgdir m'
  freed : ∀ v p, own v = .user d p → U (p * PGSIZE) → own' v = .free
  kept : ∀ v, (∀ p, own v = .user d p → ¬ U (p * PGSIZE)) → own' v = own v
  gone : ∀ va, va < KERNBASE → U va → ¬ Present (pteAt m' d va)
  pte : ∀ e va, own e = .dir → va < ADDRESSES → ¬ (e = d ∧ U va) → pteAt m' e va = pteAt m e va
  words : ∀ v, own v ≠ .free → (own v).paging = false → own' v = own v → m'.word v = m.word v

end Xv6e.Memory.Frames
