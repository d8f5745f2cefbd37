import Xv6e.Memory.Ownership
import Xv6e.Library.Fallible

/-!
# Address spaces

What the functions of `vm.c` that build and take down address spaces do, for any assignment of owners.

* `setupkvm_spec` — a new page directory has exactly the entries of `kmap` (`kernelEntry`), and no other
  address space changes;
* `allocuvm_spec`, `deallocuvm_spec` — growing and shrinking touch the user part of one page directory;
* `freevm_spec`, `copyuvm_spec` — taking an address space down, and copying one.
-/

namespace Xv6e.Memory.AddressSpace

open Library.Fallible
open PageTable Ownership
open Function (update update_idem update_self update_of_ne)

variable {own own' : ℕ → Owner} {kpgdir : ℕ} {m m' : Mem} {lay : Layout}

def entryOf (d va : ℕ) : ℕ → ℕ → Prop := fun e vb => e = d ∧ vb / PGSIZE = va / PGSIZE

/-- The user part of a page directory. -/
def userOf (d : ℕ) : ℕ → ℕ → Prop := fun e vb => e = d ∧ vb < KERNBASE

/-- The kernel part of a page directory. -/
def kernelOf (d : ℕ) : ℕ → ℕ → Prop := fun e vb => e = d ∧ KERNBASE ≤ vb

def allOf (d : ℕ) : ℕ → ℕ → Prop := fun e _ => e = d

theorem not_all_userOf (d : ℕ) : ¬ ∀ va, userOf d d va := fun h => absurd (h KERNBASE).2 (lt_irrefl _)

theorem P2V_lt (a : ℕ) : P2V a < ADDRESSES := Nat.mod_lt _ (by decide)

variable {v d t va r perm oldsz newsz sz a : ℕ}

theorem ValidPage.lt (h : ValidPage lay v) : v < ADDRESSES := lt_trans h.2.2.1 (by decide)

/-! ### One entry -/

theorem frame_setWord (h : Owned lay own kpgdir m) (w : ℕ) (ht : own t = .table d (PDX va))
    (hw : m.word d (PDX va) = tableEntry t) (hva : va < ADDRESSES) :
    Frame (entryOf d va) own m own (m.setWord t (PTX va) w) := by
  refine Frame.of_same (fun v _ => ⟨rfl, rfl, fun _ _ _ => rfl⟩) fun e vb he hvb hU => ?_
  rw [h.pteAt_setWord w ht hw hva he hvb]
  exact if_neg hU

/-- **Mapping a page of the caller's** at an address. -/
theorem mapPage (h : Owned lay own kpgdir m) {o : Owner} (ht : own t = .table d (PDX va))
    (hw : m.word d (PDX va) = tableEntry t) (hva : va < ADDRESSES) (hr : own r = .other)
    (hv : ValidPage lay r) (hperm : perm < PGSIZE) (ho : o.paging = false) (hmeta : o ≠ .metadata)
    (huser : va < KERNBASE → o = .user d (va / PGSIZE))
    (hheap : d = kpgdir → InHeap va → o = .heap (va / PGSIZE)) :
    Owned lay (update own r o) kpgdir (m.setWord t (PTX va) (V2P r ||| perm ||| PTE_P))
      ∧ Frame (entryOf d va) own m (update own r o)
          (m.setWord t (PTX va) (V2P r ||| perm ||| PTE_P)) := by
  have hlab := h.relabel hr hv ho
  have htr : t ≠ r := fun htr => by rw [htr, hr] at ht; cases ht
  have ht' : update own r o t = .table d (PDX va) := by rw [update_of_ne htr, ht]
  have hpage : P2V (PTE_ADDR (V2P r ||| perm ||| PTE_P)) = r := by
    rw [Nat.or_assoc]
    exact frame_of_or hv (or_flags_lt hperm)
  constructor
  · refine hlab.setPte ht' hw hva (fun hlt _ => ?_) fun hd hin _ => ?_
    · rw [hpage, update_self, huser hlt]
    · rw [hpage, update_self, hheap hd hin]
  · refine Frame.of_update (by simp [hr]) hmeta (fun hc => by rw [hr] at hc; cases hc)
      (fun v _ => ⟨rfl, rfl, fun _ _ _ => rfl⟩) fun e vb he hvb hU => ?_
    rw [h.pteAt_setWord _ ht hw hva he hvb]
    exact if_neg hU

theorem memset_setWord_comm (m : Mem) (i w c : ℕ) (h : t ≠ v) :
    (m.setWord t i w).memset v c = (m.memset v c).setWord t i w := by
  simp only [Mem.memset, Mem.setWord, Mem.mk.injEq, and_true, true_and]
  funext page j
  by_cases hp : page = v
  · have hpt : page ≠ t := fun hpt => h (hpt.symm.trans hp)
    simp only [hp, if_true, h.symm, false_and, if_false]
  · simp only [hp, if_false]

/-- **Unmapping a page and freeing it**, in the order of the code: the page first, then its entry. -/
theorem unmapPage (h : Owned lay own kpgdir m) (ht : own t = .table d (PDX va))
    (hw : m.word d (PDX va) = tableEntry t) (hva : va < ADDRESSES)
    (hv : own v = .user d (va / PGSIZE) ∨ own v = .heap (va / PGSIZE) ∧ d = kpgdir)
    (hvlt : v < ADDRESSES) (hk : kfree lay v m = .ok m') :
    Owned lay (update own v .free) kpgdir (m'.setWord t (PTX va) 0)
      ∧ Frame (entryOf d va) own m (update own v .free) (m'.setWord t (PTX va) 0) := by
  have hvne : own v ≠ .free ∧ own v ≠ .metadata ∧ own v ≠ .dir ∧ (∀ e i, own v ≠ .table e i) := by
    rcases hv with hv | ⟨hv, _⟩ <;> rw [hv] <;> exact ⟨by simp, by simp, by simp, by simp⟩
  have htv : t ≠ v := fun htv => hvne.2.2.2 d (PDX va) (by rw [← htv, ht])
  -- the entry is cleared first: then nothing leads to the page
  have hclear : Owned lay own kpgdir (m.setWord t (PTX va) 0) :=
    h.setPte ht hw hva (fun _ hp => absurd hp not_present_zero) fun _ _ hp => absurd hp not_present_zero
  have hgone : ∀ e vb, own e = .dir → vb < ADDRESSES → e = d → vb / PGSIZE = va / PGSIZE →
      ¬ Present (pteAt (m.setWord t (PTX va) 0) e vb) := by
    intro e vb he hvb hed hpage
    rw [h.pteAt_setWord 0 ht hw hva he hvb, if_pos ⟨hed, hpage⟩]
    exact not_present_zero
  have hret : Owned lay (update own v .other) kpgdir (m.setWord t (PTX va) 0) := by
    refine hclear.retire hvne.1 (fun e i _ => hvne.2.2.2 e i) ?_ ?_
    · intro e vb he hvb hp hown _
      rcases hv with hv | ⟨hv, _⟩
      · rw [hv, Owner.user.injEq] at hown
        exact hgone e vb he (lt_trans hvb (by decide)) hown.1.symm hown.2.symm hp
      · rw [hv] at hown
        cases hown
    · intro vb he hvb hp hown _
      rcases hv with hv | ⟨hv, hd⟩
      · rw [hv] at hown
        cases hown
      · rw [hv, Owner.heap.injEq] at hown
        exact hgone kpgdir vb he (lt_trans hvb.2 (by decide)) hd.symm hown.symm hp
  obtain ⟨hvalid, hm'⟩ := kfree_ok hvlt hk
  have hsame : kfree lay v (m.setWord t (PTX va) 0) = .ok (m'.setWord t (PTX va) 0) := by
    rw [kfree] at hk ⊢
    by_cases hbad : v % PGSIZE ≠ 0 ∨ v < lay.kernelEnd ∨ PHYSTOP ≤ V2P v
    · rw [if_pos hbad] at hk
      cases hk
    · rw [if_neg hbad, hm', memset_setWord_comm m _ _ _ htv]
      rfl
  have hfree := hret.kfree hvlt (update_self ..) hsame
  rw [update_idem] at hfree
  refine ⟨hfree, Frame.of_update hvne.2.1 (by simp) (fun hc => absurd hc hvne.2.2.1) ?_ ?_⟩
  · intro u hu
    have huv : u ≠ v := fun huv => hvne.2.1 (by rw [← huv, hu])
    rw [hm']
    exact sameView_memset 1 hvalid.1 (h.valid u (by simp [hu])).1 huv
  · intro e vb he hvb hU
    have hwords : ∀ u, (own u).paging = true →
        (m'.setWord t (PTX va) 0).word u = (m.setWord t (PTX va) 0).word u := by
      intro u hu
      have huv : u ≠ v := fun huv => by
        rcases hv with hv | ⟨hv, _⟩ <;> rw [huv, hv] at hu <;> cases hu
      funext j
      simp only [Mem.setWord, hm', Mem.memset, huv, if_false]
    rw [hclear.pteAt_congr hwords he, h.pteAt_setWord 0 ht hw hva he hvb]
    exact if_neg hU

/-! ### Taking an address space down -/

theorem entryOf_userOf {e vb : ℕ} (hva : va < KERNBASE) (h : entryOf d va e vb) : userOf d e vb := by
  refine ⟨h.1, ?_⟩
  have := h.2
  simp only [PGSIZE, KERNBASE] at *
  omega

/-- The loop of `deallocuvm` touches the user part of its page directory. -/
theorem deallocLoop_spec (hold : oldsz ≤ KERNBASE) (fuel a : ℕ) (h : Owned lay own kpgdir m)
    (hd : own d = .dir) (hok : deallocLoop lay d oldsz fuel a m = .ok m') :
    ∃ own', Owned lay own' kpgdir m' ∧ Frame (userOf d) own m own' m' ∧ ∀ v, own v = .other
      → own' v = .other := by
  induction fuel generalizing a m own with
  | zero => cases hok
  | succ fuel ih =>
    rw [deallocLoop] at hok
    by_cases hdone : oldsz ≤ a
    · rw [if_pos hdone] at hok
      cases hok
      exact ⟨own, h, Frame.refl own _, fun _ hv => hv⟩
    · rw [if_neg hdone] at hok
      have ha : a < KERNBASE := by omega
      have hva : a < ADDRESSES := lt_trans ha (by decide)
      rcases walkpgdir_noalloc h hd a with ⟨hwalk, _⟩ | ⟨t, hwalk, ht, hw, hpte⟩
      · rw [hwalk] at hok
        exact ih _ h hd hok
      · rw [hwalk] at hok
        simp only at hok
        by_cases hp : Present (m.word t (PTX a))
        · rw [if_pos hp] at hok
          by_cases hz : PTE_ADDR (m.word t (PTX a)) = 0
          · rw [if_pos hz] at hok
            cases hok
          · rw [if_neg hz] at hok
            obtain ⟨m1, hk, hrest⟩ := bind_ok.mp hok
            have hown : own (P2V (PTE_ADDR (m.word t (PTX a)))) = .user d (a / PGSIZE) := by
              rw [hpte] at hp ⊢
              exact h.user d a hd ha hp
            obtain ⟨h1, hf1⟩ := unmapPage h ht hw hva (Or.inl hown) (P2V_lt _) hk
            have hf1' := hf1.mono (V := userOf d) fun e vb _ hU => entryOf_userOf ha hU
            obtain ⟨own', h', hf', hother⟩ := ih _ h1 (hf1'.dir d hd (not_all_userOf d)) hrest
            refine ⟨own', h', hf1'.trans hf', fun v hv => hother v ?_⟩
            rw [update_of_ne (fun hve => by rw [hve, hown] at hv; cases hv), hv]
        · rw [if_neg hp] at hok
          exact ih _ h hd hok

/-- **`deallocuvm`** touches the user part of its page directory. -/
theorem deallocuvm_spec (hold : oldsz ≤ KERNBASE) (h : Owned lay own kpgdir m) (hd : own d = .dir)
    (hok : deallocuvm lay m d oldsz newsz = .ok (sz, m')) :
    ∃ own', Owned lay own' kpgdir m' ∧ Frame (userOf d) own m own' m' ∧ ∀ v, own v = .other
      → own' v = .other := by
  rw [deallocuvm] at hok
  by_cases hle : oldsz ≤ newsz
  · rw [if_pos hle] at hok
    cases hok
    exact ⟨own, h, Frame.refl own _, fun _ hv => hv⟩
  · rw [if_neg hle] at hok
    obtain ⟨m1, hloop, hret⟩ := bind_ok.mp hok
    cases hret
    exact deallocLoop_spec hold _ _ h hd hloop

theorem freeOther (h : Owned lay own kpgdir m) (hlt : v < ADDRESSES) (hv : own v = .other)
    (hk : kfree lay v m = .ok m') :
    Owned lay (update own v .free) kpgdir m' ∧ Frame untouched own m (update own v .free) m' := by
  obtain ⟨hvalid, rfl⟩ := kfree_ok hlt hk
  obtain ⟨hset, hframe⟩ := h.memset 1 hv hvalid
  refine ⟨h.kfree hlt hv hk, Frame.of_update (by simp [hv]) (by simp)
    (fun hc => by rw [hv] at hc; cases hc) hframe.view ?_⟩
  intro d va hd hva hU
  rw [pteAt_freelist]
  exact hframe.pte d va hd hva hU

/-- The loop of `freevm` over the entries of a page directory that is no longer in use. -/
theorem freeTables_spec (n i : ℕ) (h : Owned lay own kpgdir m) (hd : own d = .other)
    (htab : ∀ j, i ≤ j → j < i + n → Present (m.word d j) → own (P2V (PTE_ADDR (m.word d j))) = .table d j)
    (hok : freeTables lay d n i m = .ok m') :
    ∃ own', Owned lay own' kpgdir m' ∧ Frame untouched own m own' m' ∧ own' d = .other := by
  induction n generalizing i m own with
  | zero =>
    cases hok
    exact ⟨own, h, Frame.refl own _, hd⟩
  | succ n ih =>
    rw [freeTables] at hok
    by_cases hp : Present (m.word d i)
    · rw [if_pos hp] at hok
      obtain ⟨m1, hk, hrest⟩ := bind_ok.mp hok
      have hown := htab i (le_refl i) (by omega) hp
      have hne : d ≠ P2V (PTE_ADDR (m.word d i)) := fun hne => by rw [← hne, hd] at hown; cases hown
      have hret : Owned lay (update own (P2V (PTE_ADDR (m.word d i))) .other) kpgdir m := by
        refine h.retire (by simp [hown]) (fun e j he hc => ?_) (fun e va _ _ _ hc => ?_)
          fun va _ _ _ hc => ?_
        · rw [hown, Owner.table.injEq] at hc
          rw [← hc.1, hd] at he
          cases he
        · rw [hown] at hc
          cases hc
        · rw [hown] at hc
          cases hc
      have hfr : Frame untouched own m (update own (P2V (PTE_ADDR (m.word d i))) .other) m :=
        Frame.of_update (by simp [hown]) (by simp) (fun hc => by rw [hown] at hc; cases hc)
          (fun v _ => SameView.refl m v) fun _ _ _ _ _ => rfl
      obtain ⟨h1, hf1⟩ := freeOther hret (P2V_lt _) (update_self ..) hk
      rw [update_idem] at h1 hf1
      -- the other tables are other pages, and the directory itself is not written
      have hword : m1.word d = m.word d := by
        obtain ⟨_, rfl⟩ := kfree_ok (P2V_lt _) hk
        exact memset_word_of_ne m 1 hne
      obtain ⟨own', h', hf', hd'⟩ := ih (i + 1) h1 (by rw [update_of_ne hne, hd]) (by
        intro j hij hjn hpj
        rw [hword] at hpj ⊢
        have hj := htab j (by omega) (by omega) hpj
        have hjne : P2V (PTE_ADDR (m.word d j)) ≠ P2V (PTE_ADDR (m.word d i)) := by
          intro heq
          rw [heq, hown, Owner.table.injEq] at hj
          omega
        rw [update_of_ne hjne, hj]) hrest
      exact ⟨own', h', (hfr.trans hf1).trans hf', hd'⟩
    · rw [if_neg hp] at hok
      exact ih (i + 1) h hd (fun j hij hjn => htab j (by omega) (by omega)) hok

/-- **`freevm`** touches its page directory only. -/
theorem freevm_spec (h : Owned lay own kpgdir m) (hd : own d = .dir) (hok : freevm lay m d = .ok m') :
    ∃ own', Owned lay own' kpgdir m' ∧ Frame (allOf d) own m own' m' := by
  have hvalid : ValidPage lay d := h.valid d (by simp [hd])
  rw [freevm, if_neg hvalid.ne_zero] at hok
  obtain ⟨⟨sz, m1⟩, hdealloc, hok⟩ := bind_ok.mp hok
  obtain ⟨m2, htables, hk⟩ := bind_ok.mp hok
  obtain ⟨own1, h1, hf1, _⟩ := deallocuvm_spec (le_refl _) h hd hdealloc
  have hd1 : own1 d = .dir := hf1.dir d hd (not_all_userOf d)
  -- from here on `d` is a page directory no more
  have hret : Owned lay (update own1 d .other) kpgdir m1 := by
    refine h1.retire (by simp [hd1]) (fun e j _ hc => ?_) (fun e va _ _ _ hc => ?_)
      fun va _ _ _ hc => ?_
    all_goals rw [hd1] at hc; cases hc
  have hfr : Frame (allOf d) own1 m1 (update own1 d .other) m1 :=
    Frame.of_update (by simp [hd1]) (by simp) (fun _ _ => rfl) (fun v _ => SameView.refl m1 v)
      fun _ _ _ _ _ => rfl
  obtain ⟨own2, h2, hf2, hd2⟩ := freeTables_spec NPDENTRIES 0 hret (update_self ..) (by
    intro j _ hj hp
    have ht := (h1.table_of_present hd1 (by omega) hp).1
    have hne : P2V (PTE_ADDR (m1.word d j)) ≠ d := fun hne => by rw [hne, hd1] at ht; cases ht
    rw [update_of_ne hne, ht]) htables
  obtain ⟨h3, hf3⟩ := freeOther h2 (ValidPage.lt hvalid) hd2 hk
  exact ⟨_, h3, (((hf1.mono fun e va _ hU => hU.1).trans hfr).trans hf2.widen).trans hf3.widen⟩

/-! ### The kernel part of a new page directory -/

/-- The entry of `va` after the loop of `mappages` over a range, when it was `x` before. -/
def rangeEntry (va last perm : ℕ) : ℕ → ℕ → ℕ → ℕ → ℕ
  | 0, _, _, x => x
  | fuel + 1, a, pa, x =>
    let x := if va / PGSIZE = a / PGSIZE then pa ||| perm ||| PTE_P else x
    if a = last then x
    else rangeEntry va last perm fuel ((a + PGSIZE) % ADDRESSES) ((pa + PGSIZE) % ADDRESSES) x

/-- The first and the last page of a row of `kmap`. -/
def Kmap.first (k : Kmap) : ℕ := PGROUNDDOWN k.virt

def Kmap.last (k : Kmap) : ℕ := PGROUNDDOWN ((k.virt + k.size + (ADDRESSES - 1)) % ADDRESSES)

/-- The entry of `va` after a row has been mapped. -/
def rowEntry (va : ℕ) (x : ℕ) (k : Kmap) : ℕ :=
  rangeEntry va (Kmap.last k) k.perm PAGES (Kmap.first k) k.physStart x

/-- The entry that `setupkvm` gives an address. -/
def kernelEntry (lay : Layout) (va : ℕ) : ℕ := (kmap lay).foldl (rowEntry va) 0

/-- A range of whole pages of kernel addresses that does not wrap around. -/
structure KernelRange (a last : ℕ) : Prop where
  kernel : KERNBASE ≤ a
  le : a ≤ last
  lt : last < ADDRESSES
  first_aligned : a % PGSIZE = 0
  last_aligned : last % PGSIZE = 0

theorem KernelRange.next {last : ℕ} (h : KernelRange a last) (hne : a ≠ last) :
    (a + PGSIZE) % ADDRESSES = a + PGSIZE ∧ KernelRange (a + PGSIZE) last := by
  obtain ⟨h1, h2, h3, h4, h5⟩ := h
  refine ⟨?_, ?_, ?_, h3, ?_, h5⟩
  all_goals simp only [PGSIZE, ADDRESSES, KERNBASE] at *
  all_goals omega

theorem rangeEntry_of_outside {last fuel pa x : ℕ} (hr : KernelRange a last)
    (hout : va < a ∨ last + PGSIZE ≤ va) : rangeEntry va last perm fuel a pa x = x := by
  induction fuel generalizing a pa x with
  | zero => rfl
  | succ fuel ih =>
    have hpage : va / PGSIZE ≠ a / PGSIZE := by
      obtain ⟨_, hle, _, ha, hl⟩ := hr
      simp only [PGSIZE] at *
      omega
    rw [rangeEntry]
    simp only [if_neg hpage]
    by_cases hlast : a = last
    · rw [if_pos hlast]
    · obtain ⟨hstep, hnext⟩ := hr.next hlast
      rw [if_neg hlast, hstep]
      refine ih hnext (hout.imp_left fun hlt => ?_)
      omega

/-- Writing the entry of one kernel address, in a page directory other than the kernel's. -/
theorem setKernelPte (hk : d ≠ kpgdir) (h : Owned lay own kpgdir m) (hd : own d = .dir)
    (ht : own t = .table d (PDX a)) (hw : m.word d (PDX a) = tableEntry t) (ha : KERNBASE ≤ a)
    (hva : a < ADDRESSES) (w : ℕ) : Owned lay own kpgdir (m.setWord t (PTX a) w)
      ∧ Frame (kernelOf d) own m own (m.setWord t (PTX a) w)
      ∧ ∀ va < ADDRESSES, pteAt (m.setWord t (PTX a) w) d va
        = if va / PGSIZE = a / PGSIZE then w else pteAt m d va := by
  refine ⟨h.setPte ht hw hva (fun hlt => absurd hlt (not_lt.mpr ha)) fun hdk => absurd hdk hk, ?_, ?_⟩
  · refine (frame_setWord h _ ht hw hva).mono fun e vb _ hU => ⟨hU.1, ?_⟩
    have hpage := hU.2
    simp only [PGSIZE, KERNBASE] at *
    omega
  · intro va hlt
    rw [h.pteAt_setWord _ ht hw hva hd hlt]
    simp only [true_and]

/-- **The loop of `mappages`** over kernel addresses of a page directory other than the kernel's. -/
theorem mapLoop_spec {last : ℕ} {ok : Bool} (hk : d ≠ kpgdir) (fuel a pa : ℕ) (h : Owned lay own kpgdir m)
    (hd : own d = .dir) (hr : KernelRange a last)
    (hok : mapLoop d last perm fuel a pa m = .ok (ok, m')) :
    ∃ own', Owned lay own' kpgdir m' ∧ Frame (kernelOf d) own m own' m' ∧ Keeps own own'
      ∧ (ok = true → ∀ va < ADDRESSES, pteAt m' d va = rangeEntry va last perm fuel a pa (pteAt m d va)) := by
  induction fuel generalizing a pa m own with
  | zero => cases hok
  | succ fuel ih =>
    have haK := hr.kernel
    have hva : a < ADDRESSES := lt_of_le_of_lt hr.le hr.lt
    rw [mapLoop] at hok
    rcases walkpgdir_alloc h hd a with ⟨_, hwalk⟩ | ⟨t, own1, m1, hwalk, h1, hf1, hk1, ht, hw, _⟩
    · rw [hwalk] at hok
      cases hok
      exact ⟨own, h, Frame.refl own _, Keeps.refl own, fun hc => by cases hc⟩
    · rw [hwalk] at hok
      simp only at hok
      have hd1 : own1 d = .dir := (hk1 d (by simp [hd])).trans hd
      by_cases hp : Present (m1.word t (PTX a))
      · rw [if_pos hp] at hok
        cases hok
      · rw [if_neg hp] at hok
        obtain ⟨h2, hf2, hset⟩ := setKernelPte hk h1 hd1 ht hw haK hva (pa ||| perm ||| PTE_P)
        have hpte : ∀ va < ADDRESSES, pteAt (m1.setWord t (PTX a) (pa ||| perm ||| PTE_P)) d va
            = if va / PGSIZE = a / PGSIZE then pa ||| perm ||| PTE_P else pteAt m d va := by
          intro va hlt
          rw [hset va hlt, hf1.pte d va hd hlt id]
        by_cases hlast : a = last
        · rw [if_pos hlast] at hok
          cases hok
          refine ⟨own1, h2, hf1.widen.trans hf2, hk1, fun _ va hlt => ?_⟩
          rw [hpte va hlt, rangeEntry, if_pos hlast]
        · rw [if_neg hlast] at hok
          obtain ⟨hstep, hnext⟩ := hr.next hlast
          rw [hstep] at hok
          obtain ⟨own', h', hf', hk', hent⟩ := ih _ _ h2 hd1 hnext hok
          refine ⟨own', h', (hf1.widen.trans hf2).trans hf', hk1.trans hk', fun hc va hlt => ?_⟩
          rw [hent hc va hlt, hpte va hlt, rangeEntry, if_neg hlast, hstep]

/-- The rows of `kmap` are ranges of kernel addresses outside the kernel heap. -/
theorem kmap_rows (lay : Layout) : ∀ k ∈ kmap lay, KernelRange (Kmap.first k) (Kmap.last k)
    ∧ ∀ va, InHeap va → va < Kmap.first k ∨ Kmap.last k + PGSIZE ≤ va := by
  obtain ⟨data, kernelEnd, hgt, hlt, hal, _⟩ := lay
  intro k hk
  simp only [kmap, List.mem_cons, List.not_mem_nil, or_false] at hk
  simp only [KERNLINK, KERNBASE, EXTMEM, PHYSTOP, PGSIZE] at hgt hlt hal
  -- each row by its own arithmetic
  rcases hk with rfl | rfl | rfl | rfl
  all_goals
    refine ⟨⟨?_, ?_, ?_, ?_, ?_⟩, fun va hva => ?_⟩
  all_goals
    simp only [Kmap.first, Kmap.last, Kmap.size, InHeap, PGROUNDDOWN, V2P, KERNLINK, KERNBASE,
      EXTMEM, PHYSTOP, DEVSPACE, PGSIZE, ADDRESSES] at * <;> omega

theorem kmap_sorted (lay : Layout) : (kmap lay).Pairwise fun k q => Kmap.last k + PGSIZE ≤ Kmap.first q := by
  obtain ⟨data, kernelEnd, hgt, hlt, hal, _⟩ := lay
  simp only [KERNLINK, KERNBASE, EXTMEM, PHYSTOP, PGSIZE] at hgt hlt hal
  simp only [kmap, List.pairwise_cons, List.mem_cons, List.not_mem_nil, or_false, forall_eq_or_imp, forall_eq,
    List.Pairwise.nil, and_true, false_imp_iff, forall_true_iff]
  simp only [Kmap.first, Kmap.last, Kmap.size, PGROUNDDOWN, V2P, KERNLINK, KERNBASE, EXTMEM,
    PHYSTOP, DEVSPACE, PGSIZE, ADDRESSES]
  omega

/-- **The kernel heap is not in `kmap`.** -/
theorem kernelEntry_of_inHeap (hva : InHeap va) : kernelEntry lay va = 0 := by
  have hrows : ∀ rows : List Kmap, (∀ k ∈ rows, k ∈ kmap lay) → rows.foldl (rowEntry va) 0 = 0 := by
    intro rows hsub
    induction rows with
    | nil => rfl
    | cons k rows ih =>
      obtain ⟨hr, hout⟩ := kmap_rows lay k (hsub k List.mem_cons_self)
      rw [List.foldl_cons, rowEntry, rangeEntry_of_outside hr (hout va hva)]
      exact ih fun q hq => hsub q (List.mem_cons_of_mem k hq)
  exact hrows _ fun _ hk => hk

theorem mapRows_spec (hk : d ≠ kpgdir) (rows : List Kmap)
    (hrows : ∀ k ∈ rows, KernelRange (Kmap.first k) (Kmap.last k)) (h : Owned lay own kpgdir m)
    (hd : own d = .dir) (hok : mapRows lay d rows m = .ok (r, m')) :
    ∃ own', Owned lay own' kpgdir m' ∧ Frame (allOf d) own m own' m'
      ∧ (r = 0 ∨ r = d ∧ own' d = .dir
        ∧ ∀ va < ADDRESSES, pteAt m' d va = rows.foldl (rowEntry va) (pteAt m d va)) := by
  induction rows generalizing m own with
  | nil =>
    cases hok
    exact ⟨own, h, Frame.refl own _, Or.inr ⟨rfl, hd, fun _ _ => rfl⟩⟩
  | cons k rows ih =>
    obtain ⟨⟨ok, m1⟩, hmap, hok⟩ := bind_ok.mp hok
    obtain ⟨own1, h1, hf1, hk1, hent⟩ := mapLoop_spec hk _ _ _ h hd (hrows k List.mem_cons_self) hmap
    have hf1' := hf1.mono (V := allOf d) fun e vb _ hU => hU.1
    have hd1 : own1 d = .dir := (hk1 d (by simp [hd])).trans hd
    cases ok with
    | true =>
      obtain ⟨own', h', hf', hres⟩ := ih (fun q hq => hrows q (List.mem_cons_of_mem k hq)) h1 hd1 hok
      refine ⟨own', h', hf1'.trans hf', hres.imp_right ?_⟩
      rintro ⟨hr, hd', hrest⟩
      refine ⟨hr, hd', fun va hlt => ?_⟩
      rw [hrest va hlt, hent rfl va hlt]
      rfl
    | false =>
      obtain ⟨m2, hfree, hret⟩ := bind_ok.mp hok
      cases hret
      obtain ⟨own', h', hf'⟩ := freevm_spec h1 hd1 hfree
      exact ⟨own', h', hf1'.trans hf', Or.inl rfl⟩

/-- **A page from `kalloc` becomes a page directory** without entries. -/
theorem newDir {rest : List ℕ} (h : Owned lay own kpgdir m) (hf : m.freelist = d :: rest) :
    own d = .free ∧ ValidPage lay d
      ∧ Owned lay (update own d .dir) kpgdir (Mem.memset { m with freelist := rest } d 0)
      ∧ Frame untouched own m (update own d .dir) (Mem.memset { m with freelist := rest } d 0)
      ∧ ∀ i, (Mem.memset { m with freelist := rest } d 0).word d i = 0 := by
  obtain ⟨hfree, hvalid, h1, hf1⟩ := h.kalloc hf
  have hother : update own d .other d = .other := update_self ..
  obtain ⟨h2, hf2⟩ := h1.memset 0 hother hvalid
  have hz : ∀ i, (Mem.memset { m with freelist := rest } d 0).word d i = 0 := fun i => memset_word_self ..
  have h3 := h2.promote hother hvalid hz
  have hf3 : Frame untouched (update own d .other) (Mem.memset { m with freelist := rest } d 0)
      (update (update own d .other) d .dir) (Mem.memset { m with freelist := rest } d 0) :=
    Frame.of_update (by simp) (by simp) (fun hc => by rw [hother] at hc; cases hc)
      (fun v _ => SameView.refl _ v) fun _ _ _ _ _ => rfl
  rw [update_idem] at h3 hf3
  exact ⟨hfree, hvalid, h3, (hf1.trans hf2).trans hf3, hz⟩

/-- **`setupkvm`** returns `0`, or a new page directory with the entries of `kmap`; no other address space
changes. -/
theorem setupkvm_spec (h : Owned lay own kpgdir m) (hk : own kpgdir ≠ .free)
    (hok : setupkvm lay m = .ok (r, m')) :
    ∃ own', Owned lay own' kpgdir m' ∧ Frame untouched own m own' m'
      ∧ (r = 0 ∨ own r = .free ∧ own' r = .dir ∧ ∀ va < ADDRESSES, pteAt m' r va = kernelEntry lay va) := by
  rw [setupkvm] at hok
  rcases kalloc_cases m with ⟨_, hka⟩ | ⟨d, rest, hf, hka⟩
  · rw [hka] at hok
    cases hok
    exact ⟨own, h, Frame.refl own _, Or.inl rfl⟩
  · obtain ⟨hfree, hvalid, h1, hf1, hz⟩ := newDir h hf
    have hd : update own d .dir d = .dir := update_self ..
    have hdk : d ≠ kpgdir := fun hdk => hk (by rw [← hdk, hfree])
    rw [hka] at hok
    simp only [if_neg hvalid.ne_zero, show ¬ DEVSPACE < P2V PHYSTOP from by decide, if_false] at hok
    obtain ⟨own', h', hf', hres⟩ := mapRows_spec hdk _ (fun k hkm => (kmap_rows lay k hkm).1) h1 hd hok
    -- the new page directory was a free page before: no address space of before is touched
    have hall : Frame untouched own m own' m' :=
      (hf1.widen.trans hf').mono fun e va he hU => by
        rw [show e = d from hU, hfree] at he
        cases he
    refine ⟨own', h', hall, hres.imp_right ?_⟩
    rintro ⟨rfl, hd', hent⟩
    refine ⟨hfree, hd', fun va hlt => ?_⟩
    rw [hent va hlt, pteAt_of_zero hz]
    rfl

/-! ### User memory -/

theorem mappages_page {ok : Bool} (h : Owned lay own kpgdir m) (hd : own d = .dir) (ha : a < KERNBASE)
    (hal : a % PGSIZE = 0) (hr : own r = .other) (hv : ValidPage lay r) (hperm : perm < PGSIZE)
    (hok : mappages m d a PGSIZE (V2P r) perm = .ok (ok, m')) :
    ∃ own', Owned lay own' kpgdir m' ∧ Frame (userOf d) own m own' m' ∧ (ok = false → own' r = .other) := by
  have hva : a < ADDRESSES := lt_trans ha (by decide)
  have hlast : PGROUNDDOWN ((a + PGSIZE + (ADDRESSES - 1)) % ADDRESSES) = PGROUNDDOWN a := by
    simp only [PGROUNDDOWN, PGSIZE, ADDRESSES, KERNBASE] at ha hal ⊢
    omega
  have hfirst : PGROUNDDOWN a = a := by
    simp only [PGROUNDDOWN, PGSIZE] at hal ⊢
    omega
  obtain ⟨n, hn⟩ : ∃ n, PAGES = n + 1 := ⟨2 ^ 20 - 1, by decide⟩
  rw [mappages, hlast, hfirst, hn, mapLoop] at hok
  rcases walkpgdir_alloc h hd a with ⟨_, hwalk⟩ | ⟨t, own1, m1, hwalk, h1, hf1, hk1, ht, hw, _⟩
  · rw [hwalk] at hok
    cases hok
    exact ⟨own, h, Frame.refl own _, fun _ => hr⟩
  · rw [hwalk] at hok
    simp only [if_true] at hok
    by_cases hp : Present (m1.word t (PTX a))
    · rw [if_pos hp] at hok
      cases hok
    · rw [if_neg hp] at hok
      cases hok
      have hr1 : own1 r = .other := (hk1 r (by simp [hr])).trans hr
      obtain ⟨h2, hf2⟩ := mapPage (o := .user d (a / PGSIZE)) h1 ht hw hva hr1 hv hperm rfl (by simp)
        (fun _ => rfl) fun _ hin => absurd ha (not_lt.mpr (le_trans (by decide) hin.1))
      exact ⟨_, h2, hf1.widen.trans (hf2.mono fun e vb _ hU => entryOf_userOf ha hU), fun hc => by cases hc⟩

theorem PGROUNDUP_aligned (sz : ℕ) : PGROUNDUP sz % PGSIZE = 0 := by
  simp only [PGROUNDUP, PGROUNDDOWN, PGSIZE]
  omega

theorem next_page_aligned (h : a % PGSIZE = 0) : (a + PGSIZE) % ADDRESSES % PGSIZE = 0 := by
  simp only [PGSIZE, ADDRESSES] at *
  omega

/-- The loop of `allocuvm` touches the user part of its page directory. -/
theorem allocLoop_spec (hnew : newsz < KERNBASE) (fuel a : ℕ) (hal : a % PGSIZE = 0)
    (h : Owned lay own kpgdir m) (hd : own d = .dir)
    (hok : allocLoop lay d oldsz newsz fuel a m = .ok (sz, m')) :
    ∃ own', Owned lay own' kpgdir m' ∧ Frame (userOf d) own m own' m' := by
  induction fuel generalizing a m own with
  | zero => cases hok
  | succ fuel ih =>
    rw [allocLoop] at hok
    by_cases hdone : newsz ≤ a
    · rw [if_pos hdone] at hok
      cases hok
      exact ⟨own, h, Frame.refl own _⟩
    · rw [if_neg hdone] at hok
      rcases kalloc_cases m with ⟨_, hka⟩ | ⟨r, rest, hf, hka⟩
      · rw [hka] at hok
        simp only [if_true] at hok
        obtain ⟨⟨s1, m1⟩, hdealloc, hret⟩ := bind_ok.mp hok
        cases hret
        obtain ⟨own', h', hf', _⟩ := deallocuvm_spec (le_of_lt hnew) h hd hdealloc
        exact ⟨own', h', hf'⟩
      · obtain ⟨hfree, hvalid, h1, hf1⟩ := h.kalloc hf
        have hother : update own r .other r = .other := update_self ..
        obtain ⟨h2, hf2⟩ := h1.memset 0 hother hvalid
        have hd2 : update own r .other d = .dir := (keeps_update hfree _ d (by simp [hd])).trans hd
        rw [hka] at hok
        simp only [if_neg hvalid.ne_zero] at hok
        obtain ⟨⟨ok, m3⟩, hmap, hok⟩ := bind_ok.mp hok
        obtain ⟨own3, h3, hf3, hr3⟩ := mappages_page h2 hd2 (by omega) hal hother hvalid (by decide) hmap
        have hf : Frame (userOf d) own m own3 m3 := ((hf1.trans hf2).widen).trans hf3
        have hd3 := hf.dir d hd (not_all_userOf d)
        cases ok with
        | true =>
          obtain ⟨own', h', hf'⟩ := ih _ (next_page_aligned hal) h3 hd3 hok
          exact ⟨own', h', hf.trans hf'⟩
        | false =>
          obtain ⟨⟨s4, m4⟩, hdealloc, hok⟩ := bind_ok.mp hok
          obtain ⟨m5, hk, hret⟩ := bind_ok.mp hok
          cases hret
          obtain ⟨own4, h4, hf4, hother4⟩ := deallocuvm_spec (le_of_lt hnew) h3 hd3 hdealloc
          obtain ⟨h5, hf5⟩ := freeOther h4 (ValidPage.lt hvalid) (hother4 r (hr3 rfl)) hk
          exact ⟨_, h5, (hf.trans hf4).trans hf5.widen⟩

/-- **`allocuvm`** touches the user part of its page directory. -/
theorem allocuvm_spec (h : Owned lay own kpgdir m) (hd : own d = .dir)
    (hok : allocuvm lay m d oldsz newsz = .ok (sz, m')) :
    ∃ own', Owned lay own' kpgdir m' ∧ Frame (userOf d) own m own' m' := by
  rw [allocuvm] at hok
  by_cases hbig : KERNBASE ≤ newsz
  · rw [if_pos hbig] at hok
    cases hok
    exact ⟨own, h, Frame.refl own _⟩
  · rw [if_neg hbig] at hok
    by_cases hless : newsz < oldsz
    · rw [if_pos hless] at hok
      cases hok
      exact ⟨own, h, Frame.refl own _⟩
    · rw [if_neg hless] at hok
      exact allocLoop_spec (not_le.mp hbig) _ _ (PGROUNDUP_aligned oldsz) h hd hok

/-- The loop of `copyuvm` touches the user part of the copy, or takes the copy down. -/
theorem copyLoop_spec {pgdir : ℕ} (hsz : sz ≤ KERNBASE) (fuel i : ℕ) (hal : i % PGSIZE = 0)
    (h : Owned lay own kpgdir m) (hpg : own pgdir = .dir) (hne : pgdir ≠ d) (hd : own d = .dir)
    (hok : copyLoop lay pgdir d sz fuel i m = .ok (r, m')) :
    ∃ own', Owned lay own' kpgdir m' ∧ Frame (allOf d) own m own' m'
      ∧ (r = 0 ∨ r = d ∧ Frame (userOf d) own m own' m') := by
  induction fuel generalizing i m own with
  | zero => cases hok
  | succ fuel ih =>
    rw [copyLoop] at hok
    by_cases hdone : sz ≤ i
    · rw [if_pos hdone] at hok
      cases hok
      exact ⟨own, h, Frame.refl own _, Or.inr ⟨rfl, Frame.refl own _⟩⟩
    · rw [if_neg hdone] at hok
      rcases walkpgdir_noalloc h hpg i with ⟨hwalk, _⟩ | ⟨t, hwalk, _⟩
      · rw [hwalk] at hok
        cases hok
      · rw [hwalk] at hok
        simp only at hok
        by_cases hp : ¬ Present (m.word t (PTX i))
        · rw [if_pos hp] at hok
          cases hok
        · rw [if_neg hp] at hok
          rcases kalloc_cases m with ⟨_, hka⟩ | ⟨mem, rest, hf, hka⟩
          · rw [hka] at hok
            simp only [if_true] at hok
            obtain ⟨m1, hfree, hret⟩ := bind_ok.mp hok
            cases hret
            obtain ⟨own', h', hf'⟩ := freevm_spec h hd hfree
            exact ⟨own', h', hf', Or.inl rfl⟩
          · obtain ⟨hfree, hvalid, h1, hf1⟩ := h.kalloc hf
            have hother : update own mem .other mem = .other := update_self ..
            obtain ⟨h2, hf2⟩ := h1.copyPage (P2V (PTE_ADDR (m.word t (PTX i)))) hother
            have hkeep := keeps_update hfree (Owner.other)
            have hd2 : update own mem .other d = .dir := (hkeep d (by simp [hd])).trans hd
            rw [hka] at hok
            simp only [if_neg hvalid.ne_zero] at hok
            obtain ⟨⟨ok, m3⟩, hmap, hok⟩ := bind_ok.mp hok
            obtain ⟨own3, h3, hf3, hr3⟩ := mappages_page h2 hd2 (by omega) hal hother hvalid
              (Nat.mod_lt _ (by decide)) hmap
            have hfu : Frame (userOf d) own m own3 m3 := ((hf1.trans hf2).widen).trans hf3
            have hfa : Frame (allOf d) own m own3 m3 := hfu.mono fun e vb _ hU => hU.1
            have hd3 := hfu.dir d hd (not_all_userOf d)
            have hpg3 := hfu.dir pgdir hpg fun hall => hne (hall 0).1
            cases ok with
            | true =>
              obtain ⟨own', h', hf', hres⟩ := ih _ (next_page_aligned hal) h3 hpg3 hd3 hok
              exact ⟨own', h', hfa.trans hf', hres.imp_right fun hgood => ⟨hgood.1, hfu.trans hgood.2⟩⟩
            | false =>
              obtain ⟨m4, hk, hok⟩ := bind_ok.mp hok
              obtain ⟨m5, hfreevm, hret⟩ := bind_ok.mp hok
              cases hret
              obtain ⟨h4, hf4⟩ := freeOther h3 (ValidPage.lt hvalid) (hr3 rfl) hk
              obtain ⟨own', h', hf'⟩ := freevm_spec h4 (hf4.dir d hd3 fun hall => hall 0) hfreevm
              exact ⟨own', h', (hfa.trans hf4.widen).trans hf', Or.inl rfl⟩

/-- **`copyuvm`** returns `0`, or a new page directory with the entries of `kmap`; no other address space
changes. -/
theorem copyuvm_spec {pgdir : ℕ} (hsz : sz ≤ KERNBASE) (h : Owned lay own kpgdir m) (hk : own kpgdir ≠ .free)
    (hpg : own pgdir = .dir) (hok : copyuvm lay m pgdir sz = .ok (r, m')) :
    ∃ own', Owned lay own' kpgdir m' ∧ Frame untouched own m own' m'
      ∧ (r = 0 ∨ own r = .free ∧ own' r = .dir
        ∧ ∀ va, KERNBASE ≤ va → va < ADDRESSES → pteAt m' r va = kernelEntry lay va) := by
  obtain ⟨⟨d, m1⟩, hset, hok⟩ := bind_ok.mp hok
  obtain ⟨own1, h1, hf1, hd⟩ := setupkvm_spec h hk hset
  simp only at hok
  by_cases hz : d = 0
  · rw [if_pos hz] at hok
    cases hok
    exact ⟨own1, h1, hf1, Or.inl rfl⟩
  · rw [if_neg hz] at hok
    obtain ⟨hfree, hd1, hent⟩ := hd.resolve_left hz
    have hne : pgdir ≠ d := fun hne => by rw [hne, hfree] at hpg; cases hpg
    have hpg1 := hf1.dir pgdir hpg fun hall => hall 0
    obtain ⟨own', h', hf', hres⟩ := copyLoop_spec hsz _ _ (by decide) h1 hpg1 hne hd1 hok
    have hall : Frame untouched own m own' m' :=
      (hf1.widen.trans hf').mono fun e va he hU => by
        rw [show e = d from hU, hfree] at he
        cases he
    refine ⟨own', h', hall, hres.imp_right ?_⟩
    rintro ⟨rfl, hu⟩
    refine ⟨hfree, hu.dir _ hd1 (not_all_userOf _), fun va hlo hlt => ?_⟩
    rw [hu.pte _ va hd1 hlt fun hU => absurd hU.2 (not_lt.mpr hlo), hent va hlt]

end Xv6e.Memory.AddressSpace
