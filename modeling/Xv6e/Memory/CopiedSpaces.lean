import Xv6e.Memory.Growproc
import Xv6e.Memory.Supply

/-!
# The copy that `fork` makes of an address space

`copyuvm` maps every page below the size to a page of its own, with the flags and the contents of the parent's
page.  So parent and child share no page, and what one of them stores the other never sees.

* `Store`, `store` — a store by user code through a page directory;
* `stores_apart` — what a page directory shows after any stores depends on its own stores only;
* `copyuvm_high` — `copyuvm` of more than the user part returns no page directory;
* `copyuvm_isolates` — the copy, and that it is isolated.
-/

namespace Xv6e.Memory.CopiedSpaces

open Library.Fallible
open PageTable Ownership AddressSpace Frames FrameCalls
open NewSpaces Growproc HeapInvariant Supply

variable {lay : Layout} {own : ℕ → Owner} {kpgdir pgdir d sz : ℕ} {m m' : Mem}

/-! ### Stores of user code -/

/-- A store by user code: the page directory it runs with, an address, and the new value of a word of its
page. -/
structure Store where
  dir : ℕ
  va : ℕ
  index : ℕ
  value : ℕ
  deriving DecidableEq, Repr

/-- The store is done if the address is mapped. -/
def store (m : Mem) (w : Store) : Mem :=
  if w.va < KERNBASE ∧ Present (pteAt m w.dir w.va) then
    m.setWord (frameAt m w.dir w.va) w.index w.value else m

/-- Two memories with the same page tables and the same contents of the pages of `e`. -/
structure Alike (lay : Layout) (own : ℕ → Owner) (kpgdir e : ℕ) (m m' : Mem) : Prop where
  left : Owned lay own kpgdir m
  right : Owned lay own kpgdir m'
  tables : ∀ v, (own v).paging = true → m'.word v = m.word v
  pages : ∀ v p, own v = .user e p → m'.word v = m.word v

theorem Alike.refl (h : Owned lay own kpgdir m) (e : ℕ) : Alike lay own kpgdir e m m :=
  ⟨h, h, fun _ _ => rfl, fun _ _ _ => rfl⟩

variable {e x va n : ℕ}

theorem Alike.pteAt_eq (h : Alike lay own kpgdir e m m') (hx : own x = .dir) (va : ℕ) :
    pteAt m' x va = pteAt m x va := h.left.pteAt_congr h.tables hx va

variable {w : Store}

theorem store_owned (h : Owned lay own kpgdir m) (hw : own w.dir = .dir) :
    Owned lay own kpgdir (store m w) ∧ ∀ v, (∀ p, own v ≠ .user w.dir p) → (store m w).word v = m.word v := by
  rw [store]
  by_cases hp : w.va < KERNBASE ∧ Present (pteAt m w.dir w.va)
  · rw [if_pos hp]
    have hown : own (frameAt m w.dir w.va) = .user w.dir (w.va / PGSIZE) := h.user _ _ hw hp.1 hp.2
    have hwords : ∀ v, (∀ p, own v ≠ .user w.dir p) →
        (m.setWord (frameAt m w.dir w.va) w.index w.value).word v = m.word v := by
      intro v hv
      have hne : v ≠ frameAt m w.dir w.va := fun hc => hv _ (hc ▸ hown)
      exact setWord_word_of_ne _ _ _ hne
    refine ⟨h.of_words rfl fun v hv => hwords v fun p hc => ?_, hwords⟩
    rw [hc] at hv
    cases hv
  · rw [if_neg hp]
    exact ⟨h, fun _ _ => rfl⟩

theorem Alike.same (h : Alike lay own kpgdir e m m') (hw : own w.dir = .dir) :
    Alike lay own kpgdir e (store m w) (store m' w) := by
  have hpte := h.pteAt_eq hw w.va
  have hframe : frameAt m' w.dir w.va = frameAt m w.dir w.va := by rw [frameAt, hpte, frameAt]
  have hword : ∀ v, m'.word v = m.word v → (store m' w).word v = (store m w).word v := by
    intro v hv
    rw [store, store, hpte, hframe]
    by_cases hp : w.va < KERNBASE ∧ Present (pteAt m w.dir w.va)
    · rw [if_pos hp, if_pos hp]
      funext j
      simp only [Mem.setWord, hv]
    · rw [if_neg hp, if_neg hp]
      exact hv
  exact ⟨(store_owned h.left hw).1, (store_owned h.right hw).1, fun v hv => hword v (h.tables v hv),
    fun v p hv => hword v (h.pages v p hv)⟩

theorem Alike.other (h : Alike lay own kpgdir e m m') (hw : own w.dir = .dir) (hne : w.dir ≠ e) :
    Alike lay own kpgdir e (store m w) m' := by
  obtain ⟨howned, hword⟩ := store_owned h.left hw
  refine ⟨howned, h.right, fun v hv => ?_, fun v p hv => ?_⟩
  · rw [hword v fun p hc => by rw [hc] at hv; cases hv]
    exact h.tables v hv
  · rw [hword v fun q hc => by rw [hc] at hv; exact hne (Owner.user.inj hv).1]
    exact h.pages v p hv

theorem Alike.stores (ws : List Store) (hws : ∀ w ∈ ws, own w.dir = .dir) (h : Alike lay own kpgdir e m m') :
    Alike lay own kpgdir e (ws.foldl store m) ((ws.filter fun w => w.dir = e).foldl store m') := by
  induction ws generalizing m m' with
  | nil => exact h
  | cons w ws ih =>
    have hw : own w.dir = .dir := hws w List.mem_cons_self
    have hrest : ∀ x ∈ ws, own x.dir = .dir := fun x hx => hws x (List.mem_cons_of_mem w hx)
    by_cases he : w.dir = e
    · rw [List.filter_cons_of_pos (by simpa using he)]
      exact ih hrest (h.same hw)
    · rw [List.filter_cons_of_neg (by simpa using he)]
      exact ih hrest (h.other hw he)

/-- **Stores of other page directories are not seen**: after any stores, the entries of a page directory are
those of before, and its pages have the contents that its own stores alone give them. -/
theorem stores_apart (h : Owned lay own kpgdir m) (ws : List Store) (hws : ∀ w ∈ ws, own w.dir = .dir)
    (he : own e = .dir) (hva : va < KERNBASE) (hp : Present (pteAt m e va)) :
    pteAt (ws.foldl store m) e va = pteAt m e va
      ∧ content (ws.foldl store m) e va = content ((ws.filter fun w => w.dir = e).foldl store m) e va := by
  have hkeep : ∀ xs : List Store, (∀ w ∈ xs, own w.dir = .dir) → ∀ x, own x = .dir →
      pteAt (xs.foldl store m) x va = pteAt m x va := by
    intro xs
    induction xs using List.reverseRecOn with
    | nil => exact fun _ _ _ => rfl
    | append_singleton xs w ih =>
      intro hxs x hx
      have hxs' : ∀ y ∈ xs, own y.dir = .dir := fun y hy => hxs y (List.mem_append_left _ hy)
      have howned := ((Alike.refl h e).stores xs hxs').left
      obtain ⟨_, hword⟩ := store_owned howned (hxs w (by simp))
      rw [List.foldl_append, List.foldl_cons, List.foldl_nil, ← ih hxs' x hx]
      refine howned.pteAt_congr (fun v hv => hword v fun p hc => ?_) hx va
      rw [hc] at hv
      cases hv
  have hfilter : ∀ w ∈ ws.filter (fun w => w.dir = e), own w.dir = .dir :=
    fun w hw => hws w (List.mem_filter.mp hw).1
  have halike := (Alike.refl h e).stores ws hws
  have hpte₁ := hkeep ws hws e he
  have hpte₂ := hkeep _ hfilter e he
  refine ⟨hpte₁, ?_⟩
  rw [content, content, frameAt, frameAt, hpte₁, hpte₂]
  exact (halike.pages _ _ (h.user e va he hva hp)).symm

/-! ### More than the user part -/

theorem present_rangeEntry {last perm : ℕ} (fuel a pa : ℕ) (h : Present x) :
    Present (rangeEntry va last perm fuel a pa x) := by
  induction fuel generalizing a pa x with
  | zero => exact h
  | succ fuel ih =>
    have hx : Present (if va / PGSIZE = a / PGSIZE then pa ||| perm ||| PTE_P else x) := by
      by_cases hpage : va / PGSIZE = a / PGSIZE
      · rw [if_pos hpage]
        exact present_or _
      · rw [if_neg hpage]
        exact h
    rw [rangeEntry]
    by_cases hlast : a = last
    · simp only [if_pos hlast]
      exact hx
    · simp only [if_neg hlast]
      exact ih _ _ hx

theorem present_kernelEntry : Present (kernelEntry lay KERNBASE) := by
  have hrows : ∀ (rows : List Kmap) (x : ℕ), Present x → Present (rows.foldl (rowEntry KERNBASE) x) := by
    intro rows
    induction rows with
    | nil => exact fun _ hx => hx
    | cons k rows ih => exact fun x hx => ih _ (present_rangeEntry _ _ _ hx)
  rw [kernelEntry, kmap, List.foldl_cons]
  refine hrows _ _ ?_
  obtain ⟨n, hn⟩ : ∃ n, PAGES = n + 1 := ⟨2 ^ 20 - 1, by decide⟩
  rw [rowEntry, hn, rangeEntry]
  have hfirst : KERNBASE / PGSIZE = Kmap.first ⟨KERNBASE, 0, EXTMEM, PTE_W⟩ / PGSIZE := by decide
  simp only [if_pos hfirst]
  by_cases hlast : Kmap.first ⟨KERNBASE, 0, EXTMEM, PTE_W⟩ = Kmap.last ⟨KERNBASE, 0, EXTMEM, PTE_W⟩
  · rw [if_pos hlast]
    exact present_or _
  · rw [if_neg hlast]
    exact present_rangeEntry _ _ _ (present_or _)

/-- The loop of `copyuvm` for a size above the user part copies the user part first. -/
theorem copyLoop_split (hsz : KERNBASE ≤ sz) (n i : ℕ) (hal : i % PGSIZE = 0) (hi : i ≤ KERNBASE)
    (hn : KERNBASE ≤ i + n * PGSIZE) :
    (∃ m' f, copyLoop lay pgdir d KERNBASE (n + 1) i m = .ok (d, m')
      ∧ copyLoop lay pgdir d sz (n + 1) i m = copyLoop lay pgdir d sz (f + 1) KERNBASE m')
    ∨ ∀ r m', copyLoop lay pgdir d sz (n + 1) i m = .ok (r, m') → r = 0 := by
  induction n generalizing i m with
  | zero =>
    obtain rfl : i = KERNBASE := by omega
    refine Or.inl ⟨m, 0, ?_, rfl⟩
    rw [copyLoop, if_pos le_rfl]
  | succ n ih =>
    by_cases hK : i = KERNBASE
    · subst hK
      refine Or.inl ⟨m, n + 1, ?_, rfl⟩
      rw [copyLoop, if_pos le_rfl]
    have hlt : i < KERNBASE := by omega
    have hnext : (i + PGSIZE) % ADDRESSES = i + PGSIZE := by
      simp only [PGSIZE, ADDRESSES, KERNBASE] at hlt ⊢
      omega
    have hrest := fun {m : Mem} => ih (m := m) (i + PGSIZE) (by simp only [PGSIZE] at *; omega)
      (by simp only [PGSIZE, KERNBASE] at *; omega) (by rw [Nat.succ_mul] at hn; omega)
    rw [copyLoop, if_neg (by omega : ¬ KERNBASE ≤ i), copyLoop, if_neg (by omega : ¬ sz ≤ i)]
    rcases hwalk : walkpgdir m pgdir i false with ⟨_ | ⟨t, j⟩, m₁⟩
    · exact Or.inr fun r m' hok => by cases hok
    simp only
    by_cases hp : Present (m₁.word t j)
    swap
    · simp only [if_pos hp]
      exact Or.inr fun r m' hok => by cases hok
    simp only [if_neg (not_not.mpr hp)]
    rcases kalloc_cases m₁ with ⟨_, hka⟩ | ⟨r, rest, _, hka⟩
    · -- no memory for the page
      rw [hka]
      simp only [if_true]
      refine Or.inr fun r m' hok => ?_
      obtain ⟨m₂, _, hret⟩ := bind_ok.mp hok
      cases hret
      rfl
    rw [hka]
    by_cases hr : r = 0
    · simp only [if_pos hr]
      refine Or.inr fun r m' hok => ?_
      obtain ⟨m₂, _, hret⟩ := bind_ok.mp hok
      cases hret
      rfl
    simp only [if_neg hr]
    rcases hmap : mappages (Mem.copyPage { m₁ with freelist := rest } r (P2V (PTE_ADDR (m₁.word t j)))) d i
      PGSIZE (V2P r) (PTE_FLAGS (m₁.word t j)) with x | ⟨_ | _, m₂⟩
    · exact Or.inr fun r m' hok => by cases hok
    · -- no memory for a page table
      refine Or.inr fun r' m' hok => ?_
      obtain ⟨m₃, _, hok⟩ :=
        bind_ok.mp (show (kfree lay r m₂ >>= fun m => freevm lay m d >>= fun m => .ok (0, m)) = _ from hok)
      obtain ⟨m₄, _, hret⟩ := bind_ok.mp hok
      cases hret
      rfl
    · simp only [bind, Except.bind, if_true, hnext]
      exact hrest

/-- At the first kernel address the loop of `copyuvm` meets the kernel's mapping: `mappages` panics. -/
theorem copyLoop_kernbase (h : Owned lay own kpgdir m) (hd : own d = .dir) (hpg : own pgdir = .dir)
    (hp : Present (pteAt m d KERNBASE)) (hsz : KERNBASE < sz) (f r : ℕ)
    (hok : copyLoop lay pgdir d sz (f + 1) KERNBASE m = .ok (r, m')) : r = 0 := by
  rw [copyLoop, if_neg (by omega)] at hok
  rcases walkpgdir_noalloc h hpg KERNBASE with ⟨hwalk, _⟩ | ⟨t, hwalk, _⟩
  · rw [hwalk] at hok
    cases hok
  rw [hwalk] at hok
  simp only at hok
  by_cases hpp : Present (m.word t (PTX KERNBASE))
  swap
  · rw [if_pos hpp] at hok
    cases hok
  rw [if_neg (not_not.mpr hpp)] at hok
  rcases kalloc_cases m with ⟨_, hka⟩ | ⟨v, rest, hf, hka⟩
  · rw [hka] at hok
    simp only [if_true] at hok
    obtain ⟨m₂, _, hret⟩ := bind_ok.mp hok
    cases hret
    rfl
  obtain ⟨hfree, hvalid, h1, _⟩ := h.kalloc hf
  rw [hka] at hok
  simp only [if_neg hvalid.ne_zero] at hok
  obtain ⟨⟨ok, m₂⟩, hmap, _⟩ := bind_ok.mp hok
  -- the page that was taken is none of the page tables of `d`
  have hwords : ∀ u, (own u).paging = true →
      (Mem.copyPage { m with freelist := rest } v (P2V (PTE_ADDR (m.word t (PTX KERNBASE))))).word u
      = m.word u := by
    intro u hu
    have hne : u ≠ v := fun hc => by rw [hc, hfree] at hu; cases hu
    funext j
    exact if_neg hne
  have hpte := h.pteAt_congr hwords hd KERNBASE
  obtain ⟨n, hn⟩ : ∃ n, PAGES = n + 1 := ⟨2 ^ 20 - 1, by decide⟩
  rw [mappages, show PGROUNDDOWN KERNBASE = KERNBASE by decide, hn, mapLoop] at hmap
  rw [← hpte, pteAt] at hp
  by_cases hpde : Present ((Mem.copyPage { m with freelist := rest } v
      (P2V (PTE_ADDR (m.word t (PTX KERNBASE))))).word d (PDX KERNBASE))
  · rw [if_pos hpde] at hp
    rw [walkpgdir] at hmap
    simp only [if_pos hpde, if_pos hp] at hmap
    cases hmap
  · rw [if_neg hpde] at hp
    exact absurd hp not_present_zero

/-- **A size above the user part** gives no page directory. -/
theorem copyuvm_high (h : Owned lay own kpgdir m) (hk : own kpgdir ≠ .free) (hpg : own pgdir = .dir)
    (hsz : KERNBASE < sz) (hok : copyuvm lay m pgdir sz = .ok (d, m')) : d = 0 := by
  obtain ⟨⟨e, m₁⟩, hset, hrun⟩ := bind_ok.mp hok
  simp only at hrun
  by_cases hz : e = 0
  · rw [if_pos hz] at hrun
    cases hrun
    rfl
  rw [if_neg hz] at hrun
  rcases @copyLoop_split lay pgdir e _ m₁ hsz.le PAGES 0 rfl (Nat.zero_le _) (by decide)
    with ⟨m₂, f, hlow, hhigh⟩ | hzero
  · have hcopy : copyuvm lay m pgdir KERNBASE = .ok (e, m₂) := by
      rw [copyuvm, hset]
      exact (if_neg hz).trans hlow
    obtain ⟨own₂, h₂, hf₂, hres⟩ := copyuvm_spec le_rfl h hk hpg hcopy
    obtain ⟨_, hdir, hent⟩ := hres.resolve_left hz
    have hpg₂ : own₂ pgdir = .dir := hf₂.dir pgdir hpg fun hall => hall 0
    rw [hhigh] at hrun
    refine copyLoop_kernbase h₂ hdir hpg₂ ?_ hsz f d hrun
    rw [hent KERNBASE le_rfl (by decide)]
    exact present_kernelEntry
  · exact hzero d m' hrun

/-! ### The copy -/

/-- The page at `va` of page directory `d` is at no other user address of `d` or of a page directory in
`dirs`, and not in the kernel heap. -/
def OnlyMapping (m : Mem) (kpgdir : ℕ) (dirs : ℕ → Prop) (d va : ℕ) : Prop :=
  (∀ e vb, dirs e → vb < KERNBASE → Present (pteAt m e vb) → frameAt m e vb = frameAt m d va →
    e = d ∧ vb / PGSIZE = va / PGSIZE)
  ∧ ∀ vb, InHeap vb → Present (pteAt m kpgdir vb) → frameAt m kpgdir vb ≠ frameAt m d va

theorem onlyMapping_of_owned (h : Owned lay own kpgdir m) (hk : own kpgdir = .dir) (hd : own d = .dir)
    (hva : va < KERNBASE) (hp : Present (pteAt m d va)) :
    OnlyMapping m kpgdir (fun e => own e = .dir) d va := by
  have hown := h.user d va hd hva hp
  refine ⟨fun e vb he hvb hpe hsame => ?_, fun vb hin hpk hsame => ?_⟩
  · have hown' : own (frameAt m e vb) = .user e (vb / PGSIZE) := h.user e vb he hvb hpe
    rw [hsame, frameAt, hown] at hown'
    obtain ⟨h₁, h₂⟩ := Owner.user.inj hown'
    exact ⟨h₁.symm, h₂.symm⟩
  · have hown' : own (frameAt m kpgdir vb) = .heap (vb / PGSIZE) := h.heap vb hk hin hpk
    rw [hsame, frameAt, hown] at hown'
    cases hown'

/-- **`fork` copies and isolates memory.**  When `copyuvm` returns page directory `d`, every page below the
size is mapped with the parent's flags to a page of its own with the same contents, and no other user page is
mapped; nothing of the parent has changed; and after any stores through page directories, each of the two
shows what its own stores alone would give. -/
theorem copyuvm_isolates (hend : KERNBASE < lay.kernelEnd) (h : Owned lay own kpgdir m)
    (hk : own kpgdir = .dir) (hpg : own pgdir = .dir) (hok : copyuvm lay m pgdir sz = .ok (d, m'))
    (hd : d ≠ 0) : (∀ va < KERNBASE, va / PGSIZE * PGSIZE < sz → Present (pteAt m' d va)
      ∧ PTE_FLAGS (pteAt m' d va) = PTE_FLAGS (pteAt m pgdir va) ∧ content m' d va = content m pgdir va
      ∧ OnlyMapping m' kpgdir (fun e => own e = .dir ∨ e = d) d va)
    ∧ (∀ va < KERNBASE, sz ≤ va / PGSIZE * PGSIZE → ¬ Present (pteAt m' d va))
    ∧ sz ≤ KERNBASE
    ∧ (∀ va < ADDRESSES, pteAt m' pgdir va = pteAt m pgdir va)
    ∧ (∀ va < KERNBASE, Present (pteAt m pgdir va) → content m' pgdir va = content m pgdir va)
    ∧ ∀ ws : List Store, (∀ w ∈ ws, own w.dir = .dir ∨ w.dir = d) → ∀ e, e = pgdir ∨ e = d → ∀ va < KERNBASE,
      Present (pteAt m' e va) → pteAt (ws.foldl store m') e va = pteAt m' e va
        ∧ content (ws.foldl store m') e va
        = content ((ws.filter fun w => w.dir = e).foldl store m') e va := by
  have hfree : own kpgdir ≠ .free := by simp [hk]
  have hsz : sz ≤ KERNBASE := by
    by_contra hc
    exact hd (copyuvm_high h hfree hpg (not_le.mp hc) hok)
  obtain ⟨own₁, h₁, hdir₁⟩ := exists_exact h
  have hpg₁ := hdir₁ pgdir hpg
  have hk₁ : own₁ kpgdir ≠ .free := by rw [hdir₁ kpgdir hk]; simp
  rcases copyuvm_copies hend hsz h₁ hk₁ hpg₁ with ⟨x, herr, _⟩ | ⟨r, m₂, hrun, hcopied, hcopies⟩
  · rw [herr] at hok
    cases hok
  rw [hrun] at hok
  obtain ⟨rfl, rfl⟩ : r = d ∧ m₂ = m' := Prod.mk.injEq .. ▸ Except.ok.inj hok
  rcases hcopied with ⟨hz, _⟩ | ⟨_, own₂, hmade, hmapped⟩
  · exact absurd hz hd
  have hsame := hcopies hd
  have hdirs : ∀ e, own e = .dir ∨ e = r → own₂ e = .dir := by
    rintro e (he | rfl)
    · rw [hmade.keep (by rw [hdir₁ e he]; exact fun hc => by cases hc), hdir₁ e he]
    · exact hmade.dir
  have howned := hmade.exact.toOwned
  have hk₂ := hdirs kpgdir (Or.inl hk)
  refine ⟨fun va hva hlt => ?_, fun va hva hge hp => ?_, hsz, fun va hva => hmade.pte pgdir va hpg₁ hva,
    fun va hva hp => ?_, fun ws hws e he va hva hp => ?_⟩
  · have hspan : span 0 sz va := ⟨Nat.zero_le _, hlt⟩
    have hp := (hmapped va hva).mpr hspan
    obtain ⟨hflags, hcontent⟩ := hsame va hva hspan
    obtain ⟨hone, hheap⟩ := onlyMapping_of_owned howned hk₂ hmade.dir hva hp
    exact ⟨hp, hflags, hcontent, fun e vb he => hone e vb (hdirs e he), hheap⟩
  · have := ((hmapped va hva).mp hp).2
    omega
  · have hlt : va < ADDRESSES := lt_trans hva (by decide)
    have hown := h₁.user pgdir va hpg₁ hva hp
    rw [content, content, frameAt, frameAt, hmade.pte pgdir va hpg₁ hlt]
    exact hmade.words _ (by simp [hown]) (by rw [hown]; rfl)
  · have he₂ : own₂ e = .dir := hdirs e (he.imp_left fun hc => by rw [hc, hpg])
    exact stores_apart howned ws (fun w hw => hdirs w.dir (hws w hw)) he₂ hva hp

/-! ### A machine with room for a copy -/

/-- The first `n` pages from `0x80400000` on. -/
def pagesFrom (n : ℕ) : List ℕ := (List.range n).map fun i => 0x80400000 + 4096 * i

theorem mem_pagesFrom {v : ℕ} : v ∈ pagesFrom n ↔ ∃ i < n, 0x80400000 + 4096 * i = v := by
  simp only [pagesFrom, List.mem_map, List.mem_range]

theorem nodup_pagesFrom (n : ℕ) : (pagesFrom n).Nodup :=
  List.Nodup.map (fun i j hij => by simpa using hij) List.nodup_range

/-- Memory with `n` free pages and nothing else. -/
def emptyMem (n : ℕ) : Mem := { smallBoot.mem with freelist := pagesFrom n }

theorem length_emptyMem (n : ℕ) : (emptyMem n).freelist.length = n := by
  show (pagesFrom n).length = n
  rw [pagesFrom, List.length_map, List.length_range]

def emptyOwn (n v : ℕ) : Owner :=
  if v ∈ pagesFrom n then .free else if v = smallBoot.kpgdir then .dir else .other

theorem owned_empty (hn : n ≤ 2048) : Owned smallLayout (emptyOwn n) smallBoot.kpgdir (emptyMem n) := by
  have hlist : ∀ v ∈ pagesFrom n, ValidPage smallLayout v := by
    intro v hv
    obtain ⟨i, hi, rfl⟩ := mem_pagesFrom.mp hv
    simp only [ValidPage, smallLayout, PGSIZE, KERNBASE, PHYSTOP]
    omega
  refine owned_of_zero (fun _ _ => rfl) (fun v hv => if_pos hv) (nodup_pagesFrom n) fun v hv => ?_
  by_cases hmem : v ∈ pagesFrom n
  · exact hlist v hmem
  · by_cases hk : v = smallBoot.kpgdir
    · rw [hk]
      exact ⟨by decide, by decide, by decide, by decide⟩
    · rw [emptyOwn, if_neg hmem, if_neg hk] at hv
      exact absurd rfl hv

theorem empty_dir (n : ℕ) : emptyOwn n smallBoot.kpgdir = .dir := by
  have hmem : smallBoot.kpgdir ∉ pagesFrom n := by
    intro hc
    obtain ⟨i, _, hi⟩ := mem_pagesFrom.mp hc
    simp only [smallBoot] at hi
    omega
  rw [emptyOwn, if_neg hmem, if_pos rfl]

/-- A process with one page, and room for a copy of it. -/
theorem onePage_roomy : ∃ own m, Owned smallLayout own smallBoot.kpgdir m ∧ own smallBoot.kpgdir = .dir
    ∧ Present (pteAt m smallBoot.kpgdir 0) ∧ pteAt m smallBoot.kpgdir 0 &&& PTE_U ≠ 0
    ∧ NPDENTRIES + 2 < m.freelist.length := by
  obtain ⟨own₁, h₁, hdir₁⟩ := exists_exact (owned_empty (le_refl 2048))
  have hsized : Sized (emptyMem 2048) smallBoot.kpgdir 0 := fun va _ => by
    rw [pteAt_of_zero fun _ => rfl]
    exact iff_of_false not_present_zero (Nat.not_lt_zero va)
  obtain ⟨ret, sz', own', m', hok, h', hdirs, _, hright⟩ :=
    grow_exact (n := 4096) (by decide) h₁ (hdir₁ _ (empty_dir 2048)) hsized
    (by decide) (by decide) (by decide)
  have heval : (growproc smallLayout (emptyMem 2048) smallBoot.kpgdir 0 4096).toOption.map
      (fun x =>
        (x.1, x.2.1,
          decide (pteAt x.2.2 smallBoot.kpgdir 0 &&& PTE_U ≠ 0 ∧ NPDENTRIES + 2 < x.2.2.freelist.length)))
      = some (0, 4096, true) := by decide +kernel
  rw [hok] at heval
  obtain ⟨rfl, rfl, hlen⟩ : ret = 0 ∧ sz' = 4096
      ∧ decide (pteAt m' smallBoot.kpgdir 0 &&& PTE_U ≠ 0 ∧ NPDENTRIES + 2 < m'.freelist.length) = true := by
    simpa only [Except.toOption, Option.map_some, Option.some.injEq, Prod.mk.injEq] using heval
  exact ⟨own', m', h'.toOwned, hdirs _ (hdir₁ _ (empty_dir 2048)),
    (sized_of_right hsized hright 0 (by decide)).mpr (by decide), of_decide_eq_true hlen⟩

/-- One page is copied when there are free pages for the page directory, its page tables and the page. -/
theorem copyuvm_onePage (hend : KERNBASE < lay.kernelEnd) (h : Owned lay own kpgdir m)
    (hk : own kpgdir = .dir) (hpg : own pgdir = .dir) (hp : Present (pteAt m pgdir 0))
    (hfree : NPDENTRIES + 2 < m.freelist.length) :
    ∃ d m', copyuvm lay m pgdir PGSIZE = .ok (d, m') ∧ d ≠ 0 := by
  obtain ⟨own₁, h₁, hdir₁⟩ := exists_exact h
  have hk₁ : own₁ kpgdir ≠ .free := by rw [hdir₁ kpgdir hk]; simp
  obtain ⟨d, m₁, hset, hd0, hlen⟩ := setupkvm_returns h₁.toOwned hk₁ (by omega)
  obtain ⟨e, m₂, hset', ⟨he, _⟩ | ⟨_, own₂, hmade, hempty⟩⟩ := setupkvm_exact hend h₁ hk₁
  all_goals
    rw [hset] at hset'
    obtain ⟨rfl, rfl⟩ : d = e ∧ m₁ = m₂ := Prod.mk.injEq .. ▸ Except.ok.inj hset'
  · exact absurd he hd0
  have hpg₂ : own₂ pgdir = .dir := by
    rw [hmade.keep (by rw [hdir₁ pgdir hpg]; exact fun hc => by cases hc), hdir₁ pgdir hpg]
  have hpte : pteAt m₁ pgdir 0 = pteAt m pgdir 0 := hmade.pte pgdir 0 (hdir₁ pgdir hpg) (by decide)
  obtain ⟨n, hn⟩ : ∃ n, PAGES = n + 1 := ⟨2 ^ 20 - 1, by decide⟩
  have hcopy : copyuvm lay m pgdir PGSIZE = copyLoop lay pgdir d PGSIZE (n + 2) 0 m₁ := by
    rw [copyuvm, hset, hn]
    exact if_neg hd0
  rcases walkpgdir_noalloc hmade.exact.toOwned hpg₂ 0 with ⟨_, hzero⟩ | ⟨t, hwalk, _, _, hword⟩
  · rw [← hpte, hzero] at hp
    exact absurd hp not_present_zero
  rw [← hpte] at hp
  rcases kalloc_cases m₁ with ⟨hnil, _⟩ | ⟨r, rest, hf, hka⟩
  · rw [hnil, List.length_nil] at hlen
    omega
  obtain ⟨hfr, hvalid, h₃, _⟩ := hmade.exact.toOwned.kalloc hf
  have hother : Function.update own₂ r .other r = .other := Function.update_self ..
  obtain ⟨h₄, hf₄⟩ := h₃.copyPage (P2V (PTE_ADDR (pteAt m₁ pgdir 0))) hother
  have hd₄ : Function.update own₂ r .other d = .dir :=
    (keeps_update hfr Owner.other d (by rw [hmade.dir]; exact fun hc => by cases hc)).trans hmade.dir
  rcases walkpgdir_alloc h₄ hd₄ 0 with ⟨hnil, _⟩ | ⟨t', own₅, m₅, hwalk', _, _, _, _, _, hentry⟩
  · have hrest : rest = [] := hnil
    rw [hf, hrest, List.length_singleton] at hlen
    omega
  have habsent : ¬ Present (m₅.word t' (PTX 0)) := by
    rw [hentry, hf₄.pte d 0 hd₄ (by decide) id]
    exact hempty 0 (by decide)
  have hmap : mappages (Mem.copyPage { m₁ with freelist := rest } r (P2V (PTE_ADDR (pteAt m₁ pgdir 0)))) d 0
      PGSIZE (V2P r) (PTE_FLAGS (pteAt m₁ pgdir 0))
      = .ok (true, m₅.setWord t' (PTX 0) (V2P r ||| PTE_FLAGS (pteAt m₁ pgdir 0) ||| PTE_P)) := by
    rw [mappages, show PGROUNDDOWN 0 = 0 by decide,
      show PGROUNDDOWN ((0 + PGSIZE + (ADDRESSES - 1)) % ADDRESSES) = 0 by decide, hn, mapLoop, hwalk']
    simp only [if_neg habsent, if_true]
  refine ⟨d, m₅.setWord t' (PTX 0) (V2P r ||| PTE_FLAGS (pteAt m₁ pgdir 0) ||| PTE_P), ?_, hd0⟩
  rw [hcopy, copyLoop, if_neg (by decide), hwalk]
  simp only [hword, if_neg (not_not.mpr hp), hka, if_neg hvalid.ne_zero, hmap, bind, Except.bind, if_true]
  rw [show (0 + PGSIZE) % ADDRESSES = PGSIZE by decide, copyLoop, if_pos le_rfl]

/-- The copy of a process with one page. -/
theorem copyuvm_isolates_onePage : ∃ own m d m', Owned smallLayout own smallBoot.kpgdir m ∧ d ≠ 0
    ∧ copyuvm smallLayout m smallBoot.kpgdir PGSIZE = .ok (d, m')
    ∧ PTE_FLAGS (pteAt m' d 0) = PTE_FLAGS (pteAt m smallBoot.kpgdir 0)
    ∧ content m' d 0 = content m smallBoot.kpgdir 0 := by
  obtain ⟨own, m, h, hdir, hp, _, hlen⟩ := onePage_roomy
  obtain ⟨d, m', hok, hd⟩ := copyuvm_onePage (by decide) h hdir hdir hp hlen
  obtain ⟨hpages, _⟩ := copyuvm_isolates (by decide) h hdir hdir hok hd
  obtain ⟨_, hflags, hcontent, _⟩ := hpages 0 (by decide) (by decide)
  exact ⟨own, m, d, m', h, hd, hok, hflags, hcontent⟩

end Xv6e.Memory.CopiedSpaces
