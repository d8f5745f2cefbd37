import Xv6e.Library.Transition
import Xv6e.Memory.PageTable

/-!
# Who owns a page

The page allocator hands out pages for page directories, page tables, user memory, the kernel heap and its
metadata; nothing in the code records which.  `Owned own kpgdir m` states what an assignment `own` of owners
has to do with the memory: a page directory entry leads to a page table that belongs to that entry alone, a
user entry to a page of that address, and so on.  Two pages in use for different things are then different
pages, which is all that the writes of `vm.c` rely on.

* `Owned.of_words`, `Owned.take`, `Owned.promote`, `Owned.attach`, `Owned.setPte`, `Owned.retire`,
  `Owned.kfree` — the elementary steps;
* `Frame` — what a call leaves alone, closed under composition;
* `walkpgdir_alloc` — a walk that may create a page table changes no entry.
-/

namespace Xv6e.Memory.Ownership

open Library.Transition (update_cases)
open PageTable
open Function (update update_idem update_self update_of_ne)

variable {lay : Layout}

/-! ### Arithmetic of entries -/

def ValidPage (lay : Layout) (v : ℕ) : Prop :=
  v % PGSIZE = 0 ∧ KERNBASE ≤ v ∧ v < KERNBASE + PHYSTOP ∧ lay.kernelEnd ≤ v

variable {v t va d i r : ℕ} {o : Owner}

theorem ValidPage.ne_zero (h : ValidPage lay v) : v ≠ 0 := by
  have := h.2.1
  simp only [KERNBASE] at this
  omega

theorem PDX_lt (va : ℕ) : PDX va < NPDENTRIES := Nat.mod_lt _ (by decide)

theorem present_iff {pte : ℕ} : Present pte ↔ pte % 2 = 1 := by
  rw [Present, PTE_P, Nat.and_one_is_mod]
  omega

theorem not_present_zero : ¬ Present 0 := by decide

theorem present_or (x : ℕ) : Present (x ||| PTE_P) := by
  rw [present_iff, Nat.or_mod_two_eq_one]
  exact Or.inr rfl

theorem or_flags {pa x : ℕ} (hpa : pa % PGSIZE = 0) (hx : x < PGSIZE) : pa ||| x = pa + x := by
  have hpow : (2 : ℕ) ^ 12 = PGSIZE := rfl
  obtain ⟨q, rfl⟩ : ∃ q, pa = 2 ^ 12 * q := ⟨pa / PGSIZE, by simp only [PGSIZE] at *; omega⟩
  rw [Nat.two_pow_add_eq_or_of_lt (by rw [hpow]; exact hx)]

theorem frame_of_or {x : ℕ} (hv : ValidPage lay v) (hx : x < PGSIZE) : P2V (PTE_ADDR (V2P v ||| x)) = v := by
  obtain ⟨h0, h1, h2, _⟩ := hv
  have hV : V2P v = v - KERNBASE := by
    simp only [V2P, ADDRESSES, KERNBASE, PHYSTOP] at *
    omega
  rw [hV, or_flags (by simp only [PGSIZE, KERNBASE] at *; omega) hx]
  simp only [P2V, PTE_ADDR, PGSIZE, ADDRESSES, KERNBASE, PHYSTOP] at *
  omega

theorem tableEntry_eq (t : ℕ) : tableEntry t = V2P t ||| 7 := by
  rw [tableEntry, Nat.or_assoc, Nat.or_assoc]
  rfl

theorem frame_tableEntry (ht : ValidPage lay t) : P2V (PTE_ADDR (tableEntry t)) = t := by
  rw [tableEntry_eq]
  exact frame_of_or ht (by decide)

theorem present_tableEntry (t : ℕ) : Present (tableEntry t) := by
  rw [tableEntry_eq, present_iff, Nat.or_mod_two_eq_one]
  exact Or.inr rfl

theorem tableEntry_and (t pte : ℕ) {b : ℕ} (hb : 7 &&& b = b) : tableEntry t &&& pte &&& b = pte &&& b := by
  have hentry : tableEntry t &&& b = b := by
    rw [tableEntry_eq, Nat.and_or_distrib_right, hb, Nat.or_comm]
    exact Nat.eq_of_testBit_eq fun i => by
      rw [Nat.testBit_or, Nat.testBit_and]
      cases b.testBit i <;> simp
  rw [Nat.and_right_comm, hentry, Nat.and_comm]

/-- The flags of `pa | perm | PTE_P` fit below the address. -/
theorem or_flags_lt {perm : ℕ} (h : perm < PGSIZE) : perm ||| PTE_P < PGSIZE :=
  Nat.or_lt_two_pow (n := 12) h (by decide)

/-- Two addresses have the same entry exactly when they lie in the same page. -/
theorem samePage_iff {vb : ℕ} (ha : va < ADDRESSES) (hb : vb < ADDRESSES) :
    PDX vb = PDX va ∧ PTX vb = PTX va ↔ vb / PGSIZE = va / PGSIZE := by
  simp only [PDX, PTX, NPDENTRIES, PGSIZE, ADDRESSES] at *
  omega

/-! ### Owners -/

inductive Owner where
  /-- On the free list. -/
  | free
  /-- A page directory. -/
  | dir
  /-- The page table of entry `i` of page directory `d`. -/
  | table (d i : ℕ)
  /-- Page `vpn` of the user part of page directory `d`. -/
  | user (d vpn : ℕ)
  /-- Page `vpn` of the kernel heap. -/
  | heap (vpn : ℕ)
  /-- Metadata of the kernel heap. -/
  | metadata
  /-- Anything else: kernel stacks, pipes, pages that were never the allocator's. -/
  | other
  deriving DecidableEq

def Owner.paging : Owner → Bool
  | .dir => true
  | .table _ _ => true
  | _ => false

def InHeap (va : ℕ) : Prop := KERNBASE + PHYSTOP ≤ va ∧ va < DEVSPACE

/-- An assignment of owners that fits the memory. -/
structure Owned (lay : Layout) (own : ℕ → Owner) (kpgdir : ℕ) (m : Mem) : Prop where
  free : ∀ v ∈ m.freelist, own v = .free
  nodup : m.freelist.Nodup
  valid : ∀ v, own v ≠ .other → ValidPage lay v
  table : ∀ d i, own d = .dir → i < NPDENTRIES → Present (m.word d i) →
    ∃ t, own t = .table d i ∧ m.word d i = tableEntry t
  user : ∀ d va, own d = .dir → va < KERNBASE → Present (pteAt m d va) →
    own (P2V (PTE_ADDR (pteAt m d va))) = .user d (va / PGSIZE)
  heap : ∀ va, own kpgdir = .dir → InHeap va → Present (pteAt m kpgdir va) →
    own (P2V (PTE_ADDR (pteAt m kpgdir va))) = .heap (va / PGSIZE)

variable {own own' own'' : ℕ → Owner} {kpgdir : ℕ} {m m' m'' : Mem}

theorem Owned.table_of_present (h : Owned lay own kpgdir m) (hd : own d = .dir)
    (hi : i < NPDENTRIES) (hp : Present (m.word d i)) :
    own (P2V (PTE_ADDR (m.word d i))) = .table d i
      ∧ m.word d i = tableEntry (P2V (PTE_ADDR (m.word d i))) := by
  obtain ⟨t, ht, hw⟩ := h.table d i hd hi hp
  have hv : ValidPage lay t := h.valid t (by simp [ht])
  rw [hw, frame_tableEntry hv]
  exact ⟨ht, rfl⟩

/-- Entries depend on the words of page directories and page tables only. -/
theorem Owned.pteAt_congr (h : Owned lay own kpgdir m)
    (hw : ∀ v, (own v).paging = true → m'.word v = m.word v) (hd : own d = .dir) (va : ℕ) :
    pteAt m' d va = pteAt m d va := by
  have hdir : m'.word d = m.word d := hw d (by rw [hd]; rfl)
  rw [pteAt, pteAt, hdir]
  by_cases hp : Present (m.word d (PDX va))
  · rw [if_pos hp, if_pos hp]
    have ht := (h.table_of_present hd (PDX_lt va) hp).1
    rw [hw _ (by rw [ht]; rfl)]
  · rw [if_neg hp, if_neg hp]

/-- Writes to pages that are neither page directories nor page tables keep the assignment. -/
theorem Owned.of_words (h : Owned lay own kpgdir m) (hf : m'.freelist = m.freelist)
    (hw : ∀ v, (own v).paging = true → m'.word v = m.word v) : Owned lay own kpgdir m' where
  free := by rw [hf]; exact h.free
  nodup := by rw [hf]; exact h.nodup
  valid := h.valid
  table d i hd hi hp := by
    rw [hw d (by rw [hd]; rfl)] at hp ⊢
    exact h.table d i hd hi hp
  user d va hd hva hp := by
    rw [h.pteAt_congr hw hd] at hp ⊢
    exact h.user d va hd hva hp
  heap va hk hva hp := by
    rw [h.pteAt_congr hw hk] at hp ⊢
    exact h.heap va hk hva hp

/-! ### Taking a page -/

theorem kalloc_cases (m : Mem) :
    (m.freelist = [] ∧ kalloc m = (0, m))
      ∨ ∃ r rest, m.freelist = r :: rest ∧ kalloc m = (r, { m with freelist := rest }) := by
  rw [kalloc]
  cases hf : m.freelist with
  | nil => exact Or.inl ⟨rfl, rfl⟩
  | cons r rest => exact Or.inr ⟨r, rest, rfl, rfl⟩

theorem Owned.valid_of_mem (h : Owned lay own kpgdir m) (hv : v ∈ m.freelist) : ValidPage lay v :=
  h.valid v (ne_of_eq_of_ne (h.free v hv) (by simp))

/-- The owners of the other pages when the first page of the free list is taken. -/
theorem Owned.free_of_rest (h : Owned lay own kpgdir m) {rest : List ℕ} (hf : m.freelist = r :: rest)
    (o : Owner) : ∀ v ∈ rest, update own r o v = .free := by
  intro v hv
  have hne : v ≠ r := by
    rintro rfl
    have hnd := h.nodup
    rw [hf] at hnd
    exact (List.nodup_cons.mp hnd).1 hv
  rw [update_of_ne hne]
  exact h.free v (by rw [hf]; exact List.mem_cons_of_mem r hv)

theorem pteAt_of_zero (hz : ∀ i, m.word d i = 0) (va : ℕ) : pteAt m d va = 0 := by
  rw [pteAt, hz, if_neg not_present_zero]

/-- In a memory of zeros nothing is mapped. -/
theorem owned_of_zero (hz : ∀ v i, m.word v i = 0) (hfree : ∀ v ∈ m.freelist, own v = .free)
    (hnodup : m.freelist.Nodup) (hvalid : ∀ v, own v ≠ .other → ValidPage lay v) :
    Owned lay own kpgdir m := by
  have hno : ∀ d va, ¬ Present (pteAt m d va) := fun d va => by
    rw [pteAt_of_zero (hz d)]
    exact not_present_zero
  exact ⟨hfree, hnodup, hvalid, fun d i _ _ hp => absurd (hz d i ▸ hp) not_present_zero,
    fun d va _ _ hp => absurd hp (hno d va), fun va _ _ hp => absurd hp (hno _ va)⟩

/-- **A page of no one's changes hands.**  Page directories are as before, or have one more page table, which
is the page. -/
theorem Owned.assign (h : Owned lay own kpgdir m) (hr : own r = .free ∨ own r = .other)
    (hv : ValidPage lay r) (hnodup : m'.freelist.Nodup) (hfree : ∀ v ∈ m'.freelist, update own r o v = .free)
    (hdir : o = .dir → ∀ i, m'.word r i = 0)
    (hword : ∀ d i, own d = .dir → m'.word d i = m.word d i ∨ o = .table d i ∧ m'.word d i = tableEntry r)
    (hpte : ∀ d va, own d = .dir → pteAt m' d va = pteAt m d va) : Owned lay (update own r o) kpgdir m' := by
  -- what belonged to something keeps its owner
  have hkeep : ∀ {v x}, own v = x → x ≠ .free → x ≠ .other → update own r o v = x := by
    intro v x hx hxf hxo
    have hvr : v ≠ r := by
      rintro rfl
      rcases hr with hr | hr
      · exact hxf (hx.symm.trans hr)
      · exact hxo (hx.symm.trans hr)
    rw [update_of_ne hvr, hx]
  have hdirs : ∀ d, update own r o d = .dir → own d = .dir ∨ ∀ i, m'.word d i = 0 := by
    intro d hd
    obtain ⟨hdr, hd⟩ | ⟨hdr, hd⟩ := update_cases hd
    · rw [hdr]
      exact Or.inr (hdir hd)
    · exact Or.inl hd
  have hentry : ∀ d va, update own r o d = .dir → Present (pteAt m' d va) →
      own d = .dir ∧ pteAt m' d va = pteAt m d va := by
    intro d va hd hp
    rcases hdirs d hd with hd | hz
    · exact ⟨hd, hpte d va hd⟩
    · rw [pteAt_of_zero hz] at hp
      exact absurd hp not_present_zero
  refine ⟨hfree, hnodup, ?_, ?_, ?_, ?_⟩
  · intro v hne
    by_cases hvr : v = r
    · rw [hvr]
      exact hv
    · rw [update_of_ne hvr] at hne
      exact h.valid v hne
  · intro d i hd hi hp
    rcases hdirs d hd with hd | hz
    · rcases hword d i hd with hw | ⟨rfl, hw⟩
      · rw [hw] at hp ⊢
        obtain ⟨t, ht, hw⟩ := h.table d i hd hi hp
        exact ⟨t, hkeep ht (by simp) (by simp), hw⟩
      · exact ⟨r, update_self .., hw⟩
    · rw [hz] at hp
      exact absurd hp not_present_zero
  · intro d va hd hva hp
    obtain ⟨hd, he⟩ := hentry d va hd hp
    rw [he] at hp ⊢
    exact hkeep (h.user d va hd hva hp) (by simp) (by simp)
  · intro va hk hva hp
    obtain ⟨hk, he⟩ := hentry _ va hk hp
    rw [he] at hp ⊢
    exact hkeep (h.heap va hk hva hp) (by simp) (by simp)

/-- **A page taken for anything but paging.** -/
theorem Owned.take (h : Owned lay own kpgdir m) {rest : List ℕ} (hf : m.freelist = r :: rest)
    (ho : o.paging = false) :
    Owned lay (update own r o) kpgdir { m with freelist := rest } := by
  have hr : own r = .free := h.free r (by rw [hf]; exact List.mem_cons_self)
  have hnd := h.nodup
  rw [hf] at hnd
  refine h.assign (Or.inl hr) (h.valid r (by simp [hr])) (List.nodup_cons.mp hnd).2 (h.free_of_rest hf o) ?_
    (fun _ _ _ => Or.inl rfl) fun _ _ _ => rfl
  rintro rfl
  cases ho

theorem Owned.free_of_other (h : Owned lay own kpgdir m) (hr : own r = .other) (o : Owner) :
    ∀ v ∈ m.freelist, update own r o v = .free := by
  intro v hv
  have hfree := h.free v hv
  have hvr : v ≠ r := ne_of_apply_ne own (by simp [hfree, hr])
  rw [update_of_ne hvr, hfree]

/-! ### The words of a page directory and its page tables -/

@[simp]
theorem memset_freelist (m : Mem) (v c : ℕ) : (m.memset v c).freelist = m.freelist := rfl

theorem memset_word_self (m : Mem) (v c i : ℕ) : (m.memset v c).word v i = byteWord c := by
  simp [Mem.memset]

theorem memset_word_of_ne (m : Mem) {u : ℕ} (c : ℕ) (h : u ≠ v) : (m.memset v c).word u = m.word u := by
  funext i
  simp [Mem.memset, h]

@[simp]
theorem setWord_freelist (m : Mem) (v i w : ℕ) : (m.setWord v i w).freelist = m.freelist := rfl

theorem setWord_word_of_ne (m : Mem) {u : ℕ} (i w : ℕ) (h : u ≠ v) : (m.setWord v i w).word u = m.word u := by
  funext j
  simp [Mem.setWord, h]

theorem setWord_word (m : Mem) (v i w j : ℕ) :
    (m.setWord v i w).word v j = if j = i then w else m.word v j := by
  simp [Mem.setWord]

theorem pteAt_freelist (m : Mem) (l : List ℕ) (d va : ℕ) :
    pteAt { m with freelist := l } d va = pteAt m d va :=
  rfl

section

variable (h : Owned lay own kpgdir m)
include h

/-- **A page of zeros becomes a page directory.** -/
theorem Owned.promote (hr : own r = .other) (hv : ValidPage lay r)
    (hz : ∀ i, m.word r i = 0) : Owned lay (update own r .dir) kpgdir m :=
  h.assign (Or.inr hr) hv h.nodup (h.free_of_other hr _) (fun _ => hz) (fun _ _ _ => Or.inl rfl)
    fun _ _ _ => rfl

theorem Owned.pteAt_attach (hr : own r = .other) (hv : ValidPage lay r)
    (hz : ∀ j, m.word r j = 0) (hd : own d = .dir) (hp : ¬ Present (m.word d i)) {e : ℕ}
    (he : own e = .dir) (va : ℕ) : pteAt (m.setWord d i (tableEntry r)) e va = pteAt m e va := by
  have hrd : r ≠ d := fun hrd => by rw [hrd, hd] at hr; cases hr
  by_cases hhere : e = d ∧ PDX va = i
  · obtain ⟨rfl, rfl⟩ := hhere
    -- the entry that was absent now leads to a page of zeros
    rw [pteAt, pteAt, if_neg hp, setWord_word, if_pos rfl, if_pos (present_tableEntry r),
      frame_tableEntry hv, setWord_word_of_ne m _ _ hrd, hz]
  · have hword : (m.setWord d i (tableEntry r)).word e (PDX va) = m.word e (PDX va) := by
      by_cases hed : e = d
      · rw [hed, setWord_word, if_neg (fun hi => hhere ⟨hed, hi⟩)]
      · rw [setWord_word_of_ne m _ _ hed]
    rw [pteAt, pteAt, hword]
    by_cases hpe : Present (m.word e (PDX va))
    · have ht := (h.table_of_present he (PDX_lt va) hpe).1
      have htd : P2V (PTE_ADDR (m.word e (PDX va))) ≠ d := fun htd => by rw [htd, hd] at ht; cases ht
      rw [if_pos hpe, if_pos hpe, setWord_word_of_ne m _ _ htd]
    · rw [if_neg hpe, if_neg hpe]

/-- **A page of zeros becomes a page table.** -/
theorem Owned.attach (hr : own r = .other) (hv : ValidPage lay r)
    (hz : ∀ j, m.word r j = 0) (hd : own d = .dir) (hp : ¬ Present (m.word d i)) :
    Owned lay (update own r (.table d i)) kpgdir (m.setWord d i (tableEntry r)) := by
  refine h.assign (Or.inr hr) hv h.nodup (h.free_of_other hr _) (by simp) (fun e j _ => ?_)
    fun e va he => h.pteAt_attach hr hv hz hd hp he va
  by_cases hed : e = d
  · rw [hed, setWord_word]
    by_cases hji : j = i
    · rw [if_pos hji, hji]
      exact Or.inr ⟨rfl, rfl⟩
    · rw [if_neg hji]
      exact Or.inl rfl
  · rw [setWord_word_of_ne m _ _ hed]
    exact Or.inl rfl

/-! ### Writing an entry -/

/-- **Writing one entry** of a page table changes that entry of that page directory and no other. -/
theorem Owned.pteAt_setWord (w : ℕ)
    (ht : own t = .table d (PDX va)) (hw : m.word d (PDX va) = tableEntry t) (hva : va < ADDRESSES) {e b : ℕ}
    (he : own e = .dir) (hb : b < ADDRESSES) :
    pteAt (m.setWord t (PTX va) w) e b
      = if e = d ∧ b / PGSIZE = va / PGSIZE then w else pteAt m e b := by
  simp only [← samePage_iff hva hb]
  have hv : ValidPage lay t := h.valid t (by simp [ht])
  have het : e ≠ t := fun het => by rw [het, ht] at he; cases he
  rw [pteAt, pteAt, setWord_word_of_ne m _ _ het]
  by_cases hp : Present (m.word e (PDX b))
  · rw [if_pos hp, if_pos hp]
    have hown := (h.table_of_present he (PDX_lt b) hp).1
    by_cases hsame : e = d ∧ PDX b = PDX va
    · obtain ⟨rfl, hpd⟩ := hsame
      rw [hpd, hw, frame_tableEntry hv, setWord_word]
      simp only [true_and]
    · -- another entry of some page directory leads to another page table
      have hother : P2V (PTE_ADDR (m.word e (PDX b))) ≠ t := by
        intro heq
        rw [heq, ht, Owner.table.injEq] at hown
        exact hsame ⟨hown.1.symm, hown.2.symm⟩
      rw [setWord_word_of_ne m _ _ hother, if_neg (fun hc => hsame ⟨hc.1, hc.2.1⟩)]
  · have hne : ¬ (e = d ∧ PDX b = PDX va ∧ PTX b = PTX va) := by
      rintro ⟨rfl, hpd, _⟩
      rw [hpd, hw] at hp
      exact hp (present_tableEntry t)
    rw [if_neg hp, if_neg hp, if_neg hne]

/-- An entry may be written when it leads to a page that belongs to its address. -/
theorem Owned.setPte {w : ℕ}
    (ht : own t = .table d (PDX va)) (hw : m.word d (PDX va) = tableEntry t) (hva : va < ADDRESSES)
    (huser : va < KERNBASE → Present w → own (P2V (PTE_ADDR w)) = .user d (va / PGSIZE))
    (hheap : d = kpgdir → InHeap va → Present w → own (P2V (PTE_ADDR w)) = .heap (va / PGSIZE)) :
    Owned lay own kpgdir (m.setWord t (PTX va) w) := by
  refine ⟨h.free, h.nodup, h.valid, ?_, ?_, ?_⟩
  · intro e i he hi hp
    have het : e ≠ t := fun het => by rw [het, ht] at he; cases he
    rw [setWord_word_of_ne m _ _ het] at hp ⊢
    exact h.table e i he hi hp
  · intro e vb he hvb hp
    have hvb' : vb < ADDRESSES := lt_trans hvb (by decide)
    rw [h.pteAt_setWord w ht hw hva he hvb'] at hp ⊢
    by_cases hhere : e = d ∧ vb / PGSIZE = va / PGSIZE
    · rw [if_pos hhere] at hp ⊢
      rw [hhere.1, hhere.2]
      refine huser ?_ hp
      have := hhere.2
      simp only [PGSIZE, KERNBASE] at *
      omega
    · rw [if_neg hhere] at hp ⊢
      exact h.user e vb he hvb hp
  · intro vb hk hvb hp
    have hvb' : vb < ADDRESSES := lt_trans hvb.2 (by decide)
    rw [h.pteAt_setWord w ht hw hva hk hvb'] at hp ⊢
    by_cases hhere : kpgdir = d ∧ vb / PGSIZE = va / PGSIZE
    · rw [if_pos hhere] at hp ⊢
      rw [hhere.2]
      refine hheap hhere.1.symm ?_ hp
      have := hhere.2
      simp only [InHeap, PGSIZE, KERNBASE, PHYSTOP, DEVSPACE] at *
      omega
    · rw [if_neg hhere] at hp ⊢
      exact h.heap vb hk hvb hp

/-! ### Giving a page back -/

/-- **A page nothing refers to** any more belongs to no one. -/
theorem Owned.retire (hv : own v ≠ .free) (htable : ∀ d i, own d = .dir → own v ≠ .table d i)
    (huser : ∀ d va, own d = .dir → va < KERNBASE → Present (pteAt m d va) →
      own v = .user d (va / PGSIZE) → P2V (PTE_ADDR (pteAt m d va)) ≠ v)
    (hheap : ∀ va, own kpgdir = .dir → InHeap va → Present (pteAt m kpgdir va) →
      own v = .heap (va / PGSIZE) → P2V (PTE_ADDR (pteAt m kpgdir va)) ≠ v) :
    Owned lay (update own v .other) kpgdir m := by
  have hdir : ∀ d, update own v .other d = .dir → own d = .dir := by
    intro d hd
    by_cases hdv : d = v
    · rw [hdv, update_self] at hd
      cases hd
    · rwa [update_of_ne hdv] at hd
  refine ⟨?_, h.nodup, ?_, ?_, ?_, ?_⟩
  · intro u hu
    have hfree := h.free u hu
    have huv : u ≠ v := fun huv => hv (by rw [← huv, hfree])
    rw [update_of_ne huv, hfree]
  · intro u hu
    by_cases huv : u = v
    · rw [huv, update_self] at hu
      exact absurd rfl hu
    · rw [update_of_ne huv] at hu
      exact h.valid u hu
  · intro d i hd hi hp
    obtain ⟨t, ht, hw⟩ := h.table d i (hdir d hd) hi hp
    have htv : t ≠ v := fun htv => htable d i (hdir d hd) (by rw [← htv, ht])
    exact ⟨t, by rw [update_of_ne htv, ht], hw⟩
  · intro d va hd hva hp
    have hu := h.user d va (hdir d hd) hva hp
    have hne : P2V (PTE_ADDR (pteAt m d va)) ≠ v := fun heq =>
      huser d va (hdir d hd) hva hp (by rw [← heq, hu]) heq
    rw [update_of_ne hne, hu]
  · intro va hk hva hp
    have hu := h.heap va (hdir _ hk) hva hp
    have hne : P2V (PTE_ADDR (pteAt m kpgdir va)) ≠ v := fun heq =>
      hheap va (hdir _ hk) hva hp (by rw [← heq, hu]) heq
    rw [update_of_ne hne, hu]

end

theorem kfree_ok (hlt : v < ADDRESSES) (hk : kfree lay v m = .ok m') :
    ValidPage lay v ∧ m' = { m.memset v 1 with freelist := v :: m.freelist } := by
  rw [kfree] at hk
  by_cases hbad : v % PGSIZE ≠ 0 ∨ v < lay.kernelEnd ∨ PHYSTOP ≤ V2P v
  · rw [if_pos hbad] at hk
    cases hk
  · rw [if_neg hbad] at hk
    have hend := lay.end_ge
    refine ⟨⟨?_, ?_, ?_⟩, (Except.ok.inj hk).symm⟩
    · omega
    · omega
    · simp only [V2P, ADDRESSES, KERNBASE, PHYSTOP, not_or, not_not, not_lt, not_le] at *
      omega

theorem kfree_of_valid (h : ValidPage lay v) :
    PageTable.kfree lay v m = .ok { m.memset v 1 with freelist := v :: m.freelist } := by
  obtain ⟨hal, hlo, hhi, hend⟩ := h
  have hV : V2P v < PHYSTOP := by
    simp only [V2P, ADDRESSES, KERNBASE, PHYSTOP] at *
    omega
  rw [PageTable.kfree, if_neg (by omega)]
  rfl

/-- **A page that belongs to no one goes back on the free list.** -/
theorem Owned.kfree (h : Owned lay own kpgdir m) (hlt : v < ADDRESSES) (hv : own v = .other)
    (hk : PageTable.kfree lay v m = .ok m') : Owned lay (update own v .free) kpgdir m' := by
  obtain ⟨hvalid, rfl⟩ := kfree_ok hlt hk
  have hwords : ∀ u, (own u).paging = true → (m.memset v 1).word u = m.word u := by
    intro u hu
    exact memset_word_of_ne m 1 fun huv => by rw [huv, hv] at hu; cases hu
  refine h.assign (Or.inr hv) hvalid ?_ ?_ (by simp) (fun d i hd => Or.inl ?_) fun d va hd =>
    (pteAt_freelist ..).trans (h.pteAt_congr hwords hd va)
  · refine List.nodup_cons.mpr ⟨fun hmem => ?_, h.nodup⟩
    have hfree := h.free v hmem
    rw [hv] at hfree
    cases hfree
  · intro u hu
    rcases List.mem_cons.mp hu with rfl | hu
    · exact update_self ..
    · exact h.free_of_other hv _ u hu
  · exact congrFun (hwords d (by rw [hd]; rfl)) i

/-! ### What a call leaves alone -/

/-- Two memories agree on the metadata view of a page. -/
def SameView (m m' : Mem) (v : ℕ) : Prop :=
  m'.pageNext v = m.pageNext v ∧ m'.numRegions v = m.numRegions v
    ∧ ∀ a, v ≤ a → a < v + PGSIZE → m'.region a = m.region a

theorem SameView.refl (m : Mem) (v : ℕ) : SameView m m v := ⟨rfl, rfl, fun _ _ _ => rfl⟩

theorem SameView.trans (h : SameView m m' v) (h' : SameView m' m'' v) : SameView m m'' v :=
  ⟨h'.1.trans h.1, h'.2.1.trans h.2.1, fun a ha hb => (h'.2.2 a ha hb).trans (h.2.2 a ha hb)⟩

theorem sameView_memset (c : ℕ) (hr : r % PGSIZE = 0) (hv : v % PGSIZE = 0) (hne : v ≠ r) :
    SameView m (m.memset r c) v := by
  refine ⟨if_neg hne, if_neg hne, fun a ha hb => if_neg ?_⟩
  simp only [PGSIZE] at *
  omega

/-- A call keeps the metadata pages and their contents, keeps the page directories, and changes no entries but
those in `U`; a page directory all of whose entries are in `U` may go. -/
structure Frame (U : ℕ → ℕ → Prop) (own : ℕ → Owner) (m : Mem) (own' : ℕ → Owner) (m' : Mem) : Prop where
  metadata : ∀ v, own' v = .metadata ↔ own v = .metadata
  view : ∀ v, own v = .metadata → SameView m m' v
  dir : ∀ d, own d = .dir → (¬ ∀ va, U d va) → own' d = .dir
  pte : ∀ d va, own d = .dir → va < ADDRESSES → ¬ U d va → pteAt m' d va = pteAt m d va

variable {U V : ℕ → ℕ → Prop}

def untouched : ℕ → ℕ → Prop := fun _ _ => False

theorem Frame.refl (own : ℕ → Owner) (m : Mem) : Frame U own m own m :=
  ⟨fun _ => Iff.rfl, fun v _ => SameView.refl m v, fun _ hd _ => hd, fun _ _ _ _ _ => rfl⟩

theorem Frame.trans (h : Frame U own m own' m') (h' : Frame U own' m' own'' m'') :
    Frame U own m own'' m'' where
  metadata v := (h'.metadata v).trans (h.metadata v)
  view v hv := (h.view v hv).trans (h'.view v ((h.metadata v).mpr hv))
  dir d hd hU := h'.dir d (h.dir d hd hU) hU
  pte d va hd hva hU :=
    (h'.pte d va (h.dir d hd fun hall => hU (hall va)) hva hU).trans (h.pte d va hd hva hU)

/-- Touching more is a weaker statement; what is not a page directory does not count. -/
theorem Frame.mono (h : Frame U own m own' m') (hUV : ∀ d va, own d = .dir → U d va → V d va) :
    Frame V own m own' m' where
  metadata := h.metadata
  view := h.view
  dir d hd hV := h.dir d hd fun hall => hV fun va => hUV d va hd (hall va)
  pte d va hd hva hV := h.pte d va hd hva fun hU => hV (hUV d va hd hU)

theorem Frame.widen (h : Frame untouched own m own' m') : Frame U own m own' m' :=
  h.mono fun _ _ _ hU => hU.elim

theorem Frame.of_update (hr : own r ≠ .metadata) (ho : o ≠ .metadata)
    (hdir : own r = .dir → ∀ va, U r va) (hview : ∀ v, own v = .metadata → SameView m m' v)
    (hpte : ∀ d va, own d = .dir → va < ADDRESSES → ¬ U d va → pteAt m' d va = pteAt m d va) :
    Frame U own m (update own r o) m' := by
  refine ⟨?_, hview, ?_, hpte⟩
  · intro v
    by_cases hvr : v = r
    · rw [hvr, update_self]
      exact ⟨fun h => absurd h ho, fun h => absurd h hr⟩
    · rw [update_of_ne hvr]
  · intro d hd hU
    have hne : d ≠ r := by
      rintro rfl
      exact hU (hdir hd)
    rw [update_of_ne hne, hd]

theorem Frame.of_same (hview : ∀ v, own v = .metadata → SameView m m' v)
    (hpte : ∀ d va, own d = .dir → va < ADDRESSES → ¬ U d va → pteAt m' d va = pteAt m d va) :
    Frame U own m own m' :=
  ⟨fun _ => Iff.rfl, hview, fun _ hd _ => hd, hpte⟩

/-- Pages in use keep their owner. -/
def Keeps (own own' : ℕ → Owner) : Prop := ∀ v, own v ≠ .free → own' v = own v

theorem Keeps.refl (own : ℕ → Owner) : Keeps own own := fun _ _ => rfl

theorem Keeps.trans (h : Keeps own own') (h' : Keeps own' own'') : Keeps own own'' := by
  intro v hv
  have hv' : own' v ≠ .free := by rw [h v hv]; exact hv
  rw [h' v hv', h v hv]

theorem keeps_update (hr : own r = .free) (o : Owner) : Keeps own (update own r o) := by
  intro v hv
  have hvr : v ≠ r := fun hvr => hv (by rw [hvr, hr])
  exact update_of_ne hvr o own

/-! ### The calls of `vm.c` on single pages -/

section

variable (h : Owned lay own kpgdir m)
include h

/-- **A page from `kalloc`** belongs to the caller. -/
theorem Owned.kalloc {r : ℕ} {rest : List ℕ} (hf : m.freelist = r :: rest) :
    own r = .free ∧ ValidPage lay r ∧ Owned lay (update own r .other) kpgdir { m with freelist := rest }
      ∧ Frame untouched own m (update own r .other) { m with freelist := rest } := by
  have hmem : r ∈ m.freelist := by rw [hf]; exact List.mem_cons_self
  have hr := h.free r hmem
  refine ⟨hr, h.valid_of_mem hmem, h.take hf rfl, ?_⟩
  exact Frame.of_update (by simp [hr]) (by simp) (fun hd => by rw [hr] at hd; cases hd)
    (fun v _ => SameView.refl m v) fun _ _ _ _ _ => rfl

theorem Owned.memset (c : ℕ) (hr : own r = .other) (hv : ValidPage lay r) :
    Owned lay own kpgdir (m.memset r c) ∧ Frame untouched own m own (m.memset r c) := by
  have hwords : ∀ u, (own u).paging = true → (m.memset r c).word u = m.word u := by
    intro u hu
    exact memset_word_of_ne m c fun hur => by rw [hur, hr] at hu; cases hu
  refine ⟨h.of_words rfl hwords, Frame.of_same ?_ fun d va hd _ _ => h.pteAt_congr hwords hd va⟩
  intro v hmeta
  have hne : v ≠ r := fun hvr => by rw [hvr, hr] at hmeta; cases hmeta
  exact sameView_memset c hv.1 (h.valid v (by simp [hmeta])).1 hne

theorem Owned.copyPage (src : ℕ) (hr : own r = .other) :
    Owned lay own kpgdir (m.copyPage r src) ∧ Frame untouched own m own (m.copyPage r src) := by
  have hwords : ∀ u, (own u).paging = true → (m.copyPage r src).word u = m.word u := by
    intro u hu
    have hur : u ≠ r := fun hur => by rw [hur, hr] at hu; cases hu
    funext i
    exact if_neg hur
  exact ⟨h.of_words rfl hwords, Frame.of_same (fun v _ => ⟨rfl, rfl, fun _ _ _ => rfl⟩)
    fun d va hd _ _ => h.pteAt_congr hwords hd va⟩

theorem Owned.relabel (hr : own r = .other) (hv : ValidPage lay r)
    (ho : o.paging = false) : Owned lay (update own r o) kpgdir m := by
  refine h.assign (Or.inr hr) hv h.nodup (h.free_of_other hr _) ?_ (fun _ _ _ => Or.inl rfl) fun _ _ _ => rfl
  rintro rfl
  cases ho

/-- **A walk that may create a page table** changes no entry. -/
theorem walkpgdir_alloc (hd : own d = .dir) (va : ℕ) :
    (m.freelist = [] ∧ walkpgdir m d va true = (none, m))
      ∨ ∃ t own' m', walkpgdir m d va true = (some (t, PTX va), m') ∧ Owned lay own' kpgdir m'
        ∧ Frame untouched own m own' m' ∧ Keeps own own' ∧ own' t = .table d (PDX va)
        ∧ m'.word d (PDX va) = tableEntry t ∧ m'.word t (PTX va) = pteAt m d va := by
  rw [walkpgdir]
  by_cases hp : Present (m.word d (PDX va))
  · obtain ⟨ht, hw⟩ := h.table_of_present hd (PDX_lt va) hp
    refine Or.inr ⟨_, own, m, if_pos hp, h, Frame.refl own m, Keeps.refl own, ht, hw, ?_⟩
    rw [pteAt, if_pos hp]
  · simp only [if_neg hp, Bool.true_eq_false, if_false]
    rcases kalloc_cases m with ⟨hf, hk⟩ | ⟨r, rest, hf, hk⟩
    · left
      rw [hk]
      exact ⟨hf, if_pos rfl⟩
    · right
      obtain ⟨hr, hvr, hown, hframe⟩ := h.kalloc hf
      have hother : update own r .other r = .other := update_self ..
      obtain ⟨hset, hframe'⟩ := hown.memset 0 hother hvr
      have hdr : d ≠ r := fun hdr => by rw [hdr, hr] at hd; cases hd
      have hd' : update own r .other d = .dir := by rw [update_of_ne hdr, hd]
      set m₁ := Mem.memset { m with freelist := rest } r 0
      have hz : ∀ j, m₁.word r j = 0 := fun j => memset_word_self ..
      have hp' : ¬ Present (m₁.word d (PDX va)) := by
        rw [memset_word_of_ne _ _ hdr]
        exact hp
      have hatt := hset.attach hother hvr hz hd' hp'
      have hframe'' : Frame untouched (update own r .other) m₁
          (update (update own r .other) r (.table d (PDX va)))
          (m₁.setWord d (PDX va) (tableEntry r)) :=
        Frame.of_update (by simp) (by simp) (fun hc => by rw [hother] at hc; cases hc)
          (fun v _ => ⟨rfl, rfl, fun _ _ _ => rfl⟩)
          fun e vb he _ _ => hset.pteAt_attach hother hvr hz hd' hp' he vb
      rw [update_idem] at hatt hframe''
      refine ⟨r, _, _, ?_, hatt, (hframe.trans hframe').trans hframe'', keeps_update hr _,
        update_self .., ?_, ?_⟩
      · rw [hk]
        exact if_neg hvr.ne_zero
      · rw [setWord_word, if_pos rfl]
      · rw [setWord_word_of_ne _ _ _ hdr.symm, hz, pteAt, if_neg hp]

theorem walkpgdir_noalloc (hd : own d = .dir) (va : ℕ) :
    (walkpgdir m d va false = (none, m) ∧ pteAt m d va = 0)
      ∨ ∃ t, walkpgdir m d va false = (some (t, PTX va), m) ∧ own t = .table d (PDX va)
        ∧ m.word d (PDX va) = tableEntry t ∧ m.word t (PTX va) = pteAt m d va := by
  rw [walkpgdir, pteAt]
  by_cases hp : Present (m.word d (PDX va))
  · obtain ⟨ht, hw⟩ := h.table_of_present hd (PDX_lt va) hp
    exact Or.inr ⟨_, if_pos hp, ht, hw, (if_pos hp).symm⟩
  · exact Or.inl ⟨by simp only [if_neg hp, if_true], if_neg hp⟩

end

end Xv6e.Memory.Ownership
