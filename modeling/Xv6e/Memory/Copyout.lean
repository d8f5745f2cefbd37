import Xv6e.Memory.KernelMap
import Xv6e.Memory.Exec

/-!
# `copyout`

`copyout` writes bytes to user memory page by page, through the address `uva2ka` finds for each page.
`uva2ka` reads the entry that `walkpgdir` points to without asking whether there is one: where a page
directory has no page table, it reads through a null pointer.

* `uva2ka`, `copyout` — the two functions, with the bytes of a page in its words (`byte`, `setByte`);
* `Space` — a page directory as `setupkvm`, `allocuvm` and `clearpteu` build it;
* `CopiesOut` — what `copyout` should do; `Tabled` — there is a page table wherever it looks;
* `copyout_right_iff` — it does so exactly if `Tabled`; `copyout_null` — a new page directory has no page
  table for address 0.
-/

namespace Xv6e.Memory.Copyout

open Library.Fallible
open PageTable Ownership AddressSpace Frames FrameCalls
open NewSpaces Growproc HeapInvariant Supply CopiedSpaces
open Exec (clearpteu and_user clear_user)
open KernelMap (kernelEntry_user)

variable {lay : Layout} {own : ℕ → Owner} {kpgdir d va : ℕ} {m m' : Mem}

/-! ### Bytes of a page -/

def byte (m : Mem) (page i : ℕ) : UInt8 := UInt8.ofNat (m.word page (i / 4) / 256 ^ (i % 4))

def putByte (w k : ℕ) (b : UInt8) : ℕ := w - w / 256 ^ k % 256 * 256 ^ k + b.toNat * 256 ^ k

def setByte (m : Mem) (page i : ℕ) (b : UInt8) : Mem := m.setWord page (i / 4)
    (putByte (m.word page (i / 4)) (i % 4) b)

/-- `memmove` of bytes to offset `off` of a page. -/
def writeBytes (page : ℕ) : Mem → ℕ → List UInt8 → Mem
  | m, _, [] => m
  | m, off, b :: bs => writeBytes page (setByte m page off b) (off + 1) bs

theorem digit_putByte (w : ℕ) (b : UInt8) {k l : ℕ} (hk : k < 4) (hl : l < 4) :
    putByte w k b / 256 ^ l % 256 = if l = k then b.toNat else w / 256 ^ l % 256 := by
  have hb : b.toNat < 256 := b.toNat_lt
  rw [putByte]
  generalize b.toNat = x at hb ⊢
  interval_cases k <;> interval_cases l <;> norm_num <;> omega

theorem byte_setByte (m : Mem) (page i : ℕ) (b : UInt8) (v j : ℕ) :
    byte (setByte m page i b) v j = if v = page ∧ j = i then b else byte m v j := by
  have hofNat : ∀ {x y : ℕ}, x % 256 = y % 256 → UInt8.ofNat x = UInt8.ofNat y := fun {x y} hxy => by
    apply UInt8.toNat_inj.mp
    simpa using hxy
  by_cases hv : v = page
  swap
  · rw [byte, setByte, setWord_word_of_ne _ _ _ hv, if_neg fun hc => hv hc.1, byte]
  subst hv
  rw [byte, setByte, setWord_word]
  by_cases hword : j / 4 = i / 4
  · rw [if_pos hword, byte, hword]
    have hdigit := digit_putByte (m.word v (i / 4)) b (Nat.mod_lt i (by decide : 0 < 4))
      (Nat.mod_lt j (by decide : 0 < 4))
    by_cases hji : j = i
    · rw [if_pos ⟨rfl, hji⟩]
      rw [if_pos (by rw [hji])] at hdigit
      apply UInt8.toNat_inj.mp
      simpa using hdigit
    · rw [if_neg fun hc => hji hc.2]
      rw [if_neg (by omega)] at hdigit
      exact hofNat hdigit
  · rw [if_neg hword, if_neg (by rintro ⟨_, rfl⟩; exact hword rfl), byte]

theorem writeBytes_freelist (page : ℕ) (bs : List UInt8) (m : Mem) (off : ℕ) :
    (writeBytes page m off bs).freelist = m.freelist := by
  induction bs generalizing m off with
  | nil => rfl
  | cons b bs ih => exact ih _ _

theorem writeBytes_word {page v : ℕ} (bs : List UInt8) (m : Mem) (off : ℕ) (hv : v ≠ page) :
    (writeBytes page m off bs).word v = m.word v := by
  induction bs generalizing m off with
  | nil => rfl
  | cons b bs ih => rw [writeBytes, ih, setByte, setWord_word_of_ne _ _ _ hv]

theorem byte_writeBytes_outside {page v j : ℕ} (bs : List UInt8) (m : Mem) (off : ℕ)
    (hout : v = page → j < off ∨ off + bs.length ≤ j) : byte (writeBytes page m off bs) v j = byte m v j := by
  induction bs generalizing m off with
  | nil => rfl
  | cons b bs ih =>
    simp only [List.length_cons] at hout
    rw [writeBytes, ih, byte_setByte, if_neg]
    · rintro ⟨hv, rfl⟩
      rcases hout hv with h | h <;> omega
    · intro hv
      rcases hout hv with h | h
      · exact Or.inl (by omega)
      · exact Or.inr (by omega)

theorem byte_writeBytes_inside {page k : ℕ} (bs : List UInt8) (m : Mem) (off : ℕ) (hk : k < bs.length) :
    byte (writeBytes page m off bs) page (off + k) = bs[k] := by
  induction bs generalizing m off k with
  | nil => exact absurd hk (Nat.not_lt_zero k)
  | cons b bs ih =>
    rw [writeBytes]
    cases k with
    | zero =>
      rw [byte_writeBytes_outside _ _ _ fun _ => Or.inl (by omega), byte_setByte, if_pos ⟨rfl, rfl⟩]
      rfl
    | succ k =>
      rw [show off + (k + 1) = off + 1 + k by omega, ih _ _ (by simpa using hk)]
      rfl

/-! ### The functions -/

inductive Fault where
  /-- `uva2ka` reads through the null pointer that `walkpgdir` has returned. -/
  | nullEntry
  deriving DecidableEq, Repr

/-- `uva2ka`: the kernel address of a user page, `0` for none. -/
def uva2ka (m : Mem) (pgdir uva : ℕ) : Except Fault ℕ :=
  match walkpgdir m pgdir uva false with
  | (none, _) => .error .nullEntry
  | (some (pgtab, i), m) =>
    let pte := m.word pgtab i
    if pte &&& PTE_P = 0 then .ok 0
    else if pte &&& PTE_U = 0 then .ok 0
    else .ok (P2V (PTE_ADDR pte))

/-- `va0 + PGSIZE`, the address the next round of `copyout` starts from. -/
def nextPage (va : ℕ) : ℕ := (PGROUNDDOWN va + PGSIZE) % ADDRESSES

theorem nextPage_eq {va : ℕ} (h : va < KERNBASE) : nextPage va = PGROUNDDOWN va + PGSIZE := by
  rw [nextPage]
  apply Nat.mod_eq_of_lt
  simp only [PGROUNDDOWN, PGSIZE, ADDRESSES, KERNBASE] at *
  omega

/-- `copyout` of the bytes `p` to user address `va`; `false` for the return value `-1`. -/
def copyout (pgdir : ℕ) (m : Mem) (va : ℕ) (p : List UInt8) : Except Fault (Bool × Mem) :=
  if p = [] then .ok (true, m)
  else do
    let va0 := PGROUNDDOWN va
    let pa0 ← uva2ka m pgdir va0
    if pa0 = 0 then .ok (false, m)
    else
      let n := min (PGSIZE - (va - va0)) p.length
      copyout pgdir (writeBytes pa0 m (va - va0) (p.take n)) (nextPage va) (p.drop n)
termination_by p.length
decreasing_by
  have hlen : 0 < p.length := List.length_pos_iff.mpr ‹_›
  have hoff : va - PGROUNDDOWN va < PGSIZE := by
    simp only [PGROUNDDOWN, PGSIZE]
    omega
  rw [List.length_drop]
  omega

/-! ### Page directories of processes -/

/-- A page directory with the kernel's mappings above `KERNBASE`, and pages of its own below. -/
structure Space (lay : Layout) (own : ℕ → Owner) (kpgdir : ℕ) (m : Mem) (d : ℕ) : Prop where
  owned : Owned lay own kpgdir m
  dir : own d = .dir
  kernel : ∀ va, KERNBASE ≤ va → va < ADDRESSES → pteAt m d va = kernelEntry lay va

/-- `setupkvm` makes one, -/
theorem space_setupkvm (h : Owned lay own kpgdir m) (hk : own kpgdir ≠ .free)
    (hok : setupkvm lay m = .ok (d, m')) (hd : d ≠ 0) : ∃ own', Space lay own' kpgdir m' d := by
  obtain ⟨own', h', _, hres⟩ := setupkvm_spec h hk hok
  obtain ⟨_, hdir, hent⟩ := hres.resolve_left hd
  exact ⟨own', h', hdir, fun va _ hva => hent va hva⟩

/-- `allocuvm` keeps it one, -/
theorem Space.allocuvm (h : Space lay own kpgdir m d) {oldsz newsz sz : ℕ}
    (hok : allocuvm lay m d oldsz newsz = .ok (sz, m')) : ∃ own', Space lay own' kpgdir m' d := by
  obtain ⟨own', h', hf⟩ := allocuvm_spec h.owned h.dir hok
  refine ⟨own', h', hf.dir d h.dir (not_all_userOf d), fun va hge hva => ?_⟩
  rw [hf.pte d va h.dir hva fun hU => absurd hU.2 (not_lt.mpr hge), h.kernel va hge hva]

/-- and so does `clearpteu` of a user page. -/
theorem Space.clearpteu (h : Space lay own kpgdir m d) {u : ℕ} (hu : u < KERNBASE)
    (hok : clearpteu m d u = .ok m') :
    Space lay own kpgdir m' d := by
  have hlt : u < ADDRESSES := lt_trans hu (by decide)
  rw [Exec.clearpteu] at hok
  rcases walkpgdir_noalloc h.owned h.dir u with ⟨hwalk, _⟩ | ⟨t, hwalk, ht, hw, hentry⟩
  · rw [hwalk] at hok
    cases hok
  rw [hwalk] at hok
  simp only [hentry] at hok
  cases hok
  obtain ⟨hpres, haddr⟩ := clear_user (pteAt m d u)
  refine ⟨h.owned.setPte ht hw hlt (fun _ hp => ?_) fun _ hheap => absurd hheap.1 ?_, h.dir,
    fun va hge hva => ?_⟩
  · rw [haddr]
    exact h.owned.user d u h.dir hu (hpres.mp hp)
  · simp only [KERNBASE, PHYSTOP] at *
    omega
  · rw [h.owned.pteAt_setWord _ ht hw hlt h.dir hva, if_neg, h.kernel va hge hva]
    rintro ⟨_, hpage⟩
    simp only [KERNBASE, PGSIZE] at *
    omega

def UserAt (m : Mem) (d va : ℕ) : Prop := Present (pteAt m d va) ∧ pteAt m d va &&& PTE_U ≠ 0

/-- There is a page table for the address. -/
def HasTable (m : Mem) (d va : ℕ) : Prop := Present (m.word d (PDX va))

theorem UserAt.hasTable (h : UserAt m d va) : HasTable m d va := by
  by_contra hc
  have hp := h.1
  rw [pteAt, if_neg (show ¬ Present (m.word d (PDX va)) from hc)] at hp
  exact not_present_zero hp

theorem Space.user_low (h : Space lay own kpgdir m d) (hva : va < ADDRESSES) (hu : UserAt m d va) :
    va < KERNBASE := by
  by_contra hc
  have hbit := hu.2
  rw [h.kernel va (not_lt.mp hc) hva, kernelEntry_user lay hva] at hbit
  exact hbit rfl

theorem Space.user_run (h : Space lay own kpgdir m d) {a k : ℕ} (ha : a ≤ KERNBASE)
    (hall : ∀ j ≤ k, UserAt m d ((a + j) % ADDRESSES)) : a + k < KERNBASE := by
  by_contra hc
  have hu := hall (KERNBASE - a) (by omega)
  rw [Nat.add_sub_cancel' ha] at hu
  exact absurd (h.user_low (by decide) hu) (by decide)

/-- **`uva2ka`** of a page directory. -/
theorem uva2ka_spec (h : Space lay own kpgdir m d) (hva : va < ADDRESSES) :
    (¬ HasTable m d va → uva2ka m d va = .error .nullEntry)
    ∧ (HasTable m d va → ¬ UserAt m d va → uva2ka m d va = .ok 0)
    ∧ (UserAt m d va → uva2ka m d va = .ok (frameAt m d va) ∧ frameAt m d va ≠ 0) := by
  have hwalk : HasTable m d va → uva2ka m d va = if pteAt m d va &&& PTE_P = 0 then .ok 0
      else if pteAt m d va &&& PTE_U = 0 then .ok 0 else .ok (frameAt m d va) := fun htable => by
    rcases walkpgdir_noalloc h.owned h.dir va with ⟨hnone, _⟩ | ⟨t, hsome, _, _, hentry⟩
    · rw [walkpgdir, if_pos (show Present (m.word d (PDX va)) from htable)] at hnone
      cases hnone
    · rw [uva2ka, hsome]
      simp only [hentry, frameAt]
  refine ⟨fun hno => ?_, fun htable hnot => ?_, fun hu => ?_⟩
  · rw [uva2ka, walkpgdir, if_neg (show ¬ Present (m.word d (PDX va)) from hno)]
    rfl
  · rw [hwalk htable]
    by_cases hp : pteAt m d va &&& PTE_P = 0
    · rw [if_pos hp]
    · have hbit : pteAt m d va &&& PTE_U = 0 := by
        by_contra hc
        exact hnot ⟨hp, hc⟩
      rw [if_neg hp, if_pos hbit]
  · have hown := h.owned.user d va h.dir (h.user_low hva hu) hu.1
    have hvalid : ValidPage lay (frameAt m d va) :=
      h.owned.valid _ (by rw [frameAt, hown]; exact fun hc => by cases hc)
    refine ⟨?_, hvalid.ne_zero⟩
    rw [hwalk hu.hasTable, if_neg hu.1, if_neg hu.2]

/-! ### What `copyout` does -/

/-- The byte of user memory at an address. -/
def userByte (m : Mem) (d va : ℕ) : UInt8 := byte m (frameAt m d va) (va % PGSIZE)

/-- What `copyout` should do: it succeeds exactly if all pages of the range are user pages, and then the bytes
of the range are `p`; it changes no byte but those of the range before the first page that is not a user
page. -/
structure CopiesOut (own : ℕ → Owner) (m : Mem) (d va : ℕ) (p : List UInt8) (ok : Bool)
    (m' : Mem) : Prop where
  accepts : ok = true ↔ ∀ k < p.length, UserAt m d ((va + k) % ADDRESSES)
  written : ok = true → ∀ (k : ℕ) (hk : k < p.length), userByte m' d ((va + k) % ADDRESSES) = p[k]
  kept : ∀ v i, (∀ k < p.length, (∀ j ≤ k, UserAt m d ((va + j) % ADDRESSES)) →
    ¬ (v = frameAt m d ((va + k) % ADDRESSES) ∧ i = (va + k) % PGSIZE)) → byte m' v i = byte m v i
  freelist : m'.freelist = m.freelist
  tables : ∀ e a, own e = .dir → pteAt m' e a = pteAt m e a

/-- There is a page table for every address of the range, up to the first page that is not a user page. -/
def Tabled (m : Mem) (d va len : ℕ) : Prop :=
  ∀ k < len, (∀ j < k, UserAt m d ((va + j) % ADDRESSES)) → HasTable m d ((va + k) % ADDRESSES)

theorem offset_eq (va : ℕ) : va - PGROUNDDOWN va = va % PGSIZE := by
  simp only [PGROUNDDOWN, PGSIZE]
  omega

/-- The bytes that go to the first page. -/
def chunk (va len : ℕ) : ℕ := min (PGSIZE - va % PGSIZE) len

theorem chunk_pos {len : ℕ} (h : 0 < len) : 0 < chunk va len := by
  have : va % PGSIZE < PGSIZE := Nat.mod_lt _ (by decide)
  rw [chunk]
  omega

/-- The addresses of the first chunk are on one page; those after it are on the next page and on. -/
theorem chunk_addresses {len k : ℕ} (hva : va < KERNBASE) (hk : k < len) :
    (k < chunk va len → (va + k) % ADDRESSES = va + k ∧ (va + k) / PGSIZE = va / PGSIZE
      ∧ (va + k) % PGSIZE = va % PGSIZE + k)
    ∧ (chunk va len ≤ k → va + k = PGROUNDDOWN va + PGSIZE + (k - chunk va len)) := by
  simp only [chunk, PGROUNDDOWN, PGSIZE, ADDRESSES, KERNBASE] at *
  omega

theorem pteAt_samePage {a b : ℕ} (h : a / PGSIZE = b / PGSIZE) : pteAt m d a = pteAt m d b := by
  rw [← pteAt_page, h, pteAt_page]

theorem Space.write (h : Space lay own kpgdir m d) (hva : va < ADDRESSES) (hu : UserAt m d va) (off : ℕ)
    (bs : List UInt8) : Space lay own kpgdir (writeBytes (frameAt m d va) m off bs) d
      ∧ (∀ e a, own e = .dir → pteAt (writeBytes (frameAt m d va) m off bs) e a = pteAt m e a)
      ∧ (writeBytes (frameAt m d va) m off bs).word d = m.word d := by
  have hown : own (frameAt m d va) = .user d (va / PGSIZE) := h.owned.user d va h.dir (h.user_low hva hu) hu.1
  have hwords : ∀ v, (own v).paging = true → (writeBytes (frameAt m d va) m off bs).word v = m.word v := by
    intro v hv
    refine writeBytes_word _ _ _ fun hc => ?_
    rw [hc, hown] at hv
    cases hv
  have hpte := fun e a (he : own e = .dir) => h.owned.pteAt_congr hwords he a
  refine ⟨⟨h.owned.of_words (writeBytes_freelist ..) hwords, h.dir, fun a hge ha => ?_⟩, hpte, hwords d ?_⟩
  · rw [hpte d a h.dir, h.kernel a hge ha]
  · rw [h.dir]
    rfl

theorem copiesOut_chunk (h : Space lay own kpgdir m d) (hva : va < ADDRESSES) (hu : UserAt m d va)
    {p : List UInt8} {ok : Bool} {m₁ : Mem}
    (hm₁ : m₁ = writeBytes (frameAt m d va) m (va % PGSIZE) (p.take (chunk va p.length)))
    (hrest : CopiesOut own m₁ d (PGROUNDDOWN va + PGSIZE) (p.drop (chunk va p.length)) ok m') :
    CopiesOut own m d va p ok m' := by
  have hlow := h.user_low hva hu
  have haddr := fun {k : ℕ} (hk : k < p.length) => chunk_addresses hlow hk
  have htables : ∀ e a, own e = .dir → pteAt m₁ e a = pteAt m e a := by
    rw [hm₁]; exact (h.write hva hu _ _).2.1
  have hframe : ∀ a, frameAt m₁ d a = frameAt m d a := fun a => by rw [frameAt, htables d a h.dir, frameAt]
  have hframe' : ∀ a, frameAt m' d a = frameAt m d a := fun a => by
    rw [frameAt, hrest.tables d a h.dir, htables d a h.dir, frameAt]
  have huser : ∀ a, UserAt m₁ d a ↔ UserAt m d a := fun a => by rw [UserAt, htables d a h.dir, UserAt]
  have hfirst : ∀ k < p.length, k < chunk va p.length → UserAt m d ((va + k) % ADDRESSES) := fun k hk hc => by
    obtain ⟨hmod, hpage, _⟩ := (haddr hk).1 hc
    rw [hmod, UserAt, pteAt_samePage hpage]
    exact hu
  have hframe₁ : ∀ k < p.length, k < chunk va p.length → frameAt m d ((va + k) % ADDRESSES)
      = frameAt m d va :=
    fun k hk hc => by
      obtain ⟨hmod, hpage, _⟩ := (haddr hk).1 hc
      rw [hmod, frameAt, pteAt_samePage hpage, frameAt]
  have hlen : (p.drop (chunk va p.length)).length = p.length - chunk va p.length := List.length_drop
  -- what the rest may write is not on the first page
  have hdistinct : ∀ k, (∀ j ≤ k, UserAt m d ((PGROUNDDOWN va + PGSIZE + j) % ADDRESSES)) →
      frameAt m d ((PGROUNDDOWN va + PGSIZE + k) % ADDRESSES) ≠ frameAt m d va := by
    intro k hall hsame
    have hnext : PGROUNDDOWN va + PGSIZE ≤ KERNBASE := by
      simp only [PGROUNDDOWN, PGSIZE, KERNBASE] at *
      omega
    have hlowk := h.user_run hnext hall
    have hmod : (PGROUNDDOWN va + PGSIZE + k) % ADDRESSES = PGROUNDDOWN va + PGSIZE + k :=
      Nat.mod_eq_of_lt (lt_trans hlowk (by decide))
    have h₁ := h.owned.user d _ h.dir hlowk (by rw [← hmod]; exact (hall k le_rfl).1)
    have h₂ := h.owned.user d va h.dir hlow hu.1
    rw [hmod, frameAt, frameAt] at hsame
    rw [hsame, h₂] at h₁
    have hpage := (Owner.user.inj h₁).2
    simp only [PGROUNDDOWN, PGSIZE] at hpage
    omega
  have hsplit : ∀ k < p.length, chunk va p.length ≤ k →
      va + k = PGROUNDDOWN va + PGSIZE + (k - chunk va p.length)
      ∧ k - chunk va p.length < (p.drop (chunk va p.length)).length := fun k hk hc =>
    ⟨(haddr hk).2 hc, by rw [hlen]; omega⟩
  have hacc : ok = true ↔ ∀ k < p.length, UserAt m d ((va + k) % ADDRESSES) := by
    rw [hrest.accepts]
    constructor
    · intro hall k hk
      by_cases hc : k < chunk va p.length
      · exact hfirst k hk hc
      · obtain ⟨heq, hlt⟩ := hsplit k hk (not_lt.mp hc)
        rw [heq, ← huser]
        exact hall _ hlt
    · intro hall k hk
      rw [hlen] at hk
      have hk' : chunk va p.length + k < p.length := by omega
      have heq := (hsplit _ hk' (Nat.le_add_right _ _)).1
      rw [Nat.add_sub_cancel_left] at heq
      rw [huser, ← heq]
      exact hall _ hk'
  refine ⟨hacc, fun hok k hk => ?_, fun v i hout => ?_, ?_, fun e a he => ?_⟩
  · by_cases hc : k < chunk va p.length
    · -- a byte of the first page
      obtain ⟨hmod, hpage, hoff⟩ := (haddr hk).1 hc
      have htake : k < (p.take (chunk va p.length)).length := by rw [List.length_take]; omega
      rw [userByte, hframe', hframe₁ k hk hc, hmod, hoff, hrest.kept _ _ fun j hj hall => ?_, hm₁,
        byte_writeBytes_inside _ _ _ htake, List.getElem_take]
      rintro ⟨hsame, _⟩
      rw [hframe] at hsame
      exact hdistinct j (fun i hi => (huser _).mp (hall i hi)) hsame.symm
    · obtain ⟨heq, hlt⟩ := hsplit k hk (not_lt.mp hc)
      rw [heq, hrest.written hok _ hlt, List.getElem_drop]
      congr 1
      omega
  · have hkept : byte m' v i = byte m₁ v i := by
      refine hrest.kept v i fun k hk hall hat => ?_
      rw [hlen] at hk
      have hk' : chunk va p.length + k < p.length := by omega
      have heq := (hsplit _ hk' (Nat.le_add_right _ _)).1
      rw [Nat.add_sub_cancel_left] at heq
      refine hout _ hk' (fun j hj => ?_) ⟨by rw [heq, ← hframe]; exact hat.1, by rw [heq]; exact hat.2⟩
      by_cases hc : j < chunk va p.length
      · exact hfirst j (by omega) hc
      · have heqj := (hsplit j (by omega) (not_lt.mp hc)).1
        rw [heqj, ← huser]
        exact hall _ (by omega)
    rw [hkept, hm₁]
    refine byte_writeBytes_outside _ _ _ fun hv => ?_
    by_contra hin
    rw [not_or, not_lt, not_le, List.length_take] at hin
    obtain ⟨k, rfl⟩ := Nat.exists_eq_add_of_le hin.1
    have hk : k < chunk va p.length ∧ k < p.length := by omega
    have hoff := ((haddr hk.2).1 hk.1).2.2
    refine hout k hk.2 (fun j hj => hfirst j (by omega) (by omega)) ⟨?_, hoff.symm⟩
    rw [hframe₁ k hk.2 hk.1, hv]
  · rw [hrest.freelist, hm₁, writeBytes_freelist]
  · rw [hrest.tables e a he, htables e a he]

theorem copyout_step (h : Space lay own kpgdir m d) (hva : va < ADDRESSES) {p : List UInt8} (hp : p ≠ []) :
    (¬ HasTable m d va → copyout d m va p = .error .nullEntry)
    ∧ (HasTable m d va → ¬ UserAt m d va → copyout d m va p = .ok (false, m))
    ∧ (UserAt m d va → copyout d m va p
        = copyout d (writeBytes (frameAt m d va) m (va % PGSIZE) (p.take (chunk va p.length))) (nextPage va)
          (p.drop (chunk va p.length))) := by
  have hdown : PGROUNDDOWN va < ADDRESSES := lt_of_le_of_lt (Nat.div_mul_le_self va PGSIZE) hva
  have hpage : PGROUNDDOWN va / PGSIZE = va / PGSIZE := Nat.mul_div_cancel _ (by decide)
  have hpte : pteAt m d (PGROUNDDOWN va) = pteAt m d va := pteAt_samePage hpage
  have hframe : frameAt m d (PGROUNDDOWN va) = frameAt m d va := by rw [frameAt, hpte, frameAt]
  have huser : UserAt m d (PGROUNDDOWN va) ↔ UserAt m d va := by rw [UserAt, hpte, UserAt]
  have htable : HasTable m d (PGROUNDDOWN va) ↔ HasTable m d va := by
    have hpdx : PDX (PGROUNDDOWN va) = PDX va := by
      simp only [PDX, PGROUNDDOWN, PGSIZE, NPDENTRIES]
      omega
    rw [HasTable, hpdx, HasTable]
  have hchunk : min (PGSIZE - (va - PGROUNDDOWN va)) p.length = chunk va p.length := by
    rw [offset_eq va, chunk]
  obtain ⟨h₁, h₂, h₃⟩ := uva2ka_spec h hdown
  rw [copyout, if_neg hp]
  dsimp only
  rw [hchunk, offset_eq va]
  refine ⟨fun hno => ?_, fun hyes hnot => ?_, fun hu => ?_⟩
  · rw [h₁ fun hc => hno (htable.mp hc)]
    rfl
  · rw [h₂ (htable.mpr hyes) fun hc => hnot (huser.mp hc)]
    rfl
  · obtain ⟨hok, hne⟩ := h₃ (huser.mpr hu)
    rw [hframe] at hok hne
    generalize frameAt m d va = f at hok hne ⊢
    have hbind : ∀ g : ℕ → Except Fault (Bool × Mem), (Except.ok f >>= g) = g f := fun _ => rfl
    rw [hok, hbind, if_neg hne]

/-- `copyout` does what it should where there are page tables, and reads through a null pointer elsewhere. -/
theorem copyout_cases (h : Space lay own kpgdir m d) (hva : va < ADDRESSES) (p : List UInt8) :
    (Tabled m d va p.length → ∃ ok m', copyout d m va p = .ok (ok, m') ∧ CopiesOut own m d va p ok m')
    ∧ (¬ Tabled m d va p.length → copyout d m va p = .error .nullEntry) := by
  induction hn : p.length using Nat.strong_induction_on generalizing m va p with
  | _ n ih =>
    subst hn
    by_cases hp : p = []
    · subst hp
      have hzero : ∀ k, ¬ k < ([] : List UInt8).length := fun k => Nat.not_lt_zero k
      refine ⟨fun _ =>
        ⟨true, m, by rw [copyout, if_pos rfl], ⟨fun _ k hk => absurd hk (hzero k), fun _ => rfl⟩,
          fun _ k hk => absurd hk (hzero k), fun _ _ _ => rfl, rfl, fun _ _ _ => rfl⟩, fun hno => ?_⟩
      exact absurd (fun k hk => absurd hk (hzero k)) hno
    have hlen : 0 < p.length := List.length_pos_iff.mpr hp
    have hmod : (va + 0) % ADDRESSES = va := Nat.mod_eq_of_lt hva
    obtain ⟨hnull, hbad, hgo⟩ := copyout_step h hva hp
    by_cases ht : HasTable m d va
    swap
    · refine ⟨fun hT => absurd ?_ ht, fun _ => hnull ht⟩
      have := hT 0 hlen fun j hj => absurd hj (Nat.not_lt_zero j)
      rwa [hmod] at this
    by_cases hu : UserAt m d va
    swap
    · -- the first page is not a user page
      have hfirst : ¬ UserAt m d ((va + 0) % ADDRESSES) := by rwa [hmod]
      refine ⟨fun _ => ⟨false, m, hbad ht hu, ⟨by simp, fun hall => absurd (hall 0 hlen) hfirst⟩,
        (by simp), fun _ _ _ => rfl, rfl, fun _ _ _ => rfl⟩, fun hno => absurd (fun k hk hall => ?_) hno⟩
      cases k with
      | zero => rwa [hmod]
      | succ k => exact absurd (hall 0 (Nat.succ_pos k)) hfirst
    have hlow := h.user_low hva hu
    obtain ⟨hspace, htables, hword⟩ := h.write hva hu (va % PGSIZE) (p.take (chunk va p.length))
    have hnext : PGROUNDDOWN va + PGSIZE < ADDRESSES := by
      simp only [PGROUNDDOWN, PGSIZE, ADDRESSES, KERNBASE] at *
      omega
    have hround := hgo hu
    rw [nextPage_eq hlow] at hround
    have hdrop : (p.drop (chunk va p.length)).length = p.length - chunk va p.length := List.length_drop
    have hpos : 0 < chunk va p.length := chunk_pos hlen
    have htabled : Tabled (writeBytes (frameAt m d va) m (va % PGSIZE) (p.take (chunk va p.length))) d
        (PGROUNDDOWN va + PGSIZE) (p.drop (chunk va p.length)).length ↔ Tabled m d va p.length := by
      have huser : ∀ a, UserAt (writeBytes (frameAt m d va) m (va % PGSIZE) (p.take (chunk va p.length))) d a
          ↔ UserAt m d a :=
        fun a => by rw [UserAt, htables d a h.dir, UserAt]
      have hhas : ∀ a, HasTable (writeBytes (frameAt m d va) m (va % PGSIZE) (p.take (chunk va p.length))) d a
          ↔ HasTable m d a := fun a => by rw [HasTable, hword, HasTable]
      have hgood : ∀ k < p.length, k < chunk va p.length → UserAt m d ((va + k) % ADDRESSES) :=
          fun k hk hc => by
        obtain ⟨hm, hpage, _⟩ := (chunk_addresses hlow hk).1 hc
        rw [hm, UserAt, pteAt_samePage hpage]
        exact hu
      rw [hdrop]
      constructor
      · intro hT k hk hall
        by_cases hc : k < chunk va p.length
        · exact (hgood k hk hc).hasTable
        · rw [(chunk_addresses hlow hk).2 (not_lt.mp hc), ← hhas]
          refine hT _ (by omega) fun j hj => ?_
          have hj' : chunk va p.length + j < p.length := by omega
          have heq := (chunk_addresses hlow hj').2 (Nat.le_add_right _ _)
          rw [Nat.add_sub_cancel_left] at heq
          rw [huser, ← heq]
          exact hall _ (by omega)
      · intro hT k hk hall
        have hk' : chunk va p.length + k < p.length := by omega
        have heq := (chunk_addresses hlow hk').2 (Nat.le_add_right _ _)
        rw [Nat.add_sub_cancel_left] at heq
        rw [hhas, ← heq]
        refine hT _ hk' fun j hj => ?_
        by_cases hc : j < chunk va p.length
        · exact hgood j (by omega) hc
        · rw [(chunk_addresses hlow (by omega)).2 (not_lt.mp hc), ← huser]
          exact hall _ (by omega)
    obtain ⟨ih₁, ih₂⟩ := ih _ (by rw [hdrop]; omega) hspace hnext (p.drop (chunk va p.length)) rfl
    rw [hround]
    refine ⟨fun hT => ?_, fun hno => ih₂ fun hc => hno (htabled.mp hc)⟩
    obtain ⟨ok, m', hok, hright⟩ := ih₁ (htabled.mpr hT)
    exact ⟨ok, m', hok, copiesOut_chunk h hva hu rfl hright⟩

/-- **`copyout` is safe and exact** exactly if there is a page table for every address of the range, up to the
first page that is not a user page. -/
theorem copyout_right_iff (h : Space lay own kpgdir m d) (hva : va < ADDRESSES) (p : List UInt8) :
    (∃ ok m', copyout d m va p = .ok (ok, m') ∧ CopiesOut own m d va p ok m') ↔ Tabled m d va p.length := by
  obtain ⟨hyes, hno⟩ := copyout_cases h hva p
  refine ⟨?_, hyes⟩
  rintro ⟨ok, m', hok, _⟩
  by_contra hc
  rw [hno hc] at hok
  cases hok

theorem exists_userPage : ∃ own m d, Space smallLayout own smallBoot.kpgdir m d ∧ UserAt m d 0 := by
  obtain ⟨own, m, h, hdir, hp, hbit, hlen⟩ := onePage_roomy
  obtain ⟨d, m', hok, hd⟩ := copyuvm_onePage (by decide) h hdir hdir hp hlen
  obtain ⟨own₁, h₁, hdir₁⟩ := exists_exact h
  have hfree : own₁ smallBoot.kpgdir ≠ .free := by rw [hdir₁ _ hdir]; simp
  have hsmall : PGSIZE ≤ KERNBASE := by decide
  obtain ⟨own₂, h₂, _, hres⟩ := copyuvm_spec hsmall h₁.toOwned hfree (hdir₁ _ hdir) hok
  obtain ⟨_, hdir₂, hkernel⟩ := hres.resolve_left hd
  refine ⟨own₂, m', d, ⟨h₂, hdir₂, hkernel⟩, ?_⟩
  rcases copyuvm_copies (by decide) hsmall h₁ hfree (hdir₁ _ hdir) with ⟨x, herr, _⟩
    | ⟨r, m₂, hrun, hcopied, hcopies⟩
  · rw [herr] at hok
    cases hok
  rw [hrun] at hok
  obtain ⟨rfl, rfl⟩ : r = d ∧ m₂ = m' := Prod.mk.injEq .. ▸ Except.ok.inj hok
  rcases hcopied with ⟨hz, _⟩ | ⟨_, own₃, _, hmapped⟩
  · exact absurd hz hd
  have hspan : span 0 PGSIZE 0 := ⟨le_rfl, by decide⟩
  have hflags := (hcopies hd 0 (by decide) hspan).1
  refine ⟨(hmapped 0 (by decide)).mpr hspan, ?_⟩
  rw [and_user] at hbit ⊢
  simp only [PTE_FLAGS, PGSIZE] at hflags
  omega

/-- Three bytes copied out to a process with one page. -/
theorem copyout_right_three : ∃ own m d, Space smallLayout own smallBoot.kpgdir m d
    ∧ ∃ ok m', copyout d m 5 [1, 2, 3] = .ok (ok, m') ∧ CopiesOut own m d 5 [1, 2, 3] ok m' := by
  obtain ⟨own, m, d, hspace, hu⟩ := exists_userPage
  refine ⟨own, m, d, hspace, (copyout_right_iff hspace (by decide) [1, 2, 3]).mpr fun k hk _ => ?_⟩
  have hk3 : k < 3 := hk
  have hmod : (5 + k) % ADDRESSES = 5 + k := Nat.mod_eq_of_lt (by simp only [ADDRESSES]; omega)
  have hpage : (5 + k) / PGSIZE = 0 / PGSIZE := by
    simp only [PGSIZE]
    omega
  have huk : UserAt m d (5 + k) := by
    rw [UserAt, pteAt_samePage hpage]
    exact hu
  rw [hmod]
  exact huk.hasTable

/-! ### A page directory without page tables for user memory -/

theorem setupkvm_noTable (h : Owned lay own kpgdir m) (hk : own kpgdir ≠ .free)
    (hok : setupkvm lay m = .ok (d, m')) (hd : d ≠ 0) (hva : va < KERNBASE) : ¬ HasTable m' d va := by
  have hout : ∀ k ∈ kmap lay, AvoidsTable (PDX va) (Kmap.first k) (Kmap.last k) := by
    intro k hkm vb hlo hhi
    have hK := (kmap_rows lay k hkm).1.kernel
    have hlt := (kmap_rows lay k hkm).1.lt
    simp only [PDX, NPDENTRIES, KERNBASE, ADDRESSES] at *
    omega
  rw [HasTable, setupkvm_dirWord h hk hok hd hout]
  exact not_present_zero

/-- **A null page-table entry**: one byte copied out to address 0 of a new page directory. -/
theorem copyout_null : ∃ d m, setupkvm smallLayout (emptyMem 2048) = .ok (d, m) ∧ d ≠ 0
    ∧ copyout d m 0 [1] = .error .nullEntry := by
  have h := owned_empty (le_refl 2048)
  have hk : emptyOwn 2048 smallBoot.kpgdir ≠ .free := by rw [empty_dir]; simp
  obtain ⟨d, m, hok, hd, _⟩ := setupkvm_returns h hk (by rw [length_emptyMem]; decide)
  obtain ⟨own', hspace⟩ := space_setupkvm h hk hok hd
  exact ⟨d, m, hok, hd, (copyout_step hspace (by decide) (by decide)).1
    (setupkvm_noTable h hk hok hd (by decide))⟩

end Xv6e.Memory.Copyout
