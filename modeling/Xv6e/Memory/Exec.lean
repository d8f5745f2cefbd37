import Xv6e.Memory.Growproc

/-!
# The memory of `exec`

`exec` builds a new address space and frees the old one when nothing can fail any more; at `bad` it frees the
new one.  What `loaduvm` and `copyout` write goes to user pages of the new page directory; whether they
succeed is up to the program file and the arguments, as is all that is read from the file.

* `exec` — the calls of `vm.c` that `exec` makes, in their order;
* `exec_exact` — a new address space of the right size in place of the old one, or every page given back.
-/

namespace Xv6e.Memory.Exec

open PageTable Ownership AddressSpace Frames FrameCalls
open NewSpaces Growproc

/-- Words for the user page at an address. -/
abbrev PageWrite := ℕ × (ℕ → ℕ)

/-- A program header: whether it can be read, `type == ELF_PROG_LOAD`, its sizes and address, whether
`loaduvm` finds all of the segment in the file, and what it writes. -/
structure Header where
  readable : Bool
  isLoad : Bool
  memsz : ℕ
  filesz : ℕ
  vaddr : ℕ
  loaded : Bool
  data : List PageWrite

/-- A program file and the arguments: whether the ELF header can be read and has its magic number, the program
headers, whether `copyout` can write the arguments, and what it writes. -/
structure Image where
  readable : Bool
  magic : Bool
  headers : List Header
  pushed : Bool
  args : List PageWrite

/-- A write to the user page that a page directory maps at an address. -/
def writePage (d : ℕ) (m : Mem) (w : PageWrite) : Mem :=
  if w.1 < KERNBASE ∧ Present (pteAt m d w.1) then
    { m with word := fun page i => if page = frameAt m d w.1 then w.2 i else m.word page i }
  else m

def clearpteu (m : Mem) (pgdir uva : ℕ) : Except Stop Mem :=
  match walkpgdir m pgdir uva false with
  | (none, _) => .error .clearpteu
  | (some (pgtab, i), m) => .ok (m.setWord pgtab i (m.word pgtab i - (m.word pgtab i &&& PTE_U)))

/-- One segment of the program: the size after it, or `none` for `goto bad`. -/
def loadSegment (lay : Layout) (pgdir : ℕ) (ph : Header) (sz : ℕ) (m : Mem) : Except Stop (Option ℕ × Mem) :=
  if ph.memsz < ph.filesz then .ok (none, m)
  else if (ph.vaddr + ph.memsz) % ADDRESSES < ph.vaddr then .ok (none, m)
  else do
    let (sz, m) ← allocuvm lay m pgdir sz ((ph.vaddr + ph.memsz) % ADDRESSES)
    if sz = 0 then .ok (none, m)
    else if ph.vaddr % PGSIZE ≠ 0 then .ok (none, m)
    else .ok (if ph.loaded then some sz else none, ph.data.foldl (writePage pgdir) m)

/-- The loop of `exec` over program headers. -/
def loadHeaders (lay : Layout) (pgdir : ℕ) : List Header → ℕ → Mem → Except Stop (Option ℕ × Mem)
  | [], sz, m => .ok (some sz, m)
  | ph :: rest, sz, m =>
    if ph.readable = false then .ok (none, m)
    else if ph.isLoad = false then loadHeaders lay pgdir rest sz m
    else do
      let (r, m) ← loadSegment lay pgdir ph sz m
      match r with
      | none => .ok (none, m)
      | some sz => loadHeaders lay pgdir rest sz m

/-- `exec` from the stack on, when the program has been loaded up to `sz`. -/
def pushStack (lay : Layout) (pgdir sz : ℕ) (im : Image) (m : Mem) : Except Stop (Option ℕ × Mem) := do
  let (sz, m) ← allocuvm lay m pgdir (PGROUNDUP sz) ((PGROUNDUP sz + 2 * PGSIZE) % ADDRESSES)
  if sz = 0 then .ok (none, m)
  else
    let m ← clearpteu m pgdir (sz - 2 * PGSIZE)
    let m := im.args.foldl (writePage pgdir) m
    if im.pushed then .ok (some sz, m) else .ok (none, m)

/-- All that `exec` puts into the new page directory. -/
def build (lay : Layout) (pgdir : ℕ) (im : Image) (m : Mem) : Except Stop (Option ℕ × Mem) := do
  let (r, m) ← loadHeaders lay pgdir im.headers 0 m
  match r with
  | none => .ok (none, m)
  | some sz => pushStack lay pgdir sz im m

/-- The end of `exec`: the old address space goes, or at `bad` the new one. -/
def conclude (lay : Layout) (oldpgdir pgdir : ℕ) (r : Option ℕ) (m : Mem) :
    Except Stop (Option (ℕ × ℕ) × Mem) :=
  match r with
  | none => do
    let m ← freevm lay m pgdir
    .ok (none, m)
  | some sz => do
    let m ← freevm lay m oldpgdir
    .ok (some (pgdir, sz), m)

/-- `exec` in a process with page directory `oldpgdir`: the new page directory and size, or `none` for the
return value -1. -/
def exec (lay : Layout) (m : Mem) (oldpgdir : ℕ) (im : Image) : Except Stop (Option (ℕ × ℕ) × Mem) :=
  if im.readable = false ∨ im.magic = false then .ok (none, m)
  else do
    let (pgdir, m) ← setupkvm lay m
    if pgdir = 0 then .ok (none, m)
    else
      let (r, m) ← build lay pgdir im m
      conclude lay oldpgdir pgdir r m

variable {lay : Layout} {own own' own'' : ℕ → Owner} {kpgdir d sz : ℕ} {m m' m'' : Mem}

/-! ### Writes -/

theorem made_write (h : Exact lay own kpgdir m) (hm : Made lay kpgdir d own m own' m') {v : ℕ}
    (hof : dirOf (own' v) = some d) (hexact : Exact lay own' kpgdir m'')
    (hpte : ∀ e va, own' e = .dir → va < ADDRESSES → e ≠ d → pteAt m'' e va = pteAt m' e va)
    (hword : ∀ u, u ≠ v → m''.word u = m'.word u) : Made lay kpgdir d own m own' m'' := by
  refine ⟨hexact, hm.free, hm.dir, hm.gains, fun e va he hva => ?_, fun u hfu hpu => ?_⟩
  · have hed : e ≠ d := fun hed => by
      rw [hed, hm.free] at he
      cases he
    rw [hpte e va (by rw [hm.keep (by simp [he]), he]) hva hed, hm.pte e va he hva]
  · have huv : u ≠ v := fun huv => by
      rw [← huv, hm.keep hfu] at hof
      exact dirOf_ne_of_free h hm.free u hof
    rw [hword u huv, hm.words u hfu hpu]

theorem made_writePage (h : Exact lay own kpgdir m) (hm : Made lay kpgdir d own m own' m') (w : PageWrite) :
    Made lay kpgdir d own m own' (writePage d m' w) ∧ ∀ va, pteAt (writePage d m' w) d va
      = pteAt m' d va := by
  rw [writePage]
  split_ifs with hw
  · have hown : own' (frameAt m' d w.1) = .user d (w.1 / PGSIZE) := hm.exact.user d w.1 hm.dir hw.1 hw.2
    have hword : ∀ u, u ≠ frameAt m' d w.1 → (fun i => if u = frameAt m' d w.1 then w.2 i else m'.word u i)
        = m'.word u :=
      fun u hu => funext fun i => if_neg hu
    obtain ⟨h', hpte⟩ := hm.exact.write (v := frameAt m' d w.1)
      (k := { m' with word := fun page i => if page = frameAt m' d w.1 then w.2 i else m'.word page i })
      (by rw [hown]; rfl) rfl hword
    exact ⟨made_write h hm (by rw [hown]; rfl) h' (fun e va he _ _ => hpte e va he) hword,
      fun va => hpte d va hm.dir⟩
  · exact ⟨hm, fun _ => rfl⟩

theorem made_writePages (h : Exact lay own kpgdir m) (ws : List PageWrite)
    (hm : Made lay kpgdir d own m own' m') : Made lay kpgdir d own m own' (ws.foldl (writePage d) m')
      ∧ ∀ va, pteAt (ws.foldl (writePage d) m') d va = pteAt m' d va := by
  induction ws generalizing m' with
  | nil => exact ⟨hm, fun _ => rfl⟩
  | cons w ws ih =>
    obtain ⟨hm₁, hpte₁⟩ := made_writePage h hm w
    obtain ⟨hm₂, hpte₂⟩ := ih hm₁
    exact ⟨hm₂, fun va => (hpte₂ va).trans (hpte₁ va)⟩

theorem and_user (pte : ℕ) : pte &&& PTE_U = pte / 4 % 2 * 4 := by
  have hand := Nat.and_two_pow pte 2
  rw [Nat.testBit_eq_decide_div_mod_eq] at hand
  rcases Nat.mod_two_eq_zero_or_one (pte / 4) with hz | hz
  · simpa [hz, PTE_U] using hand
  · simpa [hz, PTE_U] using hand

theorem clear_user (pte : ℕ) :
    (Present (pte - (pte &&& PTE_U)) ↔ Present pte) ∧ PTE_ADDR (pte - (pte &&& PTE_U)) = PTE_ADDR pte := by
  rw [and_user, present_iff, present_iff, PTE_ADDR, PTE_ADDR]
  simp only [PGSIZE]
  omega

theorem clearpteu_made (h : Exact lay own kpgdir m) (hm : Made lay kpgdir d own m own' m') {u : ℕ}
    (hu : u < KERNBASE) (hp : Present (pteAt m' d u)) :
    ∃ m'', clearpteu m' d u = .ok m'' ∧ Made lay kpgdir d own m own' m''
      ∧ ∀ va < ADDRESSES, Present (pteAt m'' d va) ↔ Present (pteAt m' d va) := by
  have hlt : u < ADDRESSES := lt_trans hu (by decide)
  rcases walkpgdir_noalloc hm.exact.toOwned hm.dir u with ⟨_, hz⟩ | ⟨t, hwalk, ht, hw, hentry⟩
  · rw [hz] at hp
    exact absurd hp not_present_zero
  obtain ⟨hpres, haddr⟩ := clear_user (pteAt m' d u)
  have hpte := fun e va he hva =>
    hm.exact.pteAt_setWord (pteAt m' d u - (pteAt m' d u &&& PTE_U)) ht hw hlt (e := e) (b := va) he hva
  have hdt : ∀ e, own' e = .dir → e ≠ t := fun e he het => by
    rw [het, ht] at he
    cases he
  -- entries keep their presence and their page
  have hsame : ∀ e va, own' e = .dir → va < ADDRESSES →
      (Present (pteAt (m'.setWord t (PTX u) (pteAt m' d u - (pteAt m' d u &&& PTE_U))) e va)
        ↔ Present (pteAt m' e va))
      ∧ frameAt (m'.setWord t (PTX u) (pteAt m' d u - (pteAt m' d u &&& PTE_U))) e va = frameAt m' e va := by
    intro e va he hva
    rw [frameAt, hpte e va he hva, frameAt]
    split_ifs with hhere
    · have hpage : pteAt m' e va = pteAt m' d u := by rw [hhere.1, ← pteAt_page, hhere.2, pteAt_page]
      rw [hpage, haddr]
      exact ⟨hpres, rfl⟩
    · exact ⟨Iff.rfl, rfl⟩
  have hexact : Exact lay own' kpgdir (m'.setWord t (PTX u) (pteAt m' d u - (pteAt m' d u &&& PTE_U))) := by
    refine ⟨hm.exact.setPte ht hw hlt (fun _ hpw => ?_) (fun _ hheap => absurd hheap.1 ?_), hm.exact.listed,
      fun v e i hv => ?_, fun v e p hv => ?_⟩
    · rw [haddr]
      exact hm.exact.user d u hm.dir hu (hpres.mp hpw)
    · simp only [KERNBASE, PHYSTOP] at *
      omega
    · obtain ⟨he, hi, hword⟩ := hm.exact.linked v e i hv
      exact ⟨he, hi, by rw [setWord_word_of_ne _ _ _ (hdt e he), hword]⟩
    · obtain ⟨he, hpk, hpv, hframe⟩ := hm.exact.mapped v e p hv
      obtain ⟨h1, h2⟩ := hsame e (p * PGSIZE) he (lt_trans hpk (by decide))
      exact ⟨he, hpk, h1.mpr hpv, by rw [h2, hframe]⟩
  refine ⟨m'.setWord t (PTX u) (pteAt m' d u - (pteAt m' d u &&& PTE_U)), ?_,
    made_write h hm (v := t) (by rw [ht]; rfl) hexact (fun e va he hva hed => ?_)
    (fun u hut => setWord_word_of_ne _ _ _ hut), fun va hva => (hsame d va hm.dir hva).1⟩
  · rw [clearpteu, hwalk]
    simp only [hentry]
  · rw [hpte e va he hva, if_neg fun hc => hed hc.1]

/-! ### The calls of `exec` -/

theorem PGROUNDUP_PGROUNDUP {sz : ℕ} (h : sz < KERNBASE) : PGROUNDUP (PGROUNDUP sz) = PGROUNDUP sz := by
  simp only [PGROUNDUP, PGROUNDDOWN, PGSIZE, ADDRESSES, KERNBASE] at *
  omega

theorem allocuvm_sized (hend : KERNBASE < lay.kernelEnd) {oldsz z : ℕ}
    (hold : z < KERNBASE → oldsz < KERNBASE) (h : Exact lay own kpgdir m) (hd : own d = .dir)
    (hs : Sized m d oldsz) : ∃ sz own' m', allocuvm lay m d oldsz z = .ok (sz, m')
      ∧ Grown lay kpgdir d (fun va => PGROUNDUP oldsz ≤ va) own m own' m'
      ∧ (sz ≠ 0 → sz = max oldsz z ∧ sz < KERNBASE ∧ Sized m' d sz) := by
  by_cases hbig : KERNBASE ≤ z
  · refine ⟨0, own, m, by rw [allocuvm, if_pos hbig], Grown.refl h, fun hne => absurd rfl hne⟩
  have hnew := not_le.mp hbig
  by_cases hlt : z < oldsz
  · refine ⟨oldsz, own, m, by rw [allocuvm, if_neg hbig, if_pos hlt], Grown.refl h, fun _ => ?_⟩
    exact ⟨(max_eq_left (le_of_lt hlt)).symm, hold hnew, hs⟩
  · have hle := not_lt.mp hlt
    obtain ⟨sz, own', m', halloc, ha⟩ := allocuvm_exact hend hle hnew h hd fun va hva hge => hs.absent hva hge
    refine ⟨sz, own', m', halloc, ha.1.mono fun va hva => hva.1, fun hne => ?_⟩
    rcases ha.2 with ⟨hsz, _⟩ | ⟨hz, _⟩
    · have hright := grown_right (n := (z : ℤ) - oldsz) h hd hs hle hnew (by omega) (by omega) ha
      rw [if_neg hne, if_neg hne] at hright
      refine ⟨by rw [hsz, max_eq_right hle], hsz ▸ hnew, ?_⟩
      rcases hright with ⟨_, _, hsized, _⟩ | ⟨hret, _⟩
      · exact hsized
      · cases hret
    · exact absurd hz hne

/-- A step in the making of an address space: it has the pages below its size, if the step has not failed. -/
def Built (lay : Layout) (kpgdir d : ℕ) (own : ℕ → Owner) (m : Mem)
    (x : Except Stop (Option ℕ × Mem)) : Prop :=
  ∃ r own' m', x = .ok (r, m') ∧ Made lay kpgdir d own m own' m'
    ∧ ∀ sz, r = some sz → sz < KERNBASE ∧ Sized m' d sz

theorem built_none (hm : Made lay kpgdir d own m own' m') : Built lay kpgdir d own m (.ok (none, m')) :=
  ⟨none, own', m', rfl, hm, by simp⟩

theorem built_some (hm : Made lay kpgdir d own m own' m') (hsz : sz < KERNBASE) (hs : Sized m' d sz) :
    Built lay kpgdir d own m (.ok (some sz, m')) := by
  refine ⟨some sz, own', m', rfl, hm, fun sz' hsz' => ?_⟩
  rw [← Option.some.inj hsz']
  exact ⟨hsz, hs⟩

theorem built_bind {x : Except Stop (Option ℕ × Mem)} {f : ℕ → Mem → Except Stop (Option ℕ × Mem)}
    (hx : Built lay kpgdir d own m x) (hf : ∀ sz own' m', sz < KERNBASE → Made lay kpgdir d own m own' m'
      → Sized m' d sz → Built lay kpgdir d own m (f sz m')) :
    Built lay kpgdir d own m (x >>= fun y => match y.1 with
      | none => .ok (none, y.2)
      | some sz => f sz y.2) := by
  obtain ⟨r, own', m', rfl, hm, hsome⟩ := hx
  cases r with
  | none => exact built_none hm
  | some sz =>
    obtain ⟨hsz, hs⟩ := hsome sz rfl
    exact hf sz own' m' hsz hm hs

section

variable (hend : KERNBASE < lay.kernelEnd)
include hend

theorem loadSegment_exact (h : Exact lay own kpgdir m) (ph : Header) (hsz : sz < KERNBASE)
    (hm : Made lay kpgdir d own m own' m') (hs : Sized m' d sz) :
    Built lay kpgdir d own m (loadSegment lay d ph sz m') := by
  rw [loadSegment]
  by_cases hmemsz : ph.memsz < ph.filesz
  · rw [if_pos hmemsz]
    exact built_none hm
  by_cases hwrap : (ph.vaddr + ph.memsz) % ADDRESSES < ph.vaddr
  · rw [if_neg hmemsz, if_pos hwrap]
    exact built_none hm
  obtain ⟨sz₁, own₁, m₁, halloc, hg, hok⟩ := allocuvm_sized hend (z := (ph.vaddr + ph.memsz) % ADDRESSES)
    (fun _ => hsz) hm.exact hm.dir hs
  have hm₁ := hm.grow hg
  rw [if_neg hmemsz, if_neg hwrap, halloc]
  show Built lay kpgdir d own m
    (if sz₁ = 0 then .ok (none, m₁) else if ph.vaddr % PGSIZE ≠ 0 then .ok (none, m₁)
    else .ok (if ph.loaded then some sz₁ else none, ph.data.foldl (writePage d) m₁))
  split_ifs with hz halign hloaded
  · exact built_none hm₁
  · exact built_none hm₁
  · obtain ⟨_, hlt, hsized⟩ := hok hz
    obtain ⟨hm₂, hpte⟩ := made_writePages h ph.data hm₁
    refine built_some hm₂ hlt fun va hva => ?_
    rw [hpte]
    exact hsized va hva
  · exact built_none (made_writePages h ph.data hm₁).1

theorem loadHeaders_exact (h : Exact lay own kpgdir m) (phs : List Header)
    (hsz : sz < KERNBASE) (hm : Made lay kpgdir d own m own' m') (hs : Sized m' d sz) :
    Built lay kpgdir d own m (loadHeaders lay d phs sz m') := by
  induction phs generalizing sz own' m' with
  | nil => exact built_some hm hsz hs
  | cons ph rest ih =>
    rw [loadHeaders]
    split_ifs with hread hload
    · exact built_none hm
    · exact ih hsz hm hs
    · exact built_bind (loadSegment_exact hend h ph hsz hm hs) fun sz own' m' hsz hm hs => ih hsz hm hs

theorem pushStack_exact (h : Exact lay own kpgdir m) (im : Image) (hsz : sz < KERNBASE)
    (hm : Made lay kpgdir d own m own' m') (hs : Sized m' d sz) :
    Built lay kpgdir d own m (pushStack lay d sz im m') := by
  have hup := PGROUNDUP_ge hsz
  have hsum : (PGROUNDUP sz + 2 * PGSIZE) % ADDRESSES = PGROUNDUP sz + 2 * PGSIZE := by
    simp only [PGSIZE, ADDRESSES, KERNBASE] at hup hsz ⊢
    omega
  have hs' : Sized m' d (PGROUNDUP sz) := fun va hva => by
    rw [PGROUNDUP_PGROUNDUP hsz]
    exact hs va hva
  obtain ⟨sz₁, own₁, m₁, halloc, hg, hok⟩ := allocuvm_sized hend (z := PGROUNDUP sz + 2 * PGSIZE)
    (fun hlt => lt_of_le_of_lt (Nat.le_add_right _ _) hlt) hm.exact hm.dir hs'
  have hm₁ := hm.grow hg
  rw [pushStack, hsum, halloc]
  show Built lay kpgdir d own m
      (if sz₁ = 0 then .ok (none, m₁) else clearpteu m₁ d (sz₁ - 2 * PGSIZE) >>= fun m =>
    if im.pushed then .ok (some sz₁, im.args.foldl (writePage d) m)
      else .ok (none, im.args.foldl (writePage d) m))
  by_cases hz : sz₁ = 0
  · rw [if_pos hz]
    exact built_none hm₁
  obtain ⟨hmax, hlt, hsized⟩ := hok hz
  rw [max_eq_right (Nat.le_add_right _ _)] at hmax
  have hguard : sz₁ - 2 * PGSIZE < sz₁ := by
    simp only [PGSIZE] at hmax ⊢
    omega
  obtain ⟨m₂, hclear, hm₂, hpres⟩ := clearpteu_made h hm₁ (u := sz₁ - 2 * PGSIZE) (lt_trans hguard hlt)
    ((hsized _ (lt_trans hguard hlt)).mpr (lt_of_lt_of_le hguard (PGROUNDUP_ge hlt).1))
  obtain ⟨hm₃, hpte⟩ := made_writePages h im.args hm₂
  rw [if_neg hz, hclear]
  show Built lay kpgdir d own m (if im.pushed then .ok (some sz₁, im.args.foldl (writePage d) m₂)
    else .ok (none, im.args.foldl (writePage d) m₂))
  split_ifs with hpushed
  · refine built_some hm₃ hlt fun va hva => ?_
    rw [hpte, hpres va (lt_trans hva (by decide))]
    exact hsized va hva
  · exact built_none hm₃

theorem build_exact (h : Exact lay own kpgdir m) (im : Image) (hm : Made lay kpgdir d own m own' m')
    (hs : Sized m' d 0) : Built lay kpgdir d own m (build lay d im m') :=
  built_bind (loadHeaders_exact hend h im.headers (by decide) hm hs)
    fun _ _ _ hsz hm hs => pushStack_exact hend h im hsz hm hs

/-- How `exec` ends: the new address space is in place and the old one gone, or every page has been given
back. -/
def Replaced (lay : Layout) (kpgdir oldpgdir : ℕ) (own : ℕ → Owner) (m : Mem) (r : Option (ℕ × ℕ))
    (m' : Mem) : Prop :=
  r = none ∧ Unchanged lay kpgdir own m m'
  ∨ ∃ d sz own₁ m₁, r = some (d, sz) ∧ sz < KERNBASE ∧ Made lay kpgdir d own m own₁ m₁ ∧ Sized m₁ d sz
    ∧ freevm lay m₁ oldpgdir = .ok m'

/-- **`exec`** puts a new address space in place of the old one, or gives back every page it has taken. -/
theorem exec_exact {oldpgdir : ℕ} (h : Exact lay own kpgdir m) (hk : own kpgdir ≠ .free)
    (hold : own oldpgdir = .dir) (im : Image) :
    ∃ r m', exec lay m oldpgdir im = .ok (r, m') ∧ Replaced lay kpgdir oldpgdir own m r m' := by
  rw [exec]
  split_ifs with hbad
  · exact ⟨none, m, rfl, Or.inl ⟨rfl, unchanged_refl h⟩⟩
  obtain ⟨d, m₁, hset, ⟨hd, hun⟩ | ⟨hd, own₁, hm, hempty⟩⟩ := setupkvm_exact hend h hk
  · refine ⟨none, m₁, ?_, Or.inl ⟨rfl, hun⟩⟩
    rw [hset]
    exact if_pos hd
  have hs : Sized m₁ d 0 := fun va hva => iff_of_false (hempty va hva) (Nat.not_lt_zero va)
  obtain ⟨r, own₂, m₂, hbuild, hm₂, hok⟩ := build_exact hend h im hm hs
  rw [hset]
  show ∃ r m',
    (if d = 0 then .ok (none, m₁) else build lay d im m₁ >>= fun x => conclude lay oldpgdir d x.1 x.2)
    = .ok (r, m') ∧ Replaced lay kpgdir oldpgdir own m r m'
  rw [if_neg hd, hbuild]
  cases r with
  | none =>
    obtain ⟨m₃, hfree, hun⟩ := unmade hend h hm₂
    refine ⟨none, m₃, ?_, Or.inl ⟨rfl, hun⟩⟩
    show (freevm lay m₂ d >>= fun m => .ok (none, m)) = _
    rw [hfree]
    rfl
  | some sz =>
    obtain ⟨hsz, hs₂⟩ := hok sz rfl
    have hold₂ : own₂ oldpgdir = .dir := by rw [hm₂.keep (by simp [hold]), hold]
    obtain ⟨m₃, hfree, _⟩ := freevm_exact hend hm₂.exact hold₂
    refine ⟨some (d, sz), m₃, ?_, Or.inr ⟨d, sz, own₂, m₂, rfl, hsz, hm₂, hs₂, hfree⟩⟩
    show (freevm lay m₂ oldpgdir >>= fun m => .ok (some (d, sz), m)) = _
    rw [hfree]
    rfl

end

end Xv6e.Memory.Exec
