import Xv6e.Memory.Exec

/-!
# The memory of processes and pipes

Processes fork, grow and shrink, `exec` and are waited for, and pipes are made and closed, in any order; each
of these may run out of memory at any page it asks for.  `Uses s v u` reads off the free list, the page tables
and what processes and pipes hold that page `v` has use `u`.

* `step`, `system` — the runs;
* `Inv` — page directories are those of the kernel and of processes, and stacks and pipes are held once;
* `uses_unique`, `exists_uses` — then every page of the pool has one use;
* `Inv.adjust`, `Inv.make`, `Inv.free`, `Inv.exchange`, `Inv.take`, `Inv.give` — the changes that the calls
  make.
-/

namespace Xv6e.Memory.Processes

open Library.Transition
open PageTable Ownership AddressSpace Frames FrameCalls
open NewSpaces Growproc Exec
open Function (update update_self update_of_ne)

/-! ### The model -/

/-- The user memory of a process: `p->pgdir` and `p->sz`. -/
structure Space where
  pgdir : ℕ
  sz : ℕ
  deriving DecidableEq

/-- Memory, the kernel's page directory, and what processes and pipes hold. -/
structure State where
  mem : Mem
  kpgdir : ℕ
  space : ℕ → Option Space
  kstack : ℕ → Option ℕ
  pipes : List ℕ

inductive Event where
  /-- `p` forks a child in slot `q`. -/
  | fork (p q : ℕ)
  | growproc (p : ℕ) (n : ℤ)
  | exec (p : ℕ) (im : Image)
  /-- `wait` frees the stack and the memory of `q`. -/
  | wait (q : ℕ)
  | pipealloc
  /-- The second `pipeclose` of a pipe. -/
  | pipeclose (v : ℕ)

/-- `fork`: stack and page directory of the child, or `none` when memory runs out. -/
def fork (lay : Layout) (m : Mem) (parent : Space) : Except Stop (Option (ℕ × ℕ) × Mem) :=
  let (kstack, m) := kalloc m
  if kstack = 0 then .ok (none, m)
  else do
    let (pgdir, m) ← copyuvm lay m parent.pgdir parent.sz
    if pgdir = 0 then
      let m ← kfree lay kstack m
      .ok (none, m)
    else .ok (some (kstack, pgdir), m)

/-- What `wait` does with the memory of a zombie. -/
def reap (lay : Layout) (m : Mem) (kstack pgdir : ℕ) : Except Stop Mem := do
  let m ← kfree lay kstack m
  freevm lay m pgdir

/-- The step of an event; there is none when the kernel panics. -/
def step (lay : Layout) (s : State) : Event → Option State
  | .fork p q =>
    match s.space p, s.space q, s.kstack q with
    | some parent, none, none =>
      match fork lay s.mem parent with
      | .ok (none, m) => some { s with mem := m }
      | .ok (some (kstack, pgdir), m) =>
        some { s with
          mem := m
          space := update s.space q (some ⟨pgdir, parent.sz⟩)
          kstack := update s.kstack q (some kstack) }
      | .error _ => none
    | _, _, _ => none
  | .growproc p n =>
    match s.space p with
    | some sp =>
      if -(2 ^ 31) ≤ n ∧ n < 2 ^ 31 then
        match growproc lay s.mem sp.pgdir sp.sz n with
        | .ok (_, sz, m) => some { s with mem := m, space := update s.space p (some ⟨sp.pgdir, sz⟩) }
        | .error _ => none
      else none
    | none => none
  | .exec p im =>
    match s.space p with
    | some sp =>
      match exec lay s.mem sp.pgdir im with
      | .ok (none, m) => some { s with mem := m }
      | .ok (some (pgdir, sz), m) => some { s with mem := m, space := update s.space p (some ⟨pgdir, sz⟩) }
      | .error _ => none
    | none => none
  | .wait q =>
    match s.space q, s.kstack q with
    | some sp, some kstack =>
      match reap lay s.mem kstack sp.pgdir with
      | .ok m =>
        some { s with mem := m, space := update s.space q none, kstack := update s.kstack q none }
      | .error _ => none
    | _, _ => none
  | .pipealloc =>
    let (v, m) := kalloc s.mem
    if v = 0 then some { s with mem := m } else some { s with mem := m, pipes := v :: s.pipes }
  | .pipeclose v =>
    if v ∈ s.pipes then
      match kfree lay v s.mem with
      | .ok m => some { s with mem := m, pipes := s.pipes.erase v }
      | .error _ => none
    else none

/-! ### The uses of pages -/

/-- Page directories: the kernel's and those of processes. -/
def IsDir (s : State) (v : ℕ) : Prop := v = s.kpgdir ∨ ∃ p sp, s.space p = some sp ∧ sp.pgdir = v

def Held (s : State) (v : ℕ) : Prop := (∃ p, s.kstack p = some v) ∨ v ∈ s.pipes

inductive Use where
  /-- On the free list. -/
  | free
  /-- The kernel's page directory. -/
  | kernelDir
  /-- The page directory of process `p`. -/
  | dir (p : ℕ)
  /-- The page table of entry `i` of page directory `d`. -/
  | table (d i : ℕ)
  /-- User page `n` of page directory `d`. -/
  | user (d n : ℕ)
  /-- The kernel stack of process `p`. -/
  | stack (p : ℕ)
  | pipe

def Uses (s : State) (v : ℕ) : Use → Prop
  | .free => v ∈ s.mem.freelist
  | .kernelDir => v = s.kpgdir
  | .dir p => ∃ sp, s.space p = some sp ∧ sp.pgdir = v
  | .table d i => IsDir s d ∧ i < NPDENTRIES ∧ Present (s.mem.word d i) ∧ P2V (PTE_ADDR (s.mem.word d i)) = v
  | .user d n => IsDir s d ∧ n * PGSIZE < KERNBASE ∧ Present (pteAt s.mem d (n * PGSIZE))
      ∧ frameAt s.mem d (n * PGSIZE) = v
  | .stack p => s.kstack p = some v
  | .pipe => v ∈ s.pipes

/-- No user page is mapped above the size. -/
def Bounded (m : Mem) (sp : Space) : Prop :=
  sp.sz < KERNBASE ∧ ∀ va < KERNBASE, PGROUNDUP sp.sz ≤ va → ¬ Present (pteAt m sp.pgdir va)

/-- Page directories are those of the kernel and of processes, all different; no user page lies above the
size. -/
structure Spaces (lay : Layout) (own : ℕ → Owner) (s : State) : Prop where
  exact : Exact lay own s.kpgdir s.mem
  dirs : ∀ v, own v = .dir ↔ IsDir s v
  kernel : ∀ p sp, s.space p = some sp → sp.pgdir ≠ s.kpgdir
  apart : ∀ p q a b, s.space p = some a → s.space q = some b → a.pgdir = b.pgdir → p = q
  bounded : ∀ p sp, s.space p = some sp → Bounded s.mem sp

/-- Stacks and pipes are pages of the allocator that are held once. -/
structure Holders (lay : Layout) (own : ℕ → Owner) (s : State) : Prop where
  other : ∀ v, Held s v → own v = .other ∧ ValidPage lay v
  stacked : ∀ p q v, s.kstack p = some v → s.kstack q = some v → p = q
  apart : ∀ p v, s.kstack p = some v → v ∉ s.pipes
  pipes : s.pipes.Nodup

/-- Pages that the allocator has, or has given to page directories. -/
def Pooled : Owner → Prop
  | .free => True
  | .dir => True
  | .table _ _ => True
  | .user _ _ => True
  | _ => False

/-- The invariant, with the pages of the pool. -/
structure Inv (lay : Layout) (pool : ℕ → Prop) (own : ℕ → Owner) (s : State) : Prop where
  spaces : Spaces lay own s
  holders : Holders lay own s
  pool : ∀ v, pool v ↔ Pooled (own v) ∨ Held s v

/-- The machine with its first process: the user memory of process 0 is mapped below its size, and the pool is
what is in use. -/
def Boot (lay : Layout) (pool : ℕ → Prop) (s : State) : Prop :=
  ∃ own d sz v, Exact lay own s.kpgdir s.mem ∧ (∀ e, own e = .dir ↔ e = s.kpgdir ∨ e = d) ∧ d ≠ s.kpgdir
    ∧ sz < KERNBASE ∧ Sized s.mem d sz ∧ s.space = update (fun _ => none) 0 (some ⟨d, sz⟩)
    ∧ own v = .other ∧ ValidPage lay v ∧ s.kstack = update (fun _ => none) 0 (some v) ∧ s.pipes = []
    ∧ ∀ u, pool u ↔ Pooled (own u) ∨ u = v

def system (lay : Layout) (pool : ℕ → Prop) : System State Event where
  init := Boot lay pool
  step := step lay

variable {lay : Layout} {pool : ℕ → Prop} {own own' : ℕ → Owner} {s : State} {m m' : Mem} {d p q : ℕ}

/-! ### One use each -/

def Use.owner : Use → Owner
  | .free => .free
  | .kernelDir => .dir
  | .dir _ => .dir
  | .table d i => .table d i
  | .user d n => .user d n
  | .stack _ => .other
  | .pipe => .other

variable {v kpgdir r : ℕ} {u : Use} {sp : Space} {rest : List ℕ}

theorem owner_of_uses (h : Inv lay pool own s) (hu : Uses s v u) : own v = u.owner := by
  cases u with
  | free => exact h.spaces.exact.free v hu
  | kernelDir => exact (h.spaces.dirs v).mpr (Or.inl hu)
  | dir p =>
    obtain ⟨sp, hsp, hv⟩ := hu
    exact (h.spaces.dirs v).mpr (Or.inr ⟨p, sp, hsp, hv⟩)
  | table d i =>
    obtain ⟨hd, hi, hp, hv⟩ := hu
    rw [← hv]
    exact (h.spaces.exact.table_of_present ((h.spaces.dirs d).mpr hd) hi hp).1
  | user d n =>
    obtain ⟨hd, hn, hp, hv⟩ := hu
    have hown := h.spaces.exact.user d _ ((h.spaces.dirs d).mpr hd) hn hp
    rw [Nat.mul_div_cancel n (by decide)] at hown
    rw [← hv]
    exact hown
  | stack p => exact (h.holders.other v (Or.inl ⟨p, hu⟩)).1
  | pipe => exact (h.holders.other v (Or.inr hu)).1

theorem uses_unique (h : Inv lay pool own s) {u' : Use} (hu : Uses s v u) (hu' : Uses s v u') : u = u' := by
  have howner : u.owner = u'.owner := (owner_of_uses h hu).symm.trans (owner_of_uses h hu')
  cases u <;> cases u' <;> try first | cases howner; rfl | cases howner
  case kernelDir.dir p =>
    obtain ⟨sp, hsp, hv⟩ := hu'
    exact absurd (hv.trans hu) (h.spaces.kernel p sp hsp)
  case dir.kernelDir p =>
    obtain ⟨sp, hsp, hv⟩ := hu
    exact absurd (hv.trans hu') (h.spaces.kernel p sp hsp)
  case dir.dir p q =>
    obtain ⟨a, ha, hva⟩ := hu
    obtain ⟨b, hb, hvb⟩ := hu'
    rw [h.spaces.apart p q a b ha hb (hva.trans hvb.symm)]
  case stack.stack p q => rw [h.holders.stacked p q v hu hu']
  case stack.pipe p => exact absurd hu' (h.holders.apart p v hu)
  case pipe.stack p => exact absurd hu (h.holders.apart p v hu')

theorem exists_uses (h : Inv lay pool own s) (hv : pool v) : ∃ u, Uses s v u := by
  rcases (h.pool v).mp hv with hp | ⟨p, hp⟩ | hp
  · cases hown : own v with
    | free => exact ⟨.free, h.spaces.exact.listed v hown⟩
    | dir =>
      rcases (h.spaces.dirs v).mp hown with hk | ⟨p, sp, hsp, hv⟩
      · exact ⟨.kernelDir, hk⟩
      · exact ⟨.dir p, sp, hsp, hv⟩
    | table d i =>
      obtain ⟨hd, hi, hw⟩ := h.spaces.exact.linked v d i hown
      have hvalid := h.spaces.exact.valid v (by simp [hown])
      refine ⟨.table d i, (h.spaces.dirs d).mp hd, hi, ?_, ?_⟩
      · rw [hw]
        exact present_tableEntry v
      · rw [hw]
        exact frame_tableEntry hvalid
    | user d n =>
      obtain ⟨hd, hrest⟩ := h.spaces.exact.mapped v d n hown
      exact ⟨.user d n, (h.spaces.dirs d).mp hd, hrest⟩
    | heap n =>
      rw [hown] at hp
      exact hp.elim
    | metadata =>
      rw [hown] at hp
      exact hp.elim
    | other =>
      rw [hown] at hp
      exact hp.elim
  · exact ⟨.stack p, hp⟩
  · exact ⟨.pipe, hp⟩

theorem pool_of_uses (h : Inv lay pool own s) (hu : Uses s v u) : pool v := by
  rw [h.pool]
  have hown := owner_of_uses h hu
  cases u with
  | stack p => exact Or.inr (Or.inl ⟨p, hu⟩)
  | pipe => exact Or.inr (Or.inr hu)
  | _ =>
    left
    rw [hown]
    trivial

/-! ### Pages that change hands inside the pool -/

/-- Pages change hands between the allocator and page directories only. -/
def Trade (own own' : ℕ → Owner) : Prop := ∀ v, own' v = own v ∨ Pooled (own v) ∧ Pooled (own' v)

theorem Trade.pooled (h : Trade own own') (v : ℕ) : Pooled (own' v) ↔ Pooled (own v) := by
  rcases h v with hv | ⟨ha, hb⟩
  · rw [hv]
  · exact iff_of_true hb ha

theorem Trade.other (h : Trade own own') (hv : own v = .other) : own' v = .other := by
  rcases h v with hsame | ⟨hp, _⟩
  · rw [hsame, hv]
  · rw [hv] at hp
    exact hp.elim

theorem Trade.trans {own'' : ℕ → Owner} (h : Trade own own') (h' : Trade own' own'') :
    Trade own own'' := fun v => by
  rcases h' v with hv | ⟨hp, hp'⟩
  · rw [hv]
    exact h v
  · exact Or.inr ⟨(h.pooled v).mp hp, hp'⟩

/-- Stacks and pipes are not concerned. -/
theorem Inv.trade {mem : Mem} {space : ℕ → Option Space} (h : Inv lay pool own s) (ht : Trade own own')
    (hs : Spaces lay own' { s with mem := mem, space := space }) :
    Inv lay pool own' { s with mem := mem, space := space } where
  spaces := hs
  holders := ⟨fun v hv => ⟨ht.other (h.holders.other v hv).1, (h.holders.other v hv).2⟩, h.holders.stacked,
    h.holders.apart, h.holders.pipes⟩
  pool v := by
    rw [h.pool, ht.pooled]
    exact Iff.rfl

/-- The address space of one process is adjusted; the others are as before. -/
structure Adjusted (lay : Layout) (kpgdir d : ℕ) (own : ℕ → Owner) (m : Mem) (own' : ℕ → Owner)
    (m' : Mem) : Prop where
  exact : Exact lay own' kpgdir m'
  trade : Trade own own'
  dirs : ∀ v, own' v = .dir ↔ own v = .dir
  pte : ∀ e va, own e = .dir → e ≠ d → va < ADDRESSES → pteAt m' e va = pteAt m e va

theorem adjusted_of_grown {U : ℕ → Prop} (h : Grown lay kpgdir d U own m own' m') :
    Adjusted lay kpgdir d own m own' m' where
  exact := h.exact
  trade v := by
    rcases h.gains v with hv | ⟨hf, ⟨i, hv⟩ | ⟨n, _, hv⟩⟩
    · exact Or.inl hv
    · rw [hf, hv]
      exact Or.inr ⟨trivial, trivial⟩
    · rw [hf, hv]
      exact Or.inr ⟨trivial, trivial⟩
  dirs v := by
    rcases h.gains v with hv | ⟨hf, ⟨i, hv⟩ | ⟨n, _, hv⟩⟩
    · rw [hv]
    · rw [hf, hv]
      exact iff_of_false (by simp) (by simp)
    · rw [hf, hv]
      exact iff_of_false (by simp) (by simp)
  pte e va he hed hva := h.pte e va he hva fun hc => hed hc.1

theorem adjusted_of_shrunk {U : ℕ → Prop} (h : Shrunk lay kpgdir d U own m own' m') :
    Adjusted lay kpgdir d own m own' m' := by
  have hcases : ∀ v, own' v = own v ∨ ∃ n, own v = .user d n ∧ own' v = .free := fun v => by
    by_cases hv : ∃ n, own v = .user d n ∧ U (n * PGSIZE)
    · obtain ⟨n, hn, hU⟩ := hv
      exact Or.inr ⟨n, hn, h.freed v n hn hU⟩
    · exact Or.inl (h.kept v fun n hn hU => hv ⟨n, hn, hU⟩)
  refine ⟨h.exact, fun v => ?_, fun v => ?_, fun e va he hed hva => h.pte e va he hva fun hc => hed hc.1⟩
  · rcases hcases v with hv | ⟨n, hn, hv⟩
    · exact Or.inl hv
    · rw [hn, hv]
      exact Or.inr ⟨trivial, trivial⟩
  · rcases hcases v with hv | ⟨n, hn, hv⟩
    · rw [hv]
    · rw [hn, hv]
      exact iff_of_false (by simp) (by simp)

theorem adjusted_refl (h : Exact lay own kpgdir m) : Adjusted lay kpgdir d own m own m :=
  ⟨h, fun _ => Or.inl rfl, fun _ => Iff.rfl, fun _ _ _ _ _ => rfl⟩

/-! ### The calls -/

/-- The address space of process `p` is replaced by `x`; the other page directories stay. -/
theorem Spaces.replace {x : Option Space} (h : Spaces lay own s) (hexact : Exact lay own' s.kpgdir m')
    (hdirs : ∀ v, own' v = .dir ↔ (∃ sp, x = some sp ∧ sp.pgdir = v)
      ∨ own v = .dir ∧ ∀ sp, s.space p = some sp → sp.pgdir ≠ v)
    (hnew : ∀ sp, x = some sp → sp.pgdir ≠ s.kpgdir ∧ ∀ q a, q ≠ p → s.space q = some a → a.pgdir ≠ sp.pgdir)
    (hpte : ∀ q a va, q ≠ p → s.space q = some a → va < ADDRESSES
    → pteAt m' a.pgdir va = pteAt s.mem a.pgdir va) (hb : ∀ sp, x = some sp → Bounded m' sp) :
    Spaces lay own' { s with mem := m', space := update s.space p x } := by
  -- an address space is the new one, or that of another process
  have hcases : ∀ {q : ℕ} {a : Space}, update s.space p x q = some a →
      q = p ∧ x = some a ∨ q ≠ p ∧ s.space q = some a := fun {q a} hq => by
    obtain ⟨hqp, hq⟩ | ⟨hqp, hq⟩ := update_cases hq
    · exact Or.inl ⟨hqp, hq⟩
    · exact Or.inr ⟨hqp, hq⟩
  refine ⟨hexact, fun v => ?_, fun q a hq => ?_, fun q r a b hq hr hab => ?_, fun q a hq => ?_⟩
  · rw [hdirs, h.dirs]
    constructor
    · rintro (⟨sp, hx, hv⟩ | ⟨hk | ⟨q, a, hq, hv⟩, hother⟩)
      · exact Or.inr ⟨p, sp, (update_self ..).trans hx, hv⟩
      · exact Or.inl hk
      · have hqp : q ≠ p := fun hqp => hother a (hqp ▸ hq) hv
        exact Or.inr ⟨q, a, (update_of_ne hqp ..).trans hq, hv⟩
    · rintro (hk | ⟨q, a, hq, hv⟩)
      · refine Or.inr ⟨Or.inl hk, fun sp hsp hv => h.kernel p sp hsp (hv.trans hk)⟩
      · rcases hcases hq with ⟨_, hx⟩ | ⟨hqp, hq'⟩
        · exact Or.inl ⟨a, hx, hv⟩
        · exact Or.inr ⟨Or.inr ⟨q, a, hq', hv⟩, fun sp hsp hsv =>
            hqp (h.apart q p a sp hq' hsp (hv.trans hsv.symm))⟩
  · rcases hcases hq with ⟨_, hx⟩ | ⟨_, hq'⟩
    · exact (hnew a hx).1
    · exact h.kernel q a hq'
  · rcases hcases hq with ⟨hqp, hx⟩ | ⟨hqp, hq'⟩
    · rcases hcases hr with ⟨hrp, _⟩ | ⟨hrp, hr'⟩
      · rw [hqp, hrp]
      · exact absurd hab.symm ((hnew a hx).2 r b hrp hr')
    · rcases hcases hr with ⟨hrp, hx⟩ | ⟨_, hr'⟩
      · exact absurd hab ((hnew b hx).2 q a hqp hq')
      · exact h.apart q r a b hq' hr' hab
  · rcases hcases hq with ⟨_, hx⟩ | ⟨hqp, hq'⟩
    · exact hb a hx
    · obtain ⟨hsz, habsent⟩ := h.bounded q a hq'
      refine ⟨hsz, fun va hva hge => ?_⟩
      show ¬ Present (pteAt m' a.pgdir va)
      rw [hpte q a va hqp hq' (lt_trans hva (by decide))]
      exact habsent va hva hge

theorem Spaces.dir (h : Spaces lay own s) (hp : s.space p = some sp) : own sp.pgdir = .dir :=
  (h.dirs _).mpr (Or.inr ⟨p, sp, hp, rfl⟩)

theorem Inv.adjust {sz : ℕ} (h : Inv lay pool own s) (hp : s.space p = some sp)
    (ha : Adjusted lay s.kpgdir sp.pgdir own s.mem own' m') (hb : Bounded m' ⟨sp.pgdir, sz⟩) :
    Inv lay pool own' { s with mem := m', space := update s.space p (some ⟨sp.pgdir, sz⟩) } := by
  have hne : ∀ q a, q ≠ p → s.space q = some a → a.pgdir ≠ sp.pgdir := fun q a hqp hq hc =>
    hqp (h.spaces.apart q p a sp hq hp hc)
  refine h.trade ha.trade
    (h.spaces.replace ha.exact (fun v => ?_) (fun sp' hsp' => ?_) (fun q a va hqp hq hva => ?_)
    fun sp' hsp' => by rw [← Option.some.inj hsp']; exact hb)
  · rw [ha.dirs]
    constructor
    · intro hv
      by_cases hvd : sp.pgdir = v
      · exact Or.inl ⟨_, rfl, hvd⟩
      · refine Or.inr ⟨hv, fun sp' hsp' => ?_⟩
        rw [← Option.some.inj (hp.symm.trans hsp')]
        exact hvd
    · rintro (⟨sp', hsp', hv⟩ | ⟨hv, _⟩)
      · rw [← hv, ← Option.some.inj hsp']
        show own sp.pgdir = .dir
        exact h.spaces.dir hp
      · exact hv
  · rw [← Option.some.inj hsp']
    exact ⟨h.spaces.kernel p sp hp, hne⟩
  · exact ha.pte a.pgdir va (h.spaces.dir hq) (hne q a hqp hq) hva

theorem made_dirs (hm : Made lay kpgdir d own m own' m') (v : ℕ) : own' v = .dir ↔ v = d ∨ own v = .dir := by
  by_cases hvd : v = d
  · rw [hvd]
    exact iff_of_true hm.dir (Or.inl rfl)
  · rcases hm.gains v hvd with hv | ⟨hf, hof⟩
    · rw [hv]
      exact ⟨Or.inr, fun hc => hc.resolve_left hvd⟩
    · rw [hf]
      refine iff_of_false (fun hc => ?_) fun hc => hc.elim hvd (by simp)
      rw [hc] at hof
      cases hof

theorem pooled_of_dirOf {o : Owner} (h : dirOf o = some d) : Pooled o := by
  cases o <;> trivial

theorem made_trade (hm : Made lay kpgdir d own m own' m') : Trade own own' := fun v => by
  by_cases hvd : v = d
  · rw [hvd, hm.free, hm.dir]
    exact Or.inr ⟨trivial, trivial⟩
  · rcases hm.gains v hvd with hv | ⟨hf, hof⟩
    · exact Or.inl hv
    · refine Or.inr ⟨?_, pooled_of_dirOf hof⟩
      rw [hf]
      trivial

theorem handOver_dirs (own : ℕ → Owner) (d v : ℕ) : handOver .free own d v = .dir ↔ v ≠ d ∧ own v = .dir := by
  rw [handOver]
  split_ifs with hc
  · refine iff_of_false (by simp) fun hv => ?_
    rcases hc with hvd | hof
    · exact hv.1 hvd
    · rw [hv.2] at hof
      cases hof
  · exact ⟨fun hv => ⟨fun hvd => hc (Or.inl hvd), hv⟩, fun hv => hv.2⟩

theorem handOver_trade (hd : own d = .dir) : Trade own (handOver .free own d) := fun v => by
  rw [handOver]
  split_ifs with hc
  · refine Or.inr ⟨?_, trivial⟩
    rcases hc with hvd | hof
    · rw [hvd, hd]
      trivial
    · exact pooled_of_dirOf hof
  · exact Or.inl rfl

section

variable (h : Inv lay pool own s)
include h

theorem Inv.make {sz : ℕ} (hq : s.space q = none) (hm : Made lay s.kpgdir d own s.mem own' m')
    (hb : Bounded m' ⟨d, sz⟩) :
    Inv lay pool own' { s with mem := m', space := update s.space q (some ⟨d, sz⟩) } := by
  have hnot : ∀ e, own e = .dir → e ≠ d := fun e he hed => by
    rw [hed, hm.free] at he
    cases he
  refine h.trade (made_trade hm)
    (h.spaces.replace hm.exact (fun v => ?_) (fun sp hsp => ?_) (fun p a va _ hp hva => ?_)
    fun sp hsp => by rw [← Option.some.inj hsp]; exact hb)
  · rw [made_dirs hm]
    refine or_congr ⟨fun hv => ⟨_, rfl, hv.symm⟩, ?_⟩ ⟨fun hv => ⟨hv, fun sp hsp => ?_⟩, And.left⟩
    · rintro ⟨sp, hsp, hv⟩
      rw [← hv, ← Option.some.inj hsp]
    · rw [hq] at hsp
      cases hsp
  · rw [← Option.some.inj hsp]
    exact ⟨fun hc => hnot s.kpgdir ((h.spaces.dirs _).mpr (Or.inl rfl)) hc.symm,
      fun p a _ hp => hnot a.pgdir (h.spaces.dir hp)⟩
  · exact hm.pte a.pgdir va (h.spaces.dir hp) hva

theorem Inv.free (hp : s.space p = some sp)
    (hexact : Exact lay (handOver .free own sp.pgdir) s.kpgdir m')
    (hpte : ∀ e va, own e = .dir → e ≠ sp.pgdir → va < ADDRESSES → pteAt m' e va = pteAt s.mem e va) :
    Inv lay pool (handOver .free own sp.pgdir) { s with mem := m', space := update s.space p none } := by
  refine h.trade (handOver_trade (h.spaces.dir hp))
    (h.spaces.replace hexact (fun v => ?_) (by simp) (fun q a va hqp hq hva => ?_) (by simp))
  · rw [handOver_dirs]
    constructor
    · rintro ⟨hv, hdir⟩
      refine Or.inr ⟨hdir, fun sp' hsp' hc => hv ?_⟩
      rw [← hc, ← Option.some.inj (hp.symm.trans hsp')]
    · rintro (⟨_, hx, _⟩ | ⟨hv, hother⟩)
      · cases hx
      · exact ⟨(hother sp hp).symm, hv⟩
  · exact hpte a.pgdir va (h.spaces.dir hq) (fun hc => hqp (h.spaces.apart q p a sp hq hp hc)) hva

theorem Inv.exchange {sz : ℕ} {m₁ : Mem} (hp : s.space p = some sp)
    (hm : Made lay s.kpgdir d own s.mem own' m₁)
    (hexact : Exact lay (handOver .free own' sp.pgdir) s.kpgdir m')
    (hpte : ∀ e va, own' e = .dir → e ≠ sp.pgdir → va < ADDRESSES → pteAt m' e va = pteAt m₁ e va)
    (hb : Bounded m₁ ⟨d, sz⟩) : Inv lay pool (handOver .free own' sp.pgdir)
      { s with mem := m', space := update s.space p (some ⟨d, sz⟩) } := by
  have hnot : ∀ e, own e = .dir → e ≠ d := fun e he hed => by
    rw [hed, hm.free] at he
    cases he
  have hold := h.spaces.dir hp
  have hold' : own' sp.pgdir = .dir := (made_dirs hm _).mpr (Or.inr hold)
  refine h.trade ((made_trade hm).trans (handOver_trade hold'))
    (h.spaces.replace hexact (fun v => ?_) (fun sp' hsp' => ?_)
    (fun q a va hqp hq hva => ?_) fun sp' hsp' => ?_)
  · rw [handOver_dirs, made_dirs hm]
    constructor
    · rintro ⟨hv, hvd | hdir⟩
      · exact Or.inl ⟨_, rfl, hvd.symm⟩
      · refine Or.inr ⟨hdir, fun sp' hsp' hc => hv ?_⟩
        rw [← hc, ← Option.some.inj (hp.symm.trans hsp')]
    · rintro (⟨sp', hx, hv⟩ | ⟨hv, hother⟩)
      · rw [← hv, ← Option.some.inj hx]
        exact ⟨(hnot _ hold).symm, Or.inl rfl⟩
      · exact ⟨(hother sp hp).symm, Or.inr hv⟩
  · rw [← Option.some.inj hsp']
    exact ⟨fun hc => hnot s.kpgdir ((h.spaces.dirs _).mpr (Or.inl rfl)) hc.symm,
      fun q a _ hq => hnot a.pgdir (h.spaces.dir hq)⟩
  · have hdir := h.spaces.dir hq
    rw [hpte a.pgdir va ((made_dirs hm _).mpr (Or.inr hdir))
      (fun hc => hqp (h.spaces.apart q p a sp hq hp hc)) hva, hm.pte a.pgdir va hdir hva]
  · rw [← Option.some.inj hsp']
    refine ⟨hb.1, fun va hva hge => ?_⟩
    rw [hpte d va hm.dir (hnot _ hold).symm (lt_trans hva (by decide))]
    exact hb.2 va hva hge

/-- A call that has given back what it took. -/
theorem Inv.unchanged (hu : Unchanged lay s.kpgdir own s.mem m') :
    Inv lay pool own { s with mem := m' } := by
  refine h.trade (fun _ => Or.inl rfl)
    ⟨hu.exact, h.spaces.dirs, h.spaces.kernel, h.spaces.apart, fun p sp hp => ?_⟩
  obtain ⟨hsz, habsent⟩ := h.spaces.bounded p sp hp
  refine ⟨hsz, fun va hva hge => ?_⟩
  show ¬ Present (pteAt m' sp.pgdir va)
  rw [hu.pte sp.pgdir va (h.spaces.dir hp) (lt_trans hva (by decide))]
  exact habsent va hva hge

/-! ### Stacks and pipes -/

theorem Inv.take {ks : ℕ → Option ℕ} {ps : List ℕ} (hf : s.mem.freelist = r :: rest)
    (hheld : ∀ v, Held { s with kstack := ks, pipes := ps } v ↔ v = r ∨ Held s v)
    (hstacked : ∀ p q v, ks p = some v → ks q = some v → p = q) (hapart : ∀ p v, ks p = some v → v ∉ ps)
    (hnodup : ps.Nodup) :
    Inv lay pool (update own r .other)
      { s with mem := { s.mem with freelist := rest }, kstack := ks, pipes := ps } := by
  obtain ⟨hr, hvalid, hexact⟩ := h.spaces.exact.take hf
  have hkeep : ∀ v, Held s v → v ≠ r := fun v hv hvr => by
    have hother := (h.holders.other v hv).1
    rw [hvr, hr] at hother
    cases hother
  refine ⟨⟨hexact, fun v => ?_, h.spaces.kernel, h.spaces.apart, h.spaces.bounded⟩,
    ⟨fun v hv => ?_, hstacked, hapart, hnodup⟩, fun v => ?_⟩
  · by_cases hvr : v = r
    · rw [hvr, update_self]
      refine iff_of_false (by simp) fun hc => ?_
      have hdir := (h.spaces.dirs r).mpr hc
      rw [hr] at hdir
      cases hdir
    · rw [update_of_ne hvr]
      exact h.spaces.dirs v
  · rcases (hheld v).mp hv with rfl | hv'
    · exact ⟨update_self .., hvalid⟩
    · rw [update_of_ne (hkeep v hv')]
      exact h.holders.other v hv'
  · show pool v ↔ _ ∨ Held { s with kstack := ks, pipes := ps } v
    rw [h.pool, hheld]
    by_cases hvr : v = r
    · refine iff_of_true (Or.inl ?_) (Or.inr (Or.inl hvr))
      rw [hvr, hr]
      trivial
    · rw [update_of_ne hvr, or_iff_right hvr]

theorem Inv.give (hr : Held s r) :
    ∃ m', kfree lay r s.mem = .ok m' ∧ ∀ (ks : ℕ → Option ℕ) (ps : List ℕ),
      (∀ v, Held { s with kstack := ks, pipes := ps } v ↔ v ≠ r ∧ Held s v) →
      (∀ p q v, ks p = some v → ks q = some v → p = q) → (∀ p v, ks p = some v → v ∉ ps) → ps.Nodup →
      Inv lay pool (update own r .free) { s with mem := m', kstack := ks, pipes := ps } := by
  obtain ⟨hother, hvalid⟩ := h.holders.other r hr
  obtain ⟨m', hk, hexact, _, hpte⟩ := h.spaces.exact.give hvalid hother
  refine ⟨m', hk, fun ks ps hheld hstacked hapart hnodup =>
    ⟨⟨hexact, fun v => ?_, h.spaces.kernel, h.spaces.apart, fun p sp hp => ?_⟩,
      ⟨fun v hv => ?_, hstacked, hapart, hnodup⟩, fun v => ?_⟩⟩
  · by_cases hvr : v = r
    · rw [hvr, update_self]
      refine iff_of_false (by simp) fun hc => ?_
      have hdir := (h.spaces.dirs r).mpr hc
      rw [hother] at hdir
      cases hdir
    · rw [update_of_ne hvr]
      exact h.spaces.dirs v
  · obtain ⟨hsz, habsent⟩ := h.spaces.bounded p sp hp
    refine ⟨hsz, fun va hva hge => ?_⟩
    show ¬ Present (pteAt m' sp.pgdir va)
    rw [hpte sp.pgdir va (h.spaces.dir hp)]
    exact habsent va hva hge
  · obtain ⟨hvr, hv'⟩ := (hheld v).mp hv
    rw [update_of_ne hvr]
    exact h.holders.other v hv'
  · show pool v ↔ _ ∨ Held { s with kstack := ks, pipes := ps } v
    rw [h.pool, hheld]
    by_cases hvr : v = r
    · rw [hvr, update_self]
      exact iff_of_true (Or.inr hr) (Or.inl trivial)
    · rw [update_of_ne hvr, and_iff_right hvr]

theorem Inv.takeStack (hf : s.mem.freelist = r :: rest) (hq : s.kstack q = none) :
    Inv lay pool (update own r .other)
      { s with mem := { s.mem with freelist := rest }, kstack := update s.kstack q (some r) } := by
  have hr := (h.spaces.exact.take hf).1
  have hnot : ¬ Held s r := fun hc => by
    have hother := (h.holders.other r hc).1
    rw [hr] at hother
    cases hother
  have hcases : ∀ {p v : ℕ}, update s.kstack q (some r) p = some v →
      p = q ∧ v = r ∨ p ≠ q ∧ s.kstack p = some v := fun {p v} hp => by
    obtain ⟨hpq, hp⟩ | ⟨hpq, hp⟩ := update_cases hp
    · exact Or.inl ⟨hpq, (Option.some.inj hp).symm⟩
    · exact Or.inr ⟨hpq, hp⟩
  refine h.take hf (fun v => ⟨?_, ?_⟩) (fun p p' v hp hp' => ?_) (fun p v hp hv => ?_) h.holders.pipes
  · rintro (⟨p, hp⟩ | hv)
    · rcases hcases hp with ⟨_, hv⟩ | ⟨_, hp'⟩
      · exact Or.inl hv
      · exact Or.inr (Or.inl ⟨p, hp'⟩)
    · exact Or.inr (Or.inr hv)
  · rintro (rfl | ⟨p, hp⟩ | hv)
    · exact Or.inl ⟨q, update_self ..⟩
    · have hpq : p ≠ q := fun hpq => by
        rw [hpq, hq] at hp
        cases hp
      exact Or.inl ⟨p, (update_of_ne hpq ..).trans hp⟩
    · exact Or.inr hv
  · rcases hcases hp with ⟨hpq, hv⟩ | ⟨_, hp₁⟩
    · rcases hcases hp' with ⟨hpq', _⟩ | ⟨_, hp₂⟩
      · rw [hpq, hpq']
      · exact absurd (Or.inl ⟨p', hv ▸ hp₂⟩) hnot
    · rcases hcases hp' with ⟨_, hv⟩ | ⟨_, hp₂⟩
      · exact absurd (Or.inl ⟨p, hv ▸ hp₁⟩) hnot
      · exact h.holders.stacked p p' v hp₁ hp₂
  · rcases hcases hp with ⟨_, rfl⟩ | ⟨_, hp'⟩
    · exact hnot (Or.inr hv)
    · exact h.holders.apart p v hp' hv

theorem Inv.giveStack (hq : s.kstack q = some r) :
    ∃ m', kfree lay r s.mem = .ok m' ∧ Inv lay pool (update own r .free)
      { s with mem := m', kstack := update s.kstack q none } := by
  obtain ⟨m', hk, hinv⟩ := h.give (Or.inl ⟨q, hq⟩)
  have hback : ∀ {p v : ℕ}, update s.kstack q none p = some v → p ≠ q ∧ s.kstack p = some v :=
      fun {p v} hp => by
    obtain ⟨hpq, hp⟩ | ⟨hpq, hp⟩ := update_cases hp
    · cases hp
    · exact ⟨hpq, hp⟩
  refine ⟨m', hk, hinv _ s.pipes (fun v => ⟨?_, ?_⟩) (fun p p' v hp hp' => ?_)
    (fun p v hp => ?_) h.holders.pipes⟩
  · rintro (⟨p, hp⟩ | hv)
    · obtain ⟨hpq, hp'⟩ := hback hp
      refine ⟨fun hvr => hpq (h.holders.stacked p q v hp' (hvr ▸ hq)), Or.inl ⟨p, hp'⟩⟩
    · exact ⟨fun hvr => h.holders.apart q r hq (hvr ▸ hv), Or.inr hv⟩
  · rintro ⟨hvr, ⟨p, hp⟩ | hv⟩
    · have hpq : p ≠ q := fun hpq => by
        rw [hpq, hq] at hp
        exact hvr (Option.some.inj hp).symm
      exact Or.inl ⟨p, (update_of_ne hpq ..).trans hp⟩
    · exact Or.inr hv
  · exact h.holders.stacked p p' v (hback hp).2 (hback hp').2
  · exact h.holders.apart p v (hback hp).2

theorem Inv.takePipe (hf : s.mem.freelist = r :: rest) :
    Inv lay pool (update own r .other)
      { s with mem := { s.mem with freelist := rest }, pipes := r :: s.pipes } := by
  have hr := (h.spaces.exact.take hf).1
  have hnot : ¬ Held s r := fun hc => by
    have hother := (h.holders.other r hc).1
    rw [hr] at hother
    cases hother
  refine h.take hf (fun v => ?_) h.holders.stacked (fun p v hp hv => ?_)
    (List.nodup_cons.mpr ⟨fun hc => hnot (Or.inr hc), h.holders.pipes⟩)
  · show (_ ∨ v ∈ r :: s.pipes) ↔ _
    rw [List.mem_cons]
    exact or_left_comm
  · rcases List.mem_cons.mp hv with rfl | hv'
    · exact hnot (Or.inl ⟨p, hp⟩)
    · exact h.holders.apart p v hp hv'

theorem Inv.givePipe (hr : r ∈ s.pipes) :
    ∃ m', kfree lay r s.mem = .ok m' ∧ Inv lay pool (update own r .free)
      { s with mem := m', pipes := s.pipes.erase r } := by
  obtain ⟨m', hk, hinv⟩ := h.give (Or.inr hr)
  have hmem : ∀ v, v ∈ s.pipes.erase r ↔ v ≠ r ∧ v ∈ s.pipes := fun v => h.holders.pipes.mem_erase_iff
  refine ⟨m', hk, hinv s.kstack _ (fun v => ⟨?_, ?_⟩) h.holders.stacked (fun p v hp hv => ?_)
    (h.holders.pipes.erase r)⟩
  · rintro (⟨p, hp⟩ | hv)
    · exact ⟨fun hvr => h.holders.apart p v hp (hvr ▸ hr), Or.inl ⟨p, hp⟩⟩
    · exact ⟨((hmem v).mp hv).1, Or.inr ((hmem v).mp hv).2⟩
  · rintro ⟨hvr, hp | hv⟩
    · exact Or.inl hp
    · exact Or.inr ((hmem v).mpr ⟨hvr, hv⟩)
  · exact h.holders.apart p v hp ((hmem v).mp hv).2

end

end Xv6e.Memory.Processes
