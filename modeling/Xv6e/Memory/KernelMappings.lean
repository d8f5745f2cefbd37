import Xv6e.Memory.SlotReuse
import Xv6e.Memory.Supply

/-!
# Kernel addresses in the page tables

`setupkvm` gives every page directory the mappings of `kmap`; `liballoc_alloc` maps the pages of the heap in
the kernel's page directory alone.  A machine is the kernel together with the page directories of processes,
which are made by `setupkvm` and `copyuvm`, grown and shrunk by `allocuvm` and `deallocuvm` and taken down by
`freevm`, in any order with calls of the heap.

* `Agree` — all page directories translate kernel addresses as the kernel's does;
* `agree_iff_heap_unmapped` — so it is exactly when there is no process or no heap page is mapped;
* `heap_page_missing` — a process exists and a page is allocated: the process does not see the page.
-/

namespace Xv6e.Memory.KernelMappings

open Library.PointerList Library.RegionList Library.Transition PageTable
open Ownership AddressSpace KernelHeap HeapSlots
open HeapSteps HeapInvariant SlotReuse Supply

/-! ### Machines -/

/-- The kernel and the page directories of processes. -/
structure Machine where
  kernel : Kernel
  procs : List ℕ

inductive Call where
  /-- A call of the kernel heap. -/
  | heap (e : Event)
  /-- `setupkvm()` returns `pgdir`. -/
  | setupkvm (pgdir : ℕ)
  /-- `copyuvm(parent, sz)` returns `pgdir`. -/
  | copyuvm (parent sz pgdir : ℕ)
  /-- `allocuvm(pgdir, oldsz, newsz)`. -/
  | allocuvm (pgdir oldsz newsz : ℕ)
  /-- `deallocuvm(pgdir, oldsz, newsz)`. -/
  | deallocuvm (pgdir oldsz newsz : ℕ)
  /-- `freevm(pgdir)`. -/
  | freevm (pgdir : ℕ)
  deriving DecidableEq, Repr

def Machine.withMem (x : Machine) (m : Mem) : Machine := { x with kernel := { x.kernel with mem := m } }

/-- The machine with one more page directory, unless it is null. -/
def Machine.withSpace (x : Machine) (pgdir : ℕ) (m : Mem) : Machine :=
  { x.withMem m with procs := if pgdir = 0 then x.procs else pgdir :: x.procs }

/-- One call.  The calls on an address space are made on those of processes, whose size is at most
`KERNBASE`. -/
def Machine.step (lay : Layout) (x : Machine) : Call → Option Machine
  | .heap e => (KernelHeap.step lay x.kernel e).map fun s => { x with kernel := s }
  | .setupkvm pgdir =>
    match PageTable.setupkvm lay x.kernel.mem with
    | .ok (d, m) => if d = pgdir then some (x.withSpace d m) else none
    | .error _ => none
  | .copyuvm parent sz pgdir =>
    if parent ∈ x.procs ∧ sz ≤ KERNBASE then
      match PageTable.copyuvm lay x.kernel.mem parent sz with
      | .ok (d, m) => if d = pgdir then some (x.withSpace d m) else none
      | .error _ => none
    else none
  | .allocuvm pgdir oldsz newsz =>
    if pgdir ∈ x.procs then
      match PageTable.allocuvm lay x.kernel.mem pgdir oldsz newsz with
      | .ok (_, m) => some (x.withMem m)
      | .error _ => none
    else none
  | .deallocuvm pgdir oldsz newsz =>
    if pgdir ∈ x.procs ∧ oldsz ≤ KERNBASE then
      match PageTable.deallocuvm lay x.kernel.mem pgdir oldsz newsz with
      | .ok (_, m) => some (x.withMem m)
      | .error _ => none
    else none
  | .freevm pgdir =>
    if pgdir ∈ x.procs then
      match PageTable.freevm lay x.kernel.mem pgdir with
      | .ok m => some { x.withMem m with procs := x.procs.filter (· ≠ pgdir) }
      | .error _ => none
    else none

/-- The calls of the heap in a history. -/
def heapEvents (cs : List Call) : List Event :=
  cs.filterMap fun
    | .heap e => some e
    | _ => none

/-- The machine from `kheap_init` on: the kernel's page directory has the mappings of `kmap`, and there is no
process yet. -/
def machines (lay : Layout) : System Machine Call where
  init x := x.procs = [] ∧ ∃ b own, Boot lay own b
    ∧ (∀ va, KERNBASE ≤ va → va < ADDRESSES → pteAt b.mem b.kpgdir va = kernelEntry lay va)
    ∧ kheapInit b = .ok x.kernel
  step := Machine.step lay

/-- Callers of the heap release pages in use only. -/
def CallAllowed (cs : List Call) (_ : Machine) : Call → Prop
  | .heap e => Allowed (heapEvents cs) e
  | _ => True

/-- They do so on metadata pages without a hole. -/
def CallNoHole (cs : List Call) (x : Machine) : Call → Prop
  | .heap e => AllowedNoHole (heapEvents cs) x.kernel e
  | _ => True

/-- Every page directory translates kernel addresses as the kernel's does. -/
def Agree (x : Machine) : Prop :=
  ∀ d ∈ x.procs, ∀ va, KERNBASE ≤ va → va < ADDRESSES →
    translation x.kernel.mem d va = translation x.kernel.mem x.kernel.kpgdir va

/-- No address of the heap is mapped in the kernel's page directory. -/
def HeapUnmapped (x : Machine) : Prop :=
  ∀ va, InHeap va → translation x.kernel.mem x.kernel.kpgdir va = none

/-! ### Translation -/

variable {lay : Layout} {own own' : ℕ → Owner} {kpgdir d : ℕ} {m m' : Mem} {x y : Machine} {L Ps : List ℕ}
  {cs : List Call} {A : Finset ℕ}

/-- **The translation of an address** is a function of its entry. -/
theorem translate_eq (h : Owned lay own kpgdir m) (hd : own d = .dir) (va : ℕ) :
    translation m d va = if Present (pteAt m d va)
      then some (PTE_ADDR (pteAt m d va) + va % PGSIZE, decide (pteAt m d va &&& PTE_W ≠ 0),
        decide (pteAt m d va &&& PTE_U ≠ 0))
      else none := by
  unfold translation
  by_cases hp : Present (pteAt m d va)
  · have hpde : Present (m.word d (PDX va)) := by
      by_contra hpde
      rw [pteAt, if_neg hpde] at hp
      exact not_present_zero hp
    obtain ⟨t, _, hw⟩ := h.table d _ hd (PDX_lt va) hpde
    rw [if_pos hp]
    simp only [if_pos (And.intro hpde hp)]
    rw [hw, tableEntry_and t _ (by decide), tableEntry_and t _ (by decide)]
  · rw [if_neg hp]
    simp only [if_neg fun hc : _ ∧ _ => hp hc.2]

theorem translate_congr {e va : ℕ} (h : Owned lay own kpgdir m) (hd : own d = .dir) (he : own e = .dir)
    (heq : pteAt m d va = pteAt m e va) : translation m d va = translation m e va := by
  rw [translate_eq h hd, translate_eq h he, heq]

theorem translate_eq_none {va : ℕ} (h : Owned lay own kpgdir m) (hd : own d = .dir) :
    translation m d va = none ↔ ¬ Present (pteAt m d va) := by
  rw [translate_eq h hd]
  by_cases hp : Present (pteAt m d va)
  · rw [if_pos hp]
    exact ⟨by simp, fun hc => absurd hp hc⟩
  · rw [if_neg hp]
    exact ⟨fun _ => hp, fun _ => rfl⟩

/-! ### The invariant -/

/-- The heap's invariant, and what the page directories have for kernel addresses. -/
structure MachineInv (lay : Layout) (own : ℕ → Owner) (A : Finset ℕ) (x : Machine)
    (L Ps : List ℕ) : Prop where
  heap : HeapInv lay own A x.kernel L Ps
  /-- Outside the heap the kernel's page directory has the mappings of `kmap`. -/
  kernel : ∀ va, KERNBASE ≤ va → va < ADDRESSES → ¬ InHeap va →
    pteAt x.kernel.mem x.kernel.kpgdir va = kernelEntry lay va
  dir : ∀ d ∈ x.procs, own d = .dir ∧ d ≠ x.kernel.kpgdir
  /-- The page directories of processes have them throughout. -/
  space : ∀ d ∈ x.procs, ∀ va, KERNBASE ≤ va → va < ADDRESSES → pteAt x.kernel.mem d va = kernelEntry lay va

/-- **Agreement is a matter of the heap**: page directories of processes have no entries there. -/
theorem MachineInv.agree_iff (h : MachineInv lay own A x L Ps) :
    Agree x ↔ x.procs = [] ∨ HeapUnmapped x := by
  have howned := h.heap.list.owned
  have hkdir := h.heap.list.kdir
  have hnone : ∀ d ∈ x.procs, ∀ va, InHeap va → translation x.kernel.mem d va = none := by
    intro d hd va hva
    rw [translate_eq_none howned (h.dir d hd).1, h.space d hd va (le_trans (by decide) hva.1)
      (lt_trans hva.2 (by decide)), kernelEntry_of_inHeap hva]
    exact not_present_zero
  constructor
  · intro hagree
    cases hprocs : x.procs with
    | nil => exact Or.inl rfl
    | cons d rest =>
      have hd : d ∈ x.procs := by rw [hprocs]; exact List.mem_cons_self
      refine Or.inr fun va hva => ?_
      rw [← hagree d hd va (le_trans (by decide) hva.1) (lt_trans hva.2 (by decide))]
      exact hnone d hd va hva
  · rintro (hprocs | hunmapped) d hd va hlo hhi
    · rw [hprocs] at hd
      cases hd
    · by_cases hva : InHeap va
      · rw [hnone d hd va hva, hunmapped va hva]
      · exact translate_congr howned (h.dir d hd).1 hkdir
          ((h.space d hd va hlo hhi).trans (h.kernel va hlo hhi hva).symm)

/-- **Calls on the address spaces of processes.**  What touches no kernel address of the kernel's page
directory and of those that stay keeps the invariant. -/
theorem MachineInv.frame {U : ℕ → ℕ → Prop} {procs : List ℕ} (h : MachineInv lay own A x L Ps)
    (ho : Owned lay own' x.kernel.kpgdir m') (hf : Frame U own x.kernel.mem own' m')
    (hsub : ∀ d ∈ procs, d ∈ x.procs)
    (hU : ∀ d, d = x.kernel.kpgdir ∨ d ∈ procs → ∀ va, KERNBASE ≤ va → ¬ U d va) :
    MachineInv lay own' A { x.withMem m' with procs := procs } L Ps where
  heap := h.heap.frame ho hf fun hall => hU _ (Or.inl rfl) KERNBASE (le_refl _) (hall _)
  kernel va hlo hhi hva :=
    (hf.pte _ va h.heap.list.kdir hhi (hU _ (Or.inl rfl) va hlo)).trans (h.kernel va hlo hhi hva)
  dir d hd := ⟨hf.dir d (h.dir d (hsub d hd)).1 fun hall => hU d (Or.inr hd) KERNBASE (le_refl _) (hall _),
    (h.dir d (hsub d hd)).2⟩
  space d hd va hlo hhi :=
    (hf.pte d va (h.dir d (hsub d hd)).1 hhi (hU d (Or.inr hd) va hlo)).trans
      (h.space d (hsub d hd) va hlo hhi)

/-- **A new page directory** with the mappings of `kmap`. -/
theorem MachineInv.newSpace {r : ℕ} (h : MachineInv lay own A x L Ps) (ho : Owned lay own' x.kernel.kpgdir m')
    (hf : Frame untouched own x.kernel.mem own' m')
    (hr : r = 0 ∨ own r = .free ∧ own' r = .dir
      ∧ ∀ va, KERNBASE ≤ va → va < ADDRESSES → pteAt m' r va = kernelEntry lay va) :
    MachineInv lay own' A (x.withSpace r m') L Ps := by
  have hold : MachineInv lay own' A { x.withMem m' with procs := x.procs } L Ps :=
    h.frame ho hf (fun _ hd => hd) fun _ _ _ _ => id
  rw [Machine.withSpace]
  rcases Nat.eq_zero_or_pos r with rfl | hpos
  · rw [if_pos rfl]
    exact hold
  · obtain ⟨hfree, hdir, hent⟩ := hr.resolve_left (Nat.pos_iff_ne_zero.mp hpos)
    rw [if_neg (Nat.pos_iff_ne_zero.mp hpos)]
    refine ⟨hold.heap, hold.kernel, fun d hd => ?_, fun d hd => ?_⟩
    · rcases List.mem_cons.mp hd with rfl | hd
      · refine ⟨hdir, fun hk => ?_⟩
        rw [show d = x.kernel.kpgdir from hk, h.heap.list.kdir] at hfree
        cases hfree
      · exact hold.dir d hd
    · rcases List.mem_cons.mp hd with rfl | hd
      · exact hent
      · exact hold.space d hd

/-- A call of the heap keeps the page directories of processes, and the kernel's outside the heap. -/
theorem MachineInv.heapStep {e : Event} {s : Kernel}
    (h : MachineInv lay own (allocated (heapEvents cs)) x L Ps)
    (hc : AllowedNoHole (heapEvents cs) x.kernel e) (hstep : KernelHeap.step lay x.kernel e = some s) :
    ∃ own' L' Ps', MachineInv lay own' (allocated (heapEvents cs ++ [e])) { x with kernel := s } L' Ps' := by
  obtain ⟨own', L', Ps', hheap, hk, hpte⟩ := heap_step h.heap hc.1 (fresh_of_noHole h.heap hc.1 hc.2) hstep
  refine ⟨own', L', Ps', hheap, fun va hlo hhi hva => ?_, fun d hd => ?_, fun d hd va hlo hhi => ?_⟩
  · show pteAt s.mem s.kpgdir va = _
    rw [hk, hpte.pte _ va h.heap.list.kdir hhi fun hU => hva hU.2]
    exact h.kernel va hlo hhi hva
  · obtain ⟨hdir, hne⟩ := h.dir d hd
    exact ⟨hpte.dir d hdir, fun hc => hne (hc.trans hk)⟩
  · obtain ⟨hdir, hne⟩ := h.dir d hd
    exact (hpte.pte d va hdir hhi fun hU => hne hU.1).trans (h.space d hd va hlo hhi)

theorem heapEvents_snoc (cs : List Call) (c : Call) :
    heapEvents (cs ++ [c]) = match c with
      | .heap e => heapEvents cs ++ [e]
      | _ => heapEvents cs := by
  rw [heapEvents, List.filterMap_append]
  cases c with
  | heap e => rfl
  | setupkvm | copyuvm | allocuvm | deallocuvm | freevm => exact List.append_nil _

theorem MachineInv.ne_free (h : MachineInv lay own A x L Ps) : own x.kernel.kpgdir ≠ .free :=
  ne_of_eq_of_ne h.heap.list.kdir (by simp)

/-- The kernel's page directory has the same entries for kernel addresses. -/
def KernelKept (x y : Machine) : Prop :=
  y.kernel.kpgdir = x.kernel.kpgdir ∧ ∀ va, KERNBASE ≤ va → va < ADDRESSES →
    pteAt y.kernel.mem x.kernel.kpgdir va = pteAt x.kernel.mem x.kernel.kpgdir va

theorem MachineInv.kept {U : ℕ → ℕ → Prop} {procs : List ℕ} (h : MachineInv lay own A x L Ps)
    (hf : Frame U own x.kernel.mem own' m') (hU : ∀ va, KERNBASE ≤ va → ¬ U x.kernel.kpgdir va) :
    KernelKept x { x.withMem m' with procs := procs } :=
  ⟨rfl, fun va hlo hhi => hf.pte _ va h.heap.list.kdir hhi (hU va hlo)⟩

/-- **One call.**  Only calls of the heap change the kernel's mappings. -/
theorem MachineInv.step {c : Call} (h : MachineInv lay own (allocated (heapEvents cs)) x L Ps)
    (hc : CallNoHole cs x c) (hstep : x.step lay c = some y) :
    ∃ own' L' Ps', MachineInv lay own' (allocated (heapEvents (cs ++ [c]))) y L' Ps'
      ∧ ((∀ e, c ≠ .heap e) → KernelKept x y) := by
  rw [heapEvents_snoc]
  have howned := h.heap.list.owned
  cases c with
  | heap e =>
    obtain ⟨s, hs, rfl⟩ := Option.map_eq_some_iff.mp hstep
    obtain ⟨own', L', Ps', h'⟩ := h.heapStep hc hs
    exact ⟨own', L', Ps', h', fun hno => absurd rfl (hno e)⟩
  | setupkvm r =>
    rw [Machine.step] at hstep
    split at hstep
    · rename_i d m' hok
      obtain ⟨rfl, rfl⟩ := guard_eq.mp hstep
      obtain ⟨own', ho, hf, hr⟩ := setupkvm_spec howned h.ne_free hok
      exact ⟨own', L, Ps, h.newSpace ho hf (hr.imp_right fun hnew =>
        ⟨hnew.1, hnew.2.1, fun va _ hhi => hnew.2.2 va hhi⟩), fun _ => h.kept hf fun _ _ => id⟩
    · cases hstep
  | copyuvm parent sz r =>
    rw [Machine.step] at hstep
    obtain ⟨⟨hparent, hsz⟩, hstep⟩ := Option.ite_none_right_eq_some.mp hstep
    split at hstep
    · rename_i d m' hok
      obtain ⟨rfl, rfl⟩ := guard_eq.mp hstep
      obtain ⟨own', ho, hf, hr⟩ := copyuvm_spec hsz howned h.ne_free (h.dir parent hparent).1 hok
      exact ⟨own', L, Ps, h.newSpace ho hf hr, fun _ => h.kept hf fun _ _ => id⟩
    · cases hstep
  | allocuvm d oldsz newsz =>
    rw [Machine.step] at hstep
    obtain ⟨hd, hstep⟩ := Option.ite_none_right_eq_some.mp hstep
    split at hstep
    · rename_i sz m' hok
      cases hstep
      obtain ⟨own', ho, hf⟩ := allocuvm_spec howned (h.dir d hd).1 hok
      exact ⟨own', L, Ps, h.frame ho hf (fun _ hd => hd) fun _ _ va hlo hU => absurd hU.2 (not_lt.mpr hlo),
        fun _ => h.kept hf fun va hlo hU => absurd hU.2 (not_lt.mpr hlo)⟩
    · cases hstep
  | deallocuvm d oldsz newsz =>
    rw [Machine.step] at hstep
    obtain ⟨⟨hd, hsz⟩, hstep⟩ := Option.ite_none_right_eq_some.mp hstep
    split at hstep
    · rename_i sz m' hok
      cases hstep
      obtain ⟨own', ho, hf, _⟩ := deallocuvm_spec hsz howned (h.dir d hd).1 hok
      exact ⟨own', L, Ps, h.frame ho hf (fun _ hd => hd) fun _ _ va hlo hU => absurd hU.2 (not_lt.mpr hlo),
        fun _ => h.kept hf fun va hlo hU => absurd hU.2 (not_lt.mpr hlo)⟩
    · cases hstep
  | freevm d =>
    rw [Machine.step] at hstep
    obtain ⟨hd, hstep⟩ := Option.ite_none_right_eq_some.mp hstep
    split at hstep
    · rename_i m' hok
      cases hstep
      obtain ⟨own', ho, hf⟩ := freevm_spec howned (h.dir d hd).1 hok
      refine ⟨own', L, Ps, h.frame ho hf (fun e he => (List.mem_filter.mp he).1) fun e he va _ hU => ?_,
        fun _ => h.kept hf fun va _ hU => (h.dir d hd).2 hU.symm⟩
      -- neither the kernel's page directory nor one that stays is the one taken down
      rcases he with rfl | he
      · exact (h.dir d hd).2 hU.symm
      · exact of_decide_eq_true (List.mem_filter.mp he).2 hU
    · cases hstep

theorem machineInv_run (hr : RunIf (machines lay) CallNoHole cs x) :
    ∃ own L Ps, MachineInv lay own (allocated (heapEvents cs)) x L Ps := by
  refine hr.induct (I := fun cs x => ∃ own L Ps, MachineInv lay own (allocated (heapEvents cs)) x L Ps) ?_ ?_
  · rintro x ⟨hprocs, b, own, hb, hkernel, hok⟩
    obtain ⟨own', L, Ps, h, hk, hpte⟩ := kheapInit_spec hb hok
    refine ⟨own', L, Ps, h, fun va hlo hhi _ => ?_, fun d hd => ?_, fun d hd => ?_⟩
    · rw [hk, hpte.pte _ va hb.kdir hhi id]
      exact hkernel va hlo hhi
    · rw [hprocs] at hd
      cases hd
    · rw [hprocs] at hd
      cases hd
  · rintro cs x c y ⟨own, L, Ps, h⟩ hc hstep
    obtain ⟨own', L', Ps', h', _⟩ := h.step hc hstep
    exact ⟨own', L', Ps', h'⟩

/-- **Page tables agree on kernel addresses exactly when no heap page is mapped**, or there is no process. -/
theorem agree_iff_heap_unmapped (hr : RunIf (machines lay) CallNoHole cs x) :
    Agree x ↔ x.procs = [] ∨ HeapUnmapped x := by
  obtain ⟨own, L, Ps, h⟩ := machineInv_run hr
  exact h.agree_iff

/-! ### A machine with memory for two page directories -/

/-- The first `n` pages after the kernel's. -/
def freePages (n : ℕ) : List ℕ := (List.range n).map fun i => 0x80400000 + PGSIZE * i

theorem freePages_nodup (n : ℕ) : (freePages n).Nodup := by
  refine List.Nodup.map (fun i j hij => ?_) List.nodup_range
  simp only [PGSIZE] at hij
  omega

theorem freePages_valid {n v : ℕ} (hn : n ≤ 3000) (hv : v ∈ freePages n) : ValidPage smallLayout v := by
  obtain ⟨i, hi, rfl⟩ := List.mem_map.mp hv
  have hi := List.mem_range.mp hi
  refine ⟨?_, ?_, ?_, ?_⟩
  all_goals simp only [smallLayout, PGSIZE, KERNBASE, PHYSTOP]
  all_goals omega

/-- Memory before any page has been taken. -/
def freshMem (n : ℕ) : Mem := ⟨freePages n, fun _ _ => 0, fun _ => 0, fun _ => 0, fun _ => ⟨0, 0, 0, 0⟩⟩

def freshOwn (n v : ℕ) : Owner := if v ∈ freePages n then .free else .other

theorem owned_fresh {n : ℕ} (hn : n ≤ 3000) : Owned smallLayout (freshOwn n) 0 (freshMem n) := by
  have hdir : ∀ d, freshOwn n d ≠ .dir := by
    intro d hd
    rw [freshOwn] at hd
    split at hd <;> cases hd
  refine ⟨fun v hv => if_pos hv, freePages_nodup n, fun v hv => ?_, fun d _ hd => absurd hd (hdir d),
    fun d _ hd => absurd hd (hdir d), fun _ hd => absurd hd (hdir 0)⟩
  by_contra hvalid
  exact hv (if_neg fun hmem => hvalid (freePages_valid hn hmem))

theorem setKpgdir (h : Owned lay own kpgdir m) (hheap : ∀ va, InHeap va → pteAt m d va = 0) :
    Owned lay own d m :=
  ⟨h.free, h.nodup, h.valid, h.table, h.user, fun va _ hva hp => by
    rw [hheap va hva] at hp
    exact absurd hp not_present_zero⟩

/-- The memory and the page directory after `kvmalloc`. -/
theorem exists_kvm : ∃ own d m, Owned smallLayout own d m ∧ own d = .dir ∧ 1950 ≤ m.freelist.length
    ∧ (∀ va < ADDRESSES, pteAt m d va = kernelEntry smallLayout va)
    ∧ ∀ i, (∀ k ∈ kmap smallLayout, AvoidsTable i (Kmap.first k) (Kmap.last k)) → m.word d i = 0 := by
  -- the number is kept abstract, so that no step evaluates the list of pages
  obtain ⟨n, hn⟩ : ∃ n, n = 3000 := ⟨3000, rfl⟩
  have howned := owned_fresh (le_of_eq hn)
  have hzero : freshOwn n 0 ≠ .free := by
    rw [freshOwn, if_neg fun hmem => (freePages_valid (le_of_eq hn) hmem).ne_zero rfl]
    simp
  have hpages : (freshMem n).freelist.length = n := (List.length_map _).trans List.length_range
  obtain ⟨d, m, hsetup, hd0, hlen⟩ := setupkvm_returns howned hzero (by rw [hpages, hn]; decide)
  obtain ⟨own, ho, _, hres⟩ := setupkvm_spec howned hzero hsetup
  obtain ⟨_, hdir, hent⟩ := hres.resolve_left hd0
  have hheap : ∀ va, InHeap va → pteAt m d va = 0 := fun va hva =>
    (hent va (lt_trans hva.2 (by decide))).trans (kernelEntry_of_inHeap hva)
  rw [hpages, hn, NPDENTRIES] at hlen
  exact ⟨own, d, m, setKpgdir ho hheap, hdir, by omega, hent,
    fun i => setupkvm_dirWord howned hzero hsetup hd0⟩

/-- The machine after `kvmalloc` and `kheap_init`. -/
theorem exists_init : ∃ x, (machines smallLayout).init x ∧ 1900 ≤ x.kernel.mem.freelist.length
    ∧ ∀ va, InHeap va → pteAt x.kernel.mem x.kernel.kpgdir va = 0 := by
  obtain ⟨own, d, m, ho, hdir, hlen, hent, _⟩ := exists_kvm
  have hb : Boot smallLayout own ⟨m, d, 0, 0⟩ := ⟨ho, hdir, rfl, rfl⟩
  obtain ⟨s, hs, hlen', _⟩ := kheapInit_returns hb fun hnil => by
    rw [show m.freelist = [] from hnil, List.length_nil] at hlen
    omega
  obtain ⟨_, _, _, _, hk, hpte⟩ := kheapInit_spec hb hs
  refine ⟨⟨s, []⟩, ⟨rfl, _, own, hb, fun va _ hhi => hent va hhi, hs⟩, ?_, fun va hva => ?_⟩
  · simp only at hlen' ⊢
    omega
  · show pteAt s.mem s.kpgdir va = 0
    rw [hk, hpte.pte _ va hdir (lt_trans hva.2 (by decide)) id]
    exact (hent va (lt_trans hva.2 (by decide))).trans (kernelEntry_of_inHeap hva)

theorem exists_process : ∃ d x, RunIf (machines smallLayout) CallNoHole [.setupkvm d] x ∧ x.procs = [d]
    ∧ 2 ≤ x.kernel.mem.freelist.length ∧ HeapUnmapped x := by
  obtain ⟨x, hinit, hlen, hheap⟩ := exists_init
  have hr : RunIf (machines smallLayout) CallNoHole [] x := RunIf.init hinit
  obtain ⟨own, L, Ps, h⟩ := machineInv_run hr
  obtain ⟨d, m, hsetup, hd0, hlen'⟩ := setupkvm_returns h.heap.list.owned h.ne_free
    (by rw [NPDENTRIES]; omega)
  obtain ⟨own', ho, hf, _⟩ := setupkvm_spec h.heap.list.owned h.ne_free hsetup
  have hstep : (machines smallLayout).step x (.setupkvm d) = some (x.withSpace d m) := by
    show Machine.step smallLayout x (.setupkvm d) = _
    rw [Machine.step, hsetup]
    exact if_pos rfl
  have hr' : RunIf (machines smallLayout) CallNoHole ([] ++ [.setupkvm d]) (x.withSpace d m) :=
    RunIf.step (.setupkvm d) hr (show CallNoHole [] x (.setupkvm d) from trivial) hstep
  refine ⟨d, _, hr', ?_, ?_, fun va hva => ?_⟩
  · show (if d = 0 then x.procs else d :: x.procs) = [d]
    rw [if_neg hd0, hinit.1]
  · rw [NPDENTRIES] at hlen'
    show 2 ≤ m.freelist.length
    omega
  · have hkdir := h.heap.list.kdir
    show translation m x.kernel.kpgdir va = none
    rw [translate_eq_none ho (hf.dir _ hkdir fun hall => hall 0),
      hf.pte _ va hkdir (lt_trans hva.2 (by decide)) id, hheap va hva]
    exact not_present_zero

/-- The theorem on a machine with a process: its page table agrees as long as the heap is not used. -/
theorem agree_iff_heap_unmapped_process :
    ∃ d x, RunIf (machines smallLayout) CallNoHole [.setupkvm d] x ∧ x.procs = [d] ∧ Agree x := by
  obtain ⟨d, x, hr, hprocs, _, hunmapped⟩ := exists_process
  exact ⟨d, x, hr, hprocs, (agree_iff_heap_unmapped hr).mpr (Or.inr hunmapped)⟩

/-! ### A heap page that a process does not see -/

/-- Page tables agree, whatever processes and callers of the heap that only release pages in use do. -/
def AlwaysAgree (lay : Layout) : Prop :=
  ∀ cs x, RunIf (machines lay) CallAllowed cs x → Agree x

theorem firstFit_one {s : Kernel} (h : HeapInv lay own ∅ s L Ps) : firstFit 1 (ranges s L) ≠ none := by
  intro hnone
  have hmem : KHEAP_START / PGSIZE ∈ covered (ranges s L) := by
    rw [h.tiles, Finset.coe_empty, Set.sdiff_empty]
    exact ⟨le_refl _, by decide⟩
  obtain ⟨r, hr, hlo, hhi⟩ := hmem
  have := firstFit_eq_none_iff.mp hnone r hr
  omega

/-- **The kernel heap is not visible to processes**: a process is created, then a page allocated. -/
theorem heap_page_missing : ¬ AlwaysAgree smallLayout := by
  intro hall
  obtain ⟨d, x, hr, hprocs, hlen, _⟩ := exists_process
  obtain ⟨own, L, Ps, h⟩ := machineInv_run hr
  have hlist := h.heap.list
  obtain ⟨⟨w, s⟩, hok⟩ : ∃ r, liballocAlloc smallLayout x.kernel 1 = .ok r :=
    (liballocAlloc_returns hlist h.heap.bounds Nat.one_pos).resolve_right fun hshort => by
      have := hshort.2
      omega
  have hfit := firstFit_one (s := x.kernel) h.heap
  obtain ⟨v, rs, _, _, _, hv, rfl, _⟩ :=
    (liballocAlloc_spec _ hlist h.heap.bounds Nat.one_pos covers_heapOf hok).resolve_left
      fun hnone => hfit hnone.1
  have hin : v ∈ heapPages := by
    have hsub := firstFit_subset h.heap.coalesced hv ⟨le_refl v, Nat.lt_succ_self v⟩
    rw [h.heap.tiles] at hsub
    exact hsub.1
  have hbounds : InHeap (v * PGSIZE) ∧ v * PGSIZE ≠ 0 := by
    obtain ⟨hlo, hhi⟩ := hin
    simp only [InHeap, KERNBASE, PHYSTOP, DEVSPACE, KHEAP_START_eq, KHEAP_END_eq, PGSIZE] at *
    omega
  have hmapped := liballocAlloc_mapped hlist h.heap.bounds Nat.one_pos hlen hok hbounds.2 Nat.one_pos
  rw [Nat.zero_mul, Nat.add_zero, Nat.mod_eq_of_lt (lt_trans hbounds.1.2 (by decide))] at hmapped
  have hstep : (machines smallLayout).step x (.heap (.alloc 1 (v * PGSIZE)))
      = some { x with kernel := s } := by
    show (KernelHeap.step smallLayout x.kernel (.alloc 1 (v * PGSIZE))).map _ = _
    rw [KernelHeap.step, hok]
    simp only [if_true, Option.map_some]
  have hc : CallNoHole [.setupkvm d] x (.heap (.alloc 1 (v * PGSIZE))) :=
    ⟨show 1 < ADDRESSES by decide, trivial⟩
  have hr' := RunIf.step _ hr hc hstep
  obtain ⟨own', L', Ps', h'⟩ := machineInv_run hr'
  have hagree : Agree { x with kernel := s } := by
    refine hall _ _ (hr'.mono fun cs x c _ hc => ?_)
    cases c with
    | heap e => exact hc.1
    | setupkvm | copyuvm | allocuvm | deallocuvm | freevm => trivial
  rcases h'.agree_iff.mp hagree with hnil | hunmapped
  · rw [show x.procs = [] from hnil] at hprocs
    cases hprocs
  · exact (translate_eq_none h'.heap.list.owned h'.heap.list.kdir).mp (hunmapped _ hbounds.1) hmapped

end Xv6e.Memory.KernelMappings
