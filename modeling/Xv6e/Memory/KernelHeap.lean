import Xv6e.Memory.PageTable
import Xv6e.Library.PointerList
import Xv6e.Library.Transition

/-!
# The kernel heap

`kheap.c` pointer for pointer: the free list of regions of heap addresses, whose nodes are the slots of
metadata pages, and the list of those pages.  A slot is handed out at index `num_regions` of the first page
that is not full; recycling a slot decrements that counter and frees the page when it reaches zero.

* `getNewVmemRegion`, `recycleVmemRegion` — slots;
* `liballocAlloc`, `liballocFree`, `kheapInit` — the heap;
* `system` — the runs of the heap: allocations and releases, with the address an allocation returns in its
  event, so that the pages in use are a function of the history (`allocated`).
-/

namespace Xv6e.Memory.KernelHeap

open Library.PointerList Library.Transition PageTable

/-- Start right after mapped physical RAM. -/
def KHEAP_START : ℕ := P2V PHYSTOP

def KHEAP_END : ℕ := DEVSPACE

theorem KHEAP_START_eq : KHEAP_START = 0x8E000000 := rfl

theorem KHEAP_END_eq : KHEAP_END = 0xFE000000 := rfl

/-- `(PGSIZE - sizeof(struct kheap_metadata_page)) / sizeof(struct vmem_region)`. -/
def REGIONS_PER_PAGE : ℕ := (PGSIZE - 8) / 16

/-- The globals of the heap and of `vm.c`, and the memory. -/
structure Kernel where
  mem : Mem
  kpgdir : ℕ
  metadataPages : ℕ
  vmemFreeListHead : ℕ

def slotAddr (page i : ℕ) : ℕ := page + 8 + 16 * i

/-! ### Fields -/

def Kernel.region (s : Kernel) (p : ℕ) : Region := s.mem.region p

def Kernel.next (s : Kernel) (p : ℕ) : ℕ := (s.mem.region p).next

def Kernel.setRegion (s : Kernel) (p : ℕ) (r : Region) : Kernel :=
  { s with mem := { s.mem with region := fun a => if a = p then r else s.mem.region a } }

def Kernel.setNext (s : Kernel) (p q : ℕ) : Kernel := s.setRegion p { s.region p with next := q }

def Kernel.setNumRegions (s : Kernel) (page n : ℕ) : Kernel :=
  { s with mem := { s.mem with numRegions := fun a => if a = page then n else s.mem.numRegions a } }

def Kernel.setPageNext (s : Kernel) (page q : ℕ) : Kernel :=
  { s with mem := { s.mem with pageNext := fun a => if a = page then q else s.mem.pageNext a } }

/-- `if (prev) prev->next = q; else vmem_free_list_head = q;` -/
def Kernel.link (s : Kernel) (prev q : ℕ) : Kernel :=
  if prev ≠ 0 then s.setNext prev q else { s with vmemFreeListHead := q }

/-! ### Slots -/

/-- The slot at index `num_regions` of a page, now counted. -/
def takeSlot (s : Kernel) (page : ℕ) : ℕ × Kernel :=
  let region := slotAddr page (s.mem.numRegions page)
  let s := s.setNumRegions page ((s.mem.numRegions page + 1) % ADDRESSES)
  -- the back-pointer to its containing page
  (region, s.setRegion region { s.region region with metadataPage := page })

/-- `get_new_vmem_region`: a slot of the first page that is not full, or of a new page; `0` without memory. -/
def getNewVmemRegion (s : Kernel) : Except Stop (ℕ × Kernel) :=
  match seek s.mem.pageNext (fun page => s.mem.numRegions page < REGIONS_PER_PAGE) ADDRESSES 0
      s.metadataPages with
  | none => .error .loops
  | some (_, page) =>
    if page ≠ 0 then .ok (takeSlot s page)
    else
      let (newPage, m) := kalloc s.mem
      if newPage = 0 then .ok (0, { s with mem := m })
      else
        let s := Kernel.setNumRegions { s with mem := m } newPage 0
        let s := s.setPageNext newPage s.metadataPages
        .ok (takeSlot { s with metadataPages := newPage } newPage)

/-- `if(prev) prev->next = q; else metadata_pages = q;` -/
def Kernel.linkPage (s : Kernel) (prev q : ℕ) : Kernel :=
  if prev ≠ 0 then s.setPageNext prev q else { s with metadataPages := q }

/-- Remove a page from the list of metadata pages and free it. -/
def dropMetadataPage (lay : Layout) (s : Kernel) (page : ℕ) : Except Stop Kernel :=
  match seek s.mem.pageNext (fun current => current = page) ADDRESSES 0 s.metadataPages with
  | none => .error .loops
  | some (prev, current) =>
    if current = 0 then .ok s
    else do
      let m ← kfree lay page (s.linkPage prev (s.mem.pageNext current)).mem
      .ok { s.linkPage prev (s.mem.pageNext current) with mem := m }

/-- The counter of a page without one of its slots. -/
def Kernel.uncount (s : Kernel) (page : ℕ) : Kernel :=
  s.setNumRegions page ((s.mem.numRegions page + (ADDRESSES - 1)) % ADDRESSES)

/-- `recycle_vmem_region`: the slot is no longer counted, and a page with no slots left is freed. -/
def recycleVmemRegion (lay : Layout) (s : Kernel) (region : ℕ) : Except Stop Kernel :=
  let page := (s.region region).metadataPage
  if region = 0 ∨ page = 0 then .ok s
  else if (s.uncount page).mem.numRegions page = 0 then dropMetadataPage lay (s.uncount page) page
  else .ok (s.uncount page)

/-! ### Allocation -/

/-- The mapping loop of `liballoc_alloc`, from page `i` of the range on, `n` pages; what `map_kernel_page`
returns is ignored. -/
def mapHeapPages (kpgdir found : ℕ) : ℕ → ℕ → Mem → Except Stop Mem
  | 0, _, m => .ok m
  | n + 1, i, m =>
    let (page, m) := kalloc m
    if page = 0 then .error .outOfPhysicalMemory
    else
      let (_, m) := mapKernelPage kpgdir m ((found + i * PGSIZE) % ADDRESSES) (V2P page) (PTE_W ||| PTE_P)
      mapHeapPages kpgdir found n (i + 1) m

/-- What `liballoc_alloc` does to the region it has found: a perfect fit is unlinked and its slot recycled, a
larger region loses its first pages. -/
def carve (lay : Layout) (s : Kernel) (prev current numPages : ℕ) : Except Stop Kernel :=
  if (s.region current).numPages = numPages then
    recycleVmemRegion lay (s.link prev (s.next current)) current
  else .ok (s.setRegion current { s.region current with
    baseVaddr := ((s.region current).baseVaddr + numPages * PGSIZE) % ADDRESSES
    numPages := (s.region current).numPages - numPages })

/-- `liballoc_alloc`: the address of the pages, or `0`. -/
def liballocAlloc (lay : Layout) (s : Kernel) (numPages : ℕ) : Except Stop (ℕ × Kernel) :=
  if numPages = 0 then .ok (0, s)
  else
    match seek s.next (fun r => numPages ≤ (s.region r).numPages) ADDRESSES 0 s.vmemFreeListHead with
    | none => .error .loops
    | some (prev, current) =>
      if current = 0 then .ok (0, s)
      else do
        let t ← carve lay s prev current numPages
        let m ← mapHeapPages t.kpgdir (s.region current).baseVaddr numPages 0 t.mem
        .ok ((s.region current).baseVaddr, { t with mem := m })

/-! ### Release -/

/-- The unmapping loop of `liballoc_free`, from page `i` of the range on, `n` pages. -/
def unmapHeapPages (lay : Layout) (kpgdir vaddr : ℕ) : ℕ → ℕ → Mem → Except Stop Mem
  | 0, _, m => .ok m
  | n + 1, i, m => do
    let m ← kfreeAndUnmapPage lay kpgdir m ((vaddr + i * PGSIZE) % ADDRESSES)
    unmapHeapPages lay kpgdir vaddr n (i + 1) m

/-- The end of a region, `base_vaddr + num_pages * PGSIZE`. -/
def regionEnd (r : Region) : ℕ := (r.baseVaddr + r.numPages * PGSIZE) % ADDRESSES

/-- Coalesce backwards, or insert a new node: the node that now holds the range. -/
def insertFreed (s : Kernel) (prev current vaddr numPages : ℕ) : Except Stop (ℕ × Kernel) :=
  if prev ≠ 0 ∧ regionEnd (s.region prev) = vaddr then
    .ok (prev, s.setRegion prev { s.region prev with
      numPages := ((s.region prev).numPages + numPages) % ADDRESSES })
  else do
    let (newNode, s) ← getNewVmemRegion s
    if newNode = 0 then .error .outOfMetadata
    else
      let s := s.setRegion newNode { s.region newNode with
        baseVaddr := vaddr, numPages := numPages, next := current }
      .ok (newNode, s.link prev newNode)

/-- Coalesce forwards: absorb the next region if the node touches it. -/
def coalesceForward (lay : Layout) (s : Kernel) (node current : ℕ) : Except Stop Kernel :=
  if current ≠ 0 ∧ regionEnd (s.region node) = (s.region current).baseVaddr then
    let s := s.setRegion node { s.region node with
      numPages := ((s.region node).numPages + (s.region current).numPages) % ADDRESSES
      next := s.next current }
    recycleVmemRegion lay s current
  else .ok s

/-- `liballoc_free`; `false` for the return value `-1`. -/
def liballocFree (lay : Layout) (s : Kernel) (vaddr numPages : ℕ) : Except Stop (Bool × Kernel) :=
  if vaddr = 0 ∨ numPages = 0 then .ok (false, s)
  else do
    let m ← unmapHeapPages lay s.kpgdir vaddr numPages 0 s.mem
    let s := { s with mem := m }
    match seek s.next (fun r => ¬ (s.region r).baseVaddr < vaddr) ADDRESSES 0 s.vmemFreeListHead with
    | none => .error .loops
    | some (prev, current) =>
      let (node, s) ← insertFreed s prev current vaddr numPages
      let s ← coalesceForward lay s node current
      .ok (true, s)

/-- The slot that `liballoc_free` takes for the range, when it does not extend a region that ends there. -/
def takenSlot (lay : Layout) (s : Kernel) (vaddr numPages : ℕ) : Option ℕ :=
  if vaddr = 0 ∨ numPages = 0 then none
  else
    match unmapHeapPages lay s.kpgdir vaddr numPages 0 s.mem with
    | .error _ => none
    | .ok m =>
      let s := { s with mem := m }
      match seek s.next (fun r => ¬ (s.region r).baseVaddr < vaddr) ADDRESSES 0 s.vmemFreeListHead with
      | none => none
      | some (prev, _) =>
        if prev ≠ 0 ∧ regionEnd (s.region prev) = vaddr then none
        else
          match getNewVmemRegion s with
          | .error _ => none
          | .ok (newNode, _) => some newNode

/-- `kheap_init`: one region for the whole heap. -/
def kheapInit (s : Kernel) : Except Stop Kernel := do
  let (initialRegion, s) ← getNewVmemRegion s
  if initialRegion = 0 then .error .heapInit
  else
    let s := s.setRegion initialRegion { s.region initialRegion with
      baseVaddr := KHEAP_START, numPages := (KHEAP_END - KHEAP_START) / PGSIZE, next := 0 }
    .ok { s with vmemFreeListHead := initialRegion }

/-! ### Runs -/

/-- The slots on the free list, as far as a walk of all addresses goes. -/
def freeSlots (s : Kernel) : List ℕ := walk s.next ADDRESSES s.vmemFreeListHead

def metadataList (s : Kernel) : List ℕ := walk s.mem.pageNext ADDRESSES s.metadataPages

inductive Event where
  /-- `liballoc_alloc(numPages)` returns `vaddr`. -/
  | alloc (numPages vaddr : ℕ)
  /-- `liballoc_free(vaddr, numPages)` returns. -/
  | free (vaddr numPages : ℕ)
  deriving DecidableEq, Repr

def step (lay : Layout) (s : Kernel) : Event → Option Kernel
  | .alloc numPages vaddr =>
    match liballocAlloc lay s numPages with
    | .ok (v, t) => if v = vaddr then some t else none
    | .error _ => none
  | .free vaddr numPages =>
    match liballocFree lay s vaddr numPages with
    | .ok (_, t) => some t
    | .error _ => none

/-- The page numbers of a range of pages. -/
def pagesOf (vaddr numPages : ℕ) : Finset ℕ := Finset.Ico (vaddr / PGSIZE) (vaddr / PGSIZE + numPages)

/-- The page numbers in use after a history: those allocated and not released since. -/
def allocated (es : List Event) : Finset ℕ :=
  es.foldl (fun A e => match e with
    | .alloc numPages vaddr => if vaddr = 0 then A else A ∪ pagesOf vaddr numPages
    | .free vaddr numPages => A \ pagesOf vaddr numPages) ∅

/-- What callers respect: sizes are machine words, and only page-aligned ranges in use are released. -/
def Allowed (es : List Event) : Event → Prop
  | .alloc numPages _ => numPages < ADDRESSES
  | .free vaddr numPages => vaddr % PGSIZE = 0 ∧ numPages < ADDRESSES ∧ pagesOf vaddr numPages ⊆ allocated es

instance (es : List Event) : (e : Event) → Decidable (Allowed es e)
  | .alloc numPages _ => inferInstanceAs (Decidable (numPages < ADDRESSES))
  | .free _ _ => inferInstanceAs (Decidable (_ ∧ _))

theorem allocated_snoc (es : List Event) (e : Event) :
    allocated (es ++ [e]) = match e with
      | .alloc numPages vaddr => if vaddr = 0 then allocated es else allocated es ∪ pagesOf vaddr numPages
      | .free vaddr numPages => allocated es \ pagesOf vaddr numPages := by
  rw [allocated, List.foldl_append]
  cases e <;> rfl

end Xv6e.Memory.KernelHeap
