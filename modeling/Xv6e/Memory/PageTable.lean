import Xv6e.Params

/-!
# Physical pages and page tables

The page allocator of `kalloc.c` and the page tables of `vm.c`.  A page of physical memory is named by the
kernel virtual address the allocator returns for it (`P2V` of its physical address); memory is a function from
pages and word indices to 32-bit words, so that a page directory and its page tables are the words of their
pages, and a walk reads them as the hardware does.  Pages that hold heap metadata are read through their own
view (`pageNext`, `numRegions`, `region`); `memset` overwrites every view of a page.

Addresses and words are natural numbers below `2 ^ 32`, with the wrap-around of `uint` written out.

* `walkpgdir`, `mappages`, `mapKernelPage`, `kfreeAndUnmapPage` — entries of page tables;
* `setupkvm`, `allocuvm`, `deallocuvm`, `freevm`, `copyuvm` — address spaces;
* `pteAt`, `translation` — the entry a page table has for an address, and the translation it gives.
-/

namespace Xv6e.Memory.PageTable

/-! ### Layout -/

def PGSIZE : ℕ := 4096

def NPDENTRIES : ℕ := 1024

def EXTMEM : ℕ := 0x100000

def PHYSTOP : ℕ := 0xE000000

/-- Other devices are at high addresses. -/
def DEVSPACE : ℕ := 0xFE000000

/-- Address where the kernel is linked. -/
def KERNLINK : ℕ := KERNBASE + EXTMEM

def V2P (a : ℕ) : ℕ := (a + (ADDRESSES - KERNBASE)) % ADDRESSES

def P2V (a : ℕ) : ℕ := (a + KERNBASE) % ADDRESSES

def PDX (va : ℕ) : ℕ := va / 2 ^ 22 % NPDENTRIES

def PTX (va : ℕ) : ℕ := va / 2 ^ 12 % NPDENTRIES

def PGROUNDDOWN (a : ℕ) : ℕ := a / PGSIZE * PGSIZE

def PGROUNDUP (sz : ℕ) : ℕ := PGROUNDDOWN ((sz + PGSIZE - 1) % ADDRESSES)

def PTE_P : ℕ := 1

def PTE_W : ℕ := 2

def PTE_U : ℕ := 4

/-- Address in page table or page directory entry, `pte & ~0xFFF`. -/
def PTE_ADDR (pte : ℕ) : ℕ := pte / PGSIZE * PGSIZE

def PTE_FLAGS (pte : ℕ) : ℕ := pte % PGSIZE

/-- The symbols of the linker script: the start of the data segment and the end of the kernel. -/
structure Layout where
  data : ℕ
  kernelEnd : ℕ
  data_gt : KERNLINK < data
  data_lt : data < KERNBASE + PHYSTOP
  data_aligned : data % PGSIZE = 0
  end_ge : KERNBASE ≤ kernelEnd

inductive Stop where
  /-- `kfree` of an address that is not a free-able page. -/
  | kfree
  /-- `mappages` met an entry that is present. -/
  | remap
  /-- `setupkvm`: PHYSTOP too high. -/
  | phystopTooHigh
  /-- `freevm`: no pgdir. -/
  | noPgdir
  /-- `copyuvm`: pte should exist. -/
  | pteShouldExist
  /-- `copyuvm`: page not present. -/
  | pageNotPresent
  /-- `clearpteu`: no entry. -/
  | clearpteu
  /-- `kheap_alloc_pages`: out of physical memory. -/
  | outOfPhysicalMemory
  /-- `kheap_free_pages`: out of metadata. -/
  | outOfMetadata
  /-- `kheap_init`: failed to allocate initial metadata page. -/
  | heapInit
  /-- A loop that is not over when every node or page there can be has been visited. -/
  | loops
  deriving DecidableEq, Repr

/-! ### Memory -/

/-- `struct vmem_region`; pointers are addresses, `0` is null. -/
structure Region where
  baseVaddr : ℕ
  numPages : ℕ
  next : ℕ
  metadataPage : ℕ
  deriving DecidableEq, Repr

/-- Physical memory and the allocator's free list.  `word page i` is word `i` of a page; `pageNext` and
`numRegions` are the header of a page that is a `struct kheap_metadata_page`, and `region` the
`struct vmem_region` at an address. -/
structure Mem where
  freelist : List ℕ
  word : ℕ → ℕ → ℕ
  pageNext : ℕ → ℕ
  numRegions : ℕ → ℕ
  region : ℕ → Region

/-- Four bytes of the value `memset` writes. -/
def byteWord (c : ℕ) : ℕ := c * 0x01010101

def Mem.memset (m : Mem) (v c : ℕ) : Mem :=
  { m with
    word := fun page i => if page = v then byteWord c else m.word page i
    pageNext := fun page => if page = v then byteWord c else m.pageNext page
    numRegions := fun page => if page = v then byteWord c else m.numRegions page
    region := fun a => if v ≤ a ∧ a < v + PGSIZE
      then ⟨byteWord c, byteWord c, byteWord c, byteWord c⟩ else m.region a }

/-- `memmove(dst, src, PGSIZE)` on pages of words. -/
def Mem.copyPage (m : Mem) (dst src : ℕ) : Mem :=
  { m with word := fun page i => if page = dst then m.word src i else m.word page i }

def Mem.setWord (m : Mem) (v i w : ℕ) : Mem :=
  { m with word := fun page j => if page = v ∧ j = i then w else m.word page j }

/-- `kalloc`: a page, or `0` when there is none. -/
def kalloc (m : Mem) : ℕ × Mem :=
  match m.freelist with
  | [] => (0, m)
  | r :: rest => (r, { m with freelist := rest })

/-- `kfree`: the page is filled with junk and put on the free list. -/
def kfree (lay : Layout) (v : ℕ) (m : Mem) : Except Stop Mem :=
  if v % PGSIZE ≠ 0 ∨ v < lay.kernelEnd ∨ PHYSTOP ≤ V2P v then .error .kfree
  else
    let m := m.memset v 1
    .ok { m with freelist := v :: m.freelist }

/-! ### Page tables -/

def Present (pte : ℕ) : Prop := pte &&& PTE_P ≠ 0

instance (pte : ℕ) : Decidable (Present pte) := inferInstanceAs (Decidable (_ ≠ _))

/-- The entry of a page directory for a page table. -/
def tableEntry (pgtab : ℕ) : ℕ := V2P pgtab ||| PTE_P ||| PTE_W ||| PTE_U

/-- `walkpgdir`: the page table and the index in it of the entry for `va`, `none` for a null pointer. -/
def walkpgdir (m : Mem) (pgdir va : ℕ) (alloc : Bool) : Option (ℕ × ℕ) × Mem :=
  let pde := m.word pgdir (PDX va)
  if Present pde then (some (P2V (PTE_ADDR pde), PTX va), m)
  else if alloc = false then (none, m)
  else
    let (pgtab, m) := kalloc m
    if pgtab = 0 then (none, m)
    else
      -- Make sure all those PTE_P bits are zero.
      let m := m.memset pgtab 0
      (some (pgtab, PTX va), m.setWord pgdir (PDX va) (tableEntry pgtab))

/-- The loop of `mappages` from page `a` to page `last`; `false` for the return value `-1`. -/
def mapLoop (pgdir last perm : ℕ) : ℕ → ℕ → ℕ → Mem → Except Stop (Bool × Mem)
  | 0, _, _, _ => .error .loops
  | fuel + 1, a, pa, m =>
    match walkpgdir m pgdir a true with
    | (none, m) => .ok (false, m)
    | (some (pgtab, i), m) =>
      if Present (m.word pgtab i) then .error .remap
      else
        let m := m.setWord pgtab i (pa ||| perm ||| PTE_P)
        if a = last then .ok (true, m)
        else mapLoop pgdir last perm fuel ((a + PGSIZE) % ADDRESSES) ((pa + PGSIZE) % ADDRESSES) m

/-- The number of pages of the address space. -/
def PAGES : ℕ := 2 ^ 20

def mappages (m : Mem) (pgdir va size pa perm : ℕ) : Except Stop (Bool × Mem) :=
  mapLoop pgdir (PGROUNDDOWN ((va + size + (ADDRESSES - 1)) % ADDRESSES)) perm PAGES (PGROUNDDOWN va) pa m

/-- `map_kernel_page` on the kernel's page directory; `false` for the return value `-1`. -/
def mapKernelPage (kpgdir : ℕ) (m : Mem) (vaddr paddr perm : ℕ) : Bool × Mem :=
  match walkpgdir m kpgdir vaddr true with
  | (none, m) => (false, m)
  | (some (pgtab, i), m) => (true, m.setWord pgtab i (paddr ||| perm ||| PTE_P))

/-- `kfree_and_unmap_page` on the kernel's page directory. -/
def kfreeAndUnmapPage (lay : Layout) (kpgdir : ℕ) (m : Mem) (vaddr : ℕ) : Except Stop Mem :=
  match walkpgdir m kpgdir vaddr false with
  | (none, m) => .ok m
  | (some (pgtab, i), m) =>
    if ¬ Present (m.word pgtab i) then .ok m
    else do
      let m ← kfree lay (P2V (PTE_ADDR (m.word pgtab i))) m
      .ok (m.setWord pgtab i 0)

/-! ### Address spaces -/

structure Kmap where
  virt : ℕ
  physStart : ℕ
  physEnd : ℕ
  perm : ℕ
  deriving DecidableEq, Repr

/-- The kernel's mappings: I/O space, kernel text and read-only data, kernel data and memory, devices. -/
def kmap (lay : Layout) : List Kmap :=
  [⟨KERNBASE, 0, EXTMEM, PTE_W⟩,
   ⟨KERNLINK, V2P KERNLINK, V2P lay.data, 0⟩,
   ⟨lay.data, V2P lay.data, PHYSTOP, PTE_W⟩,
   ⟨DEVSPACE, DEVSPACE, 0, PTE_W⟩]

def Kmap.size (k : Kmap) : ℕ := (k.physEnd + (ADDRESSES - k.physStart)) % ADDRESSES

/-- The loop of `deallocuvm` over the pages from `a` to `oldsz`. -/
def deallocLoop (lay : Layout) (pgdir oldsz : ℕ) : ℕ → ℕ → Mem → Except Stop Mem
  | 0, _, _ => .error .loops
  | fuel + 1, a, m =>
    if oldsz ≤ a then .ok m
    else
      match walkpgdir m pgdir a false with
      -- no page table: on to the first page of the next one, `PGADDR(PDX(a) + 1, 0, 0)`
      | (none, m) => deallocLoop lay pgdir oldsz fuel ((PDX a + 1) * 2 ^ 22 % ADDRESSES) m
      | (some (pgtab, i), m) =>
        if Present (m.word pgtab i) then
          let pa := PTE_ADDR (m.word pgtab i)
          if pa = 0 then .error .kfree
          else do
            let m ← kfree lay (P2V pa) m
            deallocLoop lay pgdir oldsz fuel ((a + PGSIZE) % ADDRESSES) (m.setWord pgtab i 0)
        else deallocLoop lay pgdir oldsz fuel ((a + PGSIZE) % ADDRESSES) m

def deallocuvm (lay : Layout) (m : Mem) (pgdir oldsz newsz : ℕ) : Except Stop (ℕ × Mem) :=
  if oldsz ≤ newsz then .ok (oldsz, m)
  else do
    let m ← deallocLoop lay pgdir oldsz (PAGES + 1) (PGROUNDUP newsz) m
    .ok (newsz, m)

/-- The loop of `freevm` over the directory entries from `i` on, `n` of them. -/
def freeTables (lay : Layout) (pgdir : ℕ) : ℕ → ℕ → Mem → Except Stop Mem
  | 0, _, m => .ok m
  | n + 1, i, m =>
    if Present (m.word pgdir i) then do
      let m ← kfree lay (P2V (PTE_ADDR (m.word pgdir i))) m
      freeTables lay pgdir n (i + 1) m
    else freeTables lay pgdir n (i + 1) m

def freevm (lay : Layout) (m : Mem) (pgdir : ℕ) : Except Stop Mem :=
  if pgdir = 0 then .error .noPgdir
  else do
    let (_, m) ← deallocuvm lay m pgdir KERNBASE 0
    let m ← freeTables lay pgdir NPDENTRIES 0 m
    kfree lay pgdir m

/-- The loop of `setupkvm` over rows of `kmap`; the page directory is freed and `0` returned when a mapping
fails. -/
def mapRows (lay : Layout) (pgdir : ℕ) : List Kmap → Mem → Except Stop (ℕ × Mem)
  | [], m => .ok (pgdir, m)
  | k :: rows, m => do
    let (ok, m) ← mappages m pgdir k.virt k.size k.physStart k.perm
    if ok then mapRows lay pgdir rows m
    else
      let m ← freevm lay m pgdir
      .ok (0, m)

/-- `setupkvm`: a new page directory with the kernel's mappings, or `0`. -/
def setupkvm (lay : Layout) (m : Mem) : Except Stop (ℕ × Mem) :=
  let (pgdir, m) := kalloc m
  if pgdir = 0 then .ok (0, m)
  else if DEVSPACE < P2V PHYSTOP then .error .phystopTooHigh
  else mapRows lay pgdir (kmap lay) (m.memset pgdir 0)

/-- The loop of `allocuvm` over the pages from `a` to `newsz`. -/
def allocLoop (lay : Layout) (pgdir oldsz newsz : ℕ) : ℕ → ℕ → Mem → Except Stop (ℕ × Mem)
  | 0, _, _ => .error .loops
  | fuel + 1, a, m =>
    if newsz ≤ a then .ok (newsz, m)
    else
      let (mem, m) := kalloc m
      if mem = 0 then do
        let (_, m) ← deallocuvm lay m pgdir newsz oldsz
        .ok (0, m)
      else do
        let (ok, m) ← mappages (m.memset mem 0) pgdir a PGSIZE (V2P mem) (PTE_W ||| PTE_U)
        if ok then allocLoop lay pgdir oldsz newsz fuel ((a + PGSIZE) % ADDRESSES) m
        else
          let (_, m) ← deallocuvm lay m pgdir newsz oldsz
          let m ← kfree lay mem m
          .ok (0, m)

def allocuvm (lay : Layout) (m : Mem) (pgdir oldsz newsz : ℕ) : Except Stop (ℕ × Mem) :=
  if KERNBASE ≤ newsz then .ok (0, m)
  else if newsz < oldsz then .ok (oldsz, m)
  else allocLoop lay pgdir oldsz newsz (PAGES + 1) (PGROUNDUP oldsz) m

/-- The loop of `copyuvm` over the pages of the parent from `i` to `sz`; `freevm` and `0` when memory runs
out. -/
def copyLoop (lay : Layout) (pgdir d sz : ℕ) : ℕ → ℕ → Mem → Except Stop (ℕ × Mem)
  | 0, _, _ => .error .loops
  | fuel + 1, i, m =>
    if sz ≤ i then .ok (d, m)
    else
      match walkpgdir m pgdir i false with
      | (none, _) => .error .pteShouldExist
      | (some (pgtab, j), m) =>
        if ¬ Present (m.word pgtab j) then .error .pageNotPresent
        else
          let pa := PTE_ADDR (m.word pgtab j)
          let flags := PTE_FLAGS (m.word pgtab j)
          let (mem, m) := kalloc m
          if mem = 0 then do
            let m ← freevm lay m d
            .ok (0, m)
          else do
            let (ok, m) ← mappages (m.copyPage mem (P2V pa)) d i PGSIZE (V2P mem) flags
            if ok then copyLoop lay pgdir d sz fuel ((i + PGSIZE) % ADDRESSES) m
            else
              let m ← kfree lay mem m
              let m ← freevm lay m d
              .ok (0, m)

/-- `copyuvm`: a copy of the parent's address space, or `0`. -/
def copyuvm (lay : Layout) (m : Mem) (pgdir sz : ℕ) : Except Stop (ℕ × Mem) := do
  let (d, m) ← setupkvm lay m
  if d = 0 then .ok (0, m)
  else copyLoop lay pgdir d sz (PAGES + 1) 0 m

/-! ### What a page table says of an address -/

/-- The entry for `va` of a page directory, `0` when there is no page table for it. -/
def pteAt (m : Mem) (pgdir va : ℕ) : ℕ :=
  if Present (m.word pgdir (PDX va)) then m.word (P2V (PTE_ADDR (m.word pgdir (PDX va)))) (PTX va) else 0

/-- The translation of `va`: physical address, writeable, accessible to user code.  The hardware takes the
permissions from both levels. -/
def translation (m : Mem) (pgdir va : ℕ) : Option (ℕ × Bool × Bool) :=
  let pde := m.word pgdir (PDX va)
  let pte := pteAt m pgdir va
  if Present pde ∧ Present pte then
    some (PTE_ADDR pte + va % PGSIZE, pde &&& pte &&& PTE_W ≠ 0, pde &&& pte &&& PTE_U ≠ 0)
  else none

end Xv6e.Memory.PageTable
