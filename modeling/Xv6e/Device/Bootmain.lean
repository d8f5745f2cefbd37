import Xv6e.Params
import Xv6e.Library.ByteMemory

/-!
# The boot loader

`bootmain` reads the first page of the kernel file to a scratch area and then, for each program header, the
segment to its physical address.  `readseg` reads whole sectors, past the end of what is asked for.

* `readseg_eq` — the sectors that `readseg` reads and where they go;
* `load_segment` — one segment: its bytes, then zeros, and what lies below and in the scratch area is kept;
* `bootmain_loads` — all segments, in increasing order;
* `bootmain_top` — a segment in the last sector of the address space is read for ever.

Pointers are 32-bit.  The boot block's own code and its stack are not part of the memory that is modelled: no
segment is taken to lie over them.  The disk is a function from sectors to bytes; loops run at most `limit`
times.
-/

namespace Xv6e.Device.Bootmain

open Library.ByteMemory

def SECTSIZE : ℕ := 512

/-- The scratch space, `(struct elfhdr*)0x10000`. -/
def ELF : ℕ := 0x10000

def ELF_MAGIC : ℕ := 0x464C457F

abbrev Memory : Type := ℕ → UInt8

/-- A `ushort` in memory. -/
def ushort (m : Memory) (a : ℕ) : ℕ := (m a).toNat + 2 ^ 8 * (m (a + 1)).toNat

/-- A `uint` in memory. -/
def uint (m : Memory) (a : ℕ) : ℕ := ushort m a + 2 ^ 16 * ushort m (a + 2)

/-- Bytes stored one by one from `a` on, as `insl` and `stosb` do. -/
def store (m : Memory) (a : ℕ) : ℕ → (ℕ → UInt8) → Memory
  | 0, _ => m
  | n + 1, f => Function.update (store m a n f) ((a + n) % ADDRESSES) (f n)

variable {disk : ℕ → ℕ → UInt8} {file m m' : Memory} {a n pa epa offset count limit : ℕ}

/-- `readsect`: the sector number goes out in 28 bits. -/
def readsect (disk : ℕ → ℕ → UInt8) (dst offset : ℕ) (m : Memory) : Memory :=
  store m dst SECTSIZE (disk (offset % 2 ^ 28))

/-- The loop of `readseg`. -/
def readLoop (disk : ℕ → ℕ → UInt8) (epa : ℕ) : ℕ → ℕ → ℕ → Memory → Option Memory
  | 0, _, _, _ => none
  | limit + 1, pa, offset, m =>
    if pa < epa then readLoop disk epa limit ((pa + SECTSIZE) % ADDRESSES) ((offset + 1) % ADDRESSES)
      (readsect disk pa offset m)
    else some m

def readseg (disk : ℕ → ℕ → UInt8) (limit pa count offset : ℕ) (m : Memory) : Option Memory :=
  readLoop disk ((pa + count) % ADDRESSES) limit ((pa + (ADDRESSES - offset % SECTSIZE)) % ADDRESSES)
    (offset / SECTSIZE + 1) m

/-- The fields of a program header. -/
structure Segment where
  off : ℕ
  paddr : ℕ
  filesz : ℕ
  memsz : ℕ
  deriving DecidableEq

/-- The program header at `ph`. -/
def proghdr (m : Memory) (ph : ℕ) : Segment :=
  ⟨uint m (ph + 4), uint m (ph + 12), uint m (ph + 16), uint m (ph + 20)⟩

/-- The loop of `bootmain` over the program headers from `ph` to `eph`. -/
def loadLoop (disk : ℕ → ℕ → UInt8) (limit eph : ℕ) : ℕ → ℕ → Memory → Option Memory
  | 0, _, _ => none
  | n + 1, ph, m =>
    if ph < eph then
      let pa := (proghdr m ph).paddr
      (readseg disk limit pa (proghdr m ph).filesz (proghdr m ph).off m).bind fun m =>
        -- the sizes are read again, after the sectors
        let filesz := (proghdr m ph).filesz
        let memsz := (proghdr m ph).memsz
        loadLoop disk limit eph n ((ph + 32) % ADDRESSES)
          (if memsz > filesz then store m ((pa + filesz) % ADDRESSES) (memsz - filesz) fun _ => 0 else m)
    else some m

/-- `bootmain`, up to the call of the entry point. -/
def bootmain (disk : ℕ → ℕ → UInt8) (limit : ℕ) (m : Memory) : Option Memory :=
  (readseg disk limit ELF 4096 0 m).bind fun m =>
    if uint m ELF ≠ ELF_MAGIC then some m
    else
      let ph := (ELF + uint m (ELF + 28)) % ADDRESSES
      loadLoop disk limit ((ph + 32 * ushort m (ELF + 44)) % ADDRESSES) limit ph m

/-! ### Reading -/

theorem store_eq (h : a + n ≤ ADDRESSES) (f : ℕ → UInt8) : store m a n f = overwrite m a n f := by
  induction n with
  | zero => rw [store, overwrite_zero]
  | succ n ih => rw [store, ih (by omega), overwrite_succ, Nat.mod_eq_of_lt (by omega)]

/-- The disk holds the file from sector 1 on. -/
def Holds (disk : ℕ → ℕ → UInt8) (file : Memory) : Prop := ∀ i, ∀ j < SECTSIZE, disk (i + 1) j = file
    (SECTSIZE * i + j)

/-- The number of sectors for `count` bytes. -/
def sectors (count : ℕ) : ℕ := (count + (SECTSIZE - 1)) / SECTSIZE

theorem readsect_eq (hdisk : Holds disk file) (ha : a + SECTSIZE ≤ ADDRESSES) (hn : n + 1 < 2 ^ 28) :
    readsect disk a (n + 1) m = overwrite m a SECTSIZE fun j => file (SECTSIZE * n + j) := by
  rw [readsect, store_eq ha, Nat.mod_eq_of_lt hn]
  exact overwrite_congr fun j hj => hdisk n j hj

/-- The loop reads `k` sectors, if that is where it ends. -/
theorem readLoop_eq (hdisk : Holds disk file) {k : ℕ} (hend : epa ≤ pa + SECTSIZE * k)
    (hmore : ∀ i < k, pa + SECTSIZE * i < epa) (hfit : pa + SECTSIZE * k < ADDRESSES)
    (hn : n + k + 1 < 2 ^ 28) (hk : k < limit) :
    readLoop disk epa limit pa (n + 1) m
      = some (overwrite m pa (SECTSIZE * k) fun j => file (SECTSIZE * n + j)) := by
  induction k generalizing pa n m limit with
  | zero =>
    obtain ⟨l, rfl⟩ := Nat.exists_eq_succ_of_ne_zero hk.ne'
    rw [readLoop, if_neg (by omega), Nat.mul_zero, overwrite_zero]
  | succ k ih =>
    obtain ⟨l, rfl⟩ := Nat.exists_eq_succ_of_ne_zero (Nat.zero_lt_of_lt hk).ne'
    have hstep : SECTSIZE * (k + 1) = SECTSIZE + SECTSIZE * k := by rw [Nat.mul_succ, Nat.add_comm]
    have hmod : (n + 1 + 1) % ADDRESSES = n + 1 + 1 :=
      Nat.mod_eq_of_lt (lt_trans (by omega : _ < 2 ^ 28) (by decide))
    rw [readLoop, if_pos (by simpa using hmore 0 (Nat.succ_pos k)), readsect_eq hdisk (by omega) (by omega),
      Nat.mod_eq_of_lt (by omega : pa + SECTSIZE < _), hmod,
      ih (by omega) (fun i hi => ?_) (by omega) (by omega) (by omega), hstep, ← overwrite_append]
    · simp only [Nat.mul_succ, Nat.add_assoc]
    · have := hmore (i + 1) (by omega)
      rw [Nat.mul_succ] at this
      omega

/-- **`readseg`** reads whole sectors, past the end of what is asked for. -/
theorem readseg_eq (hdisk : Holds disk file) (hoff : offset % SECTSIZE = 0) (hlt : offset < ADDRESSES)
    (hcount : count < ADDRESSES) (hfit : pa + SECTSIZE * sectors count < ADDRESSES)
    (hk : sectors count < limit) :
    readseg disk limit pa count offset m
      = some (overwrite m pa (SECTSIZE * sectors count) fun j => file (offset + j)) := by
  have hsec : count ≤ SECTSIZE * sectors count ∧ ∀ i < sectors count, SECTSIZE * i < count := by
    simp only [sectors, SECTSIZE]
    exact ⟨by omega, fun i hi => by omega⟩
  have hpa : (pa + (ADDRESSES - offset % SECTSIZE)) % ADDRESSES = pa := by
    rw [hoff, Nat.sub_zero, Nat.add_mod_right, Nat.mod_eq_of_lt (by omega)]
  rw [readseg, Nat.mod_eq_of_lt (by omega : pa + count < _), hpa,
    readLoop_eq hdisk (by omega) (fun i hi => Nat.add_lt_add_left (hsec.2 i hi) pa) hfit ?_ hk]
  · rw [Nat.mul_div_cancel' (Nat.dvd_of_mod_eq_zero hoff)]
  · simp only [sectors, SECTSIZE, ADDRESSES] at *
    omega

/-! ### Segments -/

/-- The segment that program header `i` of the file describes. -/
def segment (file : Memory) (i : ℕ) : Segment := proghdr file (uint file 28 + 32 * i)

/-- What a kernel file has to be: the program headers are in the first page, file offsets are multiples of the
sector size, segments do not grow when they are read, they are in increasing order and disjoint, and they and
the sectors read for them stay away from the scratch area and from the end of the address space. -/
structure Loadable (file : Memory) : Prop where
  magic : uint file 0 = ELF_MAGIC
  headers : uint file 28 + 32 * ushort file 44 ≤ 4096
  aligned : ∀ i < ushort file 44, (segment file i).off % SECTSIZE = 0
  sizes : ∀ i < ushort file 44, (segment file i).filesz ≤ (segment file i).memsz
  ordered : ∀ i j, i < j → j < ushort file 44 → (segment file i).paddr + (segment file i).memsz
    ≤ (segment file j).paddr
  fits : ∀ i < ushort file 44, (segment file i).paddr + SECTSIZE * sectors (segment file i).filesz < ADDRESSES
    ∧ (segment file i).paddr + (segment file i).memsz ≤ ADDRESSES
  away : ∀ i < ushort file 44, ELF + 4096 ≤ (segment file i).paddr
    ∨ (segment file i).paddr + SECTSIZE * sectors (segment file i).filesz ≤ ELF
      ∧ (segment file i).paddr + (segment file i).memsz ≤ ELF

/-- The segment stands in memory: its bytes of the file, then zeros. -/
def InPlace (file : Memory) (g : Segment) (m : Memory) : Prop :=
  ∀ k < g.memsz, m (g.paddr + k) = if k < g.filesz then file (g.off + k) else 0

/-- The scratch area holds the first page of the file. -/
def Scratch (file m : Memory) : Prop := ∀ j < 4096, m (ELF + j) = file j

theorem ushort_lt (m : Memory) (a : ℕ) : ushort m a < 2 ^ 16 := by
  have h0 := (m a).toNat_lt
  have h1 := (m (a + 1)).toNat_lt
  rw [ushort]
  omega

theorem uint_lt (m : Memory) (a : ℕ) : uint m a < ADDRESSES := by
  have h0 := ushort_lt m a
  have h1 := ushort_lt m (a + 2)
  rw [uint, ADDRESSES]
  omega

theorem Scratch.ushort (h : Scratch file m) (ha : a + 2 ≤ 4096) :
    ushort m (ELF + a) = Bootmain.ushort file a := by
  rw [Bootmain.ushort, Bootmain.ushort, h a (by omega), Nat.add_assoc, h (a + 1) (by omega)]

theorem Scratch.uint (h : Scratch file m) (ha : a + 4 ≤ 4096) : uint m (ELF + a) = Bootmain.uint file a := by
  rw [Bootmain.uint, Bootmain.uint, h.ushort (by omega), Nat.add_assoc, h.ushort (by omega)]

theorem Scratch.proghdr (h : Scratch file m) (ha : a + 32 ≤ 4096) :
    proghdr m (ELF + a) = Bootmain.proghdr file a := by
  simp only [Bootmain.proghdr, Nat.add_assoc]
  rw [h.uint (by omega), h.uint (by omega), h.uint (by omega), h.uint (by omega)]

/-- The memory after a segment: the sectors, then the zeros. -/
def loaded (file : Memory) (g : Segment) (m : Memory) : Memory :=
  overwrite (overwrite m g.paddr (SECTSIZE * sectors g.filesz) fun j => file (g.off + j)) (g.paddr + g.filesz)
    (g.memsz - g.filesz) fun _ => 0

variable {g : Segment} {x : ℕ}

theorem loaded_inPlace (hsz : g.filesz ≤ g.memsz) : InPlace file g (loaded file g m) := by
  intro k hk
  have hsec : g.filesz ≤ SECTSIZE * sectors g.filesz := by
    simp only [sectors, SECTSIZE]
    omega
  split_ifs with hkf
  · rw [loaded, overwrite_outside (by omega), overwrite_add (by omega)]
  · obtain ⟨i, rfl⟩ := Nat.exists_eq_add_of_le (not_lt.mp hkf)
    rw [loaded, ← Nat.add_assoc, overwrite_add (by omega)]

/-- Below the segment nothing changes, nor beyond all that is written. -/
theorem loaded_outside
    (hx : x < g.paddr ∨ g.paddr + SECTSIZE * sectors g.filesz ≤ x ∧ g.paddr + g.memsz ≤ x) :
    loaded file g m x = m x := by
  rw [loaded, overwrite_outside (by omega), overwrite_outside (by omega)]

/-- **One segment.** -/
theorem load_segment (hdisk : Holds disk file) (hf : Loadable file) (hm : Scratch file m) {i : ℕ}
    (hi : i < ushort file 44) (hlimit : 2 ^ 23 < limit) {eph : ℕ}
    (heph : ELF + (uint file 28 + 32 * i) < eph) :
    loadLoop disk limit eph (n + 1) (ELF + (uint file 28 + 32 * i)) m
        = loadLoop disk limit eph n (ELF + (uint file 28 + 32 * (i + 1))) (loaded file (segment file i) m)
      ∧ Scratch file (loaded file (segment file i) m) := by
  have hhead := hf.headers
  have hbound : uint file 28 + 32 * i + 32 ≤ 4096 := by omega
  obtain ⟨hfit, hmem⟩ := hf.fits i hi
  have haway := hf.away i hi
  have hsz := hf.sizes i hi
  have hph : ∀ {m'}, Scratch file m' → proghdr m' (ELF + (uint file 28 + 32 * i)) = segment file i :=
    fun hm' => hm'.proghdr hbound
  have hoff : (segment file i).off < ADDRESSES := uint_lt ..
  have hfsz : (segment file i).filesz < ADDRESSES := uint_lt ..
  have hsect : sectors (segment file i).filesz < limit := by
    simp only [sectors, SECTSIZE, ADDRESSES] at *
    omega
  have hread := readseg_eq (m := m) hdisk (hf.aligned i hi) hoff hfsz hfit hsect
  have hscratch : Scratch file
    (overwrite m (segment file i).paddr (SECTSIZE * sectors (segment file i).filesz)
      fun j => file ((segment file i).off + j)) := fun j hj => by
    rw [overwrite_outside (by omega), hm j hj]
  have hzero : ∀ m' : Memory, (if (segment file i).memsz > (segment file i).filesz then
      store m' (((segment file i).paddr + (segment file i).filesz) % ADDRESSES)
        ((segment file i).memsz - (segment file i).filesz) fun _ => 0 else m')
      = overwrite m' ((segment file i).paddr + (segment file i).filesz)
        ((segment file i).memsz - (segment file i).filesz) fun _ => 0 := fun m' => by
    split_ifs with h
    · rw [Nat.mod_eq_of_lt (by omega), store_eq (by omega)]
    · rw [show (segment file i).memsz - (segment file i).filesz = 0 by omega, overwrite_zero]
  have hnext : (ELF + (uint file 28 + 32 * i) + 32) % ADDRESSES = ELF + (uint file 28 + 32 * (i + 1)) := by
    rw [Nat.mod_eq_of_lt (by rw [ELF, ADDRESSES]; omega)]
    omega
  constructor
  · rw [loadLoop, if_pos heph, hph hm]
    simp only [hread, Option.bind_some, hph hscratch, hnext, hzero]
    rfl
  · intro j hj
    rw [loaded_outside (by omega), hm j hj]

/-- **The loop** over the program headers: the segments before `i` are in place, and in the end all are. -/
theorem loadLoop_loads (hdisk : Holds disk file) (hf : Loadable file) (hlimit : 2 ^ 23 < limit) {i k : ℕ}
    (hm : Scratch file m) (hplace : ∀ j < i, InPlace file (segment file j) m) (hn : i + n = ushort file 44)
    (hk : n < k) :
    ∃ m', loadLoop disk limit (ELF + (uint file 28 + 32 * ushort file 44)) k
    (ELF + (uint file 28 + 32 * i)) m = some m'
      ∧ ∀ j < ushort file 44, InPlace file (segment file j) m' := by
  induction n generalizing i k m with
  | zero =>
    obtain ⟨k, rfl⟩ := Nat.exists_eq_succ_of_ne_zero hk.ne'
    exact ⟨m, by rw [loadLoop, if_neg (by omega)], fun j hj => hplace j (by omega)⟩
  | succ n ih =>
    obtain ⟨k, rfl⟩ := Nat.exists_eq_succ_of_ne_zero (Nat.zero_lt_of_lt hk).ne'
    have hi : i < ushort file 44 := by omega
    have heph : ELF + (uint file 28 + 32 * i) < ELF + (uint file 28 + 32 * ushort file 44) := by omega
    obtain ⟨hstep, hscratch⟩ := load_segment (n := k) hdisk hf hm hi hlimit heph
    rw [hstep]
    refine ih hscratch (fun j hj => ?_) (by omega) (by omega)
    rcases Nat.lt_succ_iff_lt_or_eq.mp hj with hlt | rfl
    · -- the earlier segments lie below
      have hord := hf.ordered j i hlt hi
      exact fun k hk => (loaded_outside (Or.inl (by omega))).trans (hplace j hlt k hk)
    · exact loaded_inPlace (hf.sizes j hi)

/-- The first page is read, and the loop begins at the first program header. -/
theorem bootmain_eq (hdisk : Holds disk file) (hmagic : uint file 0 = ELF_MAGIC)
    (hhead : uint file 28 + 32 * ushort file 44 ≤ 4096) (hlimit : 8 < limit) (m : Memory) :
    ∃ m', Scratch file m' ∧ bootmain disk limit m
      = loadLoop disk limit (ELF + (uint file 28 + 32 * ushort file 44)) limit
      (ELF + (uint file 28 + 32 * 0)) m' := by
  have hread : readseg disk limit ELF 4096 0 m = some (overwrite m ELF 4096 fun j => file (0 + j)) :=
    readseg_eq hdisk rfl (by decide) (by decide) (by decide) hlimit
  have hm : Scratch file (overwrite m ELF 4096 fun j => file (0 + j)) := fun j hj => by
    rw [overwrite_add hj, Nat.zero_add]
  refine ⟨_, hm, ?_⟩
  have hlt : ∀ a, a ≤ 4096 → (ELF + a) % ADDRESSES = ELF + a :=
    fun a ha => Nat.mod_eq_of_lt (by rw [ELF, ADDRESSES]; omega)
  have h0 : uint (overwrite m ELF 4096 fun j => file (0 + j)) ELF = ELF_MAGIC :=
    (hm.uint (a := 0) (by decide)).trans hmagic
  rw [bootmain, hread]
  simp only [Option.bind_some, h0, ne_eq, not_true_eq_false, if_false, hm.uint (by decide : 28 + 4 ≤ 4096),
    hm.ushort (by decide : 44 + 2 ≤ 4096)]
  rw [hlt _ (by omega), Nat.add_assoc, hlt _ hhead, Nat.mul_zero, Nat.add_zero]

/-- **The boot loader loads the kernel**: every segment stands at its physical address. -/
theorem bootmain_loads (disk : ℕ → ℕ → UInt8) (file m : Memory) (hdisk : Holds disk file) (hf : Loadable file)
    (limit : ℕ) (hlimit : 2 ^ 23 < limit) :
    ∃ m', bootmain disk limit m = some m' ∧ ∀ i < ushort file 44, InPlace file (segment file i) m' := by
  obtain ⟨m₁, hm, hboot⟩ := bootmain_eq hdisk hf.magic hf.headers (lt_trans (by decide) hlimit) m
  rw [hboot]
  exact loadLoop_loads hdisk hf hlimit hm (fun j hj => absurd hj (Nat.not_lt_zero j)) (Nat.zero_add _)
    (lt_trans (ushort_lt file 44) (lt_trans (by decide) hlimit))

/-- The bytes of a kernel file, with its program headers right after the file header. -/
def elfBytes (phnum : UInt8) (headers : List UInt8) : List UInt8 :=
  [0x7F, 0x45, 0x4C, 0x46] ++ List.replicate 24 0 ++ [52, 0, 0, 0] ++ List.replicate 12 0 ++ [phnum, 0]
    ++ List.replicate 6 0 ++ headers

/-- Two segments: a hundred bytes and a hundred zeros at `0x100000`, and ten bytes right after them. -/
def smallFile : Memory := fun i => (elfBytes 2
  ([1, 0, 0, 0, 0, 2, 0, 0, 0, 0, 0, 0, 0, 0, 0x10, 0, 100, 0, 0, 0, 200, 0, 0, 0] ++ List.replicate 8 0
    ++ [1, 0, 0, 0, 0, 4, 0, 0, 0, 0, 0, 0, 200, 0, 0x10, 0, 10, 0, 0, 0, 10, 0, 0, 0])).getD i 0

theorem loadable_smallFile : Loadable smallFile := by
  have htwo : ushort smallFile 44 = 2 := by decide
  refine ⟨by decide, by decide, by decide, by decide, fun i j hij hj => ?_, by decide, by decide⟩
  obtain rfl : j = 1 := by omega
  obtain rfl : i = 0 := by omega
  decide

/-- The sectors of the first segment reach into the second. -/
theorem bootmain_loads_small : ∃ m', bootmain (fun i j => smallFile (SECTSIZE * (i - 1) + j)) (2 ^ 23 + 1)
    (fun _ => 0) = some m' ∧ ∀ i < ushort smallFile 44, InPlace smallFile (segment smallFile i) m' :=
  bootmain_loads _ smallFile _ (fun _ _ _ => rfl) loadable_smallFile _ (Nat.lt_succ_self _)

/-! ### The end of the address space -/

/-- In a segment that ends in the last sector of the address space the pointer goes round below its end. -/
theorem readLoop_none (hpa : pa % SECTSIZE = 1) (hlt : pa < ADDRESSES)
    (hepa : ADDRESSES - (SECTSIZE - 1) < epa) : readLoop disk epa limit pa offset m = none := by
  induction limit generalizing pa offset m with
  | zero => rw [readLoop]
  | succ limit ih =>
    rw [readLoop, if_pos (by simp only [ADDRESSES, SECTSIZE] at *; omega)]
    exact ih (by simp only [ADDRESSES, SECTSIZE] at *; omega) (Nat.mod_lt _ (by decide))

/-- One segment of a hundred bytes, at `0xFFFFFE01`. -/
def topFile : Memory := fun i => (elfBytes 1
  [1, 0, 0, 0, 0, 2, 0, 0, 0, 0, 0, 0, 0x01, 0xFE, 0xFF, 0xFF, 100, 0, 0, 0, 100, 0, 0, 0]).getD i 0

/-- The file meets all that is asked of a kernel but that the last sector ends below the end of the address
space: its segment lies in the address space, away from the scratch area. -/
theorem bootmain_top :
    uint topFile 0 = ELF_MAGIC ∧ uint topFile 28 + 32 * ushort topFile 44 ≤ 4096 ∧ ushort topFile 44 = 1
      ∧ (segment topFile 0).off % SECTSIZE = 0 ∧ (segment topFile 0).filesz = (segment topFile 0).memsz
      ∧ ELF + 4096 ≤ (segment topFile 0).paddr
      ∧ (segment topFile 0).paddr + (segment topFile 0).memsz < ADDRESSES
      ∧ ∀ limit > 8, bootmain (fun i j => topFile (SECTSIZE * (i - 1) + j)) limit (fun _ => 0) = none := by
  have hmagic : uint topFile 0 = ELF_MAGIC := by decide
  have hseg : segment topFile 0 = ⟨512, 0xFFFFFE01, 100, 100⟩ := by
    rw [segment]
    decide
  refine ⟨hmagic, by decide, by decide, by rw [hseg]; decide, by rw [hseg], by rw [hseg]; decide,
    by rw [hseg]; decide, fun limit hlimit => ?_⟩
  have hdisk : Holds (fun i j => topFile (SECTSIZE * (i - 1) + j)) topFile := fun i j _ => rfl
  obtain ⟨m₁, hm, hboot⟩ := bootmain_eq hdisk hmagic (by decide) hlimit fun _ => 0
  obtain ⟨l, rfl⟩ := Nat.exists_eq_succ_of_ne_zero (Nat.zero_lt_of_lt hlimit).ne'
  have hproc : proghdr topFile (uint topFile 28 + 32 * 0) = ⟨512, 0xFFFFFE01, 100, 100⟩ := hseg
  have hnone : readseg (fun i j => topFile (SECTSIZE * (i - 1) + j)) (l + 1) 0xFFFFFE01 100 512 m₁ = none :=
    readLoop_none (by decide) (by decide) (by decide)
  rw [hboot, loadLoop, if_pos (by decide), hm.proghdr (by decide), hproc]
  simp only [hnone, Option.bind_none]

end Xv6e.Device.Bootmain
