import Xv6e.User.UmallocRuns
import Xv6e.Memory.Copyout
import Xv6e.Process.Arguments
import Xv6e.Disk.BlockData

/-!
# The sizes of `malloc`

`malloc` rounds a request up to headers, and `morecore` asks `sbrk` for that many of them.  The sum of the
rounding and the product in `morecore` are words, and `sbrk` takes the product for an `int`.  `growproc`
accepts any `int`: for 0 it does nothing, and for a number that takes the sum below 0 `deallocuvm` does
nothing; in both cases `sbrk` returns the size that the process had, and `morecore` enters a block that is not
there.

* `sysSbrk`, `request` — the system call, which takes its argument from the user stack, and what `morecore`
  passes to it;
* `sysSbrk_refines` — for a positive argument the system call is the `sbrk` of the allocator's model;
* `SizesRight`, `sizes_right_iff` — the sizes are right exactly if the request leaves room for the rounding
  below `2 ^ 31`.
-/

namespace Xv6e.User.MallocSizes

open Umalloc UmallocRuns Library.RegionList Library.Transition
open Disk.BlockData (toInt toInt_of_lt)
open Process.Arguments (argint argAddr fetchint_eq wordAt)
open Memory.PageTable (Layout Mem Stop deallocuvm PGSIZE)
open Memory.Ownership (Owned setWord_word setWord_word_of_ne)
open Memory.Frames (frameAt)
open Memory.FrameCalls (deallocuvm_exact)
open Memory.HeapInvariant (smallLayout smallBoot)
open Memory.Copyout (byte userByte)
open Memory.Growproc

variable {lay : Layout} {m m' : Mem} {d sz esp sz' nbytes w : ℕ} {addr : ℤ}

/-- The argument of a system call of a process with page directory `pgdir`, size `sz` and stack pointer
`esp`. -/
def argument (m : Mem) (pgdir sz esp : ℕ) : Option ℕ := (argint ⟨sz, esp, userByte m pgdir⟩ 0).value

/-- `sys_sbrk`: what it returns, and the new size of the process. -/
def sysSbrk (lay : Layout) (m : Mem) (pgdir sz esp : ℕ) : Except Stop (ℤ × ℕ × Mem) :=
  match argument m pgdir sz esp with
  | none => .ok (-1, sz, m)
  | some n => do
    let addr := toInt sz
    let (ret, sz', m) ← growproc lay m pgdir sz (toInt n)
    if ret < 0 then .ok (-1, sz', m) else .ok (addr, sz', m)

/-- What `morecore(nu)` passes to `sbrk`, which takes it for an `int`. -/
def request (nu : ℕ) : ℕ := atLeast nu * 8 % ADDRESSES

/-- A process: memory in order, its page directory, and exactly the pages below its size. -/
structure Process (lay : Layout) (m : Mem) (d sz : ℕ) : Prop where
  kernel : KERNBASE < lay.kernelEnd
  owned : ∃ own kpgdir, Owned lay own kpgdir m ∧ own kpgdir = .dir ∧ own d = .dir
  sized : Sized m d sz
  below : sz < KERNBASE

/-- **The sizes are right** for a request: the headers hold it, one of them besides; if `sbrk` does not return
-1, the process has grown by the block that `morecore` enters; and a block that `malloc` returns is long
enough and ends within the memory of the process. -/
structure SizesRight (nbytes : ℕ) : Prop where
  units : nbytes + 8 ≤ units nbytes * 8
  grows : ∀ {lay m d sz esp addr sz' m'}, Process lay m d sz
    → argument m d sz esp = some (request (Umalloc.units nbytes)) →
    sysSbrk lay m d sz esp = .ok (addr, sz', m') → addr ≠ -1 →
    addr = sz ∧ sz' = sz + atLeast (Umalloc.units nbytes) * 8
  block : ∀ {base es P answers Q}, RunIf (system base) (fun _ s e => Allowed s e) es P →
    step base P (.malloc nbytes answers) = some Q → Q.returned ≠ 0 →
    ∃ b ∈ Q.live, b.1 + 8 = Q.returned ∧ Q.returned + nbytes ≤ b.1 + b.2 ∧ b.1 + b.2 ≤ Q.heap.top

/-! ### Positive arguments -/

theorem sysSbrk_eq (h : sz < KERNBASE) (harg : argument m d sz esp = some w) {ret : ℤ}
    (hgrow : growproc lay m d sz (toInt w) = .ok (ret, sz', m')) :
    sysSbrk lay m d sz esp = .ok (if ret < 0 then -1 else sz, sz', m') := by
  have hsz : toInt sz = sz := toInt_of_lt (lt_of_lt_of_le h (by decide))
  simp only [sysSbrk, harg, hgrow, hsz]
  show (if ret < 0 then _ else _) = _
  split_ifs <;> rfl

/-- **A positive argument** grows the process by as much, or fails and leaves its size; its memory stays in
order. -/
theorem sysSbrk_pos (h : Process lay m d sz) (hpos : 0 < w) (hw : w < 2 ^ 31)
    (harg : argument m d sz esp = some w) :
    ∃ addr sz' m', sysSbrk lay m d sz esp = .ok (addr, sz', m') ∧ Process lay m' d sz'
      ∧ (addr = -1 ∧ sz' = sz ∨ addr = sz ∧ sz' = sz + w) := by
  obtain ⟨own, kpgdir, howned, hkp, hd⟩ := h.owned
  obtain ⟨own₁, h₁, hdir₁⟩ := exists_exact howned
  obtain ⟨ret, sz', own₂, m', hgrow, h₂, hdir₂, hlt, hright⟩ :=
    grow_exact h.kernel h₁ (hdir₁ d hd) h.sized h.below (n := w) (by omega) (by omega)
  rw [← toInt_of_lt hw] at hgrow
  refine ⟨_, sz', m', sysSbrk_eq h.below harg hgrow,
    ⟨h.kernel, ⟨own₂, kpgdir, h₂.toOwned, hdir₂ _ (hdir₁ _ hkp), hdir₂ _ (hdir₁ _ hd)⟩,
      sized_of_right h.sized hright, hlt⟩, ?_⟩
  rcases hright with ⟨rfl, hsum, _⟩ | ⟨rfl, rfl, _⟩
  · exact Or.inr ⟨if_neg (by decide), by omega⟩
  · exact Or.inl ⟨if_pos (by decide), rfl⟩

/-! ### Requests that are small enough -/

theorem request_small (h : nbytes + 15 < 2 ^ 31) :
    request (units nbytes) = atLeast (units nbytes) * 8 ∧ request (units nbytes) < 2 ^ 31 := by
  obtain ⟨_, _, hsmall⟩ := units_bounds h
  have hlt : atLeast (units nbytes) * 8 < 2 ^ 31 := by
    rw [atLeast]
    split_ifs <;> omega
  rw [request, Nat.mod_eq_of_lt (lt_trans hlt (by decide))]
  exact ⟨rfl, hlt⟩

theorem grows_small (h : nbytes + 15 < 2 ^ 31) (hp : Process lay m d sz)
    (harg : argument m d sz esp = some (request (units nbytes))) (hok : sysSbrk lay m d sz esp
      = .ok (addr, sz', m')) (hne : addr ≠ -1) : addr = sz ∧ sz' = sz + atLeast (units nbytes) * 8 := by
  obtain ⟨hreq, hlt⟩ := request_small h
  have hpos := (le_atLeast (units nbytes)).2
  obtain ⟨_, _, _, hok', _, hres⟩ := sysSbrk_pos hp (by omega) hlt harg
  rw [hok] at hok'
  cases hok'
  rw [← hreq]
  exact hres.resolve_left fun hminus => hne hminus.1

/-- A block that the program has lies below the end of the process. -/
theorem live_below {base : ℕ} {P : Program} (h : Sound base P) {b : ℕ × ℕ} (hb : b ∈ P.live) :
    b.1 + b.2 ≤ P.heap.top := by
  rcases h with hstart | ⟨bs, hinv⟩
  · rw [hstart.live] at hb
    exact absurd hb List.not_mem_nil
  · have hpos := (hinv.size b hb).2
    -- the last byte of the block is one that `sbrk` gave
    have hlast : b.1 + b.2 - 1 ∈ covered P.live := Ico_subset_covered hb ⟨by omega, by omega⟩
    have hbelow := (hinv.good.range _ (hinv.live_sub hlast)).2
    omega

theorem block_small (h : nbytes + 15 < 2 ^ 31) {base : ℕ} {es : List Event} {P Q : Program}
    {answers : List (Option ℕ)} (hr : RunIf (system base) (fun _ s e => Allowed s e) es P)
    (hstep : step base P (.malloc nbytes answers) = some Q) (hne : Q.returned ≠ 0) :
    ∃ b ∈ Q.live, b.1 + 8 = Q.returned ∧ Q.returned + nbytes ≤ b.1 + b.2 ∧ b.1 + b.2 ≤ Q.heap.top := by
  obtain ⟨Q', hQ', hdoes, hsound⟩ := sound_step (e := .malloc nbytes answers) (sound_run hr) h
  rw [hstep] at hQ'
  obtain rfl := Option.some.inj hQ'
  rcases hdoes with ⟨hzero, _⟩ | ⟨_, b, hlive, hret, hlong, _⟩
  · exact absurd hzero hne
  · have hb : b ∈ Q.live := by
      rw [hlive]
      exact List.mem_append_right _ (List.mem_singleton_self b)
    exact ⟨b, hb, hret, hlong, live_below hsound hb⟩

theorem sizes_right_small (h : nbytes + 15 < 2 ^ 31) : SizesRight nbytes where
  units := by
    have := (units_bounds h).2.1
    omega
  grows := grows_small h
  block := block_small h

/-! ### Requests that are too large -/

/-- A request so large that the sum does not wrap makes the argument of `sbrk` 0 or negative. -/
theorem request_large (hlow : 2 ^ 31 ≤ nbytes + 15) (hhigh : nbytes + 8 ≤ units nbytes * 8)
    (hword : nbytes < 2 ^ 32) :
    toInt (request (units nbytes)) ≤ 0 ∧ -(2 ^ 31) ≤ toInt (request (units nbytes))
      ∧ toInt (request (units nbytes)) % 8 = 0 := by
  have hsum : units nbytes = (nbytes + 7) / 8 + 1 := by
    rw [units, ADDRESSES] at *
    omega
  have hnu : atLeast (units nbytes) = units nbytes := if_neg (by omega)
  rw [request, hnu, hsum, toInt, ADDRESSES]
  rw [units, ADDRESSES] at hhigh
  split_ifs <;> omega

/-- **An argument that is not positive**: a process that does not give back all its memory is told that `sbrk`
has succeeded, and has not grown. -/
theorem sysSbrk_nonpos (h : Process lay m d sz) (harg : argument m d sz esp = some w) (h1 : toInt w ≤ 0)
    (h2 : -(2 ^ 31) ≤ toInt w) (hpos : 0 < sz) (hall : -toInt w ≠ sz) :
    ∃ sz' m', sysSbrk lay m d sz esp = .ok (sz, sz', m') ∧ sz' ≤ sz
      ∧ (sz < -toInt w → sz' = sz ∧ m' = m) := by
  have hbelow := h.below
  suffices hgrow : ∃ sz' m', growproc lay m d sz (toInt w) = .ok (0, sz', m') ∧ sz' ≤ sz
      ∧ (sz < -toInt w → sz' = sz ∧ m' = m) by
    obtain ⟨sz', m', hgrow, hle, hsame⟩ := hgrow
    exact ⟨sz', m', by rw [sysSbrk_eq hbelow harg hgrow, if_neg (by decide)], hle, hsame⟩
  rcases eq_or_lt_of_le h1 with hzero | hneg
  · exact ⟨sz, m, by rw [hzero]; rfl, le_rfl, fun _ => ⟨rfl, rfl⟩⟩
  simp only [growproc, if_neg (not_lt.mpr h1), if_pos hneg]
  by_cases hmore : sz < -toInt w
  · -- the sum wraps around
    have hbig : sz ≤ ((sz + toInt w) % (ADDRESSES : ℕ)).toNat := by
      simp only [ADDRESSES, KERNBASE] at *
      omega
    rw [deallocuvm, if_pos hbig]
    exact ⟨sz, m, if_neg (by omega), le_rfl, fun _ => ⟨rfl, rfl⟩⟩
  · obtain ⟨k, hk⟩ : ∃ k : ℕ, ((sz + toInt w) % (ADDRESSES : ℕ)).toNat = k ∧ 0 < k ∧ k < sz := by
      simp only [ADDRESSES, KERNBASE] at *
      exact ⟨_, rfl, by omega, by omega⟩
    obtain ⟨own, kpgdir, howned, _, hd⟩ := h.owned
    obtain ⟨own₁, h₁, hdir₁⟩ := exists_exact howned
    obtain ⟨_, m', hdealloc, _⟩ := deallocuvm_exact h.kernel (le_of_lt hbelow) hk.2.2 h₁ (hdir₁ d hd)
    rw [hk.1, hdealloc]
    exact ⟨k, m', if_neg (by omega), by omega, fun hc => absurd hc hmore⟩

theorem wordAt_userByte {va : ℕ} (hw : w < 2 ^ 32) (hva : va % 4 = 0)
    (hword : m.word (frameAt m d va) (va % PGSIZE / 4) = w) : wordAt (userByte m d) va = w := by
  have hpage : ∀ k < 4, userByte m d (va + k) = UInt8.ofNat (w / 256 ^ k) := fun k hk => by
    have hsame : (va + k) / PGSIZE = va / PGSIZE ∧ (va + k) % PGSIZE / 4 = va % PGSIZE / 4
        ∧ (va + k) % PGSIZE % 4 = k := by
      simp only [PGSIZE]
      omega
    rw [userByte, byte, frameAt, Memory.Copyout.pteAt_samePage hsame.1, hsame.2.1, hsame.2.2]
    exact congrArg (fun x => UInt8.ofNat (x / 256 ^ k)) hword
  rw [wordAt, hpage 1 (by decide), hpage 2 (by decide), hpage 3 (by decide),
    show userByte m d va = _ from hpage 0 (by decide)]
  simp only [UInt8.toNat_ofNat']
  omega

/-- A process of the small machine with one page and a part of another, whose stack holds any argument. -/
theorem caller_small (hw : w < 2 ^ 32) :
    ∃ m, Process smallLayout m smallBoot.kpgdir 5004 ∧ argument m smallBoot.kpgdir 5004 4992 = some w := by
  obtain ⟨own, m, howned, hdir, _, hs⟩ := grown_small (n := 5004) (k := 5004) (by decide) (by decide)
    (by decide +kernel)
  have hthere := (hs 4996 (by decide)).mpr (by decide)
  have hown := howned.user _ 4996 hdir (by decide) hthere
  -- the argument is written to the page of the stack, which no page table is in
  have hwords : ∀ v, (own v).paging = true
      → (m.setWord (frameAt m smallBoot.kpgdir 4996) 225 w).word v = m.word v :=
    fun v hv => setWord_word_of_ne _ _ _ fun hc => by
      rw [hc, frameAt, hown] at hv
      cases hv
  have hpte := howned.pteAt_congr hwords hdir
  refine ⟨m.setWord (frameAt m smallBoot.kpgdir 4996) 225 w,
    ⟨by decide, ⟨own, _, howned.of_words rfl hwords, hdir, hdir⟩, fun va hva => ?_, by decide⟩, ?_⟩
  · rw [hpte]
    exact hs va hva
  · rw [argument, argint, show argAddr _ 0 = 4996 from rfl,
      fetchint_eq (show 5004 < KERNBASE by decide) (by decide), if_pos (show 4996 + 4 ≤ 5004 by decide)]
    refine congrArg some (wordAt_userByte hw (by decide) ?_)
    rw [show frameAt (m.setWord _ 225 w) smallBoot.kpgdir 4996 = frameAt m smallBoot.kpgdir 4996 from
      congrArg (fun e => Memory.PageTable.P2V (Memory.PageTable.PTE_ADDR e)) (hpte 4996), setWord_word]
    exact if_pos rfl

theorem not_right_large (hlow : 2 ^ 31 ≤ nbytes + 15) (hword : nbytes < 2 ^ 32) : ¬ SizesRight nbytes := by
  intro h
  obtain ⟨hle, hge, hmod⟩ := request_large hlow h.units hword
  obtain ⟨m, hp, harg⟩ := caller_small (w := request (Umalloc.units nbytes)) (Nat.mod_lt _ (by decide))
  obtain ⟨sz', m', hok, hsz, _⟩ := sysSbrk_nonpos hp harg hle hge (by decide) (by omega)
  have hgrown := (h.grows hp harg hok (by decide)).2
  have hpos := (le_atLeast (Umalloc.units nbytes)).2
  omega

/-- **The sizes of `malloc` are right** exactly for the requests that, rounded up with a header, stay below `2
^ 31`. -/
theorem sizes_right_iff (hword : nbytes < 2 ^ 32) : SizesRight nbytes ↔ nbytes + 15 < 2 ^ 31 := by
  constructor
  · intro h
    by_contra hlarge
    exact not_right_large (not_lt.mp hlarge) hword h
  · exact sizes_right_small

/-- A request for 100 bytes. -/
theorem sizes_right_hundred : SizesRight 100 := (sizes_right_iff (by decide)).mpr (by decide)

/-- **Two requests that go wrong**: `malloc(0xffffffff)` takes one header, and for `malloc(0x80000000)` a
process is told that it has grown by 2 gigabytes when nothing has changed. -/
theorem sizes_wrong : units 0xffffffff = 1 ∧ ¬ SizesRight 0xffffffff ∧ request (units 0x80000000) = 0x80000008
    ∧ ∃ m, Process smallLayout m smallBoot.kpgdir 5004
      ∧ argument m smallBoot.kpgdir 5004 4992 = some (request (units 0x80000000))
      ∧ sysSbrk smallLayout m smallBoot.kpgdir 5004 4992 = .ok (5004, 5004, m) := by
  obtain ⟨m, hp, harg⟩ := caller_small (w := request (units 0x80000000)) (by decide)
  obtain ⟨_, _, hok, _, hsame⟩ := sysSbrk_nonpos hp harg (by decide) (by decide) (by decide) (by decide)
  obtain ⟨rfl, rfl⟩ := hsame (by decide)
  exact ⟨by decide, fun h => absurd h.units (by decide), by decide, _, hp, harg, hok⟩

/-! ### The system call and the model -/

/-- **The system call is the `sbrk` of the allocator's model** for a positive argument: it returns, and some
answer gives what it returns and the size of the process, whose memory stays in order. -/
theorem sysSbrk_refines (h : Process lay m d sz) (hpos : 0 < w) (hw : w < 2 ^ 31)
    (harg : argument m d sz esp = some w) {s : Heap} (htop : s.top = sz) : ∃ addr sz' m' answer,
    sysSbrk lay m d sz esp = .ok (addr, sz', m') ∧ Process lay m' d sz'
      ∧ ((sbrk { s with answers := answer :: s.answers } w).1 = if addr = -1 then none else some addr.toNat)
      ∧ (sbrk { s with answers := answer :: s.answers } w).2.top = sz' := by
  obtain ⟨addr, sz', m', hok, hp, ⟨rfl, rfl⟩ | ⟨rfl, rfl⟩⟩ := sysSbrk_pos h hpos hw harg
  · exact ⟨-1, sz', m', none, hok, hp, rfl, htop⟩
  · have hfits : sz + w ≤ KERNBASE := le_of_lt hp.below
    refine ⟨sz, sz + w, m', some 0, hok, hp, ?_, ?_⟩
    · simp only [sbrk, htop, Nat.add_zero, if_pos hfits, if_neg (show ¬ ((sz : ℤ) = -1) by omega),
        Int.toNat_natCast]
    · simp only [sbrk, htop, Nat.add_zero, if_pos hfits]

/-- A process asks for a page. -/
theorem sysSbrk_refines_page : ∃ m addr sz' m', Process smallLayout m smallBoot.kpgdir 5004
    ∧ argument m smallBoot.kpgdir 5004 4992 = some 4096
    ∧ sysSbrk smallLayout m smallBoot.kpgdir 5004 4992 = .ok (addr, sz', m')
    ∧ Process smallLayout m' smallBoot.kpgdir sz' := by
  obtain ⟨m, hp, harg⟩ := caller_small (w := 4096) (by decide)
  obtain ⟨addr, sz', m', _, hok, hp', _⟩ := sysSbrk_refines hp (by decide) (by decide) harg
    (s := { newProgram.heap with top := 5004 }) rfl
  exact ⟨m, addr, sz', m', hp, harg, hok, hp'⟩

end Xv6e.User.MallocSizes
