import Xv6e.Fs.InodeSpecs

/-!
# What writes to inodes keep

Specifications of the functions that change inodes on the disk, over the account of `Good`: updates of a
locked inode, entries written to a directory, and the allocation of an inode.

* `updateInode_spec`, `writeDirent_spec`, `ialloc_spec`;
* `dirlink_new`, `dirlink_old` — `dirlink` of a name that is new, and of one that is there.
-/

namespace Xv6e.Fs.DiskSpecs

open Library.Locking Library.Sums
open Names Inodes Syscalls Fs.Sequential InodeSpecs
open Prog (wp wp_seq wp_mono wp_bind wp_atomic)
open Function (update update_self update_of_ne update_eq_self)

variable {R : ℕ → ℕ} {s t : State} {X : Multiset ℕ} {V N : Set ℕ} {n : ℕ} {E : Panic → Prop} {H : List ℕ}

/-! ### One locked inode -/

/-- **One loaded inode changes**, on the disk and in the cache. -/
theorem good_write (h : Good R s X V N) (hn : n ∈ V) {d : Dinode} {ip : Inode}
    (hd : t.dinode = update s.dinode n d) (hi : t.inode = update s.inode n ip) (huse : t.inUse = s.inUse)
    (hfiles : ∀ f, (t.file f).ref = 0 → (t.file f).ip = none) (hproc : t.proc = s.proc) (hcopy : CopyOf ip d)
    (htype : d.type ≠ .free) (href : ip.ref = (s.inode n).ref) (hv : ip.valid = true) :
    Good R t X V (N \ {n}) := by
  have hpos : 0 < ip.ref := href ▸ h.ref_pos (h.loaded n hn).1
  have hfds : ∀ p fd f, State.ofile t p fd = some f → f < NFILE := fun p fd f => by
    rw [State.ofile, hproc]
    exact h.fds p fd f
  refine ⟨fun m => ?_, hfiles, hfds, fun m => ?_, fun m hm => ?_, fun m hm => ?_, fun m => ?_, fun m => ?_,
    fun m hm => ?_, h.cached.same (fun m => ?_) huse⟩ <;> by_cases hmn : m = n
  · rw [hmn, hi, update_self, href]
    exact h.refs n
  · rw [hi, update_of_ne hmn]
    exact h.refs m
  · rw [hmn, hi, hd, update_self, update_self]
    exact fun _ _ => ⟨hcopy, htype⟩
  · rw [hi, hd, update_of_ne hmn, update_of_ne hmn]
    exact h.copied m
  · rw [hmn, hd, update_self]
    exact htype
  · rw [hd, update_of_ne hmn]
    exact h.alloc m hm
  · rw [hmn, hi, hd, update_self, update_self]
    exact fun _ _ => ⟨hv, hpos⟩
  · rw [hi, hd, update_of_ne hmn, update_of_ne hmn]
    exact h.linked m fun hN => hm ⟨hN, hmn⟩
  · rw [hmn, hd, update_self]
    exact fun _ => h.range n (h.copied_of_mem hn).2
  · rw [hd, update_of_ne hmn]
    exact h.range m
  · rw [hmn, hd, update_self]
    exact fun hf => absurd hf htype
  · rw [hd, update_of_ne hmn]
    exact h.empty m
  · rw [hmn, hi, update_self]
    exact ⟨(h.loaded n hn).1, hv⟩
  · rw [hi, update_of_ne hmn]
    exact h.loaded m hm
  · rw [hmn, hi, update_self, href]
  · rw [hi, update_of_ne hmn]

/-- The blocks of the disk are accounted for when one inode changes and the free blocks change with it. -/
theorem total_write (hn : n < NINODES) {d : Dinode} (hd : t.dinode = update s.dinode n d)
    (hfree : t.freeBlocks + nblocks d.size = s.freeBlocks + nblocks (s.dinode n).size) :
    total t = total s := by
  have := tally_update hn (fun d => nblocks d.size) s.dinode d
  rw [total, total, hd, usedBlocks, usedBlocks]
  omega

theorem updateInode_spec (h : Good R s X V N) (hn : n ∈ V) {f : Inode → Inode} {d : Dinode}
    (href : (f (s.inode n)).ref = (s.inode n).ref) (hv : (f (s.inode n)).valid = (s.inode n).valid)
    (htype : (f (s.inode n)).type = (s.inode n).type) (hcopy : CopyOf (f (s.inode n)) d)
    (hsize : d.entries = (s.dinode n).entries ∧ d.fsize = (s.dinode n).fsize) :
    (updateInode n f).wp E (fun _ t H' => H' = H ∧ Becomes s t (update s.dinode n d)
      ∧ Good R t X V (N \ {n})) s H := by
  obtain ⟨h1, h2, h3, h4⟩ := hcopy
  obtain ⟨⟨hc, _⟩, hfree⟩ := h.copied_of_mem hn
  have hd : ((s.setInode n (f (s.inode n))).iupdate n).dinode = update s.dinode n d := by
    show update s.dinode n _ = _
    congr 1
    simp only [State.setInode, update_self, h1, h2, h3, h4, ← hsize.1, ← hsize.2]
  rw [updateInode, Prog.wp_modify]
  refine ⟨rfl, ⟨hd, total_write (h.range n hfree).2 hd ?_, rfl, rfl⟩,
    good_write h hn hd rfl rfl h.files rfl ⟨h1, h2, h3, h4⟩ ?_ href (hv ▸ (h.loaded n hn).2)⟩
  · show s.freeBlocks + _ = _
    rw [Dinode.size, Dinode.size, hsize.1, hsize.2]
  · rw [← h1, htype, hc]
    exact hfree

/-- The link count of an inode changed by `z`. -/
def addLink (d : Dinode) (z : ℤ) : Dinode := { d with nlink := short (d.nlink + z) }

theorem incLink_spec (h : Good R s X V ∅) (hn : n ∈ V) :
    (incLink n).wp E (fun _ t H' => H' = H ∧ Becomes s t (update s.dinode n (addLink (s.dinode n) 1))
      ∧ Good R t X V ∅) s H := by
  obtain ⟨h1, h2, h3, h4⟩ := (h.copied_of_mem hn).1
  have := updateInode_spec (E := E) (H := H) (f := fun i => { i with nlink := short (i.nlink + 1) }) h hn
    (d := addLink (s.dinode n) 1) rfl rfl rfl ⟨h1, h2, h3, by rw [addLink, h4]⟩ ⟨rfl, rfl⟩
  rwa [Set.empty_sdiff] at this

theorem decLink_spec (h : Good R s X V ∅) (hn : n ∈ V) :
    (decLink n).wp E (fun _ t H' => H' = H ∧ Becomes s t (update s.dinode n (addLink (s.dinode n) (-1)))
      ∧ Good R t X V ∅) s H := by
  obtain ⟨h1, h2, h3, h4⟩ := (h.copied_of_mem hn).1
  have := updateInode_spec (E := E) (H := H) (f := fun i => { i with nlink := short (i.nlink - 1) }) h hn
    (d := addLink (s.dinode n) (-1)) rfl rfl rfl ⟨h1, h2, h3, by rw [addLink, h4, sub_eq_add_neg]⟩ ⟨rfl, rfl⟩
  rwa [Set.empty_sdiff] at this

/-! ### Entries -/

theorem nblocks_mono {a b : ℕ} (h : a ≤ b) : nblocks a ≤ nblocks b := by
  have hdata : (a + BSIZE - 1) / BSIZE ≤ (b + BSIZE - 1) / BSIZE := Nat.div_le_div_right (by omega)
  simp only [nblocks]
  split_ifs <;> omega

theorem length_putEntry_le (entries : List Dirent) (k : ℕ) (de : Dirent) :
    entries.length ≤ (putEntry entries k de).length := by
  rw [putEntry]
  split <;> simp

/-- The directory `d` with an entry written at place `k`. -/
def withEntry (d : Dinode) (k : ℕ) (de : Dirent) : Dinode := { d with entries := putEntry d.entries k de }

theorem writeDirent_spec (hE : Others E) (h : Good R s X V ∅) (hn : n ∈ V) (off : ℕ) (de : Dirent) :
    (writeDirent n off de).wp E (fun r t H' => H' = H ∧ if r = true then
        Becomes s t (update s.dinode n (withEntry (s.dinode n) (off / direntSize) de)) ∧ Good R t X V ∅
      else t = s) s H := by
  obtain ⟨hcopy, htype⟩ := h.copied_of_mem hn
  have hsize : nblocks (s.dinode n).size ≤ nblocks (withEntry (s.dinode n) (off / direntSize) de).size := by
    have := length_putEntry_le (s.dinode n).entries (off / direntSize) de
    exact nblocks_mono (Nat.add_le_add_right (Nat.mul_le_mul_left _ this) _)
  rw [writeDirent, wp_atomic]
  by_cases hlimit : (s.dinode n).size < off ∨ MAXFILE * BSIZE < off + direntSize
  · simp only [if_pos hlimit]
    exact ⟨trivial, by simp⟩
  · simp only [if_neg hlimit]
    by_cases hfull : s.freeBlocks < nblocks (withEntry (s.dinode n) (off / direntSize) de).size
      - nblocks (s.dinode n).size
    · rw [withEntry] at hfull
      simp only [if_pos hfull]
      exact hE _ (by decide)
    · have hfull' := hfull
      rw [withEntry] at hfull'
      simp only [if_neg hfull', if_true]
      refine ⟨trivial, ⟨rfl, total_write (h.range n htype).2 rfl ?_, rfl, rfl⟩, ?_⟩
      · show s.freeBlocks
          - (nblocks (withEntry (s.dinode n) (off / direntSize) de).size - nblocks (s.dinode n).size)
          + nblocks (withEntry (s.dinode n) (off / direntSize) de).size = _
        omega
      · have := good_write (t := { s.setDinode n (withEntry (s.dinode n) (off / direntSize) de) with
            freeBlocks := s.freeBlocks
              - (nblocks (withEntry (s.dinode n) (off / direntSize) de).size - nblocks (s.dinode n).size) })
          (d := withEntry (s.dinode n) (off / direntSize) de)
          h hn rfl (update_eq_self n s.inode).symm rfl h.files rfl hcopy htype rfl (h.loaded n hn).2
        rwa [Set.empty_sdiff] at this

/-- The directory `d` with a new entry, as `dirlink` adds it. -/
def addEntry (d : Dinode) (name : Name) (inum : ℕ) : Dinode :=
  withEntry d (freeEntry d.entries 0 / direntSize) ⟨inum, name.take DIRSIZ⟩

theorem dirlink_new (hE : Others E) (h : Good R s X V ∅) (hn : n ∈ V) {name : Name} (inum : ℕ)
    (hnew : findEntry name (s.dinode n).entries 0 = none) :
    (dirlink n name inum).wp E (fun r t H' => r = true ∧ H' = H
      ∧ Becomes s t (update s.dinode n (addEntry (s.dinode n) name inum)) ∧ Good R t X V ∅) s H := by
  rw [dirlink]
  refine wp_seq (dirlookup_spec hE h hn name) ?_
  rintro _ t _ ⟨rfl, hq, _, rfl, hg⟩
  rw [hnew] at hg ⊢
  simp only [Option.map_none]
  rw [wp_bind, Prog.wp_read]
  refine wp_seq (writeDirent_spec hE hg hn _ _) ?_
  rintro r u _ ⟨rfl, hr⟩
  cases r with
  | true =>
    rw [if_pos rfl] at hr
    rw [hq.dinode] at hr
    exact ⟨rfl, rfl, hq.becomes.trans hr.1, hr.2⟩
  | false => exact hE _ (by decide)

theorem dirlink_old (hE : Others E) (h : Good R s X V ∅) (hs : Strict R s) (hn : n ∈ V) (hV : ∀ m ∈ V, m ∈ H)
    {name : Name} (inum : ℕ) (hold : findEntry name (s.dinode n).entries 0 ≠ none) :
    (dirlink n name inum).wp E (fun r t H' => r = false ∧ H' = H ∧ Quiet s t ∧ Good R t X V ∅) s H := by
  obtain ⟨⟨off, ip⟩, hf⟩ := Option.ne_none_iff_exists'.mp hold
  rw [dirlink]
  refine wp_seq (dirlookup_spec hE h hn name) ?_
  rintro _ t _ ⟨rfl, hq, _, rfl, hg⟩
  rw [hf] at hg ⊢
  refine wp_seq (iput_strict hg (hs.quiet hq) hV) ?_
  rintro _ u _ ⟨rfl, hq', hg'⟩
  exact ⟨rfl, rfl, hq.trans hq', hg'⟩

/-! ### Allocation -/

theorem takeInode_spec {type : FileType} (htype : type ≠ .free) (h : Good R s X V ∅)
    (hn : 0 < n ∧ n < NINODES) :
    (takeInode n type).wp E (fun r t H' => H' = H ∧ if r = true then (s.dinode n).type = .free
        ∧ Becomes s t (update s.dinode n { Dinode.zero with type := type }) ∧ Good R t X V {n}
      else t = s) s H := by
  rw [takeInode, wp_atomic]
  by_cases hfree : (s.dinode n).type = .free
  · simp only [if_pos hfree, if_true]
    have hn0 : ¬ (0 < (s.inode n).ref ∧ (s.inode n).valid = true) := fun hv => (h.copied n hv.1 hv.2).2 hfree
    refine ⟨trivial, hfree, ⟨rfl, ?_, rfl, rfl⟩, ?_⟩
    · refine total_write hn.2 rfl ?_
      rw [h.empty n hfree]
      rfl
    · refine ⟨h.refs, h.files, h.fds, fun m => ?_, fun m hm => ?_, fun m hm => ?_, fun m => ?_, fun m => ?_,
        h.loaded, h.cached⟩
        <;> simp only [State.setDinode]
      · by_cases hmn : m = n
        · rw [hmn]
          exact fun hp hv => absurd ⟨hp, hv⟩ hn0
        · rw [update_of_ne hmn]
          exact h.copied m
      · by_cases hmn : m = n
        · rw [hmn, update_self]
          exact htype
        · rw [update_of_ne hmn]
          exact h.alloc m hm
      · rw [update_of_ne hm]
        exact h.linked m (Set.notMem_empty m)
      · by_cases hmn : m = n
        · rw [hmn]
          exact fun _ => hn
        · rw [update_of_ne hmn]
          exact h.range m
      · by_cases hmn : m = n
        · rw [hmn, update_self]
          exact fun _ => rfl
        · rw [update_of_ne hmn]
          exact h.empty m
  · simp only [if_neg hfree]
    exact ⟨trivial, by simp⟩

theorem iallocLoop_spec (hE : Others E) {type : FileType} (htype : type ≠ .free) (l : List ℕ)
    (hl : ∀ n ∈ l, 0 < n ∧ n < NINODES) (h : Good R s X V ∅) :
    (iallocLoop type l).wp E (fun i t H' => H' = H ∧ (s.dinode i).type = .free ∧ (0 < i ∧ i < NINODES)
      ∧ Becomes s t (update s.dinode i { Dinode.zero with type := type })
      ∧ Good R t (i ::ₘ X) V {i}) s H := by
  induction l with
  | nil => exact hE _ (by decide)
  | cons n rest ih =>
    rw [iallocLoop]
    refine wp_seq (takeInode_spec htype h (hl n List.mem_cons_self)) ?_
    rintro r t _ ⟨rfl, hr⟩
    cases r with
    | true =>
      rw [if_pos rfl] at hr ⊢
      obtain ⟨hfree, hb, hg⟩ := hr
      refine wp_mono ?_ _ (iget_spec hE hg n)
      rintro _ u _ ⟨rfl, rfl, hq, hg'⟩
      have hbu := hb.trans hq.becomes
      rw [hb.dinode] at hbu
      exact ⟨rfl, hfree, hl _ List.mem_cons_self, hbu, hg'⟩
    | false =>
      rw [if_neg Bool.false_ne_true] at hr
      subst hr
      exact ih fun m hm => hl m (List.mem_cons_of_mem n hm)

/-- **`ialloc`** takes a free inode, and a reference to it. -/
theorem ialloc_spec (hE : Others E) {type : FileType} (htype : type ≠ .free) (h : Good R s X V ∅) :
    (ialloc type).wp E (fun i t H' => H' = H ∧ (s.dinode i).type = .free ∧ (0 < i ∧ i < NINODES)
      ∧ Becomes s t (update s.dinode i { Dinode.zero with type := type })
      ∧ Good R t (i ::ₘ X) V {i}) s H := by
  refine iallocLoop_spec hE htype _ (fun n hn => ?_) h
  rw [List.mem_range'_1] at hn
  simp only [NINODES] at *
  omega

end Xv6e.Fs.DiskSpecs
