import Xv6e.Fs.Sequential

/-!
# What the inode layer keeps

The account of references to cached inodes, and a specification of each function of the inode and directory
layers over it.  `Good R s X V N` describes a state in the middle of a call: the call holds the references
`X`, has locked and loaded the inodes `V`, and has allocated the inodes `N` without giving them a link yet.

* `Quiet` — nothing but the inode cache changes;
* `iget_spec`, `ilock_spec`, `iput_spec`, … — one specification a function;
* `namex_spec` — a look-up finds what `resolve` says, and keeps only the reference to it.
-/

namespace Xv6e.Fs.InodeSpecs

open Library.Locking Library.Sums
open Names Inodes Syscalls Fs.Sequential
open Prog (wp wp_seq wp_mono wp_bind wp_atomic)
open Function (update update_idem update_self update_of_ne)

/-! ### The account -/

/-- The fields of a cached inode are those on the disk. -/
def CopyOf (ip : Inode) (d : Dinode) : Prop :=
  ip.type = d.type ∧ ip.major = d.major ∧ ip.minor = d.minor ∧ ip.nlink = d.nlink

/-- `inUse` is the number of inodes with references, of which the cache has room for `NINODE`. -/
def Cached (s : State) : Prop :=
  ∃ F : Finset ℕ, (∀ n, n ∈ F ↔ 0 < (s.inode n).ref) ∧ s.inUse = F.card ∧ F.card ≤ NINODE

/-- The account of a state for a call with references `X`, loaded inodes `V` and new inodes `N`, where `R`
counts the references of current directories and open files. -/
structure Good (R : ℕ → ℕ) (s : State) (X : Multiset ℕ) (V N : Set ℕ) : Prop where
  /-- The count of an inode is that of the references to it. -/
  refs : ∀ n, (s.inode n).ref = R n + X.count n
  /-- A free file refers to no inode. -/
  files : ∀ f, (s.file f).ref = 0 → (s.file f).ip = none
  /-- Descriptors refer to places of the file table. -/
  fds : ∀ p fd f, State.ofile s p fd = some f → f < NFILE
  /-- A loaded inode is a copy of an allocated one. -/
  copied : ∀ n, 0 < (s.inode n).ref → (s.inode n).valid = true → CopyOf (s.inode n) (s.dinode n)
    ∧ (s.dinode n).type ≠ .free
  /-- Current directories and open files are allocated. -/
  alloc : ∀ n, 0 < R n → (s.dinode n).type ≠ .free
  /-- An inode without links is loaded and referenced. -/
  linked : ∀ n ∉ N, (s.dinode n).type ≠ .free → (s.dinode n).nlink = 0 →
    (s.inode n).valid = true ∧ 0 < (s.inode n).ref
  range : ∀ n, (s.dinode n).type ≠ .free → 0 < n ∧ n < NINODES
  empty : ∀ n, (s.dinode n).type = .free → (s.dinode n).size = 0
  loaded : ∀ n ∈ V, n ∈ X ∧ (s.inode n).valid = true
  cached : Cached s

/-- Nothing but the inode cache changes. -/
structure Quiet (s t : State) : Prop where
  dinode : t.dinode = s.dinode
  freeBlocks : t.freeBlocks = s.freeBlocks
  file : t.file = s.file
  proc : t.proc = s.proc

theorem Quiet.refl (s : State) : Quiet s s := ⟨rfl, rfl, rfl, rfl⟩

theorem Quiet.trans {s t u : State} (h : Quiet s t) (h' : Quiet t u) : Quiet s u :=
  ⟨h'.dinode.trans h.dinode, h'.freeBlocks.trans h.freeBlocks, h'.file.trans h.file, h'.proc.trans h.proc⟩

theorem held_congr {s t : State} (hf : t.file = s.file) (hp : t.proc = s.proc) (n : ℕ) :
    held t n = held s n := by
  rw [held, held, hf, hp]

theorem Quiet.held {s t : State} (h : Quiet s t) (n : ℕ) : held t n = held s n := held_congr h.file h.proc n

variable {R : ℕ → ℕ} {s t : State} {X : Multiset ℕ} {V N : Set ℕ} {n : ℕ}

theorem Cached.same (h : Cached s) (href : ∀ n, (t.inode n).ref = (s.inode n).ref)
    (huse : t.inUse = s.inUse) :
    Cached t := by
  obtain ⟨F, hF, hcard, hle⟩ := h
  exact ⟨F, fun n => by rw [href]; exact hF n, huse.trans hcard, hle⟩

theorem Cached.le (h : Cached s) : s.inUse ≤ NINODE := by
  obtain ⟨F, _, hcard, hle⟩ := h
  omega

theorem Cached.pos (h : Cached s) (hn : 0 < (s.inode n).ref) : 0 < s.inUse := by
  obtain ⟨F, hF, hcard, _⟩ := h
  rw [hcard]
  exact Finset.card_pos.mpr ⟨n, (hF n).mpr hn⟩

theorem Cached.set (h : Cached s) {ip : Inode} {k : ℕ} (hle : k ≤ NINODE)
    (hk : k + (if 0 < (s.inode n).ref then 1 else 0) = s.inUse + if 0 < ip.ref then 1 else 0) :
    Cached { s.setInode n ip with inUse := k } := by
  obtain ⟨F, hF, hcard, _⟩ := h
  have hcard' : k = (if 0 < ip.ref then insert n F else F.erase n).card := by
    simp only [← hF] at hk
    by_cases hn : n ∈ F
    · have := Finset.card_pos.mpr ⟨n, hn⟩
      split_ifs at hk ⊢
      · rw [Finset.insert_eq_of_mem hn]
        omega
      · rw [Finset.card_erase_of_mem hn]
        omega
    · split_ifs at hk ⊢
      · rw [Finset.card_insert_of_notMem hn]
        omega
      · rw [Finset.erase_eq_of_notMem hn]
        omega
  refine ⟨_, fun m => ?_, hcard', hcard' ▸ hle⟩
  show _ ↔ 0 < (update s.inode n ip m).ref
  by_cases hm : m = n
  · rw [hm, update_self]
    split_ifs with hpos <;> simp [hpos]
  · rw [update_of_ne hm, ← hF]
    split_ifs <;> simp [hm]

theorem Good.ref_pos (h : Good R s X V N) (hn : n ∈ X) : 0 < (s.inode n).ref := by
  have := h.refs n
  have := Multiset.count_pos.mpr hn
  omega

theorem Good.copied_of_mem (h : Good R s X V N) (hn : n ∈ V) :
    CopyOf (s.inode n) (s.dinode n) ∧ (s.dinode n).type ≠ .free :=
  h.copied n (h.ref_pos (h.loaded n hn).1) (h.loaded n hn).2

theorem Good.forget (h : Good R s X V N) {V' : Set ℕ} (hV : V' ⊆ V) : Good R s X V' N :=
  { h with loaded := fun n hn => h.loaded n (hV hn) }

/-- **One cached inode changes**, and the disk, the files and the processes do not. -/
theorem Good.cell (h : Good R s X V N) (n : ℕ) (ip : Inode) (k : ℕ) {X' : Multiset ℕ} {V' : Set ℕ}
    (hX : ∀ m, m ≠ n → X'.count m = X.count m) (href : ip.ref = R n + X'.count n)
    (hcopied : 0 < ip.ref → ip.valid = true → CopyOf ip (s.dinode n) ∧ (s.dinode n).type ≠ .free)
    (hlinked : (s.inode n).valid = true → 0 < (s.inode n).ref → (s.dinode n).nlink = 0 → ip.valid = true
      ∧ 0 < ip.ref) (hV : ∀ m ∈ V', m ≠ n → m ∈ V) (hn : n ∈ V' → n ∈ X' ∧ ip.valid = true)
      (hcached : Cached { s.setInode n ip with inUse := k }) :
    Quiet s { s.setInode n ip with inUse := k } ∧ Good R { s.setInode n ip with inUse := k } X' V' N := by
  have hself : (s.setInode n ip).inode n = ip := update_self ..
  have hother : ∀ m, m ≠ n → (s.setInode n ip).inode m = s.inode m := fun m hm => update_of_ne hm ..
  refine ⟨⟨rfl, rfl, rfl, rfl⟩, fun m => ?_, h.files, h.fds, fun m => ?_, h.alloc, fun m hm => ?_,
    h.range, h.empty, fun m hm => ?_, hcached⟩
  · show ((s.setInode n ip).inode m).ref = R m + X'.count m
    by_cases hmn : m = n
    · rw [hmn, hself, href]
    · rw [hother m hmn, hX m hmn]
      exact h.refs m
  · show 0 < ((s.setInode n ip).inode m).ref → ((s.setInode n ip).inode m).valid = true →
      CopyOf ((s.setInode n ip).inode m) (s.dinode m) ∧ (s.dinode m).type ≠ .free
    by_cases hmn : m = n
    · rw [hmn, hself]
      exact hcopied
    · rw [hother m hmn]
      exact h.copied m
  · intro htype hlink
    show ((s.setInode n ip).inode m).valid = true ∧ 0 < ((s.setInode n ip).inode m).ref
    have hs := h.linked m hm htype hlink
    by_cases hmn : m = n
    · rw [hmn] at hs hlink ⊢
      rw [hself]
      exact hlinked hs.1 hs.2 hlink
    · rwa [hother m hmn]
  · show m ∈ X' ∧ ((s.setInode n ip).inode m).valid = true
    by_cases hmn : m = n
    · rw [hmn] at hm ⊢
      rw [hself]
      exact hn hm
    · have hs := h.loaded m (hV m hm hmn)
      rw [hother m hmn, ← Multiset.count_pos, hX m hmn, Multiset.count_pos]
      exact hs

/-! ### Inodes -/

variable {E : Panic → Prop} {H : List ℕ}

/-- All panics but `ilock: no type` are allowed. -/
def Others (E : Panic → Prop) : Prop := ∀ e, e ≠ .ilockNoType → E e

theorem Good.addRef (h : Good R s X V N) (hpos : 0 < (s.inode n).ref) :
    Quiet s (s.setInode n { s.inode n with ref := (s.inode n).ref + 1 })
      ∧ Good R (s.setInode n { s.inode n with ref := (s.inode n).ref + 1 }) (n ::ₘ X) V N := by
  refine h.cell n _ s.inUse (fun m hm => Multiset.count_cons_of_ne hm X) ?_ (fun _ hv => h.copied n hpos hv)
    (fun hv _ _ => ⟨hv, Nat.succ_pos _⟩) (fun m hm _ => hm)
    (fun hn => ⟨Multiset.mem_cons_self n X, (h.loaded n hn).2⟩)
    (h.cached.set h.cached.le (by rw [if_pos hpos, if_pos (Nat.succ_pos _)]))
  rw [Multiset.count_cons_self, h.refs n, add_assoc]

theorem iget_spec (hE : Others E) (h : Good R s X V N) (n : ℕ) :
    (iget n).wp E (fun m t H' => m = n ∧ H' = H ∧ Quiet s t ∧ Good R t (n ::ₘ X) V N) s H := by
  rw [iget, wp_atomic]
  by_cases hpos : 0 < (s.inode n).ref
  · simp only [if_pos hpos]
    exact ⟨trivial, trivial, h.addRef hpos⟩
  · by_cases hfull : s.inUse = NINODE
    · simp only [if_neg hpos, if_pos hfull]
      exact hE _ (by decide)
    · simp only [if_neg hpos, if_neg hfull]
      have hzero := h.refs n
      refine ⟨trivial, trivial, h.cell n _ _ (fun m hm => Multiset.count_cons_of_ne hm X) ?_
        (fun _ hv => absurd hv Bool.false_ne_true) (fun _ hp _ => absurd hp hpos) (fun m hm _ => hm)
        (fun hn => absurd (h.ref_pos (h.loaded n hn).1) hpos)
        (h.cached.set (by have := h.cached.le; omega) (by rw [if_neg hpos, if_pos Nat.one_pos]))⟩
      rw [Multiset.count_cons_self]
      show 1 = _
      omega

theorem idup_spec (h : Good R s X V N) (hpos : 0 < (s.inode n).ref) :
    (idup n).wp E (fun m t H' => m = n ∧ H' = H ∧ Quiet s t ∧ Good R t (n ::ₘ X) V N) s H := by
  rw [idup, wp_atomic]
  exact ⟨rfl, rfl, h.addRef hpos⟩

theorem loadInode_spec (h : Good R s X V N) (hn : n ∈ X) (hE : (s.dinode n).type = .free → E .ilockNoType) :
    (loadInode n).wp E (fun _ t H' => H' = H ∧ Quiet s t ∧ Good R t X (insert n V) N) s H := by
  rw [loadInode, wp_atomic]
  by_cases hv : (s.inode n).valid = true
  · simp only [if_pos hv]
    refine ⟨trivial, Quiet.refl s, { h with loaded := ?_ }⟩
    rintro m (rfl | hm)
    · exact ⟨hn, hv⟩
    · exact h.loaded m hm
  · by_cases htype : (s.dinode n).type = .free
    · simp only [if_neg hv, if_pos htype]
      exact hE htype
    · simp only [if_neg hv, if_neg htype]
      exact ⟨trivial, h.cell n _ s.inUse (fun _ _ => rfl) (h.refs n)
        (fun _ _ => ⟨⟨rfl, rfl, rfl, rfl⟩, htype⟩)
        (fun hs _ _ => absurd hs hv) (fun m hm hne => Set.mem_of_mem_insert_of_ne hm hne) (fun _ => ⟨hn, rfl⟩)
        (h.cached.set h.cached.le rfl)⟩

/-- **`ilock`** locks and loads an inode that the process had not locked; it panics only on a free one. -/
theorem ilock_other (h : Good R s X V N) (hn : n ∈ X) (hE : (s.dinode n).type = .free → E .ilockNoType) :
    (ilock n).wp E (fun _ t H' => n ∉ H ∧ H' = n :: H ∧ Quiet s t ∧ Good R t X (insert n V) N) s H := by
  rw [ilock, wp_bind, Prog.wp_read, if_neg (by have := h.ref_pos hn; omega), wp_bind, Prog.wp_acquire]
  intro hfree
  refine wp_mono ?_ _ (loadInode_spec h hn hE)
  exact fun _ _ _ hpost => ⟨hfree, hpost⟩

theorem ilock_spec (h : Good R s X V N) (hn : n ∈ X) (hE : (s.dinode n).type = .free → E .ilockNoType) :
    (ilock n).wp E (fun _ t H' => H' = n :: H ∧ Quiet s t ∧ Good R t X (insert n V) N) s H :=
  wp_mono (fun _ _ _ hpost => hpost.2) _ (ilock_other h hn hE)

theorem iunlock_spec (h : Good R s X V N) (hn : n ∈ X) (hH : n ∈ H) :
    (iunlock n).wp E (fun _ t H' => H' = H.erase n ∧ t = s) s H := by
  rw [iunlock, wp_bind, Prog.wp_read, if_neg (by have := h.ref_pos hn; omega), Prog.wp_release]
  exact ⟨fun _ => ⟨rfl, rfl⟩, fun hne => absurd hH hne⟩

/-! ### Freeing -/

/-- The dinode that `iput` leaves when it frees an inode. -/
def freed (d : Dinode) : Dinode := { d with type := .free, entries := [], fsize := 0 }

/-- The blocks of the disk, free or owned by inodes. -/
def total (s : State) : ℕ := s.freeBlocks + usedBlocks s.dinode

theorem Quiet.total (h : Quiet s t) : total t = total s := by
  rw [InodeSpecs.total, InodeSpecs.total, h.dinode, h.freeBlocks]

/-- The reference to `n` that is about to be put is the last one, and there are no links. -/
def Last (R : ℕ → ℕ) (s : State) (X : Multiset ℕ) (n : ℕ) : Prop :=
  (s.dinode n).type ≠ .free ∧ (s.dinode n).nlink = 0 ∧ R n = 0 ∧ X.count n = 1

instance (R : ℕ → ℕ) (s : State) (X : Multiset ℕ) (n : ℕ) : Decidable (Last R s X n) := by
  unfold Last
  infer_instance

/-- The inodes on the disk after a reference to `n` is put: it is freed if that was the last one. -/
def afterPut (R : ℕ → ℕ) (s : State) (X : Multiset ℕ) (n : ℕ) : ℕ → Dinode :=
  if Last R s X n then update s.dinode n (freed (s.dinode n)) else s.dinode

/-- The inodes on the disk become `D`; the files and the processes stay, and no block is lost. -/
structure Becomes (s t : State) (D : ℕ → Dinode) : Prop where
  dinode : t.dinode = D
  total : total t = total s
  file : t.file = s.file
  proc : t.proc = s.proc

theorem Quiet.becomes (h : Quiet s t) : Becomes s t s.dinode := ⟨h.dinode, h.total, h.file, h.proc⟩

theorem Becomes.quiet (h : Becomes s t s.dinode) : Quiet s t := by
  have ht := h.total
  simp only [InodeSpecs.total, h.dinode] at ht
  exact ⟨h.dinode, by omega, h.file, h.proc⟩

theorem Becomes.trans {u : State} {D D' : ℕ → Dinode} (h : Becomes s t D) (h' : Becomes t u D') :
    Becomes s u D' :=
  ⟨h'.dinode, h'.total.trans h.total, h'.file.trans h.file, h'.proc.trans h.proc⟩

@[simp]
theorem nblocks_zero : nblocks 0 = 0 := rfl

@[simp]
theorem size_freed (d : Dinode) : (freed d).size = 0 := rfl

/-- The state after the sections of `iput` that free the inode. -/
def State.freeInode (s : State) (n : ℕ) : State :=
  { s.setDinode n (freed (s.dinode n)) with
    freeBlocks := s.freeBlocks + nblocks (s.dinode n).size
    inode := update s.inode n { s.inode n with type := .free, valid := false } }

theorem total_freeInode (hn : n < NINODES) : total (State.freeInode s n) = total s := by
  have := tally_update hn (fun d => nblocks d.size) s.dinode (freed (s.dinode n))
  simp only [size_freed, nblocks_zero] at this
  show s.freeBlocks + nblocks (s.dinode n).size + tally NINODES _ (update s.dinode n (freed (s.dinode n))) = _
  simp only [total, usedBlocks]
  omega

theorem freeIfLast_spec (h : Good R s X V ∅) (hn : n ∈ X) :
    (freeIfLast n).wp E (fun _ t H' => H' = H ∧ t = if Last R s X n then State.freeInode s n else s) s H := by
  have href := h.refs n
  have hcount := Multiset.count_pos.mpr hn
  rw [freeIfLast, wp_bind, Prog.wp_read]
  by_cases hl : Last R s X n
  · obtain ⟨htype, hlink, hheld, hone⟩ := hl
    obtain ⟨hv, hpos⟩ := h.linked n (Set.notMem_empty n) htype hlink
    obtain ⟨h1, h2, h3, h4⟩ := (h.copied n hpos hv).1
    rw [if_pos (decide_eq_true ⟨hv, h4.trans hlink, by omega⟩), if_pos ⟨htype, hlink, hheld, hone⟩, wp_bind,
      itrunc, Prog.wp_modify, Inodes.freeInode, Prog.wp_modify]
    refine ⟨rfl, ?_⟩
    simp only [State.freeInode, State.iupdate, State.setInode, State.setDinode, update_self,
      update_idem, h1, h2, h3, h4, freed]
  · rw [if_neg, if_neg hl]
    · exact ⟨rfl, rfl⟩
    · rw [Bool.not_eq_true, decide_eq_false_iff_not]
      rintro ⟨hv, hlink, hone⟩
      obtain ⟨⟨_, _, _, h4⟩, htype⟩ := h.copied n (by omega) hv
      exact hl ⟨htype, h4.symm.trans hlink, by omega, by omega⟩

theorem Good.freeInode (h : Good R s X V ∅) (hV : n ∉ V) (hl : Last R s X n) :
    Good R (State.freeInode s n) X V ∅ := by
  obtain ⟨_, _, hheld, _⟩ := hl
  have hd : ∀ m, m ≠ n → (State.freeInode s n).dinode m = s.dinode m := fun m hm => update_of_ne hm ..
  have hi : ∀ m, m ≠ n → (State.freeInode s n).inode m = s.inode m := fun m hm => update_of_ne hm ..
  have hdn : (State.freeInode s n).dinode n = freed (s.dinode n) := update_self ..
  have hin : (State.freeInode s n).inode n = { s.inode n with type := .free, valid := false } :=
    update_self ..
  refine ⟨fun m => ?_, h.files, h.fds, fun m => ?_, fun m hm => ?_, fun m hm => ?_, fun m => ?_, fun m => ?_,
    fun m hm => ?_, h.cached.same (fun m => ?_) rfl⟩
  · show ((State.freeInode s n).inode m).ref = R m + X.count m
    by_cases hmn : m = n
    · rw [hmn, hin]
      exact h.refs n
    · rw [hi m hmn]
      exact h.refs m
  · by_cases hmn : m = n
    · rw [hmn, hin]
      exact fun _ hv => absurd hv Bool.false_ne_true
    · rw [hi m hmn, hd m hmn]
      exact h.copied m
  · have hm : 0 < R m := hm
    rw [hd m (by rintro rfl; omega)]
    exact h.alloc m hm
  · by_cases hmn : m = n
    · rw [hmn, hdn]
      exact fun hf => absurd rfl hf
    · rw [hi m hmn, hd m hmn]
      exact h.linked m hm
  · by_cases hmn : m = n
    · rw [hmn, hdn]
      exact fun hf => absurd rfl hf
    · rw [hd m hmn]
      exact h.range m
  · by_cases hmn : m = n
    · rw [hmn, hdn]
      exact fun _ => rfl
    · rw [hd m hmn]
      exact h.empty m
  · rw [hi m (fun hmn => hV (hmn ▸ hm))]
    exact h.loaded m hm
  · by_cases hmn : m = n
    · rw [hmn, hin]
    · rw [hi m hmn]

theorem dropRef_spec (h : Good R s X V ∅) (hn : n ∈ X) (hV : n ∉ V) (hl : ¬ Last R s X n) :
    (dropRef n).wp E (fun _ t H' => H' = H ∧ Quiet s t ∧ Good R t (X.erase n) V ∅) s H := by
  have href := h.refs n
  have hcount := Multiset.count_pos.mpr hn
  rw [dropRef, Prog.wp_modify]
  refine ⟨rfl, h.cell n _ _ (fun m hm => Multiset.count_erase_of_ne hm X) ?_
    (fun _ hv => h.copied n (by omega) hv)
    (fun hv hpos hlink => ⟨hv, ?_⟩) (fun m hm _ => hm) (fun hn => absurd hn hV) (h.cached.set ?_ ?_)⟩
  · rw [Multiset.count_erase_self]
    show (s.inode n).ref - 1 = _
    omega
  · show 0 < (s.inode n).ref - 1
    have htype := (h.copied n hpos hv).2
    by_contra hle
    exact hl ⟨htype, hlink, by omega, by omega⟩
  · have := h.cached.le
    split_ifs <;> omega
  · have := h.cached.pos (h.ref_pos hn)
    show _ = s.inUse + if 0 < (s.inode n).ref - 1 then 1 else 0
    split_ifs <;> omega

/-- **`iput`** gives up a reference, and frees the inode if nothing names it any more. -/
theorem iput_spec (h : Good R s X V ∅) (hn : n ∈ X) (hV : ∀ m ∈ V, m ∈ H) :
    (iput n).wp E (fun _ t H' => H' = H ∧ Becomes s t (afterPut R s X n) ∧ Good R t (X.erase n) V ∅) s H := by
  rw [iput, wp_bind, Prog.wp_acquire]
  intro hfree
  have hnV : n ∉ V := fun hm => hfree (hV n hm)
  refine wp_seq (freeIfLast_spec h hn) ?_
  rintro _ t _ ⟨rfl, ht⟩
  rw [wp_bind, Prog.wp_release, List.erase_cons_head]
  refine ⟨fun _ => ?_, fun hne => absurd List.mem_cons_self hne⟩
  by_cases hl : Last R s X n
  · rw [if_pos hl] at ht
    subst ht
    have hl' : ¬ Last R (State.freeInode s n) X n := fun hf => hf.1 (by
      rw [show (State.freeInode s n).dinode n = freed (s.dinode n) from update_self ..]
      rfl)
    refine wp_mono ?_ _ (dropRef_spec (h.freeInode hnV hl) hn hnV hl')
    rintro _ u _ ⟨rfl, hq, hg⟩
    refine ⟨rfl, ⟨?_, ?_, hq.file, hq.proc⟩, hg⟩
    · rw [afterPut, if_pos hl, hq.dinode]
      rfl
    · exact hq.total.trans (total_freeInode (h.range n hl.1).2)
  · rw [if_neg hl] at ht
    subst ht
    refine wp_mono ?_ _ (dropRef_spec h hn hnV hl)
    rintro _ u _ ⟨rfl, hq, hg⟩
    refine ⟨rfl, ⟨?_, ?_, hq.file, hq.proc⟩, hg⟩
    · rw [afterPut, if_neg hl, hq.dinode]
    · exact hq.total

theorem iunlockput_spec (h : Good R s X V ∅) (hn : n ∈ X) (hH : n ∈ H) (hV : ∀ m ∈ V, m ≠ n → m ∈ H.erase n) :
    (iunlockput n).wp E (fun _ t H' => H' = H.erase n ∧ Becomes s t (afterPut R s X n)
      ∧ Good R t (X.erase n) (V \ {n}) ∅) s H := by
  rw [iunlockput]
  refine wp_seq (iunlock_spec h hn hH) ?_
  rintro _ t _ ⟨rfl, rfl⟩
  exact iput_spec (h.forget Set.sdiff_subset) hn fun m hm => hV m hm.1 hm.2

/-! ### Directories and paths -/

/-- `dirlookup` in a locked directory finds the first entry with the name, and takes a reference. -/
theorem dirlookup_spec (hE : Others E) (h : Good R s X V N) {dp : ℕ} (hdp : dp ∈ V) (name : Name) :
    (dirlookup dp name).wp E (fun r t H' => H' = H ∧ Quiet s t ∧ (s.dinode dp).type = .dir
      ∧ r = (findEntry name (s.dinode dp).entries 0).map Prod.swap
      ∧ Good R t ((r.map Prod.fst).elim X (· ::ₘ X)) V N) s H := by
  have htype := (h.copied_of_mem hdp).1.1
  rw [dirlookup, wp_bind, Prog.wp_read]
  by_cases hdir : (s.inode dp).type = .dir
  · simp only [hdir, ne_eq, not_true_eq_false, if_false]
    cases hf : findEntry name (s.dinode dp).entries 0 with
    | none => exact ⟨rfl, Quiet.refl s, htype ▸ hdir, rfl, h⟩
    | some r =>
      obtain ⟨off, inum⟩ := r
      refine wp_seq (iget_spec hE h inum) ?_
      rintro _ t _ ⟨rfl, rfl, hq, hg⟩
      exact ⟨rfl, hq, htype ▸ hdir, rfl, hg⟩
  · simp only [hdir, ne_eq, not_false_eq_true, if_true]
    exact hE _ (by decide)

/-- Every inode without links is a current directory or an open file. -/
def Strict (R : ℕ → ℕ) (s : State) : Prop := ∀ n, (s.dinode n).type ≠ .free → (s.dinode n).nlink = 0 → 0 < R n

theorem Strict.not_last (h : Strict R s) : ¬ Last R s X n := fun hl => by
  have := h n hl.1 hl.2.1
  have := hl.2.2.1
  omega

theorem Strict.quiet (h : Strict R s) (hq : Quiet s t) : Strict R t := fun n => by
  rw [hq.dinode]
  exact h n

theorem Strict.afterPut (h : Strict R s) : afterPut R s X n = s.dinode := if_neg h.not_last

/-- Putting a reference frees nothing when every inode without links is held. -/
theorem iput_strict (h : Good R s (n ::ₘ X) V ∅) (hs : Strict R s) (hV : ∀ m ∈ V, m ∈ H) :
    (iput n).wp E (fun _ t H' => H' = H ∧ Quiet s t ∧ Good R t X V ∅) s H := by
  refine wp_mono ?_ _ (iput_spec h (Multiset.mem_cons_self n X) hV)
  rintro _ t _ ⟨rfl, hp, hg⟩
  rw [Multiset.erase_cons_head] at hg
  rw [hs.afterPut] at hp
  exact ⟨rfl, hp.quiet, hg⟩

theorem iunlockput_strict (h : Good R s (n ::ₘ X) (insert n V) ∅) (hs : Strict R s)
    (hV : ∀ m ∈ V, m ≠ n ∧ m ∈ H) :
    (iunlockput n).wp E (fun _ t H' => H' = H ∧ Quiet s t ∧ Good R t X V ∅) s (n :: H) := by
  refine wp_mono ?_ _ (iunlockput_spec h (Multiset.mem_cons_self n X) List.mem_cons_self fun m hm hne => ?_)
  · rintro _ t _ ⟨rfl, hp, hg⟩
    rw [Multiset.erase_cons_head] at hg
    rw [hs.afterPut] at hp
    exact ⟨List.erase_cons_head .., hp.quiet, hg.forget fun m hm => ⟨Or.inr hm, (hV m hm).1⟩⟩
  · rw [List.erase_cons_head]
    exact (hV m (Set.mem_of_mem_insert_of_ne hm hne)).2

/-- **The loop of `namex`** follows the path on the disk.  It meets no free inode if it starts at an allocated
one and the entries of directories refer to allocated inodes. -/
theorem namexLoop_spec (hE : Others E) (parent : Bool) {fuel : ℕ} {path : Name} (ip : ℕ)
    (hfuel : path.length < fuel) (h : Good R s (ip ::ₘ X) ∅ ∅) (hs : Strict R s)
    (hno : E .ilockNoType ∨ EntriesOk s.dinode ∧ (s.dinode ip).type ≠ .free) :
    (namexLoop parent fuel path ip).wp E
    (fun r t H' => H' = H ∧ Quiet s t ∧ r = resolveFrom s.dinode parent fuel path ip
      ∧ Good R t ((r.map Prod.fst).elim X (· ::ₘ X)) ∅ ∅) s H := by
  induction fuel generalizing s path ip with
  | zero => exact absurd hfuel (Nat.not_lt_zero _)
  | succ fuel ih =>
    rw [namexLoop, resolveFrom]
    cases hskip : skipelem path with
    | none =>
      cases parent with
      | true =>
        refine wp_seq (iput_strict h hs (by simp)) ?_
        rintro _ t _ ⟨rfl, hq, hg⟩
        exact ⟨rfl, hq, rfl, hg⟩
      | false => exact ⟨rfl, Quiet.refl s, rfl, h⟩
    | some r =>
      obtain ⟨name, rest⟩ := r
      have hrest := skipelem_length hskip
      simp only
      refine wp_seq
        (ilock_spec h (Multiset.mem_cons_self ip X) fun hf => hno.resolve_right fun hok => hok.2 hf) ?_
      rintro _ t _ ⟨rfl, hq, hg⟩
      have hst := hs.quiet hq
      have hcopy := (hg.copied_of_mem (Set.mem_insert ip ∅)).1.1
      rw [hq.dinode] at hcopy
      rw [wp_bind, Prog.wp_read, hcopy]
      by_cases hdir : (s.dinode ip).type = .dir
      · rw [if_neg (not_not.mpr hdir), if_neg (not_not.mpr hdir)]
        by_cases hend : (parent && rest = []) = true
        · rw [if_pos hend, if_pos hend]
          refine wp_seq (iunlock_spec hg (Multiset.mem_cons_self ip X) List.mem_cons_self) ?_
          rintro _ u _ ⟨rfl, rfl⟩
          exact ⟨List.erase_cons_head .., hq, rfl, hg.forget (Set.empty_subset _)⟩
        · rw [if_neg hend, if_neg hend]
          refine wp_seq (dirlookup_spec hE hg (Set.mem_insert ip ∅) name) ?_
          rintro r u _ ⟨rfl, hq', _, rfl, hg'⟩
          rw [hq.dinode] at hg' ⊢
          cases hf : findEntry name (s.dinode ip).entries 0 with
          | none =>
            rw [hf] at hg'
            refine wp_seq (iunlockput_strict (V := ∅) hg' (hst.quiet hq') (by simp)) ?_
            rintro _ v _ ⟨rfl, hq'', hg''⟩
            exact ⟨rfl, (hq.trans hq').trans hq'', rfl, hg''⟩
          | some de =>
            obtain ⟨off, next⟩ := de
            rw [hf] at hg'
            have hg' : Good R u (ip ::ₘ next ::ₘ X) (insert ip ∅) ∅ := by
              rw [Multiset.cons_swap]
              exact hg'
            refine wp_seq (iunlockput_strict (V := ∅) hg' (hst.quiet hq') (by simp)) ?_
            rintro _ v _ ⟨rfl, hq'', hg''⟩
            have hqv := (hq.trans hq').trans hq''
            refine wp_mono ?_ _ (ih next (by omega) hg'' (hs.quiet hqv) (hno.imp_right fun hok => ?_))
            · rintro r w _ ⟨rfl, hqw, hr, hgw⟩
              rw [hqv.dinode] at hr
              exact ⟨rfl, hqv.trans hqw, hr, hgw⟩
            · obtain ⟨j, de, hj, _, rfl, hne, _⟩ := findEntry_some hf
              rw [hqv.dinode]
              exact ⟨hok.1, hok.1 ip hdir de (List.mem_of_getElem? hj) hne⟩
      · rw [if_pos hdir, if_pos hdir]
        refine wp_seq (iunlockput_strict (V := ∅) hg hst (by simp)) ?_
        rintro _ u _ ⟨rfl, hq', hg'⟩
        exact ⟨rfl, hq.trans hq', rfl, hg'⟩

theorem namexStart_spec (hE : Others E) {p : ℕ} {q : Proc} (hq : s.proc p = some q) (hcwd : 0 < R q.cwd)
    (path : Name) (h : Good R s X ∅ ∅) : (namexStart p path).wp E (fun m t H' =>
      m = startInode s p path ∧ H' = H ∧ Quiet s t ∧ Good R t (startInode s p path ::ₘ X) ∅ ∅) s H := by
  rw [namexStart, startInode]
  by_cases hslash : path.head? = some slash
  · rw [if_pos hslash, if_pos hslash]
    exact iget_spec hE h ROOTINO
  · rw [if_neg hslash, if_neg hslash, idupCwd, wp_bind, Prog.wp_read, hq]
    exact idup_spec h (by have := h.refs q.cwd; show 0 < (s.inode q.cwd).ref; omega)

/-- **`namex`** finds what `resolve` says, and takes a reference to it. -/
theorem namex_spec (hE : Others E) {p : ℕ} {q : Proc} (hq : s.proc p = some q) (hcwd : 0 < R q.cwd)
    (path : Name) (parent : Bool) (h : Good R s X ∅ ∅) (hs : Strict R s)
    (hno : E .ilockNoType ∨ EntriesOk s.dinode ∧ (s.dinode ROOTINO).type ≠ .free) :
    (namex p path parent).wp E (fun r t H' => H' = H ∧ Quiet s t ∧ r = resolve s p path parent
      ∧ Good R t ((r.map Prod.fst).elim X (· ::ₘ X)) ∅ ∅) s H := by
  rw [namex]
  refine wp_seq (namexStart_spec hE hq hcwd path h) ?_
  rintro _ t _ ⟨rfl, rfl, hqt, hg⟩
  refine wp_mono ?_ _
    (namexLoop_spec hE parent _ (Nat.lt_succ_self _) hg (hs.quiet hqt) (hno.imp_right fun hok => ?_))
  · rintro r u _ ⟨rfl, hqu, hr, hgu⟩
    rw [hqt.dinode] at hr
    exact ⟨rfl, hqt.trans hqu, hr, hgu⟩
  · rw [hqt.dinode, startInode]
    by_cases hslash : path.head? = some slash
    · rw [if_pos hslash]
      exact hok
    · rw [if_neg hslash, hq]
      exact ⟨hok.1, h.alloc _ hcwd⟩

end Xv6e.Fs.InodeSpecs
