import Xv6e.Fs.NameTree

/-!
# Runs of calls

What holds in every state that a sequence of calls reaches from an image of `mkfs`: the account of references,
the tree of names, and the number of blocks.

* `Kept` — the invariant;
* `kept_boot` — it holds at the start;
* `Kept.step` — a call keeps it, unless it links a file whose link count is at the limit of its type;
* `accounts_exact` — references and blocks in every state of a run.
-/

namespace Xv6e.Fs.CallRuns

open Library.Sums Library.Transition
open Names Inodes Syscalls Fs.Sequential InodeSpecs CallEffects
open ProcessEffects DirEntries NameTree

/-- The invariant of sequences of calls. -/
structure Kept (s : State) : Prop where
  good : Good (held s) s 0 ∅ ∅
  tree : Tree s.dinode
  total : total s = dataBlocks

variable {s t : State} {p : ℕ} {c : Call} {D : ℕ → Dinode}

/-! ### Bounds -/

/-- A block holds 32 entries. -/
theorem length_le_nblocks (d : Dinode) : d.entries.length ≤ 32 * nblocks d.size := by
  have hsize : direntSize * d.entries.length ≤ d.size := Nat.le_add_right _ _
  have hdata : (d.size + BSIZE - 1) / BSIZE ≤ nblocks d.size := Nat.le_add_right _ _
  simp only [direntSize, BSIZE] at *
  omega

/-- The entries of a directory are fewer than what a link count can hold. -/
theorem Kept.length_le (h : Kept s) {d : ℕ} (hd : d < NINODES) :
    (s.dinode d).entries.length ≤ 32 * dataBlocks := by
  have hused := le_tally (g := fun d => nblocks d.size) (f := s.dinode) hd
  have htotal := h.total
  have := length_le_nblocks (s.dinode d)
  rw [InodeSpecs.total, usedBlocks] at htotal
  omega

theorem Kept.nlink_dir (h : Kept s) {d : ℕ} (hdir : (s.dinode d).type = .dir) :
    (s.dinode d).nlink + 1 < 2 ^ 15 := by
  have hlen := h.length_le (h.tree.dir_range hdir).2
  have hchild : childDirs s.dinode d ≤ (s.dinode d).entries.length :=
    List.countP_le_length.trans (List.drop_sublist 2 _).length_le
  have hlink := h.tree.dirLink d hdir
  have honce := h.tree.once d hdir
  simp only [dataBlocks] at hlen
  split_ifs at hlink <;> omega

/-! ### Steps -/

def LinkFits (s : State) (p : ℕ) : Call → Prop
  | .link old _ => ∀ r ∈ resolve s p old false, (s.dinode r.1).type ≠ .dir →
    (s.dinode r.1).type ≠ .free → (s.dinode r.1).nlink + 1 < 2 ^ 15
  | _ => True

instance (s : State) (p : ℕ) (c : Call) : Decidable (LinkFits s p c) := by
  unfold LinkFits; cases c <;> infer_instance

theorem Kept.change (h : Kept s) (hfit : LinkFits s p c) (hc : Change s p c D) : Tree D := by
  cases hc with
  | same c => exact h.tree
  | create call parent dir new free range =>
    refine h.tree.create dir free range new ?_ (h.nlink_dir dir)
    cases c <;> simp only [creates] at call <;> try cases call
    · split_ifs at call
      cases call
      decide
    · decide
    · decide
  | link target file parent dir fresh => exact h.tree.link dir file fresh (hfit _ target file.1 file.2)
  | unlink parent dir dots found ne alloc nlink empty =>
    exact h.tree.unlink dir dots found ne alloc nlink empty
  | write alloc => exact h.tree.grown _ _

/-- **A call keeps the invariant.** -/
theorem Kept.step (h : Kept s) (hfit : LinkFits s p c) (hstep : callStep s (p, c) = some t) :
    Kept t ∧ Effect s p c t := by
  have heff := callStep_effect h.good h.tree.nlink hstep
  obtain ⟨hgood, htotal, D, hchange, hd⟩ := heff
  refine ⟨⟨hgood, ?_, htotal.trans h.total⟩, hgood, htotal, D, hchange, hd⟩
  rw [hd]
  exact (h.change hfit hchange).sweep

/-! ### The start -/

/-- The references at the start: the current directory of the first process. -/
theorem held_boot (files : List (Name × ℕ)) (n : ℕ) : held (boot files) n = if n = ROOTINO then 1 else 0 := by
  have hfiles : tally NFILE (fileIs n) (boot files).file = 0 := tally_eq_zero.mpr fun f _ => by
    rw [fileIs, if_neg]
    exact fun hf => by cases hf
  have hnone : tally NPROC (cwdIs n) (fun _ => none) = 0 := tally_eq_zero.mpr fun p _ => by
    rw [cwdIs, if_neg]
    simp
  have hproc : (boot files).proc = Function.update (fun _ => none) initproc
      (some ⟨ROOTINO, fun _ => none⟩) := by
    funext p
    by_cases hp : p = initproc
    · rw [hp, Function.update_self]
      rfl
    · rw [Function.update_of_ne hp]
      exact if_neg hp
  have hone := tally_update (n := NPROC) (i := initproc) (by decide) (cwdIs n) (fun _ => none)
    (some ⟨ROOTINO, fun _ => none⟩)
  rw [hnone] at hone
  rw [held, hfiles, hproc]
  simp only [cwdIs, Option.map_none, Option.map_some, Option.some.injEq, reduceCtorEq, if_false,
    eq_comm (a := ROOTINO), add_zero, zero_add] at hone ⊢
  exact hone

section Image

variable {files : List (Name × ℕ)}

theorem mkfs_root (files : List (Name × ℕ)) :
    mkfs files ROOTINO = ⟨.dir, 0, 0, 1, rootEntries files, 0⟩ := if_pos rfl

theorem mkfs_file {n : ℕ} (hn : n ≠ ROOTINO) (hr : 2 ≤ n ∧ n < files.length + 2) :
    mkfs files n = ⟨.file, 0, 0, 1, [], (files.getD (n - 2) ([], 0)).2⟩ := by
  rw [mkfs, if_neg hn, if_pos hr]

theorem mkfs_free {n : ℕ} (hn : n ≠ ROOTINO) (hr : ¬ (2 ≤ n ∧ n < files.length + 2)) :
    mkfs files n = Dinode.zero := by
  rw [mkfs, if_neg hn, if_neg hr]

theorem mkfs_type_dir {n : ℕ} (h : (mkfs files n).type = .dir) : n = ROOTINO := by
  by_contra hn
  by_cases hr : 2 ≤ n ∧ n < files.length + 2
  · rw [mkfs_file hn hr] at h
    cases h
  · rw [mkfs_free hn hr] at h
    cases h

theorem mkfs_type_ne_free {n : ℕ} (h : (mkfs files n).type ≠ .free) :
    n = ROOTINO ∨ n ≠ ROOTINO ∧ 2 ≤ n ∧ n < files.length + 2 := by
  by_cases hn : n = ROOTINO
  · exact Or.inl hn
  · refine Or.inr ⟨hn, ?_⟩
    by_contra hr
    rw [mkfs_free hn hr] at h
    exact h rfl

theorem mkfs_nlink {n : ℕ} (h : (mkfs files n).type ≠ .free) : (mkfs files n).nlink = 1 := by
  rcases mkfs_type_ne_free h with rfl | ⟨hn, hr⟩
  · rw [mkfs_root]
  · rw [mkfs_file hn hr]

theorem mem_fileEntries {inum : ℕ} {e : Dirent} (he : e ∈ fileEntries inum files) :
    inum ≤ e.inum ∧ e.inum < inum + files.length ∧ ∃ f ∈ files, e.name = f.1.take DIRSIZ := by
  induction files generalizing inum with
  | nil => cases he
  | cons f rest ih =>
    rw [fileEntries, List.mem_cons] at he
    rcases he with rfl | he
    · exact ⟨le_refl _, by simp, f, List.mem_cons_self, rfl⟩
    · obtain ⟨h1, h2, g, hg, hname⟩ := ih he
      exact ⟨by omega, by rw [List.length_cons]; omega, g, List.mem_cons_of_mem f hg, hname⟩

theorem countP_fileEntries (inum k : ℕ) :
    (fileEntries inum files).countP (refersTo k) = if inum ≤ k ∧ k < inum + files.length then 1 else 0 := by
  induction files generalizing inum with
  | nil =>
    rw [fileEntries, List.countP_nil, if_neg]
    rw [List.length_nil]
    omega
  | cons f rest ih =>
    rw [fileEntries, List.countP_cons, ih, List.length_cons]
    simp only [refersTo, decide_eq_true_eq]
    by_cases hk : inum = k
    · rw [if_neg (by omega), if_pos hk, if_pos (by omega)]
    · rw [if_neg hk, add_zero]
      by_cases hr : inum + 1 ≤ k ∧ k < inum + 1 + rest.length
      · rw [if_pos hr, if_pos (by omega)]
      · rw [if_neg hr, if_neg (by omega)]

theorem rest_root : rest (mkfs files ROOTINO)
    = fileEntries 2 files ++ List.replicate (rootLength (2 + files.length) - (2 + files.length))
    Dirent.zero := by
  rw [mkfs_root]
  rfl

theorem rest_mkfs {n : ℕ} (hn : n ≠ ROOTINO) : rest (mkfs files n) = [] := by
  by_cases hr : 2 ≤ n ∧ n < files.length + 2
  · rw [mkfs_file hn hr]
    rfl
  · rw [mkfs_free hn hr]
    rfl

theorem named_mkfs {k : ℕ} (hk : 0 < k) :
    named (mkfs files) k = if 2 ≤ k ∧ k < 2 + files.length then 1 else 0 := by
  have hroot : entriesFor k (mkfs files ROOTINO) = if 2 ≤ k ∧ k < 2 + files.length then 1 else 0 := by
    rw [entriesFor, rest_root, List.countP_append, countP_fileEntries, List.countP_eq_zero.mpr, add_zero]
    intro e he
    rw [List.eq_of_mem_replicate he, refersTo_zero hk rfl]
    exact Bool.false_ne_true
  have hupdate := named_update (D := mkfs files) (d := ROOTINO) (i := k) (by decide) Dinode.zero
  have hnone : named (Function.update (mkfs files) ROOTINO Dinode.zero) k = 0 :=
      tally_eq_zero.mpr fun n _ => by
    by_cases hn : n = ROOTINO
    · rw [hn, Function.update_self]
      rfl
    · rw [Function.update_of_ne hn, entriesFor, rest_mkfs hn]
      rfl
  have hzero : entriesFor k Dinode.zero = 0 := rfl
  omega

/-- **The image is a tree of names.** -/
theorem tree_mkfs (h : ImageOk files) : Tree (mkfs files) := by
  have hin := h.inodes
  have hmem : ∀ {d : ℕ} {e : Dirent}, e ∈ rest (mkfs files d) → e.inum ≠ 0 → e ∈ fileEntries 2 files := by
    intro d e he hne
    by_cases hd : d = ROOTINO
    · rw [hd, rest_root] at he
      rcases List.mem_append.mp he with he | he
      · exact he
      · rw [List.eq_of_mem_replicate he] at hne
        exact absurd rfl hne
    · rw [rest_mkfs hd] at he
      cases he
  have hchild : ∀ d, childDirs (mkfs files) d = 0 := by
    intro d
    rw [childDirs, List.countP_eq_zero]
    intro e he hdir
    obtain ⟨hne, hdir⟩ := of_decide_eq_true hdir
    have := mem_fileEntries (hmem he hne)
    rw [mkfs_type_dir hdir] at this
    exact absurd this.1 (by decide)
  have hroot : named (mkfs files) ROOTINO = 0 := by
    rw [named_mkfs (by decide), if_neg]
    exact fun hc => absurd hc.1 (by decide)
  refine ⟨fun n hn => ?_, ⟨by rw [mkfs_root], hroot⟩, fun d hd => ?_, fun n hn => ?_, fun d e he hne => ?_,
    fun d hd => ?_, fun d hd => ?_, fun n hn hn' => ?_, fun n hn => ?_⟩
  · rcases mkfs_type_ne_free hn with rfl | ⟨_, hr⟩
    · decide
    · omega
  · rw [mkfs_type_dir hd]
    refine ⟨by rw [mkfs_root]; rfl, by rw [mkfs_root]; exact Nat.one_pos, fun e he hne => ?_⟩
    obtain ⟨_, _, f, hf, hname⟩ := mem_fileEntries (hmem he hne)
    rw [hname, sameName_take, sameName_take]
    exact ⟨Bool.not_eq_true _ ▸ (h.names f hf).1, Bool.not_eq_true _ ▸ (h.names f hf).2⟩
  · by_cases hnr : n = ROOTINO
    · rw [hnr, mkfs_root] at hn
      exact absurd rfl hn
    · by_cases hr : 2 ≤ n ∧ n < files.length + 2
      · rw [mkfs_file hnr hr]
      · rw [mkfs_free hnr hr]
        rfl
  · obtain ⟨h1, h2, _⟩ := mem_fileEntries (hmem he hne)
    rw [mkfs_file (by simp only [ROOTINO]; omega) (by omega)]
    exact ⟨fun hf => (by cases hf), fun hd => (by cases hd)⟩
  · rw [mkfs_type_dir hd, hchild, mkfs_root]
    rfl
  · rw [mkfs_type_dir hd, hroot]
    decide
  · rw [mkfs_nlink hn, named_mkfs]
    · split_ifs <;> decide
    · rcases mkfs_type_ne_free hn with rfl | ⟨_, hr⟩
      · decide
      · omega
  · rw [mkfs_nlink hn]
    decide

/-- **The invariant holds at the start.** -/
theorem kept_boot (h : ImageOk files) : Kept (boot files) := by
  have hrange := (tree_mkfs h).range
  refine ⟨⟨fun n => ?_, fun _ _ => rfl, fun p fd f hf => ?_, fun n _ hv => ?_, fun n hn => ?_,
    fun n _ hn hl => ?_, hrange, fun n hn => ?_, fun n hn => absurd hn (Set.notMem_empty n), {ROOTINO},
    fun n => ?_, rfl, by decide⟩, tree_mkfs h, ?_⟩
  · rw [held_boot, Multiset.count_zero, add_zero]
    show (if n = ROOTINO then (⟨1, false, .free, 0, 0, 0⟩ : Inode) else ⟨0, false, .free, 0, 0, 0⟩).ref = _
    split_ifs <;> rfl
  · simp only [State.ofile, boot] at hf
    split_ifs at hf
    · cases hf
    · cases hf
  · simp only [boot] at hv
    split_ifs at hv
  · rw [held_boot] at hn
    split_ifs at hn with hr
    · show (mkfs files n).type ≠ .free
      rw [hr, mkfs_root]
      simp
    · omega
  · rw [show ((boot files).dinode n).nlink = 1 from mkfs_nlink hn] at hl
    cases hl
  · have hn : (mkfs files n).type = .free := hn
    show (mkfs files n).size = 0
    by_cases hr : n = ROOTINO
    · rw [hr, mkfs_root] at hn
      cases hn
    · by_cases hf : 2 ≤ n ∧ n < files.length + 2
      · rw [mkfs_file hr hf] at hn
        cases hn
      · rw [mkfs_free hr hf]
        rfl
  · simp only [Finset.mem_singleton, boot]
    split_ifs with hn <;> simp [hn]
  · have := h.blocks
    show dataBlocks - usedBlocks (mkfs files) + usedBlocks (mkfs files) = dataBlocks
    omega

end Image

/-! ### Runs -/

theorem run_kept {es : List (ℕ × Call)}
    (hr : RunIf calls (fun _ s e => LinkFits s e.1 e.2) es s) : Kept s := by
  refine hr.induct (I := fun _ s => Kept s) ?_ fun _ _ _ _ h hfit hstep => (h.step hfit hstep).1
  rintro s ⟨files, hfiles, rfl⟩
  exact kept_boot hfiles

/-- **References, copies and blocks are accounted for** after every run: the count of a cached inode is the
number of current directories and open files that refer to it, and these are allocated; a loaded inode is a
copy of the one on the disk; an inode without links is one that is referred to; and the blocks are those in
use and the free ones. -/
theorem accounts_exact {es : List (ℕ × Call)} (hr : RunIf calls (fun _ s e => LinkFits s e.1 e.2) es s) :
    (∀ n, (s.inode n).ref = held s n ∧ (0 < held s n → (s.dinode n).type ≠ .free))
    ∧ (∀ n, 0 < (s.inode n).ref → (s.inode n).valid = true → CopyOf (s.inode n) (s.dinode n))
    ∧ (∀ n, (s.dinode n).type ≠ .free → (s.dinode n).nlink = 0 → 0 < held s n)
    ∧ s.freeBlocks + usedBlocks s.dinode = dataBlocks := by
  have h := run_kept hr
  have hrefs : ∀ n, (s.inode n).ref = held s n := fun n => by
    rw [h.good.refs, Multiset.count_zero, add_zero]
  refine ⟨fun n => ⟨hrefs n, h.good.alloc n⟩, fun n hpos hv => (h.good.copied n hpos hv).1,
    fun n hn hlink => ?_, h.total⟩
  rw [← hrefs]
  exact (h.good.linked n (Set.notMem_empty n) hn hlink).2

/-- The calls `mkdir a`, `open a/f` with `O_CREATE`, `chdir a` and `unlink f`. -/
def unlinkOpen : List (ℕ × Call) :=
  [(1, .mkdir [97]), (1, .open [97, 47, 102] O_CREATE), (1, .chdir [97]), (1, .unlink [102])]

/-- The file has no links, but is open, and so it is not freed. -/
theorem accounts_exact_open : ∃ s, RunIf calls (fun _ s e => LinkFits s e.1 e.2) unlinkOpen s
    ∧ (s.dinode 3).nlink = 0 ∧ 0 < held s 3 ∧ (s.inode 3).ref = held s 3 ∧ (s.inode 2).ref = held s 2 := by
  obtain ⟨s, hr, hs⟩ := exists_runIf_of_map (S := calls) (C := fun _ s e => LinkFits s e.1 e.2)
    (f := fun s => ((s.dinode 3).type, (s.dinode 3).nlink)) (y := (.file, 0)) unlinkOpen
    ⟨[], imageOk_nil, rfl⟩ (by decide +kernel)
  obtain ⟨htype, hlink⟩ := Prod.mk.injEq .. ▸ hs
  obtain ⟨hrefs, _, hheld, _⟩ := accounts_exact hr
  exact ⟨s, hr, hlink, hheld 3 (by rw [htype]; decide) hlink, (hrefs 3).1, (hrefs 2).1⟩

end Xv6e.Fs.CallRuns
