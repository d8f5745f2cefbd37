import Xv6e.Fs.DotDot

/-!
# Link counts

The link count of an inode is the number of entries other than `.` that refer to it in directories that have
links, as long as no name is added to a directory that has been removed.  `create` and `link` do not check for
that: a process whose current directory has been removed can make a file there, and the file is never freed.

* `linksTo` — the entries that count; `CallLive` — the condition on calls;
* `Exact` — removed directories are empty, and the links of a file are its names;
* `links_exact` — the result; `file_in_removed_dir` — a run that leaks a file.
-/

namespace Xv6e.Fs.LinkCounts

open Library.Sums Library.Transition
open Names Inodes Syscalls Fs.Sequential InodeSpecs CallEffects
open ProcessEffects DirEntries NameTree CallRuns DotDot

/-! ### The count and the condition -/

/-- The entries other than `.` of a directory with links that refer to inode `i`. -/
def countedIn (i : ℕ) (d : Dinode) : ℕ :=
  if 0 < d.nlink then d.entries.countP fun e => decide (e.inum = i) && !sameName e.name dot else 0

/-- The entries other than `.` that refer to inode `i` in directories with links. -/
def linksTo (D : ℕ → Dinode) (i : ℕ) : ℕ := tally NINODES (countedIn i) D

/-- The path of the name that a call adds; `link` adds one if `old` is there and is not a directory. -/
def addedPath (s : State) (p : ℕ) : Call → Option Name
  | .link old new => (resolve s p old false).bind fun r => if (s.dinode r.1).type = .dir then
      none else some new
  | c => (creates c).map Prod.fst

/-- A call adds names only to directories that have links. -/
def CallLive (s : State) (p : ℕ) (c : Call) : Prop :=
  ∀ path ∈ addedPath s p c, ∀ r ∈ resolve s p path true,
    findEntry r.2 (s.dinode r.1).entries 0 = none → 0 < (s.dinode r.1).nlink

instance (s : State) (p : ℕ) (c : Call) : Decidable (CallLive s p c) :=
  inferInstanceAs (Decidable (∀ path ∈ addedPath s p c, ∀ r ∈ resolve s p path true,
    findEntry r.2 (s.dinode r.1).entries 0 = none → 0 < (s.dinode r.1).nlink))

/-! ### Removed directories are empty -/

/-- Removed directories are empty, and the links of a file are its names. -/
structure Exact (D : ℕ → Dinode) : Prop where
  removed : ∀ d, (D d).type = .dir → d ≠ ROOTINO → named D d = 0 → ∀ e ∈ rest (D d), e.inum = 0
  file : ∀ n, (D n).type ≠ .free → (D n).type ≠ .dir → (D n).nlink = named D n
  root : up (D ROOTINO) = ROOTINO

variable {s t : State} {p : ℕ} {c : Call} {D : ℕ → Dinode} {d i n : ℕ}

theorem childDirs_of_free (h : ∀ e ∈ rest (D d), e.inum = 0) : childDirs D d = 0 := by
  rw [childDirs, List.countP_eq_zero]
  intro e he
  rw [refersToDir_zero (h e he)]
  exact Bool.false_ne_true

theorem entriesFor_of_free (hi : 0 < i) (h : ∀ e ∈ rest (D d), e.inum = 0) : entriesFor i (D d) = 0 := by
  rw [entriesFor, List.countP_eq_zero]
  intro e he
  rw [refersTo_zero hi (h e he)]
  exact Bool.false_ne_true

theorem Exact.named_of_nlink (h : Exact D) (ht : Tree D) (hdir : (D d).type = .dir) (hlink : 0 < (D d).nlink)
    (hroot : d ≠ ROOTINO) : 0 < named D d := by
  by_contra hname
  have hzero : named D d = 0 := by omega
  have hlinks := ht.dirLink d hdir
  rw [if_neg hroot, hzero, childDirs_of_free (h.removed d hdir hroot hzero)] at hlinks
  rw [hlinks] at hlink
  exact absurd hlink (by decide)

theorem Exact.free_of_nlink (h : Exact D) (ht : Tree D) (hdir : (D d).type = .dir)
    (hlink : ¬ 0 < (D d).nlink) : ∀ e ∈ rest (D d), e.inum = 0 := by
  have hlinks := ht.dirLink d hdir
  have hroot : d ≠ ROOTINO := fun hr => by
    rw [if_pos hr] at hlinks
    omega
  rw [if_neg hroot] at hlinks
  exact h.removed d hdir hroot (by omega)

theorem named_le (D : ℕ → Dinode) (i : ℕ) : named D i ≤ 32 * usedBlocks D := by
  refine tally_le_mul fun n _ => ?_
  calc entriesFor i (D n) ≤ (rest (D n)).length := List.countP_le_length
    _ ≤ (D n).entries.length := (List.drop_sublist 2 _).length_le
    _ ≤ 32 * nblocks (D n).size := length_le_nblocks (D n)

theorem Exact.linkFits (h : Exact s.dinode) (hk : Kept s) (hfile : (s.dinode i).type ≠ .dir)
    (halloc : (s.dinode i).type ≠ .free) : (s.dinode i).nlink + 1 < 2 ^ 15 := by
  have hname := named_le s.dinode i
  have htotal := hk.total
  rw [InodeSpecs.total] at htotal
  rw [h.file i halloc hfile]
  simp only [dataBlocks] at htotal
  omega

theorem exact_created (h : Exact D) (ht : Tree D) {dp : ℕ} {name : Name} {type : FileType} {major minor : ℤ}
    (hdir : (D dp).type = .dir) (hfree : (D i).type = .free) (hi : 0 < i ∧ i < NINODES)
    (hnew : findEntry name (D dp).entries 0 = none) (hlive : 0 < (D dp).nlink) :
    Exact (created D dp name i type major minor) := by
  have hne : i ≠ dp := fun hid => by
    rw [← hid, hfree] at hdir
    cases hdir
  have hroot : ROOTINO ≠ i := fun hir => by
    have := ht.root.1
    rw [hir, hfree] at this
    cases this
  have hN : ∀ {k : ℕ}, 0 < k → named (created D dp name i type major minor) k = named D k
      + if k = i then 1 else 0 :=
    fun hk => named_created ht hdir hfree hi.2 hne hnew hk
  have hnamed := ht.named_free hi.1 hfree
  refine ⟨fun d hd hdr hzero => ?_, fun n hn hn' => ?_, ?_⟩
  · have hdi : d ≠ i := fun hdi => by
      rw [hdi, hN hi.1, if_pos rfl] at hzero
      omega
    rw [created_type hne, if_neg hdi] at hd
    rw [hN (ht.dir_range hd).1, if_neg hdi] at hzero
    have hdd : d ≠ dp := fun hdd => by
      have := h.named_of_nlink ht hdir hlive (hdd ▸ hdr)
      rw [hdd] at hzero
      omega
    rw [created_other hdi hdd]
    exact h.removed d hd hdr hzero
  · rw [created_type hne] at hn hn'
    by_cases hni : n = i
    · rw [hni, hN hi.1, if_pos rfl, hnamed, created_nlink_self hne]
      rfl
    · rw [if_neg hni] at hn hn'
      rw [hN (ht.range n hn).1, if_neg hni, add_zero, created_other hni fun hnd => hn' (hnd ▸ hdir)]
      exact h.file n hn hn'
  · rw [created_up ht hdir hnew hroot]
    exact h.root

theorem exact_linked (h : Exact D) (ht : Tree D) {dp : ℕ} {name : Name} (hdir : (D dp).type = .dir)
    (hfile : (D i).type ≠ .dir ∧ (D i).type ≠ .free) (hnew : findEntry name (D dp).entries 0 = none)
    (hmax : (D i).nlink + 1 < 2 ^ 15) (hlive : 0 < (D dp).nlink) : Exact (linked D dp name i) := by
  have hne : i ≠ dp := fun hid => hfile.1 (hid ▸ hdir)
  have hN := fun {k : ℕ} (hk : 0 < k) => named_linked ht hdir (ht.range i hfile.2).2 hne hnew hk
  refine ⟨fun d hd hdr hzero => ?_, fun n hn hn' => ?_, ?_⟩
  · rw [linked_type hne] at hd
    have hdi : d ≠ i := fun hdi => hfile.1 (hdi ▸ hd)
    rw [hN (ht.dir_range hd).1, if_neg hdi] at hzero
    have hdd : d ≠ dp := fun hdd => by
      have := h.named_of_nlink ht hdir hlive (hdd ▸ hdr)
      rw [hdd] at hzero
      omega
    rw [linked_other hdi hdd]
    exact h.removed d hd hdr hzero
  · rw [linked_type hne] at hn hn'
    have := h.file n hn hn'
    rw [hN (ht.range n hn).1]
    by_cases hni : n = i
    · rw [hni] at this ⊢
      rw [if_pos rfl, linked_nlink_self ht hfile.2 hne hmax, this]
      rfl
    · rw [if_neg hni, add_zero, linked_nlink_other hni]
      exact this
  · rw [linked_up ht hdir hnew hne]
    exact h.root

theorem exact_unlinked (h : Exact D) (ht : Tree D) {dp off : ℕ} {name : Name} (hdir : (D dp).type = .dir)
    (hdots : sameName name dot = false ∧ sameName name dotdot = false)
    (hfound : findEntry name (D dp).entries 0 = some (off, i)) (hne : i ≠ dp) (halloc : (D i).type ≠ .free)
    (hlink : 1 ≤ (D i).nlink) (hempty : (D i).type = .dir → isdirempty (D i).entries = true) :
    Exact (unlinked D dp off i) := by
  obtain ⟨e, he, hi0, hremoved, _, _⟩ := removed_withEntry (ht.dirs dp hdir) hdots hfound
  have hN := fun {k : ℕ} (hk : 0 < k) => named_unlinked hremoved he (ht.dir_range hdir).2
    (ht.range i halloc).2 hne hk
  refine ⟨fun d hd hdr hzero => ?_, fun n hn hn' => ?_, ?_⟩
  · rw [unlinked_type hne] at hd
    have hn := hN (ht.dir_range hd).1
    by_cases hdi : d = i
    · -- the directory that is removed was empty
      rw [hdi] at hd ⊢
      rw [unlinked_rest hne]
      have := hempty hd
      rw [isdirempty, List.all_eq_true] at this
      exact fun x hx => of_decide_eq_true (this x hx)
    · rw [if_neg hdi] at hn
      have hdd : d ≠ dp := fun hdd => by
        have := h.removed dp hdir (hdd ▸ hdr) (by rw [← hdd]; omega) e hremoved.mem_entry
        exact hi0 (he ▸ this)
      rw [unlinked_rest hdd]
      exact h.removed d hd hdr (by omega)
  · rw [unlinked_type hne] at hn hn'
    have hlinks := h.file n hn hn'
    have hn0 := hN (ht.range n hn).1
    by_cases hni : n = i
    · rw [hni] at hlinks hn0 ⊢
      rw [if_pos rfl] at hn0
      rw [unlinked_nlink_self ht halloc hlink]
      omega
    · rw [if_neg hni] at hn0
      rw [unlinked_other hni fun hnd => hn' (hnd ▸ hdir)]
      omega
  · rw [unlinked_up ht hdir hdots hfound hne]
    exact h.root

theorem named_sweep_exact (h : Exact D) (ht : Tree D) {R : ℕ → ℕ} (hi : 0 < i) :
    named (sweep R D) i = named D i := by
  refine tally_congr fun n _ => ?_
  by_cases hg : Gone R D n
  · have hzero : entriesFor i (D n) = 0 := by
      by_cases hdir : (D n).type = .dir
      · have hlink := hg.2.1
        exact entriesFor_of_free hi (h.free_of_nlink ht hdir (by omega))
      · rw [entriesFor, rest, ht.files n hdir]
        rfl
    rw [sweep_gone hg, hzero]
    rfl
  · rw [sweep_kept hg]

theorem exact_sweep (h : Exact D) (ht : Tree D) {R : ℕ → ℕ} : Exact (sweep R D) := by
  refine ⟨fun d hd hdr hzero => ?_, fun n hn hn' => ?_, ?_⟩
  · obtain ⟨hg, hd⟩ := sweep_type_dir hd
    rw [named_sweep_exact h ht (ht.dir_range hd).1] at hzero
    rw [sweep_kept hg]
    exact h.removed d hd hdr hzero
  · obtain ⟨hg, hn⟩ := sweep_type_ne_free hn
    rw [sweep_kept hg] at hn' ⊢
    rw [named_sweep_exact h ht (ht.range n hn).1]
    exact h.file n hn hn'
  · rw [sweep_kept fun hg => by have := ht.nlink_root; have := hg.2.1; omega]
    exact h.root

/-- **A call that adds names only to directories with links keeps the counts exact.** -/
theorem exact_step (h : Exact s.dinode) (hk : Kept s) (hlive : CallLive s p c) (heff : Effect s p c t) :
    Exact t.dinode := by
  obtain ⟨_, _, D, hchange, hd⟩ := heff
  rw [hd]
  cases hchange with
  | same c => exact exact_sweep h hk.tree
  | @create c path name type major minor dp i call parent dir new free range =>
    have htree : Tree (created s.dinode dp name i type major minor) := hk.change (p := p) (c := c) (by
      cases c <;> trivial) (Change.create call parent dir new free range)
    refine exact_sweep
      (exact_created h hk.tree dir free range new (hlive path ?_ (dp, name) parent new)) htree
    rw [Option.mem_def]
    cases c <;> simp only [creates, reduceCtorEq] at call
    all_goals
      simp only [addedPath, creates, call]
      rfl
  | @link old new name last dp i target file parent dir fresh =>
    have hmax := h.linkFits hk file.1 file.2
    exact exact_sweep
      (exact_linked h hk.tree dir file fresh hmax
        (hlive new (by simp [addedPath, target, file.1]) (dp, name) parent fresh))
      (hk.tree.link dir file fresh hmax)
  | unlink parent dir dots found ne alloc nlink empty =>
    exact exact_sweep (exact_unlinked h hk.tree dir dots found ne alloc nlink empty)
      (hk.tree.unlink dir dots found ne alloc nlink empty)
  | write alloc =>
    refine exact_sweep ⟨fun d hd' hdr hzero => ?_, fun n hn hn' => ?_, ?_⟩ (hk.tree.grown _ _)
    · rw [(grown_same ..).1] at hd'
      rw [named_grown] at hzero
      rw [rest_grown]
      exact h.removed d hd' hdr hzero
    · rw [(grown_same ..).1] at hn hn'
      rw [named_grown, (grown_same ..).2.2]
      exact h.file n hn hn'
    · rw [up_grown]
      exact h.root

theorem exact_boot {files : List (Name × ℕ)} (h : ImageOk files) : Exact (boot files).dinode := by
  refine ⟨fun d hd hdr _ => absurd (mkfs_type_dir hd) hdr, fun n hn hn' => ?_, ?_⟩
  · rcases mkfs_type_ne_free hn with rfl | ⟨hnr, hr⟩
    · exact absurd (tree_mkfs h).root.1 hn'
    · show (mkfs files n).nlink = named (mkfs files) n
      rw [mkfs_nlink hn, named_mkfs (by omega), if_pos (by omega)]
      rfl
  · show up (mkfs files ROOTINO) = ROOTINO
    rw [mkfs_root]
    rfl

theorem run_exact {es : List (ℕ × Call)} (hr : RunIf calls (fun _ s e => CallLive s e.1 e.2) es s) :
    Kept s ∧ Exact s.dinode := by
  refine hr.induct (I := fun _ s => Kept s ∧ Exact s.dinode) ?_ ?_
  · rintro s ⟨files, hfiles, rfl⟩
    exact ⟨kept_boot hfiles, exact_boot hfiles⟩
  · rintro _ s ⟨p, c⟩ t ⟨hk, hx⟩ hlive hstep
    have hfit : LinkFits s p c := by
      cases c with
      | link old new => exact fun _ _ hfile halloc => hx.linkFits hk hfile halloc
      | _ => trivial
    obtain ⟨hk', heff⟩ := hk.step hfit hstep
    exact ⟨hk', exact_step hx hk hlive heff⟩

/-! ### Counting -/

/-- The `..` of a directory with links counts for its parent. -/
def upFor (i : ℕ) (d : Dinode) : ℕ := if d.type = .dir ∧ 0 < d.nlink ∧ up d = i then 1 else 0

theorem countedIn_eq (h : Exact D) (ht : Tree D) (hi : 0 < i) :
    countedIn i (D d) = entriesFor i (D d) + upFor i (D d) := by
  by_cases hdir : (D d).type = .dir
  · rw [countedIn, upFor]
    by_cases hlive : 0 < (D d).nlink
    · have hdirOf := ht.dirs d hdir
      have hrest : (rest (D d)).countP (fun e => decide (e.inum = i) && !sameName e.name dot)
          = entriesFor i (D d) := by
        refine List.countP_congr fun e he => ?_
        rw [Bool.and_eq_true, refersTo, and_iff_left_of_imp]
        intro hei
        have hei := of_decide_eq_true hei
        rw [(hdirOf.names e he (by omega)).1]
        rfl
      rw [if_pos hlive, hdirOf.entries, List.countP_cons, List.countP_cons, hrest]
      have hdot : sameName dot dot = true := by decide
      have hdotdot : sameName dotdot dot = false := by decide
      simp only [hdot, hdotdot, hdir, hlive, Bool.not_true, Bool.and_false, Bool.not_false, Bool.and_true,
        decide_eq_true_eq, Bool.false_eq_true, if_false, true_and, add_zero]
    · rw [if_neg hlive, if_neg fun hc => hlive hc.2.1, entriesFor_of_free hi (h.free_of_nlink ht hdir hlive)]
  · have hup : upFor i (D d) = 0 := if_neg fun hc => hdir hc.1
    rw [countedIn, entriesFor, rest, hup, ht.files d hdir]
    split_ifs <;> rfl

/-- The one name of a directory with links is in the directory that its `..` refers to. -/
theorem upFor_eq (h : Exact D) (ht : Tree D) (hdir : (D n).type = .dir) (hroot : n ≠ ROOTINO) :
    upFor i (D n) = entriesFor n (D i) := by
  have hzero : ∀ j, 0 < entriesFor n (D j) → j = up (D n) := by
    intro j hj
    obtain ⟨e, he, hen⟩ := List.countP_pos_iff.mp hj
    have hen := of_decide_eq_true hen
    have := (ht.target j e he (by have := (ht.dir_range hdir).1; omega)).2
    rw [hen] at this
    exact (this hdir).symm
  have hle : ∀ j < NINODES, entriesFor n (D j) ≤ named D n := fun j hj => le_tally (g := entriesFor n) hj
  have hbelow : ∀ j, 0 < entriesFor n (D j) → j < NINODES := by
    intro j hj
    obtain ⟨e, he, _⟩ := List.countP_pos_iff.mp hj
    exact (ht.dir_range (ht.isDir he)).2
  have honce := ht.once n hdir
  by_cases hlive : 0 < (D n).nlink
  · by_cases hup : up (D n) = i
    · obtain ⟨j, _, hj⟩ := tally_pos.mp (h.named_of_nlink ht hdir hlive hroot)
      have hji := (hzero j hj).trans hup
      rw [hji] at hj
      have := hle i (hbelow i hj)
      rw [upFor, if_pos ⟨hdir, hlive, hup⟩]
      omega
    · rw [upFor, if_neg fun hc => hup hc.2.2]
      by_contra hne
      exact hup (hzero i (by omega)).symm
  · have hlinks := ht.dirLink n hdir
    rw [if_neg hroot] at hlinks
    rw [upFor, if_neg fun hc => hlive hc.2.1]
    by_contra hne
    have := hle i (hbelow i (by omega))
    omega

/-- The `..` entries that count for `i` are those of its directories, and of the root. -/
theorem tally_upFor (h : Exact D) (ht : Tree D) :
    tally NINODES (upFor i) D = (if i = ROOTINO then 1 else 0) + childDirs D i := by
  have hchild : childDirs D i = tally NINODES (fun c => if decide (c ≠ 0 ∧ (D c).type = .dir)
      then (rest (D i)).countP (fun e => decide (e.inum = c)) else 0) id :=
    countP_eq_tally Dirent.inum (fun c => decide (c ≠ 0 ∧ (D c).type = .dir)) (rest (D i))
      fun e _ hdir => (ht.dir_range (of_decide_eq_true hdir).2).2
  have hroot := tally_single (n := NINODES) (i := ROOTINO) (by decide) (if i = ROOTINO then 1 else 0)
  rw [hchild, ← hroot, ← tally_add]
  refine tally_ext fun c _ => ?_
  by_cases hc : (D c).type = .dir
  · have hpos := (ht.dir_range hc).1
    by_cases hcr : c = ROOTINO
    · have hnone : (rest (D i)).countP (fun e => decide (e.inum = c)) = 0 := by
        rw [hcr]
        refine List.countP_eq_zero.mpr fun e he hec => ?_
        have := named_pos (ht.dir_range (ht.isDir he)).2 he (of_decide_eq_true hec)
        rw [ht.root.2] at this
        exact lt_irrefl 0 this
      simp only [id_eq]
      rw [hnone, ite_self, add_zero, if_pos hcr, hcr, upFor, h.root, ht.root.1]
      by_cases hi : i = ROOTINO
      · rw [if_pos hi, if_pos ⟨rfl, by have := ht.nlink_root; omega, hi.symm⟩]
      · rw [if_neg hi, if_neg fun hx => hi hx.2.2.symm]
    · simp only [id_eq]
      rw [if_neg hcr, zero_add, if_pos (decide_eq_true ⟨by omega, hc⟩)]
      exact upFor_eq h ht hc hcr
  · have hcr : c ≠ ROOTINO := fun hcr => hc (hcr ▸ ht.root.1)
    simp only [id_eq]
    rw [if_neg hcr, zero_add, if_neg fun hx => hc (of_decide_eq_true hx).2]
    exact if_neg fun hx => hc hx.1

/-- **The entries that count** are the names, the `..` entries of the directories in it, and the `..` of the
root. -/
theorem linksTo_eq (h : Exact D) (ht : Tree D) (hi : 0 < i) :
    linksTo D i = named D i + ((if i = ROOTINO then 1 else 0) + childDirs D i) := by
  rw [← tally_upFor h ht, named, ← tally_add, linksTo]
  exact tally_ext fun d _ => countedIn_eq h ht hi

theorem nlink_eq (h : Exact D) (ht : Tree D) (halloc : (D i).type ≠ .free) : (D i).nlink = linksTo D i := by
  rw [linksTo_eq h ht (ht.range i halloc).1]
  by_cases hdir : (D i).type = .dir
  · rw [ht.dirLink i hdir]
    by_cases hroot : i = ROOTINO
    · rw [if_pos hroot, if_pos hroot, hroot, ht.root.2]
      omega
    · rw [if_neg hroot, if_neg hroot]
      omega
  · have hchild : childDirs D i = 0 := by
      rw [childDirs, rest, ht.files i hdir]
      rfl
    have hroot : i ≠ ROOTINO := fun hr => hdir (hr ▸ ht.root.1)
    rw [h.file i halloc hdir, if_neg hroot, hchild, add_zero, add_zero]

theorem linksTo_free (h : Exact D) (ht : Tree D) (hi : 0 < i) (hfree : (D i).type = .free) :
    linksTo D i = 0 := by
  have hdir : (D i).type ≠ .dir := by rw [hfree]; decide
  have hroot : i ≠ ROOTINO := fun hr => hdir (hr ▸ ht.root.1)
  rw [linksTo_eq h ht hi, ht.named_free hi hfree, if_neg hroot, childDirs, rest, ht.files i hdir]
  rfl

/-- **Link counts are exact.**  In every run that adds names only to directories with links, the link count of
every allocated inode is the number of entries that count for it; an inode is allocated exactly when it has
such an entry or a reference, and the blocks are those in use and the free ones. -/
theorem links_exact {es : List (ℕ × Call)} (hr : RunIf calls (fun _ s e => CallLive s e.1 e.2) es s) :
    (∀ i, (s.dinode i).type ≠ .free → (s.dinode i).nlink = linksTo s.dinode i)
    ∧ (∀ i, 0 < i → ((s.dinode i).type = .free ↔ linksTo s.dinode i = 0 ∧ (s.inode i).ref = 0))
    ∧ (∀ i, (s.dinode i).type = .free → (s.dinode i).size = 0)
    ∧ s.freeBlocks + usedBlocks s.dinode = dataBlocks := by
  obtain ⟨hk, hx⟩ := run_exact hr
  refine ⟨fun i => nlink_eq hx hk.tree, fun i hi => ⟨fun hfree => ⟨linksTo_free hx hk.tree hi hfree, ?_⟩, ?_⟩,
    hk.good.empty, hk.total⟩
  · have href := hk.good.refs i
    rw [Multiset.count_zero, add_zero] at href
    rw [href]
    by_contra hne
    exact hk.good.alloc i (Nat.pos_of_ne_zero hne) hfree
  · rintro ⟨hzero, href⟩
    by_contra halloc
    have hlink := nlink_eq hx hk.tree halloc
    rw [hzero] at hlink
    have := (hk.good.linked i (Set.notMem_empty i) halloc hlink).2
    omega

/-- The calls `mkdir b`, `mkdir b/c`, `link b/c x` of a directory, which fails, and `open b/f` with
`O_CREATE`. -/
def makeFile : List (ℕ × Call) :=
  [(1, .mkdir [98]), (1, .mkdir [98, 47, 99]), (1, .link [98, 47, 99] [120]),
    (1, .open [98, 47, 102] O_CREATE)]

/-- A directory with a directory and a file: its links are its name and one `..`. -/
theorem links_exact_file : ∃ s, RunIf calls (fun _ s e => CallLive s e.1 e.2) makeFile s
    ∧ (s.dinode 2).nlink = 2 ∧ linksTo s.dinode 2 = 2 ∧ linksTo s.dinode 4 = 1 := by
  obtain ⟨s, hr, hs⟩ := exists_runIf_of_map (S := calls) (C := fun _ s e => CallLive s e.1 e.2)
    (f := fun s => ((s.dinode 2).type, (s.dinode 2).nlink, (s.dinode 4).type, (s.dinode 4).nlink))
    (y := (.dir, 2, .file, 1)) makeFile ⟨[], imageOk_nil, rfl⟩ (by decide +kernel)
  simp only [Prod.mk.injEq] at hs
  obtain ⟨hdir, htwo, hfile, hone⟩ := hs
  have hall := (links_exact hr).1
  have h2 := hall 2 (by rw [hdir]; decide)
  have h4 := hall 4 (by rw [hfile]; decide)
  exact ⟨s, hr, htwo, by omega, by omega⟩

/-- The calls `mkdir b`, `chdir b`, `unlink /b`, `open f` with `O_CREATE`, `chdir /` and `close` of the
file. -/
def fileInRemoved : List (ℕ × Call) :=
  [(1, .mkdir [98]), (1, .chdir [98]), (1, .unlink [47, 98]), (1, .open [102] O_CREATE), (1, .chdir [47]),
    (1, .close 0)]

/-- **A file made in a removed directory is leaked**: it has a link and stays allocated, without an entry
anywhere and without a reference. -/
theorem file_in_removed_dir : ∃ s, Reach calls fileInRemoved s ∧ (s.dinode 3).type = .file
    ∧ (s.dinode 3).nlink = 1 ∧ linksTo s.dinode 3 = 0 ∧ (s.inode 3).ref = 0 := by
  obtain ⟨s, hr, hs⟩ := exists_runIf_of_map (S := calls) (C := fun _ _ _ => True)
    (f := fun s => ((s.dinode 3).type, (s.dinode 3).nlink, (s.inode 3).ref,
      (List.range NINODES).all fun j => decide (countedIn 3 (s.dinode j) = 0)))
    (y := (.file, 1, 0, true)) fileInRemoved ⟨[], imageOk_nil, rfl⟩ (by decide +kernel)
  simp only [Prod.mk.injEq, List.all_eq_true, List.mem_range, decide_eq_true_eq] at hs
  obtain ⟨hfile, hlink, href, hnone⟩ := hs
  exact ⟨s, hr, hfile, hlink, tally_eq_zero.mpr hnone, href⟩

end Xv6e.Fs.LinkCounts
