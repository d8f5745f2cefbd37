import Xv6e.Fs.DirEntries

/-!
# The directories of the disk

What holds of the inodes on the disk between calls, whatever sequence of calls was made: directories have the
entries `.` and `..`, other entries refer to allocated inodes, a directory has one name and knows the
directory that has it, and link counts cover the names.  The invariant is about the inodes alone; it is
preserved by each of the changes that calls make, and by freeing what nothing refers to.

* `Tree` — the invariant;
* `Tree.create`, `Tree.link`, `Tree.unlink`, `Tree.grown` — the changes;
* `Tree.sweep` — freeing.
-/

namespace Xv6e.Fs.NameTree

open Library.Sums
open Names Inodes Fs.Sequential InodeSpecs DiskSpecs CallEffects
open DirEntries
open Function (update update_self update_of_ne)

/-! ### Counts of names -/

def refersTo (i : ℕ) (e : Dirent) : Bool := decide (e.inum = i)

/-- The entries of `d` other than `.` and `..` that refer to inode `i`. -/
def entriesFor (i : ℕ) (d : Dinode) : ℕ := (rest d).countP (refersTo i)

/-- The entries other than `.` and `..` that refer to inode `i`. -/
def named (D : ℕ → Dinode) (i : ℕ) : ℕ := tally NINODES (entriesFor i) D

def refersToDir (D : ℕ → Dinode) (e : Dirent) : Bool := decide (e.inum ≠ 0 ∧ (D e.inum).type = .dir)

/-- The entries of `d` other than `.` and `..` that refer to directories. -/
def childDirs (D : ℕ → Dinode) (d : ℕ) : ℕ := (rest (D d)).countP (refersToDir D)

variable {D : ℕ → Dinode} {d i n : ℕ} {e : Dirent}

theorem entriesFor_pos (he : e ∈ rest (D d)) (hi : e.inum = i) : 0 < entriesFor i (D d) :=
  List.countP_pos_iff.mpr ⟨e, he, decide_eq_true hi⟩

theorem named_pos (hd : d < NINODES) (he : e ∈ rest (D d)) (hi : e.inum = i) : 0 < named D i :=
  lt_of_lt_of_le (entriesFor_pos he hi) (le_tally (g := entriesFor i) hd)

theorem exists_of_named_pos (h : 0 < named D i) : ∃ d < NINODES, ∃ e ∈ rest (D d), e.inum = i := by
  obtain ⟨d, hd, hpos⟩ := tally_pos.mp h
  obtain ⟨e, he, hi⟩ := List.countP_pos_iff.mp hpos
  exact ⟨d, hd, e, he, of_decide_eq_true hi⟩

/-! ### The invariant -/

/-- **The invariant of the name space.** -/
structure Tree (D : ℕ → Dinode) : Prop where
  range : ∀ n, (D n).type ≠ .free → 0 < n ∧ n < NINODES
  root : (D ROOTINO).type = .dir ∧ named D ROOTINO = 0
  dirs : ∀ d, (D d).type = .dir → IsDirOf d (D d)
  files : ∀ n, (D n).type ≠ .dir → (D n).entries = []
  /-- An entry refers to an allocated inode, and a directory knows the one that has its entry. -/
  target : ∀ d, ∀ e ∈ rest (D d), e.inum ≠ 0 →
    (D e.inum).type ≠ .free ∧ ((D e.inum).type = .dir → up (D e.inum) = d)
  /-- The links of a directory: its name, or being the root, and the `..` of its directories. -/
  dirLink : ∀ d, (D d).type = .dir →
    (D d).nlink = ((if d = ROOTINO then 1 else named D d) + childDirs D d : ℕ)
  once : ∀ d, (D d).type = .dir → named D d ≤ 1
  /-- The links of a file are at least its names. -/
  fileLink : ∀ n, (D n).type ≠ .free → (D n).type ≠ .dir → (named D n : ℤ) ≤ (D n).nlink
  nlink : ∀ n, (D n).type ≠ .free → 0 ≤ (D n).nlink ∧ (D n).nlink < 2 ^ 15

theorem Tree.isDir (h : Tree D) (he : e ∈ rest (D d)) : (D d).type = .dir := by
  by_contra hne
  rw [rest, h.files d hne] at he
  cases he

theorem Tree.dir_range (h : Tree D) (hd : (D d).type = .dir) : 0 < d ∧ d < NINODES :=
  h.range d (by rw [hd]; decide)

theorem Tree.named_free (h : Tree D) (hi : 0 < i) (hfree : (D i).type = .free) : named D i = 0 := by
  by_contra hne
  obtain ⟨d, _, e, he, rfl⟩ := exists_of_named_pos (Nat.pos_of_ne_zero hne)
  exact (h.target d e he hi.ne').1 hfree

theorem Tree.nlink_of_named (h : Tree D) (htype : (D i).type ≠ .free) (hname : 0 < named D i) :
    1 ≤ (D i).nlink := by
  by_cases hdir : (D i).type = .dir
  · have := h.dirLink i hdir
    by_cases hroot : i = ROOTINO
    · have := h.root.2
      rw [hroot] at hname
      omega
    · rw [if_neg hroot] at this
      omega
  · have := h.fileLink i htype hdir
    omega

theorem Tree.nlink_of_childDirs (h : Tree D) (hdir : (D d).type = .dir) (hc : 0 < childDirs D d) :
    1 ≤ (D d).nlink := by
  have := h.dirLink d hdir
  omega

theorem Tree.nlink_root (h : Tree D) : 1 ≤ (D ROOTINO).nlink := by
  have := h.dirLink ROOTINO h.root.1
  rw [if_pos rfl] at this
  omega

/-! ### Changes of counts -/

variable {D' : ℕ → Dinode}

theorem named_update (hd : d < NINODES) (v : Dinode) :
    named (update D d v) i + entriesFor i (D d) = named D i + entriesFor i v :=
  tally_update hd (entriesFor i) D v

theorem refersTo_zero (hi : 0 < i) (hz : e.inum = 0) : refersTo i e = false := by
  rw [refersTo, decide_eq_false_iff_not, hz]
  exact hi.ne

theorem refersToDir_zero (hz : e.inum = 0) : refersToDir D e = false := by
  rw [refersToDir, decide_eq_false_iff_not, hz]
  simp

theorem refersToDir_congr {r : List Dirent}
    (htype : ∀ e ∈ r, e.inum ≠ 0 → ((D' e.inum).type = .dir ↔ (D e.inum).type = .dir)) :
    r.countP (refersToDir D') = r.countP (refersToDir D) := by
  refine List.countP_congr fun e he => ?_
  simp only [refersToDir, decide_eq_true_eq]
  exact and_congr_right fun hne => htype e he hne

/-- The directories in a directory, when its entries and the types of what they refer to are the same. -/
theorem childDirs_congr (hrest : rest (D' d) = rest (D d))
    (htype : ∀ e ∈ rest (D d), e.inum ≠ 0 → ((D' e.inum).type = .dir ↔ (D e.inum).type = .dir)) :
    childDirs D' d = childDirs D d := by
  rw [childDirs, childDirs, hrest]
  exact refersToDir_congr htype

/-! ### `create` -/

theorem rest_newInode (dp i : ℕ) (type : FileType) (major minor : ℤ) :
    rest (newInode dp i type major minor) = [] := by
  rw [rest, newInode]
  split_ifs <;> rfl

theorem added_newParent {dp : ℕ} {name : Name} {type : FileType} (h : IsDirOf dp (D dp)) (hdp : 0 < dp)
    (hnew : findEntry name (D dp).entries 0 = none) (i : ℕ) :
    Added ⟨i, name.take DIRSIZ⟩ (rest (D dp)) (rest (newParent (D dp) name i type))
      ∧ up (newParent (D dp) name i type) = up (D dp) ∧ IsDirOf dp (newParent (D dp) name i type) := by
  rw [newParent]
  split_ifs
  · exact added_addEntry (d := addLink (D dp) 1) ⟨h.entries, h.up_pos, h.names⟩ hdp hnew i
  · exact added_addEntry h hdp hnew i

section Created

variable {dp : ℕ} {name : Name} {type : FileType} {major minor : ℤ}

theorem created_self (hne : i ≠ dp) :
    created D dp name i type major minor i = newInode dp i type major minor := by
  rw [created, update_of_ne hne, update_self]

theorem created_parent : created D dp name i type major minor dp = newParent (D dp) name i type :=
  update_self ..

theorem created_other (hi : n ≠ i) (hdp : n ≠ dp) : created D dp name i type major minor n = D n := by
  rw [created, update_of_ne hdp, update_of_ne hi]

theorem created_type (hne : i ≠ dp) (n : ℕ) :
    (created D dp name i type major minor n).type = if n = i then type else (D n).type := by
  by_cases hi : n = i
  · rw [if_pos hi, hi, created_self hne]
    rfl
  · rw [if_neg hi]
    by_cases hdp : n = dp
    · rw [hdp, created_parent, newParent]
      split_ifs <;> rfl
    · rw [created_other hi hdp]

theorem created_rest (hne : i ≠ dp) (hfree : (D i).entries = []) (hdp : n ≠ dp) :
    rest (created D dp name i type major minor n) = rest (D n) := by
  by_cases hi : n = i
  · rw [hi, created_self hne, rest_newInode, rest, hfree]
    rfl
  · rw [created_other hi hdp]

theorem created_up (h : Tree D) (hdir : (D dp).type = .dir) (hnew : findEntry name (D dp).entries 0 = none)
    (hn : n ≠ i) : up (created D dp name i type major minor n) = up (D n) := by
  by_cases hnd : n = dp
  · rw [hnd, created_parent]
    exact (added_newParent (h.dirs dp hdir) (h.dir_range hdir).1 hnew i).2.1
  · rw [created_other hn hnd]

theorem created_nlink_self (hne : i ≠ dp) : (created D dp name i type major minor i).nlink = 1 := by
  rw [created_self hne]
  rfl

theorem created_nlink_parent (h : Tree D) (hdir : (D dp).type = .dir) (hmax : (D dp).nlink + 1 < 2 ^ 15) :
    (created D dp name i type major minor dp).nlink = (D dp).nlink + if type = .dir then 1 else 0 := by
  have := (h.nlink dp (by rw [hdir]; decide)).1
  rw [created_parent, newParent]
  split_ifs
  · exact short_eq (by omega) hmax
  · exact (add_zero _).symm

theorem named_created (h : Tree D) (hdir : (D dp).type = .dir) (hfree : (D i).type = .free) (hi : i < NINODES)
    (hne : i ≠ dp) (hnew : findEntry name (D dp).entries 0 = none) {k : ℕ} (hk : 0 < k) :
    named (created D dp name i type major minor) k = named D k + if k = i then 1 else 0 := by
  obtain ⟨hdp, hlt⟩ := h.dir_range hdir
  have hadded : Added ⟨i, name.take DIRSIZ⟩ (rest (D dp)) (rest (newParent (D dp) name i type)) :=
    (added_newParent (h.dirs dp hdir) hdp hnew i).1
  have hadd := hadded.countP fun x => refersTo_zero (i := k) hk
  have h1 := named_update (D := D) (i := k) hi (newInode dp i type major minor)
  have h2 := named_update (D := update D i (newInode dp i type major minor)) (i := k) hlt
    (newParent (D dp) name i type)
  rw [update_of_ne hne.symm] at h2
  have hold : entriesFor k (D i) = 0 := by rw [entriesFor, rest, h.files i (by rw [hfree]; decide)]; rfl
  have hempty : entriesFor k (newInode dp i type major minor) = 0 := by rw [entriesFor, rest_newInode]; rfl
  rw [created]
  simp only [entriesFor, refersTo, decide_eq_true_eq, eq_comm (a := i)] at *
  omega

theorem childDirs_created (h : Tree D) (hdir : (D dp).type = .dir) (hfree : (D i).type = .free) (hi : 0 < i)
    (hne : i ≠ dp) (hnew : findEntry name (D dp).entries 0 = none) (d : ℕ) :
    childDirs (created D dp name i type major minor) d
      = childDirs D d + if d = dp ∧ type = .dir then 1 else 0 := by
  have hsame : ∀ d, ∀ e ∈ rest (D d), e.inum ≠ 0 →
      ((created D dp name i type major minor e.inum).type = .dir ↔ (D e.inum).type = .dir) := by
    intro d e he hne0
    rw [created_type hne, if_neg]
    exact fun hei => (h.target d e he hne0).1 (hei ▸ hfree)
  by_cases hd : d = dp
  · have hadded : Added ⟨i, name.take DIRSIZ⟩ (rest (D dp)) (rest (newParent (D dp) name i type)) :=
      (added_newParent (h.dirs dp hdir) (h.dir_range hdir).1 hnew i).1
    have hadd := hadded.countP fun x => refersToDir_zero (D := created D dp name i type major minor)
    rw [refersToDir_congr (hsame dp)] at hadd
    have hnew' : refersToDir (created D dp name i type major minor) ⟨i, name.take DIRSIZ⟩
        = decide (type = .dir) := by
      simp only [refersToDir, created_type hne, if_true]
      simp only [ne_eq, hi.ne', not_false_eq_true, true_and]
    rw [hd, childDirs, created_parent, hadd, hnew', childDirs]
    simp
  · rw [if_neg (fun hc => hd hc.1), add_zero]
    exact childDirs_congr (created_rest hne (h.files i (by rw [hfree]; decide)) hd) (hsame d)

/-- **`create` keeps the name space a tree.** -/
theorem Tree.create (h : Tree D) (hdir : (D dp).type = .dir) (hfree : (D i).type = .free)
    (hi : 0 < i ∧ i < NINODES) (hnew : findEntry name (D dp).entries 0 = none) (htype : type ≠ .free)
    (hmax : (D dp).nlink + 1 < 2 ^ 15) : Tree (created D dp name i type major minor) := by
  have hne : i ≠ dp := fun hid => by
    rw [← hid, hfree] at hdir
    cases hdir
  have hroot : i ≠ ROOTINO := fun hir => by
    have := h.root.1
    rw [← hir, hfree] at this
    cases this
  obtain ⟨hdp, hlt⟩ := h.dir_range hdir
  have hparent : Added ⟨i, name.take DIRSIZ⟩ (rest (D dp)) (rest (newParent (D dp) name i type)) ∧ _ :=
    added_newParent (h.dirs dp hdir) hdp hnew i
  obtain ⟨hadd, _, hshape⟩ := hparent
  have hempty : (D i).entries = [] := h.files i (by rw [hfree]; decide)
  have hT : ∀ n, (created D dp name i type major minor n).type = if n = i then type else (D n).type :=
    created_type hne
  have hN : ∀ {k : ℕ}, 0 < k → named (created D dp name i type major minor) k
      = named D k + if k = i then 1 else 0 := fun hk => named_created h hdir hfree hi.2 hne hnew hk
  have hC : ∀ d, childDirs (created D dp name i type major minor) d
      = childDirs D d + if d = dp ∧ type = .dir then 1 else 0 := childDirs_created h hdir hfree hi.1 hne hnew
  have hU : ∀ n, n ≠ i → up (created D dp name i type major minor n) = up (D n) :=
    fun n hn => created_up h hdir hnew hn
  have hL : ∀ n, n ≠ i → n ≠ dp → (created D dp name i type major minor n).nlink = (D n).nlink :=
    fun n hn hnd => by rw [created_other hn hnd]
  have hLdp : (created D dp name i type major minor dp).nlink = (D dp).nlink + if type = .dir then 1 else 0 :=
    created_nlink_parent h hdir hmax
  have hLi : (created D dp name i type major minor i).nlink = 1 := created_nlink_self hne
  have hnamed := h.named_free hi.1 hfree
  refine ⟨fun n hn => ?_, ⟨?_, ?_⟩, fun d hd => ?_, fun n hn => ?_, fun d e he hne0 => ?_, fun d hd => ?_,
    fun d hd => ?_, fun n hn hn' => ?_, fun n hn => ?_⟩
  · rw [hT] at hn
    split_ifs at hn with hni
    · rwa [hni]
    · exact h.range n hn
  · rw [hT, if_neg hroot.symm]
    exact h.root.1
  · rw [hN (by decide), if_neg hroot.symm, add_zero]
    exact h.root.2
  · by_cases hdi : d = i
    · rw [hT, if_pos hdi] at hd
      rw [hdi, created_self hne, newInode, if_pos hd]
      exact ⟨rfl, hdp, fun e he => by cases he⟩
    · rw [hT, if_neg hdi] at hd
      by_cases hdd : d = dp
      · rw [hdd, created_parent]
        exact hshape
      · rw [created_other hdi hdd]
        exact h.dirs d hd
  · rw [hT] at hn
    by_cases hni : n = i
    · rw [if_pos hni] at hn
      rw [hni, created_self hne, newInode, if_neg hn]
    · rw [if_neg hni] at hn
      rw [created_other hni fun hnd => hn (hnd ▸ hdir)]
      exact h.files n hn
  · -- an entry of before, or the new one
    have hold : e ∈ rest (D d) → (created D dp name i type major minor e.inum).type ≠ .free
        ∧ ((created D dp name i type major minor e.inum).type = .dir →
          up (created D dp name i type major minor e.inum) = d) := by
      intro he
      obtain ⟨h1, h2⟩ := h.target d e he hne0
      have hei : e.inum ≠ i := fun hei => h1 (hei ▸ hfree)
      rw [hT, if_neg hei, hU _ hei]
      exact ⟨h1, h2⟩
    by_cases hd : d = dp
    · rw [hd, created_parent] at he
      rcases hadd.mem he with rfl | he
      · rw [hT, if_pos rfl, created_self hne]
        refine ⟨htype, fun hdir' => ?_⟩
        rw [newInode, if_pos hdir', hd]
        rfl
      · rw [← hd] at he
        exact hold he
    · rw [created_rest hne hempty hd] at he
      exact hold he
  · have hpos : 0 < d := by
      by_cases hdi : d = i
      · rw [hdi]
        exact hi.1
      · rw [hT, if_neg hdi] at hd
        exact (h.dir_range hd).1
    by_cases hdi : d = i
    · have hc : childDirs D i = 0 := by rw [childDirs, rest, hempty]; rfl
      have hn : named (created D dp name i type major minor) i = 1 := by rw [hN hi.1, if_pos rfl, hnamed]
      rw [hdi, hLi, if_neg hroot, hn, hC, hc, if_neg fun hc => hne hc.1]
      rfl
    · rw [hT, if_neg hdi] at hd
      have hn : named (created D dp name i type major minor) d = named D d := by
        rw [hN hpos, if_neg hdi, add_zero]
      rw [hn, hC]
      by_cases hdd : d = dp
      · have hlink := h.dirLink dp hdir
        simp only [hdd, true_and, hLdp, hlink]
        push_cast
        ring
      · rw [hL d hdi hdd, h.dirLink d hd]
        simp only [hdd, false_and, if_false, add_zero]
  · rw [hT] at hd
    by_cases hdi : d = i
    · rw [hdi, hN hi.1, if_pos rfl, hnamed]
    · rw [if_neg hdi] at hd
      rw [hN (h.dir_range hd).1, if_neg hdi]
      exact h.once d hd
  · rw [hT] at hn hn'
    by_cases hni : n = i
    · rw [hni, hN hi.1, if_pos rfl, hnamed, hLi]
      rfl
    · rw [if_neg hni] at hn hn'
      rw [hN (h.range n hn).1, if_neg hni, hL n hni fun hnd => hn' (hnd ▸ hdir)]
      exact h.fileLink n hn hn'
  · rw [hT] at hn
    by_cases hni : n = i
    · rw [hni, hLi]
      omega
    · rw [if_neg hni] at hn
      have := h.nlink n hn
      by_cases hnd : n = dp
      · rw [hnd] at this ⊢
        rw [hLdp]
        split_ifs <;> omega
      · rw [hL n hni hnd]
        exact this

end Created

/-! ### `link` and `unlink` -/

/-- A change of entries and link counts that keeps the types of inodes: the new entries refer to files. -/
theorem Tree.relink (h : Tree D) (hT : ∀ n, (D' n).type = (D n).type) (hU : ∀ n, up (D' n) = up (D n))
    (hS : ∀ d, (D d).type = .dir → IsDirOf d (D' d))
    (hF : ∀ n, (D n).type ≠ .dir → (D' n).entries = (D n).entries) (hM : ∀ d, ∀ e ∈ rest (D' d), e.inum ≠ 0 →
      e ∈ rest (D d) ∨ (D e.inum).type ≠ .free ∧ (D e.inum).type ≠ .dir)
    (hroot : named D' ROOTINO = 0)
    (hlink : ∀ d, (D d).type = .dir → named D' d ≤ 1
      ∧ (D' d).nlink = ((if d = ROOTINO then 1 else named D' d) + childDirs D' d : ℕ))
    (hfile : ∀ n, (D n).type ≠ .free → (D n).type ≠ .dir → (named D' n : ℤ) ≤ (D' n).nlink)
    (hnlink : ∀ n, (D n).type ≠ .free → 0 ≤ (D' n).nlink ∧ (D' n).nlink < 2 ^ 15) : Tree D' := by
  refine ⟨fun n => ?_, ⟨?_, hroot⟩, fun d => ?_, fun n => ?_, fun d e he hne => ?_, fun d => ?_,
    fun d => ?_, fun n => ?_, fun n => ?_⟩
  · rw [hT]
    exact h.range n
  · rw [hT]
    exact h.root.1
  · rw [hT]
    exact hS d
  · rw [hT]
    exact fun hn => (hF n hn).trans (h.files n hn)
  · rw [hT, hU]
    rcases hM d e he hne with he | ⟨hfree, hdir⟩
    · exact h.target d e he hne
    · exact ⟨hfree, fun hd => absurd hd hdir⟩
  · rw [hT]
    exact fun hd => (hlink d hd).2
  · rw [hT]
    exact fun hd => (hlink d hd).1
  · rw [hT]
    exact hfile n
  · rw [hT]
    exact hnlink n

section Linked

variable {dp : ℕ} {name : Name}

theorem linked_self (hne : i ≠ dp) : linked D dp name i i = addLink (D i) 1 := by
  rw [linked, update_of_ne hne, update_self]

theorem linked_parent : linked D dp name i dp = addEntry (D dp) name i := update_self ..

theorem linked_other (hi : n ≠ i) (hdp : n ≠ dp) : linked D dp name i n = D n := by
  rw [linked, update_of_ne hdp, update_of_ne hi]

theorem linked_type (hne : i ≠ dp) (n : ℕ) : (linked D dp name i n).type = (D n).type := by
  by_cases hi : n = i
  · rw [hi, linked_self hne]
    rfl
  · by_cases hdp : n = dp
    · rw [hdp, linked_parent]
      rfl
    · rw [linked_other hi hdp]

theorem linked_rest (hne : i ≠ dp) (hdp : n ≠ dp) : rest (linked D dp name i n) = rest (D n) := by
  by_cases hi : n = i
  · rw [hi, linked_self hne]
    rfl
  · rw [linked_other hi hdp]

theorem linked_up (h : Tree D) (hdir : (D dp).type = .dir) (hnew : findEntry name (D dp).entries 0 = none)
    (hne : i ≠ dp) (n : ℕ) : up (linked D dp name i n) = up (D n) := by
  by_cases hnd : n = dp
  · rw [hnd, linked_parent]
    exact (added_addEntry (h.dirs dp hdir) (h.dir_range hdir).1 hnew i).2.1
  · by_cases hni : n = i
    · rw [hni, linked_self hne]
      rfl
    · rw [linked_other hni hnd]

theorem linked_nlink_self (h : Tree D) (halloc : (D i).type ≠ .free) (hne : i ≠ dp)
    (hmax : (D i).nlink + 1 < 2 ^ 15) : (linked D dp name i i).nlink = (D i).nlink + 1 := by
  have := (h.nlink i halloc).1
  rw [linked_self hne]
  exact short_eq (by omega) hmax

theorem linked_nlink_other (hn : n ≠ i) : (linked D dp name i n).nlink = (D n).nlink := by
  by_cases hnd : n = dp
  · rw [hnd, linked_parent]
    rfl
  · rw [linked_other hn hnd]

theorem named_linked (h : Tree D) (hdir : (D dp).type = .dir) (hi : i < NINODES) (hne : i ≠ dp)
    (hnew : findEntry name (D dp).entries 0 = none) {k : ℕ} (hk : 0 < k) :
    named (linked D dp name i) k = named D k + if k = i then 1 else 0 := by
  obtain ⟨hdp, hlt⟩ := h.dir_range hdir
  have hadd := (added_addEntry (h.dirs dp hdir) hdp hnew i).1.countP fun x => refersTo_zero (i := k) hk
  have h1 := named_update (D := D) (i := k) hi (addLink (D i) 1)
  have h2 := named_update (D := update D i (addLink (D i) 1)) (i := k) hlt (addEntry (D dp) name i)
  rw [update_of_ne hne.symm] at h2
  have hsame : entriesFor k (addLink (D i) 1) = entriesFor k (D i) := rfl
  rw [linked]
  simp only [entriesFor, refersTo, decide_eq_true_eq, eq_comm (a := i)] at *
  omega

theorem childDirs_linked (h : Tree D) (hdir : (D dp).type = .dir) (hfile : (D i).type ≠ .dir) (hne : i ≠ dp)
    (hnew : findEntry name (D dp).entries 0 = none) (d : ℕ) :
    childDirs (linked D dp name i) d = childDirs D d := by
  have hsame : ∀ e : Dirent, (linked D dp name i e.inum).type = .dir ↔ (D e.inum).type = .dir := fun e => by
    rw [linked_type hne]
  by_cases hd : d = dp
  · have hadd := (added_addEntry (h.dirs dp hdir) (h.dir_range hdir).1 hnew i).1.countP
      fun x => refersToDir_zero (D := linked D dp name i)
    have hnew' : refersToDir (linked D dp name i) ⟨i, name.take DIRSIZ⟩ = false := by
      rw [refersToDir, decide_eq_false_iff_not, linked_type hne]
      exact fun hc => hfile hc.2
    rw [hnew'] at hadd
    rw [hd, childDirs, linked_parent, hadd, refersToDir_congr fun e _ _ => hsame e]
    rfl
  · exact childDirs_congr (linked_rest hne hd) fun e _ _ => hsame e

/-- **`link` keeps the name space a tree.** -/
theorem Tree.link (h : Tree D) (hdir : (D dp).type = .dir) (hfile : (D i).type ≠ .dir ∧ (D i).type ≠ .free)
    (hnew : findEntry name (D dp).entries 0 = none) (hmax : (D i).nlink + 1 < 2 ^ 15) :
    Tree (linked D dp name i) := by
  have hne : i ≠ dp := fun hid => hfile.1 (hid ▸ hdir)
  obtain ⟨hi0, hi⟩ := h.range i hfile.2
  obtain ⟨hdp, hlt⟩ := h.dir_range hdir
  obtain ⟨hadd, _, hshape⟩ := added_addEntry (h.dirs dp hdir) hdp hnew i
  have hN := fun {k : ℕ} (hk : 0 < k) => named_linked h hdir hi hne hnew hk
  have hC := fun d => childDirs_linked h hdir hfile.1 hne hnew d
  have hroot : ROOTINO ≠ i := fun hir => hfile.1 (hir ▸ h.root.1)
  have hLi : (linked D dp name i i).nlink = (D i).nlink + 1 := linked_nlink_self h hfile.2 hne hmax
  have hL : ∀ n, n ≠ i → (linked D dp name i n).nlink = (D n).nlink := fun n hn => linked_nlink_other hn
  refine h.relink (linked_type hne) (linked_up h hdir hnew hne) (fun d hd => ?_) (fun n hn => ?_)
    (fun d e he hne0 => ?_) ?_ (fun d hd => ?_) (fun n hn hn' => ?_) (fun n hn => ?_)
  · have hdi : d ≠ i := fun hdi => hfile.1 (hdi ▸ hd)
    by_cases hdd : d = dp
    · rw [hdd, linked_parent]
      exact hshape
    · rw [linked_other hdi hdd]
      exact h.dirs d hd
  · have hnd : n ≠ dp := fun hnd => hn (hnd ▸ hdir)
    by_cases hni : n = i
    · rw [hni, linked_self hne]
      rfl
    · rw [linked_other hni hnd]
  · by_cases hdd : d = dp
    · rw [hdd, linked_parent] at he
      rcases hadd.mem he with rfl | he
      · exact Or.inr hfile.symm
      · rw [hdd]
        exact Or.inl he
    · rw [linked_rest hne hdd] at he
      exact Or.inl he
  · rw [hN (by decide), if_neg hroot, add_zero]
    exact h.root.2
  · have hdi : d ≠ i := fun hdi => hfile.1 (hdi ▸ hd)
    rw [hC, hL d hdi, hN (h.dir_range hd).1, if_neg hdi, add_zero]
    exact ⟨h.once d hd, h.dirLink d hd⟩
  · have := h.fileLink n hn hn'
    rw [hN (h.range n hn).1]
    by_cases hni : n = i
    · rw [hni, if_pos rfl, hLi]
      rw [hni] at this
      push_cast
      omega
    · rw [if_neg hni, hL n hni]
      exact this
  · by_cases hni : n = i
    · have := (h.nlink i hfile.2).1
      rw [hni, hLi]
      omega
    · rw [hL n hni]
      exact h.nlink n hn

end Linked

section Unlinked

variable {dp off : ℕ} {name : Name}

theorem unlinked_self : unlinked D dp off i i = addLink (D i) (-1) := update_self ..

theorem unlinked_parent (hne : i ≠ dp) : unlinked D dp off i dp
    = if (D i).type = .dir then addLink (withEntry (D dp) (off / direntSize) Dirent.zero) (-1)
      else withEntry (D dp) (off / direntSize) Dirent.zero := by
  rw [unlinked, update_of_ne hne.symm, update_self]

theorem unlinked_other (hi : n ≠ i) (hdp : n ≠ dp) : unlinked D dp off i n = D n := by
  rw [unlinked, update_of_ne hi, update_of_ne hdp]

theorem unlinked_entries (hne : i ≠ dp) :
    (unlinked D dp off i dp).entries = (withEntry (D dp) (off / direntSize) Dirent.zero).entries := by
  rw [unlinked_parent hne]
  split_ifs <;> rfl

theorem unlinked_type (hne : i ≠ dp) (n : ℕ) : (unlinked D dp off i n).type = (D n).type := by
  by_cases hi : n = i
  · rw [hi, unlinked_self]
    rfl
  · by_cases hdp : n = dp
    · rw [hdp, unlinked_parent hne]
      split_ifs <;> rfl
    · rw [unlinked_other hi hdp]

theorem unlinked_rest (hdp : n ≠ dp) : rest (unlinked D dp off i n) = rest (D n) := by
  by_cases hi : n = i
  · rw [hi, unlinked_self]
    rfl
  · rw [unlinked_other hi hdp]

theorem rest_unlinked (hne : i ≠ dp) :
    rest (unlinked D dp off i dp) = rest (withEntry (D dp) (off / direntSize) Dirent.zero) := by
  rw [rest, rest, unlinked_entries hne]

theorem unlinked_up (h : Tree D) (hdir : (D dp).type = .dir)
    (hdots : sameName name dot = false ∧ sameName name dotdot = false)
    (hfound : findEntry name (D dp).entries 0 = some (off, i)) (hne : i ≠ dp) (n : ℕ) :
    up (unlinked D dp off i n) = up (D n) := by
  by_cases hnd : n = dp
  · obtain ⟨_, _, _, _, hup, _⟩ := removed_withEntry (h.dirs dp hdir) hdots hfound
    rw [hnd, up, unlinked_entries hne]
    exact hup
  · by_cases hni : n = i
    · rw [hni, unlinked_self]
      rfl
    · rw [unlinked_other hni hnd]

theorem unlinked_nlink_self (h : Tree D) (halloc : (D i).type ≠ .free) (hlink : 1 ≤ (D i).nlink) :
    (unlinked D dp off i i).nlink = (D i).nlink - 1 := by
  have := (h.nlink i halloc).2
  rw [unlinked_self]
  exact short_eq (by omega) (by omega)

theorem unlinked_nlink_parent (h : Tree D) (hdir : (D dp).type = .dir) (hne : i ≠ dp) :
    (unlinked D dp off i dp).nlink = (D dp).nlink - if (D i).type = .dir then 1 else 0 := by
  have := h.nlink dp (by rw [hdir]; decide)
  rw [unlinked_parent hne]
  split_ifs
  · exact short_eq (by show -2 ^ 15 ≤ (D dp).nlink + -1; omega) (by show (D dp).nlink + -1 < 2 ^ 15; omega)
  · exact (sub_zero _).symm

variable (hremoved : Removed e (rest (D dp)) (rest (withEntry (D dp) (off / direntSize) Dirent.zero)))
    (he : e.inum = i)

include hremoved he

theorem named_unlinked (hdp : dp < NINODES) (hi : i < NINODES) (hne : i ≠ dp) {k : ℕ} (hk : 0 < k) :
    named (unlinked D dp off i) k + (if k = i then 1 else 0) = named D k := by
  have hcount := hremoved.countP (p := refersTo k) (refersTo_zero hk rfl)
  have h1 := named_update (D := D) (i := k) hdp
    (if (D i).type = .dir then addLink (withEntry (D dp) (off / direntSize) Dirent.zero) (-1)
      else withEntry (D dp) (off / direntSize) Dirent.zero)
  have h2 := named_update (D := update D dp
    (if (D i).type = .dir then addLink (withEntry (D dp) (off / direntSize) Dirent.zero) (-1)
      else withEntry (D dp) (off / direntSize) Dirent.zero)) (i := k) hi (addLink (D i) (-1))
  rw [update_of_ne hne] at h2
  have hsame : entriesFor k (addLink (D i) (-1)) = entriesFor k (D i) := rfl
  have hparent : entriesFor k
    (if (D i).type = .dir then addLink (withEntry (D dp) (off / direntSize) Dirent.zero) (-1)
      else withEntry (D dp) (off / direntSize) Dirent.zero)
      = entriesFor k (withEntry (D dp) (off / direntSize) Dirent.zero) := by
    split_ifs <;> rfl
  rw [unlinked]
  simp only [entriesFor, refersTo, decide_eq_true_eq, he, eq_comm (a := i)] at *
  omega

theorem childDirs_unlinked (hi : 0 < i) (hne : i ≠ dp) (d : ℕ) :
    childDirs (unlinked D dp off i) d + (if d = dp ∧ (D i).type = .dir then 1 else 0) = childDirs D d := by
  have hsame : ∀ e : Dirent, (unlinked D dp off i e.inum).type = .dir ↔ (D e.inum).type = .dir := fun e => by
    rw [unlinked_type hne]
  by_cases hd : d = dp
  · have hcount := hremoved.countP (p := refersToDir D) (refersToDir_zero rfl)
    have hentry : refersToDir D e = decide ((D i).type = .dir) := by
      rw [refersToDir, he]
      simp only [ne_eq, hi.ne', not_false_eq_true, true_and]
    rw [hentry] at hcount
    rw [hd, childDirs, rest_unlinked hne, refersToDir_congr fun e _ _ => hsame e, childDirs, ← hcount]
    simp
  · rw [if_neg fun hc => hd hc.1, add_zero]
    exact childDirs_congr (unlinked_rest hd) fun e _ _ => hsame e

omit hremoved he

theorem childDirs_of_isdirempty (h : isdirempty (D d).entries = true) : childDirs D d = 0 := by
  rw [isdirempty, List.all_eq_true] at h
  rw [childDirs, List.countP_eq_zero]
  intro e he
  rw [refersToDir_zero (of_decide_eq_true (h e he))]
  exact Bool.false_ne_true

/-- **`unlink` keeps the name space a tree.** -/
theorem Tree.unlink (h : Tree D) (hdir : (D dp).type = .dir)
    (hdots : sameName name dot = false ∧ sameName name dotdot = false)
    (hfound : findEntry name (D dp).entries 0 = some (off, i)) (hne : i ≠ dp) (halloc : (D i).type ≠ .free)
    (hlink : 1 ≤ (D i).nlink) (hempty : (D i).type = .dir → isdirempty (D i).entries = true) :
    Tree (unlinked D dp off i) := by
  obtain ⟨e, he, hi0, hremoved, _, hshape⟩ := removed_withEntry (h.dirs dp hdir) hdots hfound
  have hi0 : 0 < i := Nat.pos_of_ne_zero hi0
  have hi : i < NINODES := (h.range i halloc).2
  obtain ⟨hdp, hlt⟩ := h.dir_range hdir
  have hN := fun {k : ℕ} (hk : 0 < k) => named_unlinked hremoved he hlt hi hne hk
  have hC := fun d => childDirs_unlinked hremoved he hi0 hne d
  have hname : 0 < named D i := named_pos hlt hremoved.mem_entry he
  have hroot : ROOTINO ≠ i := fun hir => by
    have := h.root.2
    rw [hir] at this
    omega
  have hLi : (unlinked D dp off i i).nlink = (D i).nlink - 1 := unlinked_nlink_self h halloc hlink
  have hLdp : (unlinked D dp off i dp).nlink = (D dp).nlink - if (D i).type = .dir then 1 else 0 :=
    unlinked_nlink_parent h hdir hne
  have hL : ∀ n, n ≠ i → n ≠ dp → (unlinked D dp off i n).nlink = (D n).nlink :=
    fun n hn hnd => by rw [unlinked_other hn hnd]
  refine h.relink (unlinked_type hne) (unlinked_up h hdir hdots hfound hne) (fun d hd => ?_) (fun n hn => ?_)
    (fun d x hx hne0 => ?_) ?_ (fun d hd => ?_) (fun n hn hn' => ?_) (fun n hn => ?_)
  · by_cases hdd : d = dp
    · rw [hdd]
      have hup' : up (unlinked D dp off i dp) = up (withEntry (D dp) (off / direntSize) Dirent.zero) := by
        rw [up, unlinked_entries hne, up]
      refine ⟨?_, by rw [hup']; exact hshape.up_pos, by rw [rest_unlinked hne]; exact hshape.names⟩
      rw [hup', rest_unlinked hne, unlinked_entries hne]
      exact hshape.entries
    · by_cases hdi : d = i
      · rw [hdi, unlinked_self]
        have := h.dirs i (hdi ▸ hd)
        exact ⟨this.entries, this.up_pos, this.names⟩
      · rw [unlinked_other hdi hdd]
        exact h.dirs d hd
  · have hnd : n ≠ dp := fun hnd => hn (hnd ▸ hdir)
    by_cases hni : n = i
    · rw [hni, unlinked_self]
      rfl
    · rw [unlinked_other hni hnd]
  · by_cases hdd : d = dp
    · rw [hdd, rest_unlinked hne] at hx
      rw [hdd]
      exact Or.inl (hremoved.mem hx hne0)
    · rw [unlinked_rest hdd] at hx
      exact Or.inl hx
  · have := hN (k := ROOTINO) (by decide)
    rw [if_neg hroot, h.root.2] at this
    exact this
  · have hn := hN (h.dir_range hd).1
    have hc := hC d
    have hone := h.once d hd
    have hdl := h.dirLink d hd
    by_cases hdi : d = i
    · -- the directory that is removed had one name and no directories
      have hci := childDirs_of_isdirempty (hempty (hdi ▸ hd))
      rw [hdi] at hn hc hone hdl ⊢
      rw [if_pos rfl] at hn
      rw [if_neg fun hc => hne hc.1] at hc
      rw [if_neg hroot.symm] at hdl ⊢
      rw [hLi]
      omega
    · rw [if_neg hdi] at hn
      by_cases hdd : d = dp
      · rw [hdd] at hn hc hone hdl ⊢
        simp only [true_and] at hc
        rw [hLdp, hdl, ← hn]
        refine ⟨by omega, ?_⟩
        split_ifs at hc ⊢ <;> omega
      · rw [if_neg fun hc => hdd hc.1] at hc
        rw [hL d hdi hdd, hdl]
        refine ⟨by omega, ?_⟩
        rw [← hn, ← hc]
        rfl
  · have hn0 := hN (h.range n hn).1
    have := h.fileLink n hn hn'
    by_cases hni : n = i
    · rw [hni] at hn0 this ⊢
      rw [if_pos rfl] at hn0
      rw [hLi]
      omega
    · rw [if_neg hni] at hn0
      rw [hL n hni fun hnd => hn' (hnd ▸ hdir)]
      omega
  · have hrange := h.nlink n hn
    by_cases hni : n = i
    · rw [hni] at hrange ⊢
      rw [hLi]
      omega
    · by_cases hnd : n = dp
      · rw [hnd] at hrange ⊢
        rw [hLdp]
        split_ifs with htd
        · have hc := hC dp
          rw [if_pos ⟨rfl, htd⟩] at hc
          have := h.nlink_of_childDirs hdir (by omega)
          omega
        · omega
      · rw [hL n hni hnd]
        exact hrange

end Unlinked

/-! ### Sizes -/

theorem grown_same (D : ℕ → Dinode) (i size n : ℕ) :
    (update D i { D i with fsize := size } n).type = (D n).type
      ∧ (update D i { D i with fsize := size } n).entries = (D n).entries
      ∧ (update D i { D i with fsize := size } n).nlink = (D n).nlink := by
  by_cases hn : n = i
  · rw [hn, update_self]
    exact ⟨rfl, rfl, rfl⟩
  · rw [update_of_ne hn]
    exact ⟨rfl, rfl, rfl⟩

theorem rest_grown (D : ℕ → Dinode) (i size n : ℕ) :
    rest (update D i { D i with fsize := size } n) = rest (D n) := by
  rw [rest, rest, (grown_same D i size n).2.1]

theorem up_grown (D : ℕ → Dinode) (i size n : ℕ) :
    up (update D i { D i with fsize := size } n) = up (D n) := by
  rw [up, up, (grown_same D i size n).2.1]

theorem named_grown (D : ℕ → Dinode) (i size k : ℕ) :
    named (update D i { D i with fsize := size }) k = named D k :=
  tally_congr fun j _ => by rw [entriesFor, entriesFor, rest_grown]

theorem Tree.grown (h : Tree D) (i size : ℕ) : Tree (update D i { D i with fsize := size }) := by
  have hsame := grown_same D i size
  have hrest := rest_grown D i size
  have hup := up_grown D i size
  have hN := named_grown D i size
  have hC : ∀ d, childDirs (update D i { D i with fsize := size }) d = childDirs D d := fun d =>
    childDirs_congr (hrest d) fun e _ _ => by rw [(hsame e.inum).1]
  refine h.relink (fun n => (hsame n).1) hup (fun d hd => ?_) (fun n _ => (hsame n).2.1)
    (fun d e he _ => Or.inl (by rwa [hrest] at he)) ?_ (fun d hd => ?_) (fun n hn hn' => ?_) (fun n hn => ?_)
  · have := h.dirs d hd
    refine ⟨?_, by rw [hup]; exact this.up_pos, by rw [hrest]; exact this.names⟩
    rw [(hsame d).2.1, hup, hrest]
    exact this.entries
  · rw [hN]
    exact h.root.2
  · rw [hN, hC, (hsame d).2.2]
    exact ⟨h.once d hd, h.dirLink d hd⟩
  · rw [hN, (hsame n).2.2]
    exact h.fileLink n hn hn'
  · rw [(hsame n).2.2]
    exact h.nlink n hn

/-! ### Freeing -/

section Sweep

variable {R : ℕ → ℕ}

/-- The inodes that a sweep frees. -/
def Gone (R : ℕ → ℕ) (D : ℕ → Dinode) (n : ℕ) : Prop := (D n).type ≠ .free ∧ (D n).nlink = 0 ∧ R n = 0

theorem sweep_gone (h : Gone R D n) : sweep R D n = freed (D n) := if_pos h

theorem sweep_kept (h : ¬ Gone R D n) : sweep R D n = D n := if_neg h

theorem Tree.not_gone (h : Tree D) (hname : 0 < named D i) : ¬ Gone R D i := fun hg => by
  have := h.nlink_of_named hg.1 hname
  have := hg.2.1
  omega

theorem Tree.target_kept (h : Tree D) (he : e ∈ rest (D d)) : ¬ Gone R D e.inum :=
  h.not_gone (named_pos (h.dir_range (h.isDir he)).2 he rfl)

theorem Tree.gone_childDirs (h : Tree D) (hg : Gone R D n) (hdir : (D n).type = .dir) :
    childDirs D n = 0 := by
  have := h.dirLink n hdir
  rw [hg.2.1] at this
  omega

theorem rest_sweep (hg : ¬ Gone R D n) : rest (sweep R D n) = rest (D n) := by rw [sweep_kept hg]

theorem Tree.named_sweep (h : Tree D) (hdir : (D i).type = .dir) : named (sweep R D) i = named D i := by
  refine tally_congr fun n _ => ?_
  by_cases hg : Gone R D n
  · rw [sweep_gone hg]
    have hzero : entriesFor i (D n) = 0 := by
      by_contra hne
      obtain ⟨e, he, hei⟩ := List.countP_pos_iff.mp (Nat.pos_of_ne_zero hne)
      have hei : e.inum = i := of_decide_eq_true hei
      have hc := h.gone_childDirs hg (h.isDir he)
      rw [childDirs, List.countP_eq_zero] at hc
      refine hc e he (decide_eq_true ⟨?_, by rw [hei]; exact hdir⟩)
      rw [hei]
      exact (h.dir_range hdir).1.ne'
    rw [hzero]
    rfl
  · rw [sweep_kept hg]

theorem named_sweep_le : named (sweep R D) i ≤ named D i := by
  refine tally_mono fun n _ => ?_
  by_cases hg : Gone R D n
  · rw [sweep_gone hg]
    exact Nat.zero_le _
  · rw [sweep_kept hg]

theorem sweep_type_dir (hd : (sweep R D n).type = .dir) : ¬ Gone R D n ∧ (D n).type = .dir := by
  by_cases hg : Gone R D n
  · rw [sweep_gone hg] at hd
    cases hd
  · rw [sweep_kept hg] at hd
    exact ⟨hg, hd⟩

theorem sweep_type_ne_free (hn : (sweep R D n).type ≠ .free) : ¬ Gone R D n ∧ (D n).type ≠ .free := by
  by_cases hg : Gone R D n
  · rw [sweep_gone hg] at hn
    exact absurd rfl hn
  · rw [sweep_kept hg] at hn
    exact ⟨hg, hn⟩

theorem Tree.childDirs_sweep (h : Tree D) (hg : ¬ Gone R D d) : childDirs (sweep R D) d = childDirs D d :=
  childDirs_congr (rest_sweep hg) fun _ he _ => by rw [sweep_kept (h.target_kept he)]

/-- **Freeing what nothing refers to keeps the name space a tree.** -/
theorem Tree.sweep (h : Tree D) : Tree (sweep R D) := by
  have hroot : ¬ Gone R D ROOTINO := fun hg => by
    have := h.nlink_root
    have := hg.2.1
    omega
  refine ⟨fun n hn => h.range n (sweep_type_ne_free hn).2, ⟨?_, ?_⟩, fun d hd => ?_, fun n hn => ?_,
    fun d e he hne => ?_, fun d hd => ?_, fun d hd => ?_, fun n hn hn' => ?_, fun n hn => ?_⟩
  · rw [sweep_kept hroot]
    exact h.root.1
  · rw [h.named_sweep h.root.1]
    exact h.root.2
  · obtain ⟨hg, hd⟩ := sweep_type_dir hd
    rw [sweep_kept hg]
    exact h.dirs d hd
  · by_cases hg : Gone R D n
    · rw [sweep_gone hg]
      rfl
    · rw [sweep_kept hg] at hn ⊢
      exact h.files n hn
  · by_cases hg : Gone R D d
    · rw [sweep_gone hg] at he
      cases he
    · rw [rest_sweep hg] at he
      rw [sweep_kept (h.target_kept he)]
      exact h.target d e he hne
  · obtain ⟨hg, hd⟩ := sweep_type_dir hd
    rw [sweep_kept hg, h.childDirs_sweep hg, h.named_sweep hd]
    exact h.dirLink d hd
  · obtain ⟨_, hd⟩ := sweep_type_dir hd
    rw [h.named_sweep hd]
    exact h.once d hd
  · obtain ⟨hg, hn⟩ := sweep_type_ne_free hn
    rw [sweep_kept hg] at hn' ⊢
    have := h.fileLink n hn hn'
    have := named_sweep_le (R := R) (D := D) (i := n)
    omega
  · obtain ⟨hg, hn⟩ := sweep_type_ne_free hn
    rw [sweep_kept hg]
    exact h.nlink n hn

end Sweep

end Xv6e.Fs.NameTree
