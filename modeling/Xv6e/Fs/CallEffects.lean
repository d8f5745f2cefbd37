import Xv6e.Fs.DiskSpecs

/-!
# What a call does to the disk

Each call changes the disk in one of five ways, and then frees the inodes that nothing refers to any more.

* `Change s p c D` — the call `c` of process `p` changes the inodes to `D`;
* `sweep` — the inodes without links that no process holds are freed;
* `createNew_spec` — what `create` does to the disk;
* `Mid` — a call between its change and its return.
-/

namespace Xv6e.Fs.CallEffects

open Library.Locking Library.Sums
open Names Inodes Syscalls Fs.Sequential InodeSpecs DiskSpecs
open Prog (wp wp_seq wp_mono wp_bind wp_atomic)
open Function (update update_comm update_idem update_self update_of_ne update_eq_self_iff)

variable {R : ℕ → ℕ} {s t : State} {X : Multiset ℕ} {V N : Set ℕ} {n : ℕ} {E : Panic → Prop} {H : List ℕ}

/-! ### Making an inode -/

/-- The inode that `create` makes in directory `dp`. -/
def newInode (dp i : ℕ) (type : FileType) (major minor : ℤ) : Dinode :=
  ⟨type, short major, short minor, 1, if type = .dir then [⟨i, dot⟩, ⟨dp, dotdot⟩] else [], 0⟩

/-- The directory in which `create` makes the inode `i`. -/
def newParent (d : Dinode) (name : Name) (i : ℕ) (type : FileType) : Dinode :=
  addEntry (if type = .dir then addLink d 1 else d) name i

def created (D : ℕ → Dinode) (dp : ℕ) (name : Name) (i : ℕ) (type : FileType)
    (major minor : ℤ) : ℕ → Dinode :=
  update (update D i (newInode dp i type major minor)) dp (newParent (D dp) name i type)

theorem makeDots_spec (hE : Others E) (h : Good R s X V ∅) {dp i : ℕ} (hdp : dp ∈ V) (hi : i ∈ V)
    (hne : i ≠ dp) (hi0 : 0 < i) (hempty : (s.dinode i).entries = []) :
    (makeDots dp i).wp E (fun _ t H' => H' = H ∧ Good R t X V ∅ ∧ Becomes s t (update
      (update s.dinode dp (addLink (s.dinode dp) 1)) i
      { s.dinode i with entries := [⟨i, dot⟩, ⟨dp, dotdot⟩] })) s H := by
  rw [makeDots]
  refine wp_seq (incLink_spec h hdp) ?_
  rintro _ t _ ⟨rfl, hb, hg⟩
  have hti : t.dinode i = s.dinode i := by rw [hb.dinode, update_of_ne hne]
  refine wp_seq (dirlink_new hE hg hi i (by rw [hti, hempty]; rfl)) ?_
  rintro _ u _ ⟨rfl, rfl, hb', hg'⟩
  have hui : u.dinode i = { s.dinode i with entries := [⟨i, dot⟩] } := by
    rw [hb'.dinode, update_self, hti, addEntry, withEntry, hempty]
    rfl
  rw [if_pos rfl]
  have hdots : findEntry dotdot (u.dinode i).entries 0 = none := by
    rw [hui]
    show findEntry dotdot [⟨i, dot⟩] 0 = none
    rw [findEntry, if_neg hi0.ne']
    rfl
  refine wp_seq (dirlink_new hE hg' hi dp hdots) ?_
  rintro _ v _ ⟨rfl, rfl, hb'', hg''⟩
  have hplace : freeEntry [⟨i, dot⟩] 0 = direntSize := by
    rw [freeEntry, if_neg hi0.ne']
    rfl
  have hadd : addEntry { s.dinode i with entries := [⟨i, dot⟩] } dotdot dp
      = { s.dinode i with entries := [⟨i, dot⟩, ⟨dp, dotdot⟩] } := by
    rw [addEntry, withEntry]
    simp only [hplace]
    rfl
  have hbv := (hb.trans hb').trans hb''
  refine ⟨rfl, hg'', ?_, hbv.total, hbv.file, hbv.proc⟩
  rw [hb''.dinode, hui, hadd, hb'.dinode, update_idem, hb.dinode]

theorem short_eq {z : ℤ} (h0 : -2 ^ 15 ≤ z) (h1 : z < 2 ^ 15) : short z = z := by
  rw [short]
  omega

theorem short_succ_ne_zero {z : ℤ} (h0 : 0 ≤ z) (h1 : z < 2 ^ 15) : short (z + 1) ≠ 0 := by
  rw [short]
  omega

/-- A file without contents, with one link. -/
def emptyInode (type : FileType) (major minor : ℤ) : Dinode := ⟨type, short major, short minor, 1, [], 0⟩

theorem makeInode_spec (hE : Others E) (hE' : E .ilockNoType) {type : FileType} (major minor : ℤ)
    (htype : type ≠ .free) (h : Good R s X V ∅) :
    (makeInode type major minor).wp E (fun i t H' => H' = i :: H ∧ Good R t (i ::ₘ X) (insert i V) ∅
      ∧ (s.dinode i).type = .free ∧ (0 < i ∧ i < NINODES)
      ∧ Becomes s t (update s.dinode i (emptyInode type major minor))) s H := by
  rw [makeInode]
  refine wp_seq (ialloc_spec hE htype h) ?_
  rintro i s1 _ ⟨rfl, hfree, hrange, hb1, hg1⟩
  refine wp_seq (ilock_spec hg1 (Multiset.mem_cons_self i _) fun _ => hE') ?_
  rintro _ s2 _ ⟨rfl, hq2, hg2⟩
  have hd2 : s2.dinode = update s.dinode i ⟨type, 0, 0, 0, [], 0⟩ := hq2.dinode.trans hb1.dinode
  have hi2 : s2.dinode i = ⟨type, 0, 0, 0, [], 0⟩ := by rw [hd2, update_self]
  have hcopy := (hg2.copied_of_mem (Set.mem_insert i _)).1.1
  refine wp_seq (updateInode_spec (d := emptyInode type major minor) hg2 (Set.mem_insert i _) rfl rfl rfl
    ⟨by rw [hcopy, hi2]; rfl, rfl, rfl, rfl⟩ (by rw [hi2]; exact ⟨rfl, rfl⟩)) ?_
  rintro _ s3 _ ⟨rfl, hb3, hg3⟩
  rw [Set.sdiff_self] at hg3
  have hb := (hb1.trans hq2.becomes).trans hb3
  refine ⟨rfl, hg3, hfree, hrange, ?_, hb.total, hb.file, hb.proc⟩
  rw [hb3.dinode, hd2, update_idem]

theorem whenDir_makeDots_spec (hE : Others E) {D : ℕ → Dinode} {dp i : ℕ} {type : FileType} {major minor : ℤ}
    (h : Good R s X V ∅) (hdp : dp ∈ V) (hi : i ∈ V) (hne : i ≠ dp) (hi0 : 0 < i)
    (hd : s.dinode = update D i (emptyInode type major minor)) :
    (whenDir type (makeDots dp i)).wp E (fun _ t H' => H' = H ∧ Good R t X V ∅
      ∧ Becomes s t (update (update D i (newInode dp i type major minor)) dp
        (if type = .dir then addLink (D dp) 1 else D dp))) s H := by
  have hself : s.dinode i = emptyInode type major minor := by rw [hd, update_self]
  have hother : s.dinode dp = D dp := by rw [hd, update_of_ne hne.symm]
  rw [whenDir, newInode]
  by_cases hdir : type = .dir
  · rw [if_pos hdir, if_pos hdir, if_pos hdir]
    refine wp_mono ?_ _ (makeDots_spec hE h hdp hi hne hi0 (by rw [hself]; rfl))
    rintro _ t _ ⟨rfl, hg, hb⟩
    refine ⟨rfl, hg, ?_, hb.total, hb.file, hb.proc⟩
    rw [hb.dinode, hself, hother, hd, update_comm hne, update_idem, update_comm hne.symm]
    rfl
  · rw [if_neg hdir, if_neg hdir, if_neg hdir]
    refine ⟨rfl, h, ?_, rfl, rfl, rfl⟩
    rw [← hother, hd, update_of_ne hne.symm]
    exact (update_eq_self_iff.mpr (update_of_ne hne.symm _ _).symm).symm

/-- **`create` of a new name** makes an inode, locked and referenced, and gives up the parent. -/
theorem createNew_spec (hE : Others E) (hE' : E .ilockNoType) {dp : ℕ} {name : Name} {type : FileType}
    (major minor : ℤ) (htype : type ≠ .free) (h : Good R s (dp ::ₘ X) {dp} ∅) (hs : Strict R s)
    (hnew : findEntry name (s.dinode dp).entries 0 = none)
    (hlink : 0 ≤ (s.dinode dp).nlink ∧ (s.dinode dp).nlink < 2 ^ 15) :
    (createNew dp name type major minor).wp E (fun i t H' => H' = i :: H ∧ Good R t (i ::ₘ X) {i} ∅
      ∧ (s.dinode i).type = .free ∧ (0 < i ∧ i < NINODES)
      ∧ Becomes s t (created s.dinode dp name i type major minor)) s (dp :: H) := by
  have hdp : (s.dinode dp).type ≠ .free := (h.copied_of_mem (Set.mem_singleton dp)).2
  rw [createNew]
  refine wp_seq (makeInode_spec hE hE' major minor htype h) ?_
  rintro i s1 _ ⟨rfl, hg1, hfree, hrange, hb1⟩
  have hne : i ≠ dp := fun hid => hdp (hid ▸ hfree)
  have hmem : dp ∈ (insert i {dp} : Set ℕ) := Set.mem_insert_of_mem _ rfl
  refine wp_seq (whenDir_makeDots_spec hE hg1 hmem (Set.mem_insert i _) hne hrange.1 hb1.dinode) ?_
  rintro _ s2 _ ⟨rfl, hg2, hb2⟩
  have hdp2 : s2.dinode dp = if type = .dir then addLink (s.dinode dp) 1 else s.dinode dp := by
    rw [hb2.dinode, update_self]
  have hnew2 : findEntry name (s2.dinode dp).entries 0 = none := by
    rw [hdp2]
    split_ifs <;> exact hnew
  refine wp_seq (dirlink_new hE hg2 hmem i hnew2) ?_
  rintro _ s3 _ ⟨rfl, rfl, hb3, hg3⟩
  rw [if_pos rfl]
  have hd3 : s3.dinode = created s.dinode dp name i type major minor := by
    rw [hb3.dinode, hdp2, hb2.dinode, update_idem, created, newParent]
  have hlast : ¬ Last R s3 (i ::ₘ dp ::ₘ X) dp := by
    rintro ⟨_, hzero, hR, _⟩
    rw [hd3, created, update_self, newParent] at hzero
    by_cases hdir : type = .dir
    · rw [if_pos hdir] at hzero
      exact short_succ_ne_zero hlink.1 hlink.2 hzero
    · rw [if_neg hdir] at hzero
      have := hs dp hdp hzero
      omega
  have herase : (i :: dp :: H).erase dp = i :: H := by
    rw [List.erase_cons_tail (by simpa using hne), List.erase_cons_head]
  refine wp_seq (iunlockput_spec hg3 (Multiset.mem_cons_of_mem (Multiset.mem_cons_self dp X)) (by simp) ?_) ?_
  · rintro m (rfl | rfl) hm
    · rw [herase]
      exact List.mem_cons_self
    · exact absurd rfl hm
  · rintro _ s4 _ ⟨rfl, hb4, hg4⟩
    rw [afterPut, if_neg hlast] at hb4
    rw [Multiset.cons_swap, Multiset.erase_cons_head] at hg4
    have hb := ((hb1.trans hb2).trans hb3).trans hb4
    exact ⟨herase, hg4.forget (by simp [hne]), hfree, hrange, hb4.dinode.trans hd3, hb.total,
      hb.file, hb.proc⟩

/-! ### Changes -/

/-- The path, type and device numbers with which a call uses `create`. -/
def creates : Call → Option (Name × FileType × ℤ × ℤ)
  | .open path omode => if omode &&& O_CREATE ≠ 0 then some (path, .file, 0, 0) else none
  | .mkdir path => some (path, .dir, 0, 0)
  | .mknod path major minor => some (path, .dev, major, minor)
  | _ => none

/-- The inodes after `link` of inode `i` as `name` in `dp`. -/
def linked (D : ℕ → Dinode) (dp : ℕ) (name : Name) (i : ℕ) : ℕ → Dinode :=
  update (update D i (addLink (D i) 1)) dp (addEntry (D dp) name i)

/-- The inodes after `unlink` of the entry at `off` of `dp`, for inode `i`. -/
def unlinked (D : ℕ → Dinode) (dp off i : ℕ) : ℕ → Dinode :=
  let d := withEntry (D dp) (off / direntSize) Dirent.zero
  update (update D dp (if (D i).type = .dir then addLink d (-1) else d)) i (addLink (D i) (-1))

/-- **What a call can do to the inodes.** -/
inductive Change (s : State) (p : ℕ) : Call → (ℕ → Dinode) → Prop
  | same (c : Call) : Change s p c s.dinode
  | create {c : Call} {path name : Name} {type : FileType} {major minor : ℤ} {dp i : ℕ}
      (call : creates c = some (path, type, major, minor)) (parent : resolve s p path true = some (dp, name))
      (dir : (s.dinode dp).type = .dir) (new : findEntry name (s.dinode dp).entries 0 = none)
      (free : (s.dinode i).type = .free) (range : 0 < i ∧ i < NINODES) :
      Change s p c (created s.dinode dp name i type major minor)
  | link {old new name last : Name} {dp i : ℕ} (target : resolve s p old false = some (i, last))
      (file : (s.dinode i).type ≠ .dir ∧ (s.dinode i).type ≠ .free)
      (parent : resolve s p new true = some (dp, name))
      (dir : (s.dinode dp).type = .dir) (fresh : findEntry name (s.dinode dp).entries 0 = none) :
      Change s p (.link old new) (linked s.dinode dp name i)
  | unlink {path name : Name} {dp off i : ℕ} (parent : resolve s p path true = some (dp, name))
      (dir : (s.dinode dp).type = .dir) (dots : sameName name dot = false ∧ sameName name dotdot = false)
      (found : findEntry name (s.dinode dp).entries 0 = some (off, i)) (ne : i ≠ dp)
      (alloc : (s.dinode i).type ≠ .free) (nlink : 1 ≤ (s.dinode i).nlink)
      (empty : (s.dinode i).type = .dir → isdirempty (s.dinode i).entries = true) :
      Change s p (.unlink path) (unlinked s.dinode dp off i)
  | write {fd n i size : ℕ} (alloc : (s.dinode i).type ≠ .free) :
      Change s p (.write fd n) (update s.dinode i { s.dinode i with fsize := size })

/-- The inodes without links that no one holds are freed. -/
def sweep (R : ℕ → ℕ) (D : ℕ → Dinode) (n : ℕ) : Dinode :=
  if (D n).type ≠ .free ∧ (D n).nlink = 0 ∧ R n = 0 then freed (D n) else D n

/-- **The effect of a call**: a change, and the freeing of what nothing refers to. -/
def Effect (s : State) (p : ℕ) (c : Call) (t : State) : Prop :=
  Good (held t) t 0 ∅ ∅ ∧ total t = total s ∧ ∃ D, Change s p c D ∧ t.dinode = sweep (held t) D

/-- The effect of a call that leaves the tables of files and processes as they were. -/
def Settled (s : State) (p : ℕ) (c : Call) (t : State) : Prop := Effect s p c t ∧ held t = held s

theorem sweep_self (h : Good R t 0 V ∅) : sweep R t.dinode = t.dinode := by
  funext n
  rw [sweep, if_neg]
  rintro ⟨htype, hlink, hR⟩
  have := h.linked n (Set.notMem_empty n) htype hlink
  have := h.refs n
  rw [Multiset.count_zero] at this
  omega

theorem strict_of_good (h : Good R s 0 V ∅) : Strict R s := fun n htype hlink => by
  have := h.linked n (Set.notMem_empty n) htype hlink
  have := h.refs n
  rw [Multiset.count_zero] at this
  omega

theorem sweep_afterPut {R' : ℕ → ℕ} (h : Last R s X n → R' n = 0) :
    sweep R' (afterPut R s X n) = sweep R' s.dinode := by
  funext m
  by_cases hl : Last R s X n
  · rw [afterPut, if_pos hl, sweep, sweep]
    by_cases hm : m = n
    · rw [hm, update_self, if_neg (fun hf => hf.1 rfl), if_pos ⟨hl.1, hl.2.1, h hl⟩]
    · rw [update_of_ne hm]
  · rw [afterPut, if_neg hl]

/-- A call after its change, with references `X` and loaded inodes `V` left. -/
structure Mid (s : State) (p : ℕ) (c : Call) (t : State) (X : Multiset ℕ) (V : Set ℕ) : Prop where
  change : Change s p c t.dinode
  total : total t = total s
  file : t.file = s.file
  proc : t.proc = s.proc
  good : Good (held s) t X V ∅

variable {p : ℕ} {c : Call}

theorem Mid.effect (h : Mid s p c t 0 V) : Settled s p c t := by
  have hheld : held t = held s := funext fun n => held_congr h.file h.proc n
  have hg := h.good
  rw [← hheld] at hg
  exact ⟨⟨hg.forget (Set.empty_subset V), h.total, t.dinode, h.change, (sweep_self hg).symm⟩, hheld⟩

theorem Mid.put {u : State} (h : Mid s p c t {n} V) (hb : Becomes t u (afterPut (held s) t {n} n))
    (hg : Good (held s) u 0 ∅ ∅) : Settled s p c u := by
  have hheld : held u = held s := funext fun n => held_congr (hb.file.trans h.file) (hb.proc.trans h.proc) n
  rw [Settled, Effect, hheld]
  refine ⟨⟨hg, hb.total.trans h.total, t.dinode, h.change, ?_⟩, rfl⟩
  rw [← sweep_self hg, hb.dinode, sweep_afterPut fun hl => hl.2.2.1]

theorem Mid.iput (h : Mid s p c t {n} ∅) (hH : H = []) :
    (iput n).wp E (fun _ u H' => H' = [] ∧ Settled s p c u) t H := by
  refine wp_mono ?_ _ (iput_spec h.good (Multiset.mem_singleton_self n) (by simp))
  rintro _ u _ ⟨rfl, hb, hg⟩
  exact ⟨hH, h.put hb (by rwa [Multiset.erase_singleton] at hg)⟩

theorem Mid.iunlockput (h : Mid s p c t {n} {n}) :
    (iunlockput n).wp E (fun _ u H' => H' = [] ∧ Settled s p c u) t [n] := by
  refine wp_mono ?_ _ (iunlockput_spec h.good (Multiset.mem_singleton_self n) List.mem_cons_self ?_)
  · rintro _ u _ ⟨rfl, hb, hg⟩
    rw [Multiset.erase_singleton] at hg
    exact ⟨List.erase_cons_head .., h.put hb (hg.forget (Set.empty_subset _))⟩
  · rintro m rfl hm
    exact absurd rfl hm

end Xv6e.Fs.CallEffects
