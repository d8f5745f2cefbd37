import Xv6e.Fs.CallRuns

/-!
# Look-ups reach no free inode

A directory can be removed while a process is in it, and then its parent can be removed and freed, while the
`..` of the directory still refers to it.  A look-up through that entry panics, or reaches whatever inode
takes the number.  This is the only way: if no `unlink` takes the last link from the parent of a directory
that stays, every entry of every directory refers to an allocated inode, and look-ups never panic for that
reason.

* `UnlinkOk`, `CallOk` — the condition on calls;
* `ParentsOk` — the parents of directories have links;
* `lookup_allocated` — the result; `lookup_of_removed_parent` — a run that ends in the panic.
-/

namespace Xv6e.Fs.DotDot

open Library.Locking Library.Transition
open Names Inodes Syscalls Fs.Sequential InodeSpecs CallEffects
open NameEffects ProcessEffects DirEntries NameTree CallRuns

/-! ### The condition -/

/-- Another directory than `i` has `d` as its parent. -/
def IsParent (D : ℕ → Dinode) (i d : ℕ) : Prop := ∃ k < NINODES, k ≠ i ∧ (D k).type = .dir ∧ up (D k) = d

/-- The removal of the entry of `i` from `dp` takes no last link from the parent of a directory that stays.  A
directory that is not empty is not removed. -/
def UnlinkOk (s : State) (dp i : ℕ) : Prop :=
  (s.dinode i).type = .dir → isdirempty (s.dinode i).entries = true → ¬ IsParent s.dinode i i
    ∧ ((s.dinode dp).nlink = 1 → held s i = 0 ∧ ¬ IsParent s.dinode i dp)

instance (D : ℕ → Dinode) (i d : ℕ) : Decidable (IsParent D i d) :=
  inferInstanceAs (Decidable (∃ k < NINODES, k ≠ i ∧ (D k).type = .dir ∧ up (D k) = d))

instance (s : State) (dp i : ℕ) : Decidable (UnlinkOk s dp i) :=
  inferInstanceAs (Decidable ((s.dinode i).type = .dir → isdirempty (s.dinode i).entries = true →
    ¬ IsParent s.dinode i i ∧ ((s.dinode dp).nlink = 1 → held s i = 0 ∧ ¬ IsParent s.dinode i dp)))

/-- The inode that `unlink` of a path removes an entry of, after its parent: the name is not `.` or `..`. -/
def unlinkTarget (s : State) (p : ℕ) (path : Name) : Option (ℕ × ℕ) :=
  (resolve s p path true).bind fun (dp, name) =>
    if sameName name dot || sameName name dotdot then none
    else (findEntry name (s.dinode dp).entries 0).map fun (_, i) => (dp, i)

/-- The calls allowed: `unlink` as above, and no `link` beyond the largest count. -/
def CallOk (s : State) (p : ℕ) : Call → Prop
  | .unlink path => ∀ r ∈ unlinkTarget s p path, UnlinkOk s r.1 r.2
  | .link old _ => ∀ r ∈ resolve s p old false, (s.dinode r.1).type ≠ .dir → (s.dinode r.1).nlink + 1 < 2 ^ 15
  | _ => True

instance (s : State) (p : ℕ) (c : Call) : Decidable (CallOk s p c) :=
  match c with
  | .unlink path => inferInstanceAs (Decidable (∀ r ∈ unlinkTarget s p path, UnlinkOk s r.1 r.2))
  | .link old _ => inferInstanceAs (Decidable (∀ r ∈ resolve s p old false, (s.dinode r.1).type ≠ .dir →
    (s.dinode r.1).nlink + 1 < 2 ^ 15))
  | .open _ _ | .mkdir _ | .mknod _ _ _ | .chdir _ | .read _ _ | .write _ _ | .close _ | .fork _ | .exit =>
    inferInstanceAs (Decidable True)

/-! ### Parents -/

/-- The parents of directories are directories, and have links. -/
def ParentsOk (D : ℕ → Dinode) : Prop :=
  ∀ d, (D d).type = .dir → (D (up (D d))).type = .dir ∧ 1 ≤ (D (up (D d))).nlink

variable {s t : State} {p : ℕ} {c : Call} {D : ℕ → Dinode}

/-- Freeing keeps the parents: they have links. -/
theorem parentsOk_sweep {R : ℕ → ℕ} (h : ParentsOk D) : ParentsOk (sweep R D) := by
  intro d hd
  obtain ⟨hg, hd⟩ := sweep_type_dir hd
  obtain ⟨hdir, hlink⟩ := h d hd
  rw [sweep_kept hg, sweep_kept (n := up (D d)) fun hgone => by have := hgone.2.1; omega]
  exact ⟨hdir, hlink⟩

/-- Every entry of a directory refers to an allocated inode. -/
theorem entriesOk_of_parentsOk (h : ParentsOk D) (ht : Tree D) : EntriesOk D := by
  intro d hd e he hne
  rw [(ht.dirs d hd).entries, List.mem_cons, List.mem_cons] at he
  rcases he with rfl | rfl | he
  · show (D d).type ≠ .free
    rw [hd]
    decide
  · show (D (up (D d))).type ≠ .free
    rw [(h d hd).1]
    decide
  · exact (ht.target d e he hne).1

variable {dp i : ℕ} {name : Name}

/-- A parent that `create` touches gains a link. -/
theorem parentsOk_created (h : ParentsOk D) (ht : Tree D) {type : FileType} {major minor : ℤ}
    (hdir : (D dp).type = .dir) (hfree : (D i).type = .free) (hnew : findEntry name (D dp).entries 0 = none)
    (hmax : (D dp).nlink + 1 < 2 ^ 15) : ParentsOk (created D dp name i type major minor) := by
  have hne : i ≠ dp := fun hid => by
    rw [← hid, hfree] at hdir
    cases hdir
  have hlink : (created D dp name i type major minor dp).nlink = (D dp).nlink
      + if type = .dir then 1 else 0 :=
    created_nlink_parent ht hdir hmax
  -- a directory that is the parent of something stays one
  have hkeep : ∀ q, (D q).type = .dir → 1 ≤ (D q).nlink →
      (created D dp name i type major minor q).type = .dir
        ∧ 1 ≤ (created D dp name i type major minor q).nlink := by
    intro q hq hqlink
    have hqi : q ≠ i := fun hqi => by
      rw [hqi, hfree] at hq
      cases hq
    rw [created_type hne, if_neg hqi]
    refine ⟨hq, ?_⟩
    by_cases hqd : q = dp
    · rw [hqd] at hqlink ⊢
      rw [hlink]
      split_ifs <;> omega
    · rw [created_other hqi hqd]
      exact hqlink
  intro d hd
  by_cases hdi : d = i
  · rw [created_type hne, if_pos hdi] at hd
    have hup : up (created D dp name i type major minor i) = dp := by
      rw [created_self hne, newInode, if_pos hd]
      rfl
    have hdp := (ht.nlink dp (by rw [hdir]; decide)).1
    rw [hdi, hup, created_type hne, if_neg hne.symm, hlink, if_pos hd]
    exact ⟨hdir, by omega⟩
  · rw [created_type hne, if_neg hdi] at hd
    rw [created_up ht hdir hnew hdi]
    exact hkeep _ (h d hd).1 (h d hd).2

/-- `link` changes no directory's links. -/
theorem parentsOk_linked (h : ParentsOk D) (ht : Tree D) (hdir : (D dp).type = .dir)
    (hfile : (D i).type ≠ .dir) (hnew : findEntry name (D dp).entries 0 = none) :
    ParentsOk (linked D dp name i) := by
  have hne : i ≠ dp := fun hid => hfile (hid ▸ hdir)
  intro d hd
  rw [linked_type hne] at hd
  obtain ⟨hup, hlink⟩ := h d hd
  have hne' : up (D d) ≠ i := fun hui => by
    rw [hui] at hup
    exact hfile hup
  rw [linked_up ht hdir hnew hne, linked_type hne, linked_nlink_other hne']
  exact ⟨hup, hlink⟩

/-- **`unlink` and the freeing after it**: the directory that loses its last link is the parent of none that
stays. -/
theorem parentsOk_unlinked (h : ParentsOk s.dinode) (ht : Tree s.dinode) {R : ℕ → ℕ} {off : ℕ}
    (hdir : (s.dinode dp).type = .dir) (hdots : sameName name dot = false ∧ sameName name dotdot = false)
    (hfound : findEntry name (s.dinode dp).entries 0 = some (off, i)) (hne : i ≠ dp)
    (halloc : (s.dinode i).type ≠ .free) (hlink : 1 ≤ (s.dinode i).nlink)
    (hempty : (s.dinode i).type = .dir → isdirempty (s.dinode i).entries = true) (hR : R i = held s i)
    (hok : UnlinkOk s dp i) : ParentsOk (sweep R (unlinked s.dinode dp off i)) := by
  have hu := ht.unlink hdir hdots hfound hne halloc hlink hempty
  have hself : (unlinked s.dinode dp off i i).nlink = (s.dinode i).nlink - 1 :=
    unlinked_nlink_self ht halloc hlink
  have hparent : (unlinked s.dinode dp off i dp).nlink
      = (s.dinode dp).nlink - if (s.dinode i).type = .dir then 1 else 0 := unlinked_nlink_parent ht hdir hne
  intro d hd
  obtain ⟨hg, hd⟩ := sweep_type_dir hd
  rw [unlinked_type hne] at hd
  obtain ⟨hup, huplink⟩ := h d hd
  have hlt := (ht.dir_range hd).2
  -- it is enough that the parent keeps a link
  suffices hkeep : 1 ≤ (unlinked s.dinode dp off i (up (s.dinode d))).nlink by
    rw [sweep_kept hg, unlinked_up ht hdir hdots hfound hne,
      sweep_kept fun hgone => by have := hgone.2.1; omega, unlinked_type hne]
    exact ⟨hup, hkeep⟩
  by_cases hdi : (s.dinode i).type = .dir
  · obtain ⟨hnoparent, hlast⟩ := hok hdi (hempty hdi)
    have hupi : up (s.dinode i) = dp := by
      obtain ⟨e, he, hi0, hremoved, _, _⟩ := removed_withEntry (ht.dirs dp hdir) hdots hfound
      have := (ht.target dp e hremoved.mem_entry (he ▸ hi0)).2
      rw [he] at this
      exact this hdi
    by_cases hq : up (s.dinode d) = i
    · exact absurd ⟨d, hlt, fun hid => hne (by rw [hid, hupi] at hq; exact hq.symm), hd, hq⟩ hnoparent
    · by_cases hqd : up (s.dinode d) = dp
      · rw [hqd] at huplink ⊢
        rw [hparent, if_pos hdi]
        by_contra hlow
        obtain ⟨hheld, hnone⟩ := hlast (by omega)
        -- the only directory left is the one that is removed, and it is freed
        have hid : d = i := by
          by_contra hid
          exact hnone ⟨d, hlt, hid, hd, hqd⟩
        refine hg ⟨by rw [unlinked_type hne, hd]; decide, ?_, by rw [hid, hR, hheld]⟩
        have hl := hu.dirLink i (by rw [unlinked_type hne]; exact hdi)
        have h1 := ht.dirLink i hdi
        have h2 := ht.once i hdi
        have h3 := childDirs_of_isdirempty (hempty hdi)
        have hroot : i ≠ ROOTINO := fun hir => by
          have := ht.root.2
          obtain ⟨e, he, hi0, hremoved, _, _⟩ := removed_withEntry (ht.dirs dp hdir) hdots hfound
          have := named_pos (ht.dir_range hdir).2 hremoved.mem_entry he
          rw [hir] at this
          omega
        rw [if_neg hroot] at h1
        rw [hid, hself]
        omega
      · rw [unlinked_other hq hqd]
        exact huplink
  · by_cases hqd : up (s.dinode d) = dp
    · rw [hqd] at huplink ⊢
      rw [hparent, if_neg hdi]
      omega
    · have hne' : up (s.dinode d) ≠ i := fun hui => by
        rw [hui] at hup
        exact hdi hup
      rw [unlinked_other hne' hqd]
      exact huplink

/-- **A call that is allowed keeps the parents.** -/
theorem parentsOk_step (h : ParentsOk s.dinode) (hk : Kept s) (hok : CallOk s p c)
    (hstep : callStep s (p, c) = some t) (heff : Effect s p c t) : ParentsOk t.dinode := by
  obtain ⟨_, _, D, hchange, hd⟩ := heff
  rw [hd]
  cases hchange with
  | same c => exact parentsOk_sweep h
  | create call parent dir new free range =>
    exact parentsOk_sweep (parentsOk_created h hk.tree dir free new (hk.nlink_dir dir))
  | link target file parent dir fresh => exact parentsOk_sweep (parentsOk_linked h hk.tree dir file.1 fresh)
  | unlink parent dir dots found ne alloc nlink empty =>
    have hheld := callStep_unlink hk.good hk.tree.nlink hstep
    refine parentsOk_unlinked h hk.tree dir dots found ne alloc nlink empty (by rw [hheld]) (hok (_, _) ?_)
    simp [unlinkTarget, parent, found, dots]
  | write alloc =>
    refine parentsOk_sweep fun d hd' => ?_
    rw [(grown_same ..).1] at hd'
    rw [up_grown, (grown_same ..).1, (grown_same ..).2.2]
    exact h d hd'

/-! ### Runs -/

theorem linkFits_of_callOk (hok : CallOk s p c) : LinkFits s p c := by
  cases c with
  | link old new => exact fun r hr hfile _ => hok r hr hfile
  | _ => trivial

theorem parentsOk_boot (files : List (Name × ℕ)) : ParentsOk (boot files).dinode := by
  intro d hd
  have hd : d = ROOTINO := mkfs_type_dir hd
  have hup : up ((boot files).dinode ROOTINO) = ROOTINO := by
    show up (mkfs files ROOTINO) = ROOTINO
    rw [mkfs_root]
    rfl
  rw [hd, hup]
  show (mkfs files ROOTINO).type = .dir ∧ 1 ≤ (mkfs files ROOTINO).nlink
  rw [mkfs_root]
  exact ⟨rfl, le_refl _⟩

variable {es : List (ℕ × Call)}

theorem run_parentsOk (hr : RunIf calls (fun _ s e => CallOk s e.1 e.2) es s) :
    Kept s ∧ ParentsOk s.dinode := by
  refine hr.induct (I := fun _ s => Kept s ∧ ParentsOk s.dinode) ?_ ?_
  · rintro s ⟨files, hfiles, rfl⟩
    exact ⟨kept_boot hfiles, parentsOk_boot files⟩
  · rintro _ s ⟨p, c⟩ t ⟨hk, hp⟩ hok hstep
    obtain ⟨hk', heff⟩ := hk.step (linkFits_of_callOk hok) hstep
    exact ⟨hk', parentsOk_step hp hk hok hstep heff⟩

/-- A path look-up and the `ilock` of its result. -/
def lookup (p : ℕ) (path : Name) (parent : Bool) : M Unit := do
  match ← namex p path parent with
  | none => return ()
  | some (ip, _) => ilock ip

theorem resolveFrom_alloc (h : EntriesOk D) {parent : Bool} {fuel n : ℕ} {path : Name}
    (hn : (D n).type ≠ .free) (hr : resolveFrom D parent fuel path n = some (i, name)) :
    (D i).type ≠ .free := by
  induction fuel generalizing path n with
  | zero => cases hr
  | succ fuel ih =>
    rw [resolveFrom] at hr
    cases hskip : skipelem path with
    | none =>
      rw [hskip] at hr
      simp only at hr
      split_ifs at hr
      cases hr
      exact hn
    | some r =>
      rw [hskip] at hr
      simp only at hr
      split_ifs at hr with hdir hend
      · cases hr
        exact hn
      · cases hf : findEntry r.1 (D n).entries 0 with
        | none =>
          rw [hf] at hr
          cases hr
        | some de =>
          obtain ⟨k, inum⟩ := de
          obtain ⟨_, e, he, _, hi, hne, _⟩ := findEntry_some hf
          rw [hf] at hr
          refine ih ?_ hr
          rw [← hi]
          exact h n (not_not.mp hdir) e (List.mem_of_getElem? he) (hi ▸ hne)

theorem lookup_spec (h : Kept s) (hok : EntriesOk s.dinode) (hp : p < NPROC)
    (hlive : (s.proc p).isSome = true) (path : Name) (parent : Bool) :
    (lookup p path parent).wp (fun e => e ≠ .ilockNoType) (fun _ _ _ => True) s [] := by
  obtain ⟨q, hq⟩ := Option.isSome_iff_exists.mp hlive
  have hcwd := held_cwd hp hq
  have hroot : (s.dinode ROOTINO).type ≠ .free := by
    rw [h.tree.root.1]
    decide
  rw [lookup]
  refine Prog.wp_seq (namex_spec (fun e he => he) hq hcwd path parent h.good (strict_of_good h.good)
    (Or.inr ⟨hok, hroot⟩)) ?_
  rintro r t _ ⟨rfl, hqt, hr, hg⟩
  cases r with
  | none => trivial
  | some r =>
    obtain ⟨i, name⟩ := r
    have hstart : (s.dinode (startInode s p path)).type ≠ .free := by
      rw [startInode]
      split_ifs
      · exact hroot
      · rw [hq]
        exact h.good.alloc _ hcwd
    have hfound := resolveFrom_alloc hok hstart hr.symm
    refine Prog.wp_mono (fun _ _ _ _ => trivial) _
      (ilock_spec hg (Multiset.mem_cons_self i 0) fun hfree => ?_)
    rw [hqt.dinode] at hfree
    exact absurd hfree hfound

/-- **Look-ups reach no free inode.**  In every run of allowed calls, every entry in use of every allocated
directory refers to an allocated inode, and no process's look-up of any path panics for want of a type. -/
theorem lookup_allocated (hr : RunIf calls (fun _ s e => CallOk s e.1 e.2) es s) :
    EntriesOk s.dinode ∧ ∀ p < NPROC, (s.proc p).isSome = true → ∀ path parent,
      (lookup p path parent).run s [] ≠ .panic .ilockNoType := by
  obtain ⟨hk, hp⟩ := run_parentsOk hr
  have hok := entriesOk_of_parentsOk hp hk.tree
  refine ⟨hok, fun p hlt hlive path parent hpanic => ?_⟩
  have := Prog.run_of_wp _ (lookup_spec hk hok hlt hlive path parent)
  rw [hpanic] at this
  exact this rfl

/-- The calls `mkdir a`, `mkdir a/b`, `chdir a/b` and `unlink /a/b`: the process is in a removed directory. -/
def removeCwd : List (ℕ × Call) :=
  [(1, .mkdir [97]), (1, .mkdir [97, 47, 98]), (1, .chdir [97, 47, 98]), (1, .unlink [47, 97, 47, 98])]

/-- A removed directory that is some process's current directory. -/
theorem lookup_allocated_removed : ∃ s, RunIf calls (fun _ s e => CallOk s e.1 e.2) removeCwd s
    ∧ (s.dinode 3).nlink = 0 ∧ EntriesOk s.dinode ∧ (lookup 1 [46, 46] false).run s []
    ≠ .panic .ilockNoType := by
  obtain ⟨s, hr, hs⟩ := exists_runIf_of_map (S := calls) (C := fun _ s e => CallOk s e.1 e.2)
    (f := fun s => ((s.dinode 3).nlink, (s.proc 1).isSome)) (y := (0, true)) removeCwd ⟨[], imageOk_nil, rfl⟩
    (by decide +kernel)
  obtain ⟨hzero, hlive⟩ := Prod.mk.injEq .. ▸ hs
  have hall := lookup_allocated hr
  exact ⟨s, hr, hzero, hall.1, hall.2 1 (by decide) hlive _ _⟩

def isNoType {α : Type} : Prog.Outcome State ℕ Panic α → Bool
  | .panic .ilockNoType => true
  | _ => false

theorem isNoType_iff {α : Type} {o : Prog.Outcome State ℕ Panic α} :
    isNoType o = true ↔ o = .panic .ilockNoType := by
  constructor
  · intro h
    cases o with
    | panic e => cases e <;> first | rfl | cases h
    | done a t H => cases h
    | stuck => cases h
  · rintro rfl
    rfl

/-- **The parent of a removed directory is freed.**  After `unlink /a` the `..` of the current directory
refers to a free inode, and its look-up panics. -/
theorem lookup_of_removed_parent : ∃ s, Reach calls (removeCwd ++ [(1, .unlink [47, 97])]) s
    ∧ ¬ EntriesOk s.dinode ∧ (lookup 1 [46, 46] false).run s [] = .panic .ilockNoType := by
  obtain ⟨s, hr, hs⟩ := exists_runIf_of_map (S := calls) (C := fun _ _ _ => True)
    (f := fun s => ((s.dinode 3).type, (s.dinode 3).entries, (s.dinode 2).type,
      isNoType ((lookup 1 [46, 46] false).run s [])))
    (y := (.dir, [⟨3, dot⟩, ⟨2, dotdot⟩], .free, true)) (removeCwd ++ [(1, .unlink [47, 97])])
    ⟨[], imageOk_nil, rfl⟩ (by decide +kernel)
  simp only [Prod.mk.injEq] at hs
  obtain ⟨hdir, hentries, hfree, hpanic⟩ := hs
  refine ⟨s, hr, fun hok => hok 3 hdir ⟨2, dotdot⟩ ?_ (by decide) hfree, ?_⟩
  · rw [hentries]
    exact List.mem_cons_of_mem _ List.mem_cons_self
  · exact isNoType_iff.mp hpanic

end Xv6e.Fs.DotDot
