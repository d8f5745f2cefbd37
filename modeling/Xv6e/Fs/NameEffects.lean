import Xv6e.Fs.CallEffects

/-!
# Effects of the calls on names

`create`, `mkdir`, `mknod`, `link` and `unlink` have the effects of `Change`.
-/

namespace Xv6e.Fs.NameEffects

open Library.Locking Library.Sums
open Names Inodes Syscalls Fs.Sequential InodeSpecs DiskSpecs
open CallEffects
open Prog (wp wp_seq wp_mono wp_bind wp_atomic)
open Function (update update_idem update_self update_of_ne update_eq_self)

/-- Process `p` starts a call in state `s`: nothing is in progress, and link counts are in the range of
`short`. -/
structure Ready (s : State) (p : ℕ) : Prop where
  good : Good (held s) s 0 ∅ ∅
  nlink : ∀ n, (s.dinode n).type ≠ .free → 0 ≤ (s.dinode n).nlink ∧ (s.dinode n).nlink < 2 ^ 15
  lt : p < NPROC
  proc : ∃ q, s.proc p = some q

variable {s t : State} {p n : ℕ} {c : Call} {E : Panic → Prop}

theorem held_cwd {q : Proc} (hp : p < NPROC) (hq : s.proc p = some q) : 0 < held s q.cwd := by
  have := le_tally (g := cwdIs q.cwd) (f := s.proc) hp
  rw [hq, cwdIs, Option.map_some, if_pos rfl] at this
  rw [held]
  omega

theorem Ready.namex (h : Ready s p) (hE : ∀ e, E e) (path : Name) (parent : Bool) :
    (namex p path parent).wp E (fun r t H' => H' = [] ∧ Quiet s t ∧ r = resolve s p path parent
      ∧ Good (held s) t ((r.map Prod.fst).elim 0 ({·})) ∅ ∅) s [] := by
  obtain ⟨q, hq⟩ := h.proc
  exact namex_spec (fun e _ => hE e) hq (held_cwd h.lt hq) path parent h.good (strict_of_good h.good)
    (Or.inl (hE _))

theorem Ready.strict (h : Ready s p) (hq : Quiet s t) : Strict (held s) t := (strict_of_good h.good).quiet hq

variable {X : Multiset ℕ}

theorem Ready.same (_ : Ready s p) (hq : Quiet s t) {V : Set ℕ} (hg : Good (held s) t X V ∅) (c : Call) :
    Mid s p c t X V :=
  ⟨by rw [hq.dinode]; exact Change.same c, hq.total, hq.file, hq.proc, hg⟩

/-! ### `create` -/

/-- What `create` leaves: nothing, or an inode that is locked. -/
def CreateDone (s : State) (p : ℕ) (c : Call) (r : Option ℕ) (t : State) (H : List ℕ) : Prop :=
  match r with
  | none => H = [] ∧ Settled s p c t
  | some ip => H = [ip] ∧ Mid s p c t {ip} {ip}

variable {path : Name} {type : FileType} {major minor : ℤ}

/-- **`create`** finds a file, or makes an inode. -/
theorem create_spec (hE : ∀ e, E e) (h : Ready s p)
    (htype : type ≠ .free) (hc : creates c = some (path, type, major, minor)) :
    (create p path type major minor).wp E (CreateDone s p c) s [] := by
  have hE' : Others E := fun e _ => hE e
  rw [create]
  refine wp_seq (h.namex hE path true) ?_
  rintro r t _ ⟨rfl, hq, hr, hg⟩
  cases r with
  | none => exact ⟨rfl, (h.same hq hg c).effect⟩
  | some r =>
    obtain ⟨dp, name⟩ := r
    refine wp_seq (ilock_spec hg (Multiset.mem_singleton_self dp) fun _ => hE _) ?_
    rintro _ t1 _ ⟨rfl, hq1, hg1⟩
    have hst1 := h.strict (hq.trans hq1)
    have hd1 : t1.dinode = s.dinode := (hq.trans hq1).dinode
    refine wp_seq (dirlookup_spec hE' hg1 (Set.mem_insert dp ∅) name) ?_
    rintro r t2 _ ⟨rfl, hq2, hdir, rfl, hg2⟩
    have hq02 := (hq.trans hq1).trans hq2
    rw [hd1] at hdir hg2 ⊢
    cases hf : findEntry name (s.dinode dp).entries 0 with
    | none =>
      rw [hf] at hg2
      refine wp_seq
        (createNew_spec (X := 0) hE' (hE _) major minor htype (hg2.forget (by simp)) (h.strict hq02)
        (by rw [hq02.dinode]; exact hf) (by rw [hq02.dinode]; exact h.nlink dp (by rw [hdir]; decide))) ?_
      rintro i t3 _ ⟨rfl, hg3, hfree, hrange, hb⟩
      rw [hq02.dinode] at hb hfree
      have hb' := hq02.becomes.trans hb
      exact ⟨rfl, by rw [hb'.dinode]; exact Change.create hc hr.symm hdir hf hfree hrange, hb'.total,
        hb'.file, hb'.proc, hg3⟩
    | some de =>
      obtain ⟨off, ip⟩ := de
      rw [hf] at hg2
      have hg2 : Good (held s) t2 (dp ::ₘ {ip}) (insert dp ∅) ∅ := by
        rw [← Multiset.cons_zero ip, Multiset.cons_swap]
        exact hg2
      refine wp_seq (iunlockput_strict hg2 (h.strict hq02) (by simp)) ?_
      rintro _ t3 _ ⟨rfl, hq3, hg3⟩
      have hq03 := hq02.trans hq3
      refine wp_seq (ilock_spec hg3 (Multiset.mem_singleton_self ip) fun _ => hE _) ?_
      rintro _ t4 _ ⟨rfl, hq4, hg4⟩
      have hmid : Mid s p c t4 {ip} {ip} := h.same (hq03.trans hq4) (hg4.forget (by simp)) c
      rw [wp_bind, Prog.wp_read]
      by_cases hfile : type = .file ∧ (t4.inode ip).type = .file
      · rw [if_pos hfile]
        exact ⟨rfl, hmid⟩
      · rw [if_neg hfile]
        refine wp_seq hmid.iunlockput ?_
        rintro _ t5 _ ⟨rfl, heff⟩
        exact ⟨rfl, heff⟩

/-- `mkdir` and `mknod`: the new inode is given up. -/
theorem create_put_spec (hE : ∀ e, E e) (h : Ready s p)
    (htype : type ≠ .free) (hc : creates c = some (path, type, major, minor)) :
    (do match ← create p path type major minor with
      | none => return (-1 : ℤ)
      | some ip =>
        iunlockput ip
        return 0).wp E (fun _ t H => H = [] ∧ Settled s p c t) s [] := by
  refine wp_seq (create_spec hE h htype hc) ?_
  rintro r t H hr
  cases r with
  | none => exact hr
  | some ip =>
    obtain ⟨rfl, hmid⟩ := hr
    refine wp_seq hmid.iunlockput ?_
    rintro _ t5 _ ⟨rfl, heff⟩
    exact ⟨rfl, heff⟩

theorem sysMkdir_effect (hE : ∀ e, E e) (h : Ready s p) (path : Name) :
    (sysMkdir p path).wp E (fun _ t H => H = [] ∧ Settled s p (.mkdir path) t) s [] :=
  create_put_spec hE h (by decide) rfl

theorem sysMknod_effect (hE : ∀ e, E e) (h : Ready s p) (path : Name) (major minor : ℤ) :
    (sysMknod p path major minor).wp E (fun _ t H => H = [] ∧ Settled s p (.mknod path major minor) t) s [] :=
  create_put_spec hE h (by decide) rfl

/-! ### `link` -/

variable {D D' : ℕ → Dinode}

/-- A look-up depends on the types and the entries of inodes only. -/
theorem resolveFrom_congr (h : ∀ n, (D' n).type = (D n).type ∧ (D' n).entries = (D n).entries)
    (parent : Bool) (fuel : ℕ) (path : Name) (n : ℕ) :
    resolveFrom D' parent fuel path n = resolveFrom D parent fuel path n := by
  induction fuel generalizing path n with
  | zero => rfl
  | succ fuel ih =>
    rw [resolveFrom, resolveFrom, (h n).1, (h n).2]
    simp only [ih]

variable {dp i : ℕ}

theorem resolveFrom_dir {fuel : ℕ} {name : Name}
    (h : resolveFrom D true fuel path n = some (dp, name)) : (D dp).type = .dir := by
  induction fuel generalizing path n with
  | zero => cases h
  | succ fuel ih =>
    rw [resolveFrom] at h
    cases hskip : skipelem path with
    | none =>
      rw [hskip] at h
      cases h
    | some r =>
      obtain ⟨elem, rest⟩ := r
      rw [hskip] at h
      simp only [Bool.true_and] at h
      by_cases hdir : (D n).type = .dir
      · rw [if_neg (not_not.mpr hdir)] at h
        by_cases hend : (decide (rest = [])) = true
        · rw [if_pos hend] at h
          obtain ⟨rfl, _⟩ := Prod.mk.injEq .. ▸ Option.some.inj h
          exact hdir
        · rw [if_neg hend] at h
          cases hf : findEntry elem (D n).entries 0 with
          | none =>
            rw [hf] at h
            cases h
          | some de =>
            rw [hf] at h
            exact ih h
      · rw [if_pos hdir] at h
        cases h

theorem addLink_cancel {d : Dinode} (h : 0 ≤ d.nlink ∧ d.nlink < 2 ^ 15) :
    addLink (addLink d 1) (-1) = d := by
  have : short (short (d.nlink + 1) + -1) = d.nlink := by
    simp only [short]
    omega
  rw [addLink, addLink, this]

variable {u : State}

/-- The label `bad` of `link` takes the new link back. -/
theorem linkBad_spec (hE : ∀ e, E e) (h : Ready s p) (htype : (s.dinode i).type ≠ .free)
    (hb : Becomes s u (update s.dinode i (addLink (s.dinode i) 1))) (hg : Good (held s) u {i} ∅ ∅) :
    (linkBad i).wp E (fun _ t H => H = [] ∧ Settled s p c t) u [] := by
  rw [linkBad]
  refine wp_seq (ilock_spec hg (Multiset.mem_singleton_self i) fun _ => hE _) ?_
  rintro _ u1 _ ⟨rfl, hq1, hg1⟩
  refine wp_seq (decLink_spec hg1 (Set.mem_insert i ∅)) ?_
  rintro _ u2 _ ⟨rfl, hb2, hg2⟩
  have hb' := (hb.trans hq1.becomes).trans hb2
  have hd2 : u2.dinode = s.dinode := by
    rw [hb2.dinode, hq1.dinode, hb.dinode, update_self, update_idem, addLink_cancel (h.nlink i htype),
      update_eq_self]
  have hmid : Mid s p c u2 {i} {i} :=
    ⟨by rw [hd2]; exact Change.same c, hb'.total, hb'.file, hb'.proc, hg2.forget (by simp)⟩
  refine wp_seq hmid.iunlockput ?_
  rintro _ u3 _ ⟨rfl, heff⟩
  exact ⟨rfl, heff⟩

theorem Ready.namei (h : Ready s p) (hE : ∀ e, E e) (path : Name) :
    (namei p path).wp E
    (fun r t H' => H' = [] ∧ Quiet s t ∧ (∀ i, r = some i → ∃ last, resolve s p path false = some (i, last))
      ∧ Good (held s) t (r.elim 0 ({·})) ∅ ∅) s [] := by
  rw [Inodes.namei]
  refine wp_seq (h.namex hE path false) ?_
  rintro r t _ ⟨rfl, hq, rfl, hg⟩
  refine ⟨rfl, hq, fun i hi => ?_, hg⟩
  obtain ⟨r, hr, rfl⟩ := Option.map_eq_some_iff.mp hi
  exact ⟨r.2, hr⟩

/-- `link` after it has found the inode, locked it and checked its type. -/
theorem sysLink_rest (hE : ∀ e, E e) (h : Ready s p) {old new last : Name}
    (htarget : resolve s p old false = some (i, last))
    (htype : (s.dinode i).type ≠ .dir ∧ (s.dinode i).type ≠ .free)
    (hb : Becomes s u (update s.dinode i (addLink (s.dinode i) 1))) (hg : Good (held s) u {i} ∅ ∅) :
    (do match ← nameiparent p new with
      | none => linkBad i
      | some (dp, name) =>
        ilock dp
        let ok ← dirlink dp name i
        iunlockput dp
        if ok then do
          iput i
          return (0 : ℤ)
        else linkBad i).wp E (fun _ t H => H = [] ∧ Settled s p (.link old new) t) u [] := by
  have hE' : Others E := fun e _ => hE e
  obtain ⟨q, hq⟩ := h.proc
  have hstrict : Strict (held s) u := by
    intro n hn hzero
    rw [hb.dinode] at hn hzero
    by_cases hni : n = i
    · rw [hni, update_self] at hzero
      exact absurd hzero (short_succ_ne_zero (h.nlink i htype.2).1 (h.nlink i htype.2).2)
    · rw [update_of_ne hni] at hn hzero
      exact strict_of_good h.good n hn hzero
  have hsame : ∀ n, (u.dinode n).type = (s.dinode n).type ∧ (u.dinode n).entries = (s.dinode n).entries := by
    intro n
    rw [hb.dinode]
    by_cases hni : n = i
    · rw [hni, update_self]
      exact ⟨rfl, rfl⟩
    · rw [update_of_ne hni]
      exact ⟨rfl, rfl⟩
  have hresolve : resolve u p new true = resolve s p new true := by
    rw [resolve, resolve, startInode, startInode, hb.proc, resolveFrom_congr hsame]
  refine wp_seq
    (namex_spec hE' (by rw [hb.proc]; exact hq) (held_cwd h.lt hq) new true hg hstrict (Or.inl (hE _))) ?_
  rintro r u1 _ ⟨rfl, hq1, hr, hg1⟩
  have hb1 : Becomes s u1 (update s.dinode i (addLink (s.dinode i) 1)) := by
    have := hb.trans hq1.becomes
    rwa [hb.dinode] at this
  cases r with
  | none => exact linkBad_spec hE h htype.2 hb1 hg1
  | some r =>
    obtain ⟨dp, name⟩ := r
    have hg1 : Good (held s) u1 (dp ::ₘ {i}) ∅ ∅ := hg1
    rw [hresolve] at hr
    have hdir : (s.dinode dp).type = .dir := resolveFrom_dir hr.symm
    have hne : dp ≠ i := fun hdi => htype.1 (hdi ▸ hdir)
    refine wp_seq (ilock_spec hg1 (Multiset.mem_cons_self dp _) fun _ => hE _) ?_
    rintro _ u2 _ ⟨rfl, hq2, hg2⟩
    have hb2 : Becomes s u2 (update s.dinode i (addLink (s.dinode i) 1)) := by
      have := hb1.trans hq2.becomes
      rwa [hb1.dinode] at this
    have hst2 := hstrict.quiet (hq1.trans hq2)
    have hdp2 : u2.dinode dp = s.dinode dp := by rw [hb2.dinode, update_of_ne hne]
    by_cases hf : findEntry name (s.dinode dp).entries 0 = none
    · refine wp_seq (dirlink_new hE' hg2 (Set.mem_insert dp ∅) i (by rw [hdp2]; exact hf)) ?_
      rintro _ u3 _ ⟨rfl, rfl, hb3, hg3⟩
      have hb3' := hb2.trans hb3
      have hd3 : u3.dinode = linked s.dinode dp name i := by rw [hb3.dinode, hdp2, hb2.dinode, linked]
      have hst3 : Strict (held s) u3 := by
        intro n
        rw [hb3.dinode]
        by_cases hnd : n = dp
        · rw [hnd, update_self]
          exact hst2 dp
        · rw [update_of_ne hnd]
          exact hst2 n
      refine wp_seq (iunlockput_strict hg3 hst3 (by simp)) ?_
      rintro _ u4 _ ⟨rfl, hq4, hg4⟩
      have hmid : Mid s p (.link old new) u4 {i} ∅ := by
        refine ⟨?_, hq4.total.trans hb3'.total, hq4.file.trans hb3'.file, hq4.proc.trans hb3'.proc, hg4⟩
        rw [hq4.dinode, hd3]
        exact Change.link htarget htype hr.symm hdir hf
      rw [if_pos rfl]
      refine wp_seq (hmid.iput rfl) ?_
      rintro _ u5 _ ⟨rfl, heff⟩
      exact ⟨rfl, heff⟩
    · refine wp_seq (dirlink_old hE' hg2 hst2 (Set.mem_insert dp ∅) (by simp) i (by rw [hdp2]; exact hf)) ?_
      rintro _ u3 _ ⟨rfl, rfl, hq3, hg3⟩
      refine wp_seq (iunlockput_strict hg3 (hst2.quiet hq3) (by simp)) ?_
      rintro _ u4 _ ⟨rfl, hq4, hg4⟩
      have hb4 := hb2.trans (hq3.trans hq4).becomes
      rw [hb2.dinode] at hb4
      exact linkBad_spec hE h htype.2 hb4 hg4

theorem sysLink_effect (hE : ∀ e, E e) (h : Ready s p) (old new : Name) :
    (sysLink p old new).wp E (fun _ t H => H = [] ∧ Settled s p (.link old new) t) s [] := by
  rw [sysLink]
  refine wp_seq (h.namei hE old) ?_
  rintro r t _ ⟨rfl, hq, hr, hg⟩
  cases r with
  | none => exact ⟨rfl, (h.same hq hg _).effect⟩
  | some i =>
    obtain ⟨last, hlast⟩ := hr i rfl
    refine wp_seq (ilock_spec hg (Multiset.mem_singleton_self i) fun _ => hE _) ?_
    rintro _ t1 _ ⟨rfl, hq1, hg1⟩
    have hq01 := hq.trans hq1
    obtain ⟨hcopy, hfree⟩ := hg1.copied_of_mem (Set.mem_insert i ∅)
    rw [hq01.dinode] at hfree
    have htype : (t1.inode i).type = (s.dinode i).type := by rw [hcopy.1, hq01.dinode]
    rw [wp_bind, Prog.wp_read, htype]
    by_cases hdir : (s.dinode i).type = .dir
    · rw [if_pos hdir]
      have hmid : Mid s p (.link old new) t1 {i} {i} := h.same hq01 (hg1.forget (by simp)) _
      refine wp_seq hmid.iunlockput ?_
      rintro _ t2 _ ⟨rfl, heff⟩
      exact ⟨rfl, heff⟩
    · rw [if_neg hdir]
      refine wp_seq (incLink_spec hg1 (Set.mem_insert i ∅)) ?_
      rintro _ t2 _ ⟨rfl, hb2, hg2⟩
      refine wp_seq (iunlock_spec hg2 (Multiset.mem_singleton_self i) List.mem_cons_self) ?_
      rintro _ t3 _ ⟨rfl, rfl⟩
      rw [List.erase_cons_head]
      have hb := hq01.becomes.trans hb2
      rw [hq01.dinode] at hb
      exact sysLink_rest hE h hlast ⟨hdir, hfree⟩ hb (hg2.forget (Set.empty_subset _))

/-! ### `unlink` -/

/-- A sweep does not see whether an inode it frees was freed before another one changed. -/
theorem sweep_update_congr {R : ℕ → ℕ} (d : Dinode) (h : ∀ n, n ≠ i → sweep R D' n = sweep R D n) :
    sweep R (update D' i d) = sweep R (update D i d) := by
  funext n
  by_cases hn : n = i
  · rw [hn, sweep, sweep, update_self, update_self]
  · have := h n hn
    rw [sweep, sweep] at this ⊢
    rwa [update_of_ne hn, update_of_ne hn]

theorem whenDir_decLink_spec {R : ℕ → ℕ} {V : Set ℕ} {H : List ℕ} (hg : Good R s X V ∅) (hn : n ∈ V)
    (type : FileType) :
    (whenDir type (decLink n)).wp E (fun _ t H' => H' = H ∧ Good R t X V ∅ ∧ Becomes s t (update s.dinode n
      (if type = .dir then addLink (s.dinode n) (-1) else s.dinode n))) s H := by
  rw [whenDir]
  by_cases hdir : type = .dir
  · rw [if_pos hdir, if_pos hdir]
    refine wp_mono ?_ _ (decLink_spec hg hn)
    rintro _ t _ ⟨rfl, hb, hg'⟩
    exact ⟨rfl, hg', hb⟩
  · rw [if_neg hdir, if_neg hdir]
    exact ⟨rfl, hg, (update_eq_self n s.dinode).symm, rfl, rfl, rfl⟩

/-- **The removal of an entry**, with the parent and the inode locked. -/
theorem removeEntry_spec (hE : ∀ e, E e) {off : ℕ} (hne : i ≠ dp) (hq : Quiet s u)
    (hg : Good (held s) u (i ::ₘ {dp}) {i, dp} ∅) (hchange : Change s p c (unlinked s.dinode dp off i)) :
    (removeEntry dp i off).wp E (fun _ t H => H = [] ∧ Settled s p c t) u [i, dp] := by
  have hE' : Others E := fun e _ => hE e
  have hdp : dp ∈ ({i, dp} : Set ℕ) := Set.mem_insert_of_mem _ rfl
  rw [removeEntry]
  refine wp_seq (writeDirent_spec hE' hg hdp off Dirent.zero) ?_
  rintro r u1 _ ⟨rfl, hr⟩
  cases r with
  | false => exact hE _
  | true =>
    rw [if_pos rfl] at hr ⊢
    obtain ⟨hb1, hg1⟩ := hr
    have htype : (u1.inode i).type = (s.dinode i).type := by
      rw [(hg1.copied_of_mem (Set.mem_insert i _)).1.1, hb1.dinode, update_of_ne hne, hq.dinode]
    rw [wp_bind, Prog.wp_read, htype]
    refine wp_seq (whenDir_decLink_spec hg1 hdp _) ?_
    rintro _ u2 _ ⟨rfl, hg2, hb2⟩
    refine wp_seq (iunlockput_spec hg2 (by simp) (by simp) ?_) ?_
    · rintro m (rfl | rfl) hm
      · rw [List.erase_cons_tail (by simpa using hne)]
        exact List.mem_cons_self
      · exact absurd rfl hm
    rintro _ u3 _ ⟨rfl, hb3, hg3⟩
    have hmem : i ∈ ({i, dp} \ {dp} : Set ℕ) := ⟨Set.mem_insert i _, hne⟩
    refine wp_seq (decLink_spec hg3 hmem) ?_
    rintro _ u4 _ ⟨rfl, hb4, hg4⟩
    have herase : (i ::ₘ {dp}).erase dp = {i} := by
      rw [← Multiset.cons_zero dp, Multiset.cons_swap, Multiset.erase_cons_head, Multiset.cons_zero]
    have herase' : [i, dp].erase dp = [i] := by
      rw [List.erase_cons_tail (by simpa using hne), List.erase_cons_head]
    rw [herase] at hg4
    rw [herase']
    refine wp_seq (iunlockput_spec hg4 (Multiset.mem_singleton_self i) List.mem_cons_self ?_) ?_
    · rintro m ⟨rfl | rfl, hm⟩ hmi
      · exact absurd rfl hmi
      · exact absurd rfl hm
    rintro _ u5 _ ⟨rfl, hb5, hg5⟩
    rw [Multiset.erase_singleton] at hg5
    refine ⟨List.erase_cons_head .., ?_⟩
    have hbu := (((((hq.becomes.trans hb1).trans hb2).trans hb3).trans hb4).trans hb5)
    have hheld : held u5 = held s := funext fun n => held_congr hbu.file hbu.proc n
    rw [Settled, Effect, hheld]
    refine ⟨⟨hg5.forget (Set.empty_subset _), hbu.total, _, hchange, ?_⟩, rfl⟩
    -- the inode that `iput(dp)` may have freed is freed by the sweep as well
    have hu2 : update u2.dinode i (addLink (u2.dinode i) (-1)) = unlinked s.dinode dp off i := by
      rw [hb2.dinode, hb1.dinode, hq.dinode, unlinked]
      simp only [update_self, update_idem, update_of_ne hne]
    have hi3 : u3.dinode i = u2.dinode i := by
      rw [hb3.dinode, afterPut]
      split_ifs
      · rw [update_of_ne hne]
      · rfl
    rw [← sweep_self hg5, hb5.dinode, sweep_afterPut fun hl => hl.2.2.1, hb4.dinode, hi3, ← hu2, hb3.dinode]
    exact sweep_update_congr _ fun n _ => congrFun (sweep_afterPut fun hl => hl.2.2.1) n

/-- **`unlink`** removes an entry, or nothing. -/
theorem sysUnlink_effect (hE : ∀ e, E e) (h : Ready s p) (path : Name) :
    (sysUnlink p path).wp E (fun _ t H => H = [] ∧ Settled s p (.unlink path) t) s [] := by
  have hE' : Others E := fun e _ => hE e
  rw [sysUnlink]
  refine wp_seq (h.namex hE path true) ?_
  rintro r t _ ⟨rfl, hq, hr, hg⟩
  cases r with
  | none => exact ⟨rfl, (h.same hq hg _).effect⟩
  | some r =>
    obtain ⟨dp, name⟩ := r
    have hdir : (s.dinode dp).type = .dir := resolveFrom_dir hr.symm
    refine wp_seq (ilock_spec hg (Multiset.mem_singleton_self dp) fun _ => hE _) ?_
    rintro _ t1 _ ⟨rfl, hq1, hg1⟩
    have hq01 := hq.trans hq1
    have hput1 : Mid s p (.unlink path) t1 {dp} {dp} := h.same hq01 (hg1.forget (by simp)) _
    by_cases hdots : (sameName name dot || sameName name dotdot) = true
    · rw [if_pos hdots]
      refine wp_seq hput1.iunlockput ?_
      rintro _ t2 _ ⟨rfl, heff⟩
      exact ⟨rfl, heff⟩
    · rw [if_neg hdots]
      rw [Bool.not_eq_true, Bool.or_eq_false_iff] at hdots
      refine wp_seq (dirlookup_spec hE' hg1 (Set.mem_insert dp ∅) name) ?_
      rintro r t2 _ ⟨rfl, hq2, _, rfl, hg2⟩
      have hq02 := hq01.trans hq2
      rw [hq01.dinode] at hg2 ⊢
      cases hf : findEntry name (s.dinode dp).entries 0 with
      | none =>
        rw [hf] at hg2
        have hput2 : Mid s p (.unlink path) t2 {dp} {dp} := h.same hq02 (hg2.forget (by simp)) _
        refine wp_seq hput2.iunlockput ?_
        rintro _ t3 _ ⟨rfl, heff⟩
        exact ⟨rfl, heff⟩
      | some de =>
        obtain ⟨off, i⟩ := de
        rw [hf] at hg2
        have hg2 : Good (held s) t2 (i ::ₘ {dp}) {dp} ∅ := hg2.forget (by simp)
        refine wp_seq (ilock_other hg2 (Multiset.mem_cons_self i _) fun _ => hE _) ?_
        rintro _ t3 _ ⟨hne, rfl, hq3, hg3⟩
        have hne : i ≠ dp := fun hid => hne (hid ▸ List.mem_cons_self)
        have hq03 := hq02.trans hq3
        obtain ⟨⟨htype, _, _, hnlink⟩, halloc⟩ := hg3.copied_of_mem (Set.mem_insert i _)
        rw [hq03.dinode] at htype hnlink halloc
        rw [wp_bind, Prog.wp_read, htype, hnlink, hq03.dinode]
        simp only
        by_cases hlow : (s.dinode i).nlink < 1
        · rw [if_pos hlow]
          exact hE _
        · rw [if_neg hlow]
          by_cases hfull : (s.dinode i).type = .dir ∧ isdirempty (s.dinode i).entries = false
          · rw [if_pos hfull]
            refine wp_seq (iunlockput_strict hg3 (h.strict hq03) (by simpa using hne.symm)) ?_
            rintro _ t4 _ ⟨rfl, hq4, hg4⟩
            have hput4 : Mid s p (.unlink path) t4 {dp} {dp} := h.same (hq03.trans hq4) hg4 _
            refine wp_seq hput4.iunlockput ?_
            rintro _ t5 _ ⟨rfl, heff⟩
            exact ⟨rfl, heff⟩
          · rw [if_neg hfull]
            refine removeEntry_spec hE hne hq03 hg3
              (Change.unlink hr.symm hdir hdots hf hne halloc (by omega) fun hd => ?_)
            rw [not_and, Bool.not_eq_false] at hfull
            exact hfull hd

end Xv6e.Fs.NameEffects
