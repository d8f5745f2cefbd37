import Xv6e.Fs.DotDot

/-!
# Path look-up

What `namei` and `nameiparent` find, in terms of the components of the path: the names between slashes, each
cut to `DIRSIZ` bytes, are looked up one after the other, from the root or from the current directory.  The
look-up returns, and leaves one reference, to the inode that it returns, exactly if every inode in which a
name is looked up is allocated and the inode cache has an entry for every inode found; the `..` of a removed
directory can lead to one that is not allocated.

* `comps`, `walk`, `walkParent` — components, and the inodes they lead to;
* `CanResolve` — the condition, on the state before the look-up; `namexLoop_returns` — the loop of `namex`
  needs it;
* `namei_walks` — the result; `namei_of_removed_parent` — a look-up that panics;
* `resolveFrom_append`, `walk_back` — paths compose, and `..` leads back.
-/

namespace Xv6e.Fs.PathLookup

open Library.Locking Library.Transition
open Names Inodes Syscalls Fs.Sequential InodeSpecs DiskSpecs CallEffects NameEffects CallRuns DotDot
    DirEntries NameTree
open Prog (acquire returns returns_seq returns_ret returns_map returns_atomic)
open Multiset (mem_cons_self)

/-! ### Components -/

/-- The components of a path: what stands between slashes and is not empty, cut to `DIRSIZ` bytes. -/
def comps (path : Name) : List Name := ((path.splitOnP (· = slash)).filter (· ≠ [])).map (List.take DIRSIZ)

theorem comps_slash {c : UInt8} (hc : c = slash) (path : Name) : comps (c :: path) = comps path := by
  rw [comps, List.splitOnP_cons_eq_if_modifyHead, if_pos (decide_eq_true hc)]
  rfl

theorem comps_dropWhile (path : Name) : comps (path.dropWhile (· = slash)) = comps path := by
  induction path with
  | nil => rfl
  | cons c path ih =>
    by_cases hc : c = slash
    · rw [List.dropWhile_cons_of_pos (by simpa using hc), ih, comps_slash hc]
    · rw [List.dropWhile_cons_of_neg (by simpa using hc)]

theorem comps_cons {c : UInt8} (hc : c ≠ slash) (path : Name) :
    comps (c :: path) = ((c :: path).takeWhile (· ≠ slash)).take DIRSIZ
    :: comps ((c :: path).dropWhile (· ≠ slash)) := by
  have hword : ∀ x ∈ (c :: path).takeWhile (· ≠ slash), decide (x = slash) = false := fun x hx => by
    simpa using List.mem_takeWhile_imp hx
  have hne : (c :: path).takeWhile (· ≠ slash) ≠ [] := by
    rw [List.takeWhile_cons_of_pos (by simpa using hc)]
    exact List.cons_ne_nil _ _
  have hsplit := List.takeWhile_append_dropWhile (p := (· ≠ slash)) (l := c :: path)
  have hhead := List.head?_dropWhile_not (· ≠ slash) (c :: path)
  generalize (c :: path).takeWhile (· ≠ slash) = word at hword hne hsplit
  generalize (c :: path).dropWhile (· ≠ slash) = rest at hsplit hhead
  rw [← hsplit]
  cases rest with
  | nil =>
    rw [List.append_nil, comps, List.splitOnP_eq_singleton hword]
    simp [hne, comps]
  | cons d rest =>
    have hd : d = slash := by simpa using hhead
    rw [comps_slash hd, comps, List.splitOnP_append_cons_of_forall_mem hword d (decide_eq_true hd), comps]
    simp [hne]

/-- **`skipelem` takes the first component**, and leaves nothing if it is the last. -/
theorem comps_skipelem (path : Name) : match skipelem path with
    | none => comps path = []
    | some (name, rest) => comps path = name :: comps rest ∧ (rest = [] ↔ comps rest = []) := by
  rw [skipelem, ← comps_dropWhile path]
  have hhead := List.head?_dropWhile_not (· = slash) path
  generalize path.dropWhile (· = slash) = path at hhead
  cases path with
  | nil => rfl
  | cons c path =>
    have hc : c ≠ slash := by simpa using hhead
    simp only [List.cons_ne_nil, if_false]
    refine ⟨by rw [comps_cons hc, comps_dropWhile], fun h => by rw [h]; rfl, fun h => ?_⟩
    have hhead' := List.head?_dropWhile_not (· = slash) ((c :: path).dropWhile (· ≠ slash))
    cases hrest : ((c :: path).dropWhile (· ≠ slash)).dropWhile (· = slash) with
    | nil => rfl
    | cons d rest =>
      rw [hrest] at h hhead'
      rw [comps_cons (by simpa using hhead')] at h
      cases h

/-! ### Names looked up one after the other -/

/-- The inode that names lead to from inode `n`. -/
def walk (D : ℕ → Dinode) : ℕ → List Name → Option ℕ
  | n, [] => some n
  | n, name :: names =>
    if (D n).type = .dir then (findEntry name (D n).entries 0).bind fun de => walk D de.2 names else none

/-- The directory that all names but the last lead to, and the last name. -/
def walkParent (D : ℕ → Dinode) (n : ℕ) (names : List Name) : Option (ℕ × Name) :=
  names.getLast?.bind fun last =>
    (walk D n names.dropLast).bind fun d => if (D d).type = .dir then some (d, last) else none

theorem resolveFrom_walk (D : ℕ → Dinode) {fuel : ℕ} {path : Name} (hfuel : path.length < fuel) (n : ℕ) :
    resolveFrom D false fuel path n = (walk D n (comps path)).map (·, [])
      ∧ resolveFrom D true fuel path n = walkParent D n (comps path) := by
  induction fuel generalizing path n with
  | zero => exact absurd hfuel (Nat.not_lt_zero _)
  | succ fuel ih =>
    have hcomps := comps_skipelem path
    rw [resolveFrom, resolveFrom]
    cases hskip : skipelem path with
    | none =>
      rw [hskip] at hcomps
      rw [show comps path = [] from hcomps]
      exact ⟨rfl, rfl⟩
    | some r =>
      obtain ⟨name, rest⟩ := r
      rw [hskip] at hcomps
      obtain ⟨hcons, hlast⟩ := hcomps
      have hrest := skipelem_length hskip
      have ih := @ih rest (by omega)
      rw [hcons, walk]
      by_cases hdir : (D n).type = .dir
      · simp only [hdir, ne_eq, not_true_eq_false, if_false, if_true, Bool.false_and, Bool.false_eq_true,
          Bool.true_and, decide_eq_true_eq]
        constructor
        · cases findEntry name (D n).entries 0 with
          | none => rfl
          | some de => exact (ih de.2).1
        · by_cases hend : rest = []
          · rw [if_pos hend, hlast.mp hend]
            simp [walkParent, walk, hdir]
          · obtain ⟨c, cs, hc⟩ := List.exists_cons_of_ne_nil fun h => hend (hlast.mpr h)
            rw [if_neg hend, walkParent, hc, List.getLast?_cons_cons, List.dropLast_cons_cons,
              walk, if_pos hdir]
            cases findEntry name (D n).entries 0 with
            | none => simp
            | some de =>
              have := (ih de.2).2
              rw [hc] at this
              exact this
      · simp only [hdir, ne_eq, not_false_eq_true, if_true, if_false]
        refine ⟨rfl, ?_⟩
        rw [walkParent]
        cases comps rest with
        | nil => simp [walk, hdir]
        | cons c cs => simp [walk, hdir]

/-! ### When functions return -/

variable {R : ℕ → ℕ} {s t : State} {X : Multiset ℕ} {V N : Set ℕ} {n : ℕ} {H : List ℕ}

theorem iget_returns (h : s.inUse ≤ NINODE) (n : ℕ) :
    (iget n).returns s H ↔ 0 < (s.inode n).ref ∨ s.inUse < NINODE := by
  rw [iget, returns_atomic]
  dsimp only
  split_ifs with hpos hfull
  · simp [hpos]
  · simp [hpos, hfull]
  · simp [hpos, h.lt_of_ne hfull]

theorem ilock_returns (hg : Good R s X V N) (hn : n ∈ X) (hH : n ∉ H) :
    (ilock n).returns s H ↔ (s.dinode n).type ≠ .free := by
  have href := hg.ref_pos hn
  show (if (s.inode n).ref < 1 then (.panic .ilock : M Unit) else _).returns s H ↔ _
  rw [if_neg (by omega)]
  show (∃ a t H', (if n ∈ H then .stuck else (loadInode n).run s (n :: H)) = Prog.Outcome.done a t H') ↔ _
  rw [if_neg hH]
  refine (returns_atomic _).trans ?_
  dsimp only
  split_ifs with hv hfree
  · simp [(hg.copied n href hv).2]
  · simp [hfree]
  · simp [hfree]

theorem iunlock_returns (hg : Good R s X V N) (hn : n ∈ X) (hH : n ∈ H) : (iunlock n).returns s H := by
  have href := hg.ref_pos hn
  show (if (s.inode n).ref < 1 then (.panic .iunlock : M Unit) else _).returns s H
  rw [if_neg (by omega)]
  exact ⟨(), s, H.erase n, if_pos hH⟩

theorem iput_returns (hH : n ∉ H) : (iput n).returns s H := by
  rw [iput, returns, Prog.run_bind, show (acquire n .iput : M Unit).run s H
    = .done () s (n :: H) from if_neg hH]
  have hfree : ∀ last : Bool, ∃ t,
    (if last then itrunc n >>= fun _ => freeInode n else pure () : M Unit).run s (n :: H)
      = .done () t (n :: H) := by
    rintro (_ | _)
    · exact ⟨_, rfl⟩
    · exact ⟨_, rfl⟩
  obtain ⟨t, ht⟩ : ∃ t, (freeIfLast n).run s (n :: H) = .done () t (n :: H) := hfree _
  dsimp only
  rw [Prog.run_bind, ht]
  exact ⟨(), _, _, if_pos List.mem_cons_self⟩

theorem iunlockput_returns (hg : Good R s X V N) (hn : n ∈ X) : (iunlockput n).returns s [n] := by
  refine (returns_seq (iunlock_spec hg hn List.mem_cons_self)
    (iff_true_intro (iunlock_returns hg hn List.mem_cons_self)) ?_).mpr ⟨trivial, trivial⟩
  rintro _ t _ ⟨rfl, rfl⟩
  exact iff_true_intro (iput_returns (by simp))

theorem dirlookup_returns {dp : ℕ} (hg : Good R s X V N) (hdp : dp ∈ V) (hdir : (s.dinode dp).type = .dir)
    (name : Name) : (dirlookup dp name).returns s H
      ↔ ∀ de ∈ findEntry name (s.dinode dp).entries 0, 0 < (s.inode de.2).ref ∨ s.inUse < NINODE := by
  have htype := (hg.copied_of_mem hdp).1.1
  show (if (s.inode dp).type ≠ .dir then (.panic .dirlookupNotDir : M (Option (ℕ × ℕ))) else _).returns s H
    ↔ _
  rw [htype, hdir, if_neg (not_not.mpr rfl)]
  cases findEntry name (s.dinode dp).entries 0 with
  | none => exact iff_of_true (returns_ret none) (by simp)
  | some de => exact returns_map.trans ((iget_returns hg.cached.le de.2).trans (by simp))

/-! ### When a look-up returns -/

/-- `iget(next)` finds the inode in the cache, or an entry for it, while the look-up holds `ip`. -/
def CanGet (s : State) (ip next : ℕ) : Prop :=
  0 < (s.inode next).ref ∨ next = ip ∨ s.inUse + (if 0 < (s.inode ip).ref then 0 else 1) < NINODE

/-- The way from inode `n` along the names: every inode in which a name is looked up, or which is the parent
asked for, is allocated, and every inode that is found can be cached. -/
def CanWalk (s : State) (parent : Bool) : ℕ → List Name → Prop
  | _, [] => True
  | n, name :: names => (s.dinode n).type ≠ .free
      ∧ ((s.dinode n).type = .dir → ¬ (parent = true ∧ names = []) →
      ∀ de ∈ findEntry name (s.dinode n).entries 0, CanGet s n de.2 ∧ CanWalk s parent de.2 names)

/-- A look-up can start, at the root if the path begins with a slash, and go its way. -/
def CanResolve (s : State) (p : ℕ) (path : Name) (parent : Bool) : Prop :=
  (path.head? = some slash → 0 < (s.inode ROOTINO).ref ∨ s.inUse < NINODE)
    ∧ CanWalk s parent (startInode s p path) (comps path)

instance (s : State) (ip next : ℕ) : Decidable (CanGet s ip next) := by unfold CanGet; infer_instance

instance decidableCanWalk (s : State) (parent : Bool) : (n : ℕ) → (names : List Name) → Decidable
    (CanWalk s parent n names)
  | _, [] => isTrue trivial
  | n, name :: names =>
    have := fun m => decidableCanWalk s parent m names
    by unfold CanWalk; infer_instance

instance (s : State) (p : ℕ) (path : Name) (parent : Bool) : Decidable (CanResolve s p path parent) := by
  unfold CanResolve; infer_instance

/-- The cache during a look-up that holds `ip`, in terms of the cache before it. -/
theorem canGet_iff (h : Good R s 0 ∅ ∅) {ip : ℕ} (hg : Good R t {ip} V N) (next : ℕ) :
    0 < (t.inode next).ref ∨ t.inUse < NINODE ↔ CanGet s ip next := by
  have hrefs : ∀ m, 0 < (t.inode m).ref ↔ 0 < (s.inode m).ref ∨ m = ip := fun m => by
    rw [hg.refs, h.refs, Multiset.count_zero, Multiset.count_singleton]
    split_ifs with hm <;> simp [hm]
  obtain ⟨F, hF, hcard, _⟩ := h.cached
  obtain ⟨G, hG, hcard', _⟩ := hg.cached
  have hinsert : G = insert ip F := Finset.ext fun m => by
    rw [hG, hrefs, Finset.mem_insert, hF, or_comm]
  have huse : t.inUse = s.inUse + if 0 < (s.inode ip).ref then 0 else 1 := by
    rw [hcard', hcard, hinsert]
    split_ifs with hip
    · rw [Finset.insert_eq_of_mem ((hF ip).mpr hip), add_zero]
    · rw [Finset.card_insert_of_notMem (mt (hF ip).mp hip)]
  rw [hrefs, huse, or_assoc, CanGet]

/-- **When the loop of `namex` returns.**  It holds one reference between elements, and two while it goes from
one inode to the next. -/
theorem namexLoop_returns (parent : Bool) {fuel : ℕ} {path : Name} (ip : ℕ) (hfuel : path.length < fuel)
    (h : Good R s 0 ∅ ∅) (hqt : Quiet s t) (hgt : Good R t {ip} ∅ ∅) :
    (namexLoop parent fuel path ip).returns t [] ↔ CanWalk s parent ip (comps path) := by
  induction fuel generalizing t path ip with
  | zero => exact absurd hfuel (Nat.not_lt_zero _)
  | succ fuel ih =>
    have hcomps := comps_skipelem path
    have hstrict := (strict_of_good h).quiet hqt
    rw [namexLoop]
    cases hskip : skipelem path with
    | none =>
      rw [hskip] at hcomps
      rw [show comps path = [] from hcomps]
      refine iff_of_true ?_ trivial
      dsimp only
      split_ifs
      · exact returns_map.mpr (iput_returns List.not_mem_nil)
      · exact returns_ret _
    | some r =>
      obtain ⟨name, rest⟩ := r
      have hrest := skipelem_length hskip
      rw [hskip] at hcomps
      rw [hcomps.1, CanWalk, ← hqt.dinode]
      refine returns_seq (ilock_spec hgt (mem_cons_self ip 0) fun _ => trivial)
        (ilock_returns hgt (mem_cons_self ip 0) List.not_mem_nil) ?_
      rintro _ u _ ⟨rfl, hq, hgu⟩
      have hcopy := (hgu.copied_of_mem (Set.mem_insert ip ∅)).1.1
      rw [hq.dinode] at hcopy
      show (if (u.inode ip).type ≠ .dir then _ else _ : M (Option (ℕ × Name))).returns u [ip] ↔ _
      rw [hcopy]
      split_ifs with hdir hend
      · refine iff_of_true ?_ fun hd => absurd hd hdir
        exact returns_map.mpr (iunlockput_returns hgu (mem_cons_self ip 0))
      · rw [Bool.and_eq_true, decide_eq_true_eq] at hend
        refine iff_of_true ?_ fun _ hnot => absurd ⟨hend.1, hcomps.2.mp hend.2⟩ hnot
        exact returns_map.mpr (iunlock_returns hgu (mem_cons_self ip 0) List.mem_cons_self)
      · rw [not_not] at hdir
        have hgo : ¬ (parent = true ∧ comps rest = []) := fun hc => hend (by simp [hc.1, hcomps.2.mpr hc.2])
        have hdirlookup := dirlookup_returns (H := [ip]) hgu (Set.mem_insert ip ∅)
          (by rw [hq.dinode]; exact hdir) name
        simp only [hdir, hgo, forall_const, not_false_eq_true, canGet_iff h hgu, hq.dinode] at hdirlookup ⊢
        rw [forall₂_and]
        refine returns_seq (dirlookup_spec (fun _ _ => trivial) hgu (Set.mem_insert ip ∅) name) hdirlookup ?_
        rintro _ v _ ⟨rfl, hq', _, rfl, hgv⟩
        rw [hq.dinode] at hgv ⊢
        cases hf : findEntry name (t.dinode ip).entries 0 with
        | none =>
          rw [hf] at hgv
          have hgv : Good R v (ip ::ₘ 0) (insert ip ∅) ∅ := hgv
          exact iff_of_true (returns_map.mpr (iunlockput_returns hgv (mem_cons_self ip 0))) (by simp)
        | some de =>
          obtain ⟨off, next⟩ := de
          rw [hf] at hgv
          have hgv : Good R v (ip ::ₘ {next}) (insert ip ∅) ∅ := by
            rw [← Multiset.cons_zero, Multiset.cons_swap]
            exact hgv
          refine (returns_seq (iunlockput_strict (V := ∅) hgv ((hstrict.quiet hq).quiet hq') (by simp))
            (iff_true_intro (iunlockput_returns hgv (mem_cons_self ip _)))
            (D := CanWalk s parent next (comps rest)) ?_).trans (by simp)
          rintro _ w _ ⟨rfl, hq'', hgw⟩
          exact ih next (by omega) (((hqt.trans hq).trans hq').trans hq'') hgw

theorem namex_returns (h : Good (held s) s 0 ∅ ∅) {p : ℕ} {q : Proc} (hp : p < NPROC) (hq : s.proc p = some q)
    (path : Name) (parent : Bool) : (namex p path parent).returns s [] ↔ CanResolve s p path parent := by
  have hstart : (namexStart p path).returns s []
      ↔ (path.head? = some slash → 0 < (s.inode ROOTINO).ref ∨ s.inUse < NINODE) := by
    rw [namexStart]
    split_ifs with hslash
    · simp [hslash, iget_returns h.cached.le]
    · exact iff_of_true ⟨_, _, _, rfl⟩ fun hc => absurd hc hslash
  refine returns_seq (namexStart_spec (fun _ _ => trivial) hq (held_cwd hp hq) path h) hstart ?_
  rintro _ t _ ⟨rfl, rfl, hqt, hgt⟩
  exact namexLoop_returns parent _ (Nat.lt_succ_self _) h hqt hgt

/-- A look-up returns in the states in which it can, and then with the inode that `resolve` finds and a
reference to it. -/
theorem namex_walks (h : Good (held s) s 0 ∅ ∅) {p : ℕ} {q : Proc} (hp : p < NPROC) (hq : s.proc p = some q)
    (path : Name) (parent : Bool) :
    (∃ t, (namex p path parent).run s [] = .done (resolve s p path parent) t [] ∧ Quiet s t
      ∧ ∀ n, (t.inode n).ref = (s.inode n).ref
      + if (resolve s p path parent).map Prod.fst = some n then 1 else 0)
    ↔ CanResolve s p path parent := by
  rw [← namex_returns h hp hq]
  constructor
  · rintro ⟨t, hrun, _⟩
    exact ⟨_, t, [], hrun⟩
  · intro hret
    obtain ⟨r, t, H, hrun, rfl, hqt, rfl, hg⟩ := Prog.run_done
      (namex_spec (fun _ _ => trivial) hq (held_cwd hp hq) path parent h (strict_of_good h)
        (Or.inl trivial)) hret
    refine ⟨t, hrun, hqt, fun n => ?_⟩
    rw [hg.refs, h.refs]
    cases (resolve s p path parent).map Prod.fst with
    | none => simp
    | some m => simp [Multiset.count_singleton, eq_comm]

/-- **Path look-up.**  In a state between calls, `namei` and `nameiparent` return if and only if every inode
on the way is allocated and can be cached.  From the root or the current directory, `namei` then returns the
inode that the components of the path lead to, and `nameiparent` the directory that all but the last lead to,
with the last; both return `0` if there is no such inode.  The inode returned gains a reference, no other
count changes, and no lock stays taken. -/
theorem namei_walks (h : Good (held s) s 0 ∅ ∅) {p : ℕ} {q : Proc} (hp : p < NPROC) (hq : s.proc p = some q)
    (path : Name) :
    ((∃ t, (namei p path).run s [] = .done (walk s.dinode (startInode s p path) (comps path)) t [] ∧ Quiet s t
      ∧ ∀ n, (t.inode n).ref = (s.inode n).ref
        + if walk s.dinode (startInode s p path) (comps path) = some n then 1 else 0)
      ↔ CanResolve s p path false)
    ∧ ((∃ t, (nameiparent p path).run s [] = .done (walkParent s.dinode (startInode s p path) (comps path)) t
      [] ∧ Quiet s t ∧ ∀ n, (t.inode n).ref = (s.inode n).ref
        + if (walkParent s.dinode (startInode s p path) (comps path)).map Prod.fst = some n then 1 else 0)
      ↔ CanResolve s p path true) := by
  obtain ⟨hwalk, hparent⟩ := resolveFrom_walk s.dinode (Nat.lt_succ_self path.length) (startInode s p path)
  constructor
  · have hfst : (resolve s p path false).map Prod.fst = walk s.dinode (startInode s p path) (comps path) := by
      rw [resolve, hwalk, Option.map_map]
      exact Option.map_id'
    rw [← hfst, namei]
    constructor
    · rintro ⟨t, hrun, _⟩
      rw [← namex_returns h hp hq]
      rw [Prog.run_bind] at hrun
      cases hx : (namex p path false).run s [] with
      | done r u H => exact ⟨r, u, H, hx⟩
      | _ =>
        rw [hx] at hrun
        cases hrun
    · intro hcan
      obtain ⟨t, hrun, hpost⟩ := (namex_walks h hp hq path false).mpr hcan
      exact ⟨t, by rw [Prog.run_bind, hrun]; rfl, hpost⟩
  · have := namex_walks h hp hq path true
    rwa [resolve, hparent] at this

/-- `namei("a//b/")` and `nameiparent("a//b/")` in the root directory, after `mkdir("a")` and
`mkdir("a/b")`. -/
theorem namei_walks_made : ∃ s, RunIf calls (fun _ s e => LinkFits s e.1 e.2) (removeCwd.take 2) s
    ∧ (∃ t, (namei 1 [97, 47, 47, 98, 47]).run s [] = .done (some 3) t [] ∧ (t.inode 3).ref = 1)
    ∧ ∃ t, (nameiparent 1 [97, 47, 47, 98, 47]).run s [] = .done (some (2, [98])) t []
    ∧ (t.inode 2).ref = 1 := by
  obtain ⟨s, hr, hs⟩ := exists_runIf_of_map (S := calls) (C := fun _ s e => LinkFits s e.1 e.2)
    (f := fun s => decide ((s.proc 1).isSome ∧ (s.inode 3).ref = 0 ∧ (s.inode 2).ref = 0
      ∧ walk s.dinode (startInode s 1 [97, 47, 47, 98, 47]) (comps [97, 47, 47, 98, 47]) = some 3
      ∧ walkParent s.dinode (startInode s 1 [97, 47, 47, 98, 47]) (comps [97, 47, 47, 98, 47])
      = some (2, [98])
      ∧ CanResolve s 1 [97, 47, 47, 98, 47] false ∧ CanResolve s 1 [97, 47, 47, 98, 47] true)) (y := true)
    (removeCwd.take 2) ⟨[], imageOk_nil, rfl⟩ (by decide +kernel)
  obtain ⟨hsome, h3, h2, hwalk, hparent, hcan, hcan'⟩ := of_decide_eq_true hs
  obtain ⟨q, hq⟩ := Option.isSome_iff_exists.mp hsome
  have h := namei_walks (run_kept hr).good (p := 1) (by decide) hq [97, 47, 47, 98, 47]
  rw [hwalk, hparent] at h
  obtain ⟨t, hrun, _, href⟩ := h.1.mpr hcan
  obtain ⟨u, hrun', _, href'⟩ := h.2.mpr hcan'
  exact ⟨s, hr, ⟨t, hrun, by rw [href, h3]; rfl⟩, u, hrun', by rw [href', h2]; rfl⟩

/-- **A look-up that panics.**  The process is in a removed directory whose parent has been freed:
`namei("../x")` does not return. -/
theorem namei_of_removed_parent : ∃ s, Reach calls (removeCwd ++ [(1, .unlink [47, 97])]) s
    ∧ (namei 1 [46, 46, 47, 120]).run s [] = .panic .ilockNoType := by
  obtain ⟨s, hr, hs⟩ := exists_runIf_of_map (S := calls) (C := fun _ _ _ => True)
    (f := fun s => isNoType ((namei 1 [46, 46, 47, 120]).run s [])) (y := true)
    (removeCwd ++ [(1, .unlink [47, 97])]) ⟨[], imageOk_nil, rfl⟩ (by decide +kernel)
  exact ⟨s, hr, isNoType_iff.mp hs⟩

/-! ### Ways there and back -/

theorem walk_append (D : ℕ → Dinode) (n : ℕ) (xs ys : List Name) :
    walk D n (xs ++ ys) = (walk D n xs).bind fun d => walk D d ys := by
  induction xs generalizing n with
  | nil => rfl
  | cons x xs ih =>
    rw [List.cons_append, walk, walk]
    split_ifs
    · rw [Option.bind_assoc]
      simp only [ih]
    · rfl

theorem comps_append (path rest : Name) : comps (path ++ slash :: rest) = comps path ++ comps rest := by
  rw [comps, List.splitOnP_append_cons (p := (· = slash)) path rest (by simp), List.filter_append,
    List.map_append]
  rfl

/-- **Paths compose**: a path that goes on after a slash leads from `n` to where the rest leads from what the
first part leads to. -/
theorem resolveFrom_append (D : ℕ → Dinode) (n : ℕ) (path rest : Name) :
    resolveFrom D false ((path ++ slash :: rest).length + 1) (path ++ slash :: rest) n
      = (resolveFrom D false (path.length + 1) path n).bind fun r =>
      resolveFrom D false (rest.length + 1) rest r.1 := by
  simp only [(resolveFrom_walk D (Nat.lt_succ_self _) _).1, comps_append, walk_append]
  cases walk D n (comps path) with
  | none => rfl
  | some d => rfl

/-- The `..` of a directory leads back from a name other than `.` and `..`. -/
theorem walk_dotdot {D : ℕ → Dinode} (h : Tree D) {n m off : ℕ} {name : Name} (hn : (D n).type = .dir)
    (hname : sameName name dot = false ∧ sameName name dotdot = false)
    (hfound : findEntry name (D n).entries 0 = some (off, m)) (hm : (D m).type = .dir) :
    walk D m [dotdot] = some n := by
  obtain ⟨e, rfl, hne, hrem, _⟩ := removed_withEntry (h.dirs n hn) hname hfound
  have hpos := (h.dirs e.inum hm).up_pos
  rw [walk, if_pos hm, (h.dirs e.inum hm).entries, findEntry, if_neg hne,
    if_neg (show ¬ sameName dotdot dot = true by decide), findEntry, if_neg hpos.ne',
    if_pos (show sameName dotdot dotdot = true by decide), (h.target n e hrem.mem_entry hne).2 hm]
  rfl

/-- **As many `..` as there are names lead back**, in every state that a run reaches. -/
theorem walk_back {es : List (ℕ × Call)} (hr : RunIf calls (fun _ s e => LinkFits s e.1 e.2) es s)
    {names : List Name} {d : ℕ} (hnames : ∀ x ∈ names, sameName x dot = false ∧ sameName x dotdot = false)
    (hd : (s.dinode d).type = .dir) (hw : walk s.dinode n names = some d) :
    walk s.dinode d (List.replicate names.length dotdot) = some n := by
  induction names generalizing n with
  | nil => exact congrArg some (Option.some.inj hw).symm
  | cons name names ih =>
    rw [walk] at hw
    split_ifs at hw with hn
    obtain ⟨⟨off, m⟩, hfound, hw⟩ := Option.bind_eq_some_iff.mp hw
    have hm : (s.dinode m).type = .dir := by
      cases names with
      | nil =>
        rw [show m = d from Option.some.inj hw]
        exact hd
      | cons x xs =>
        rw [walk] at hw
        exact (Option.ite_none_right_eq_some.mp hw).1
    rw [List.length_cons, List.replicate_succ', walk_append,
      ih (fun x hx => hnames x (List.mem_cons_of_mem _ hx)) hw]
    exact walk_dotdot (run_kept hr).tree hn (hnames name List.mem_cons_self) hfound hm

/-- From `/a/b` the path `../..` leads to the root. -/
theorem walk_back_twice : ∃ s, RunIf calls (fun _ s e => LinkFits s e.1 e.2) (removeCwd.take 2) s
    ∧ walk s.dinode 3 [dotdot, dotdot] = some 1 := by
  obtain ⟨s, hr, hs⟩ := exists_runIf_of_map (S := calls) (C := fun _ s e => LinkFits s e.1 e.2)
    (f := fun s => (walk s.dinode 1 [[97], [98]], (s.dinode 3).type)) (y := (some 3, .dir)) (removeCwd.take 2)
    ⟨[], imageOk_nil, rfl⟩ (by decide +kernel)
  obtain ⟨hw, hd⟩ := Prod.mk.injEq .. ▸ hs
  exact ⟨s, hr, walk_back hr (by decide) hd hw⟩

end Xv6e.Fs.PathLookup
