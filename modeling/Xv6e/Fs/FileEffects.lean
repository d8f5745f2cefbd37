import Xv6e.Fs.NameEffects

/-!
# Effects of the calls on files

`open`, `close`, `read` and `write` move references between the call and the file table, and have the effects
of `Change`.

* `good_transfer` — references handed over;
* `Frees`, `Drops` — inodes and references given up on the way through a call.
-/

namespace Xv6e.Fs.FileEffects

open Library.Locking Library.Sums
open Names Inodes Syscalls Fs.Sequential InodeSpecs DiskSpecs
open CallEffects NameEffects
open Prog (wp wp_seq wp_mono wp_bind wp_atomic)
open Function (update update_idem update_self update_of_ne update_eq_self update_eq_self_iff)

variable {R : ℕ → ℕ} {s t u : State} {X : Multiset ℕ} {V N : Set ℕ} {p n : ℕ} {c : Call}
    {E : Panic → Prop} {H : List ℕ}

/-! ### References that change hands -/

variable {R' : ℕ → ℕ} {f i : ℕ}

theorem good_transfer (h : Good R s X V N) {X' : Multiset ℕ} {W : Set ℕ}
    (hsum : ∀ n, R' n + X'.count n = R n + X.count n) (halloc : ∀ n, 0 < R' n → (s.dinode n).type ≠ .free)
    (hV : ∀ n ∈ W, n ∈ X' ∧ n ∈ V) : Good R' s X' W N :=
  { h with
    refs := fun n => by rw [h.refs n, hsum n]
    alloc := halloc
    loaded := fun n hn => ⟨(hV n hn).1, (h.loaded n (hV n hn).2).2⟩ }

theorem good_tables (h : Good R s X V N) (hd : t.dinode = s.dinode)
    (hi : t.inode = s.inode ∧ t.inUse = s.inUse) (hfiles : ∀ f, (t.file f).ref = 0 → (t.file f).ip = none)
    (hfds : ∀ p fd f, State.ofile t p fd = some f → f < NFILE) : Good R t X V N := by
  refine ⟨fun n => ?_, hfiles, hfds, fun n => ?_, fun n => ?_, fun n => ?_, fun n => ?_,
    fun n => ?_, fun n => ?_, h.cached.same (fun n => ?_) hi.2⟩ <;> simp only [hd, hi.1]
  · exact h.refs n
  · exact h.copied n
  · exact h.alloc n
  · exact h.linked n
  · exact h.range n
  · exact h.empty n
  · exact h.loaded n

/-- The references of the tables, when current directories and the inodes of files stay. -/
theorem held_eq (hp : ∀ p, (t.proc p).map Proc.cwd = (s.proc p).map Proc.cwd)
    (hf : ∀ f, (t.file f).ip = (s.file f).ip) : held t = held s := by
  funext n
  have hprocs : tally NPROC (cwdIs n) t.proc = tally NPROC (cwdIs n) s.proc :=
    tally_congr fun p _ => by rw [cwdIs, cwdIs, hp p]
  have hopen : tally NFILE (fileIs n) t.file = tally NFILE (fileIs n) s.file :=
    tally_congr fun f _ => by rw [fileIs, fileIs, hf f]
  rw [held, held, hprocs, hopen]

theorem cwd_setFd (s : State) (p fd : ℕ) (f : Option ℕ) (q : ℕ) :
    ((State.setFd s p fd f).proc q).map Proc.cwd = (s.proc q).map Proc.cwd := by
  rw [State.setFd]
  by_cases hq : q = p
  · simp only [hq, update_self, Option.map_map]
    rfl
  · simp only [update_of_ne hq]

theorem fds_setFd (h : ∀ p fd f, State.ofile s p fd = some f → f < NFILE) {fd : ℕ} {f : Option ℕ}
    (hf : ∀ g, f = some g → g < NFILE) (p' fd' g : ℕ)
    (hg : State.ofile (State.setFd s p fd f) p' fd' = some g) : g < NFILE := by
  rw [State.ofile, State.setFd] at hg
  by_cases hp : p' = p
  · simp only [hp, update_self] at hg
    cases hs : s.proc p with
    | none =>
      rw [hs] at hg
      cases hg
    | some q =>
      rw [hs] at hg
      simp only [Option.map_some, Option.bind_some] at hg
      by_cases hfd : fd' = fd
      · rw [hfd, update_self] at hg
        exact hf g hg
      · rw [update_of_ne hfd] at hg
        exact h p fd' g (by rw [State.ofile, hs]; exact hg)
  · simp only [update_of_ne hp] at hg
    exact h p' fd' g hg

theorem good_setFd (h : Good R s X V N) (p fd : ℕ) {f : Option ℕ} (hf : ∀ g, f = some g → g < NFILE) :
    Good R (State.setFd s p fd f) X V N :=
  good_tables h rfl ⟨rfl, rfl⟩ h.files (fds_setFd h.fds hf)

theorem held_setFd (s : State) (p fd : ℕ) (f : Option ℕ) : held (State.setFd s p fd f) = held s :=
  held_eq (cwd_setFd s p fd f) fun _ => rfl

/-! ### Inodes freed on the way -/

/-- `D'` is `D` with some inodes freed that have no links and that no one holds. -/
def Frees (R : ℕ → ℕ) (D D' : ℕ → Dinode) : Prop :=
  ∀ n, D' n = D n ∨ D' n = freed (D n) ∧ (D n).type ≠ .free ∧ (D n).nlink = 0 ∧ R n = 0

theorem Frees.refl (R : ℕ → ℕ) (D : ℕ → Dinode) : Frees R D D := fun _ => Or.inl rfl

theorem Frees.trans {D D' D'' : ℕ → Dinode} (h : Frees R D D') (h' : Frees R' D' D'')
    (hR : ∀ n, R' n ≤ R n) : Frees R' D D'' := by
  intro n
  rcases h n with heq | ⟨heq, htype, hlink, hz⟩
  · have := h' n
    rwa [heq] at this
  · have hn : D'' n = D' n := (h' n).resolve_right fun hf => hf.2.1 (by rw [heq]; rfl)
    exact Or.inr ⟨hn.trans heq, htype, hlink, by have := hR n; omega⟩

theorem Frees.afterPut (h : Last R s X n → R' n = 0) : Frees R' s.dinode (afterPut R s X n) := by
  intro m
  rw [InodeSpecs.afterPut]
  by_cases hl : Last R s X n
  · rw [if_pos hl]
    by_cases hm : m = n
    · rw [hm, update_self]
      exact Or.inr ⟨rfl, hl.1, hl.2.1, h hl⟩
    · rw [update_of_ne hm]
      exact Or.inl rfl
  · rw [if_neg hl]
    exact Or.inl rfl

theorem Frees.sweep {D : ℕ → Dinode} (h : Frees R D t.dinode) (hg : Good R t 0 ∅ ∅) :
    t.dinode = sweep R D := by
  funext n
  rw [CallEffects.sweep]
  rcases h n with heq | ⟨heq, hfree⟩
  · have := congrFun (sweep_self hg) n
    rw [CallEffects.sweep, heq] at this
    rw [heq, this]
  · rw [if_pos hfree, heq]

theorem effect_of_frees (hg : Good (held t) t 0 ∅ ∅) (htotal : total t = total s)
    (h : Frees (held t) s.dinode t.dinode) (c : Call) : Effect s p c t :=
  ⟨hg, htotal, s.dinode, Change.same c, h.sweep hg⟩

/-! ### `open` -/

theorem held_openFile {ff : File} (hf : f < NFILE) (hnone : (s.file f).ip = none) (hip : ff.ip = some i)
    (hfile : t.file = update s.file f ff) (hproc : ∀ p, (t.proc p).map Proc.cwd = (s.proc p).map Proc.cwd)
    (n : ℕ) : held t n = held s n + if n = i then 1 else 0 := by
  have hprocs : tally NPROC (cwdIs n) t.proc = tally NPROC (cwdIs n) s.proc :=
    tally_congr fun p _ => by rw [cwdIs, cwdIs, hproc p]
  have hfiles := tally_update hf (fileIs n) s.file ff
  rw [fileIs, hnone, if_neg (by simp), fileIs, hip] at hfiles
  rw [held, held, hprocs, hfile]
  simp only [Option.some.injEq, eq_comm (a := i)] at hfiles
  omega

theorem filealloc_found (h : (List.range NFILE).find? (fun f => (s.file f).ref = 0) = some f) :
    f < NFILE ∧ (s.file f).ref = 0 :=
  ⟨List.mem_range.mp (List.mem_of_find?_eq_some h), by simpa using List.find?_some h⟩

theorem fileclose_fresh (hone : (s.file f).ref = 1) (hnone : (s.file f).ip = none) :
    (fileclose f).wp E (fun _ t H' => H' = H
      ∧ t = { s with file := update s.file f { s.file f with ref := 0, ip := none } }) s H := by
  rw [fileclose, wp_bind, dropFile, wp_atomic]
  simp only [hone, hnone, lt_self_iff_false, if_false]
  exact ⟨rfl, rfl⟩

/-- The file has taken over the reference to the inode, and has a descriptor. -/
theorem open_done {ip : ℕ} (fd : ℕ) (ff : File) (h : Mid s p c t {ip} {ip}) (hlt : f < NFILE)
    (hzero : (t.file f).ref = 0) (hip : ff.ip = some ip) (hone : ff.ref = 1) :
    Effect s p c { State.setFd t p fd (some f) with file := update t.file f ff } := by
  have hnone := h.good.files f hzero
  have hfree : (t.dinode ip).type ≠ .free := (h.good.copied_of_mem rfl).2
  have hheld : held t = held s := funext fun n => held_congr h.file h.proc n
  have hv := fun n => held_openFile (t := { State.setFd t p fd (some f) with file := update t.file f ff })
    hlt hnone hip rfl (cwd_setFd t p fd (some f)) n
  have hg : Good (held { State.setFd t p fd (some f) with file := update t.file f ff })
      { State.setFd t p fd (some f) with file := update t.file f ff } 0 ∅ ∅ := by
    refine good_tables (good_transfer h.good (W := ∅) (fun n => ?_) (fun n hn => ?_) (by simp)) rfl ⟨rfl, rfl⟩
      (fun g => ?_) ?_
    · rw [hv n, hheld, Multiset.count_zero, Multiset.count_singleton, add_zero]
    · rw [hv n, hheld] at hn
      by_cases hni : n = ip
      · rwa [hni]
      · rw [if_neg hni] at hn
        exact h.good.alloc n hn
    · by_cases hgf : g = f
      · simp only [hgf, update_self, hone]
        exact fun h10 => absurd h10 one_ne_zero
      · simp only [update_of_ne hgf]
        exact h.good.files g
    · exact fds_setFd h.good.fds fun g hg => Option.some.inj hg ▸ hlt
  exact ⟨hg, h.total, t.dinode, h.change, (sweep_self hg).symm⟩

/-- **The end of `open`**: the file takes over the reference to the inode. -/
theorem openFile_effect {ip : ℕ} (h : Mid s p c t {ip} {ip}) (omode : ℕ) :
    (openFile p ip omode).wp E (fun _ v H => H = [] ∧ Effect s p c v) t [ip] := by
  have hput : ∀ r : ℤ, (do iunlockput ip; return r).wp E (fun _ v H => H = [] ∧ Effect s p c v) t
      [ip] := fun r =>
    wp_seq h.iunlockput fun _ _ _ hpost => ⟨hpost.1, hpost.2.1⟩
  rw [openFile, wp_bind, filealloc, wp_atomic]
  cases hfind : (List.range NFILE).find? fun f => (t.file f).ref = 0 with
  | none => exact hput (-1)
  | some f =>
    obtain ⟨hlt, hzero⟩ := filealloc_found hfind
    have hnone := h.good.files f hzero
    simp only
    rw [wp_bind, fdalloc, wp_atomic]
    cases hfd : (List.range NOFILE).find? fun fd =>
        State.ofile { t with file := update t.file f { t.file f with ref := 1 } } p fd = none with
    | none =>
      -- no descriptor: the file is given back as it was
      refine wp_seq (fileclose_fresh (by simp only [update_self]) (by simp only [update_self, hnone])) ?_
      rintro _ u _ ⟨rfl, rfl⟩
      have hback : update t.file f { t.file f with ref := 0, ip := none } = t.file := by
        refine update_eq_self_iff.mpr ?_
        rw [← hzero, ← hnone]
      simp only [update_self, update_idem, hback]
      exact hput (-1)
    | some fd =>
      have hg : Good (held s) { t with file := update t.file f { t.file f with ref := 1 } } {ip} {ip} ∅ := by
        refine good_tables h.good rfl ⟨rfl, rfl⟩ (fun g => ?_) h.good.fds
        by_cases hgf : g = f
        · simp only [hgf, update_self]
          exact fun hone => absurd hone one_ne_zero
        · simp only [update_of_ne hgf]
          exact h.good.files g
      have hg := good_setFd hg p fd (f := some f) fun g hg => Option.some.inj hg ▸ hlt
      refine wp_seq (iunlock_spec hg (Multiset.mem_singleton_self ip) List.mem_cons_self) ?_
      rintro _ u _ ⟨rfl, rfl⟩
      rw [wp_bind, Prog.wp_modify]
      refine ⟨List.erase_cons_head .., ?_⟩
      simp only [State.setFd, update_self, update_idem]
      exact open_done fd (openedFile 1 ip omode) h hlt hzero rfl rfl

theorem sysOpen_effect (hE : ∀ e, E e) (h : Ready s p) (path : Name) (omode : ℕ) :
    (sysOpen p path omode).wp E (fun _ t H => H = [] ∧ Effect s p (.open path omode) t) s [] := by
  rw [sysOpen]
  by_cases hcreate : omode &&& O_CREATE ≠ 0
  · rw [if_pos hcreate]
    refine wp_seq (create_spec (c := .open path omode) hE h (by decide) (by rw [creates, if_pos hcreate])) ?_
    rintro r t H hr
    cases r with
    | none => exact ⟨hr.1, hr.2.1⟩
    | some ip =>
      obtain ⟨rfl, hmid⟩ := hr
      exact openFile_effect hmid omode
  · rw [if_neg hcreate]
    refine wp_seq (h.namei hE path) ?_
    rintro r t _ ⟨rfl, hq, _, hg⟩
    cases r with
    | none => exact ⟨rfl, (h.same hq hg _).effect.1⟩
    | some i =>
      refine wp_seq (ilock_spec hg (Multiset.mem_singleton_self i) fun _ => hE _) ?_
      rintro _ t1 _ ⟨rfl, hq1, hg1⟩
      have hmid : Mid s p (.open path omode) t1 {i} {i} := h.same (hq.trans hq1) (hg1.forget (by simp)) _
      rw [wp_bind, Prog.wp_read]
      by_cases hdir : (t1.inode i).type = .dir ∧ omode ≠ O_RDONLY
      · rw [if_pos hdir]
        exact wp_seq hmid.iunlockput fun _ _ _ hpost => ⟨hpost.1, hpost.2.1⟩
      · rw [if_neg hdir]
        exact openFile_effect hmid omode

/-! ### `close` -/

/-- References and inodes given up on the way through a call. -/
structure Drops (s t : State) : Prop where
  total : total t = total s
  fewer : ∀ n, held t n ≤ held s n
  frees : Frees (held t) s.dinode t.dinode

theorem Drops.refl (s : State) : Drops s s := ⟨rfl, fun _ => le_refl _, Frees.refl _ _⟩

theorem Drops.trans (h : Drops s t) (h' : Drops t u) : Drops s u :=
  ⟨h'.total.trans h.total, fun n => (h'.fewer n).trans (h.fewer n), h.frees.trans h'.frees h'.fewer⟩

theorem Drops.effect (h : Drops s t) (hg : Good (held t) t 0 ∅ ∅) (c : Call) : Effect s p c t :=
  effect_of_frees hg h.total h.frees c

theorem held_closeFile (ff : File) (hf : f < NFILE) (hff : ff.ip = none) (n : ℕ) :
    held { s with file := update s.file f ff } n + (if (s.file f).ip = some n then 1 else 0) = held s n := by
  have := tally_update hf (fileIs n) s.file ff
  rw [show fileIs n ff = 0 by rw [fileIs, hff, if_neg (by simp)], fileIs] at this
  rw [held, held]
  simp only
  omega

theorem good_closeFile (ff : File) (hf : f < NFILE) (hff : ff.ip = none) (h : Good (held s) s X V ∅) :
    Good (held { s with file := update s.file f ff }) { s with file := update s.file f ff }
      ((s.file f).ip.elim X (· ::ₘ X)) V ∅ := by
  have hheld := held_closeFile (s := s) ff hf hff
  refine good_tables (good_transfer h (fun n => ?_) (fun n hn => h.alloc n ?_) fun n hn => ⟨?_, hn⟩) rfl
    ⟨rfl, rfl⟩ (fun g => ?_) h.fds
  · have := hheld n
    cases hip : (s.file f).ip with
    | none =>
      rw [hip, if_neg (by simp)] at this
      simp only [Option.elim_none]
      omega
    | some i =>
      rw [hip] at this
      simp only [Option.elim_some, Multiset.count_cons, Option.some.injEq, eq_comm (a := n)] at this ⊢
      omega
  · have := hheld n
    omega
  · cases (s.file f).ip with
    | none => exact (h.loaded n hn).1
    | some i => exact Multiset.mem_cons_of_mem (h.loaded n hn).1
  · by_cases hg : g = f
    · simp only [hg, update_self, hff, implies_true]
    · simp only [update_of_ne hg]
      exact h.files g

theorem good_fileRef {k : ℕ} (hk : 0 < k) (h : Good (held s) s X V ∅) :
    held { s with file := update s.file f { s.file f with ref := k } } = held s
      ∧ Good (held s) { s with file := update s.file f { s.file f with ref := k } } X V ∅ := by
  constructor
  · refine held_eq (fun _ => rfl) fun g => ?_
    by_cases hg : g = f
    · simp only [hg, update_self]
    · simp only [update_of_ne hg]
  · refine good_tables h rfl ⟨rfl, rfl⟩ (fun g => ?_) h.fds
    by_cases hg : g = f
    · simp only [hg, update_self]
      omega
    · simp only [update_of_ne hg]
      exact h.files g

/-- **`fileclose`** gives up one reference to the file, and the file its reference to the inode. -/
theorem fileclose_spec (hE : ∀ e, E e) (hf : f < NFILE) (h : Good (held s) s X V ∅) (hV : ∀ m ∈ V, m ∈ H) :
    (fileclose f).wp E (fun _ t H' => H' = H ∧ t.proc = s.proc ∧ Good (held t) t X V ∅ ∧ Drops s t) s H := by
  rw [fileclose, wp_bind, dropFile, wp_atomic]
  by_cases hlow : (s.file f).ref < 1
  · simp only [if_pos hlow]
    exact hE _
  · by_cases hmany : 1 < (s.file f).ref
    · simp only [if_neg hlow, if_pos hmany]
      obtain ⟨hheld, hg⟩ := good_fileRef (f := f) (k := (s.file f).ref - 1) (by omega) h
      exact ⟨rfl, rfl, by rw [hheld]; exact hg, rfl, fun n => by rw [hheld], Frees.refl _ _⟩
    · simp only [if_neg hlow, if_neg hmany]
      have hX := good_closeFile { s.file f with ref := 0, ip := none } hf rfl h
      have hle : ∀ n,
          held { s with file := update s.file f { s.file f with ref := 0, ip := none } } n ≤ held s n :=
        fun n => by
          have := held_closeFile (s := s) { s.file f with ref := 0, ip := none } hf rfl n
          omega
      cases hip : (s.file f).ip with
      | none =>
        rw [hip] at hX
        exact ⟨rfl, rfl, hX, rfl, hle, Frees.refl _ _⟩
      | some i =>
        rw [hip] at hX
        refine wp_mono ?_ _ (iput_spec hX (Multiset.mem_cons_self i X) hV)
        rintro _ t _ ⟨rfl, hb, hg⟩
        have ht : held t = held { s with file := update s.file f { s.file f with ref := 0, ip := none } } :=
          funext fun n => held_congr hb.file hb.proc n
        rw [Option.elim_some, Multiset.erase_cons_head, ← ht] at hg
        refine ⟨rfl, hb.proc, hg, hb.total, fun n => by rw [ht]; exact hle n, ?_⟩
        rw [ht, hb.dinode]
        exact Frees.afterPut fun hl => hl.2.2.1

theorem drops_setFd (s : State) (p fd : ℕ) (f : Option ℕ) : Drops s (State.setFd s p fd f) :=
  ⟨rfl, fun n => by rw [held_setFd], Frees.refl _ _⟩

theorem sysClose_effect (hE : ∀ e, E e) (h : Ready s p) (fd : ℕ) :
    (sysClose p fd).wp E (fun _ t H => H = [] ∧ Effect s p (.close fd) t) s [] := by
  rw [sysClose, wp_bind, Prog.wp_read]
  cases hf : State.ofile s p fd with
  | none => exact ⟨rfl, (h.same (Quiet.refl s) h.good _).effect.1⟩
  | some f =>
    simp only
    rw [wp_bind, Prog.wp_modify]
    have hg := good_setFd h.good p fd (f := none) (by simp)
    rw [← held_setFd s p fd none] at hg
    refine wp_seq (fileclose_spec hE (h.good.fds p fd f hf) hg (by simp)) ?_
    rintro _ t _ ⟨rfl, _, hg', hd⟩
    exact ⟨rfl, ((drops_setFd s p fd none).trans hd).effect hg' _⟩

/-! ### `read` and `write` -/

theorem held_file {fd : ℕ} (h : Good R s X V N) (hf : State.ofile s p fd = some f)
    (hi : (s.file f).ip = some i) : 0 < held s i := by
  have := le_tally (g := fileIs i) (f := s.file) (h.fds p fd f hf)
  rw [fileIs, if_pos hi] at this
  rw [held]
  omega

/-- The references of the tables without the one to `i`. -/
def without (R : ℕ → ℕ) (i : ℕ) (n : ℕ) : ℕ := R n - if n = i then 1 else 0

theorem good_borrow (h : Good R s 0 ∅ ∅) (hi : 0 < R i) : Good (without R i) s {i} ∅ ∅ := by
  refine good_transfer h (fun n => ?_) (fun n hn => h.alloc n (by rw [without] at hn; omega)) (by simp)
  rw [without, Multiset.count_singleton, Multiset.count_zero]
  split_ifs with hn
  · rw [hn]
    omega
  · rfl

theorem good_return (h : Good (without R i) t {i} V ∅) (hi : 0 < R i) (htype : (t.dinode i).type ≠ .free) :
    Good R t 0 ∅ ∅ := by
  refine good_transfer h (fun n => ?_) (fun n hn => ?_) (by simp)
  · rw [without, Multiset.count_singleton, Multiset.count_zero]
    split_ifs with hn
    · rw [hn]
      omega
    · rfl
  · by_cases hni : n = i
    · rwa [hni]
    · exact h.alloc n (by rw [without, if_neg hni]; omega)

theorem device_spec (hE : ∀ e, E e) (h : Good R s {i} {i} ∅) :
    (device i).wp E (fun _ t H' => H' = [i] ∧ Quiet s t ∧ Good R t {i} {i} ∅) s [i] := by
  rw [device, wp_bind, Prog.wp_read]
  by_cases hc : (s.inode i).major = CONSOLE
  · rw [if_pos hc]
    refine wp_seq (iunlock_spec h (Multiset.mem_singleton_self i) List.mem_cons_self) ?_
    rintro _ t _ ⟨rfl, rfl⟩
    rw [List.erase_cons_head]
    refine wp_seq (ilock_spec h (Multiset.mem_singleton_self i) fun _ => hE _) ?_
    rintro _ u _ ⟨rfl, hq, hg⟩
    exact ⟨rfl, hq, hg.forget (by simp)⟩
  · rw [if_neg hc]
    exact ⟨rfl, Quiet.refl s, h⟩

/-- What `read` and `write` change: the size of one inode and the offsets of files. -/
structure Grows (s t : State) (i : ℕ) : Prop where
  dinode : ∃ size, t.dinode = update s.dinode i { s.dinode i with fsize := size }
  total : total t = total s
  proc : t.proc = s.proc
  file : ∀ f, (t.file f).ip = (s.file f).ip

theorem Quiet.grows (h : Quiet s t) (i : ℕ) : Grows s t i :=
  ⟨⟨(s.dinode i).fsize, by rw [h.dinode]; exact (update_eq_self i _).symm⟩, h.total, h.proc,
    fun f => by rw [h.file]⟩

theorem Grows.trans (h : Grows s t i) (h' : Grows t u i) : Grows s u i := by
  obtain ⟨k, hk⟩ := h.dinode
  obtain ⟨m, hm⟩ := h'.dinode
  refine ⟨⟨m, ?_⟩, h'.total.trans h.total, h'.proc.trans h.proc, fun f => (h'.file f).trans (h.file f)⟩
  rw [hm, hk, update_self, update_idem]

theorem Grows.held (h : Grows s t i) : held t = held s := held_eq (fun p => by rw [h.proc]) h.file

theorem Grows.type (h : Grows s t i) : (t.dinode i).type = (s.dinode i).type := by
  obtain ⟨k, hk⟩ := h.dinode
  rw [hk, update_self]

theorem files_setOff (f off : ℕ) (h : ∀ g, (s.file g).ref = 0 → (s.file g).ip = none) :
    (∀ g, (update s.file f { s.file f with off := off } g).ref = 0 →
      (update s.file f { s.file f with off := off } g).ip = none)
    ∧ ∀ g, (update s.file f { s.file f with off := off } g).ip = (s.file g).ip := by
  constructor <;> intro g <;> by_cases hg : g = f
  · rw [hg, update_self]
    exact h f
  · rw [update_of_ne hg]
    exact h g
  · rw [hg, update_self]
  · rw [update_of_ne hg]

theorem writeFile_spec (hE : ∀ e, E e) {k : ℕ} (h : Good R s {i} {i} ∅) :
    (writeFile f i k).wp E (fun _ t H' => H' = H ∧ Grows s t i ∧ Good R t {i} {i} ∅) s H := by
  obtain ⟨hcopy, hfree⟩ := h.copied_of_mem (Set.mem_singleton i)
  rw [writeFile, wp_atomic]
  by_cases hlimit : (s.dinode i).size < (s.file f).off ∨ MAXFILE * BSIZE < (s.file f).off + k
  · simp only [if_pos hlimit]
    exact ⟨trivial, Quiet.grows (Quiet.refl s) i, h⟩
  · simp only [if_neg hlimit]
    -- the inode grows to `d`
    generalize hd : ({ s.dinode i with fsize := max (s.dinode i).fsize ((s.file f).off + k) } : Dinode) = d
    have hsize : nblocks (s.dinode i).size ≤ nblocks d.size := by
      rw [← hd]
      exact nblocks_mono (Nat.add_le_add_left (le_max_left _ _) _)
    by_cases hfull : s.freeBlocks < nblocks d.size - nblocks (s.dinode i).size
    · simp only [if_pos hfull]
      exact hE _
    · simp only [if_neg hfull]
      obtain ⟨hfiles, hips⟩ := files_setOff f ((s.file f).off + k) h.files
      refine ⟨trivial, ⟨⟨_, by rw [← hd]; rfl⟩, total_write (h.range i hfree).2 rfl ?_, rfl, hips⟩, ?_⟩
      · show s.freeBlocks - (nblocks d.size - nblocks (s.dinode i).size) + nblocks d.size = _
        omega
      · have hcopy' : CopyOf (s.inode i) d := by rw [← hd]; exact hcopy
        have hfree' : d.type ≠ .free := by rw [← hd]; exact hfree
        have := good_write (t := { s.setDinode i d with
            freeBlocks := s.freeBlocks - (nblocks d.size - nblocks (s.dinode i).size)
            file := update s.file f { s.file f with off := (s.file f).off + k } })
          h (Set.mem_singleton i) rfl (update_eq_self i s.inode).symm rfl hfiles rfl hcopy' hfree' rfl
          (h.loaded i rfl).2
        rwa [Set.empty_sdiff] at this

/-- **The loop of `filewrite`** changes the size of the inode only. -/
theorem writeLoop_spec (hE : ∀ e, E e) (fuel k : ℕ) (h : Good R s {i} ∅ ∅) :
    (writeLoop f i fuel k).wp E (fun _ t H' => H' = [] ∧ Grows s t i ∧ Good R t {i} ∅ ∅) s [] := by
  induction fuel generalizing s k with
  | zero => exact ⟨rfl, Quiet.grows (Quiet.refl s) i, h⟩
  | succ fuel ih =>
    rw [writeLoop]
    by_cases hk : k = 0
    · rw [if_pos hk]
      exact ⟨rfl, Quiet.grows (Quiet.refl s) i, h⟩
    · rw [if_neg hk]
      refine wp_seq (ilock_spec h (Multiset.mem_singleton_self i) fun _ => hE _) ?_
      rintro _ t _ ⟨rfl, hq, hg⟩
      have hg : Good R t {i} {i} ∅ := hg.forget (by simp)
      rw [wp_bind, Prog.wp_read]
      have hround : (writeRound f i (min k maxWrite) (t.inode i).type).wp E
          (fun _ u H' => H' = [i] ∧ Grows t u i ∧ Good R u {i} {i} ∅) t [i] := by
        rw [writeRound]
        by_cases hdev : (t.inode i).type = .dev
        · rw [if_pos hdev]
          refine wp_mono ?_ _ (device_spec hE hg)
          rintro _ u _ ⟨rfl, hq', hg'⟩
          exact ⟨rfl, Quiet.grows hq' i, hg'⟩
        · rw [if_neg hdev]
          exact writeFile_spec hE hg
      refine wp_seq hround ?_
      rintro ok u _ ⟨rfl, hgrow, hg'⟩
      have hgrow := (Quiet.grows hq i).trans hgrow
      refine wp_seq (iunlock_spec hg' (Multiset.mem_singleton_self i) List.mem_cons_self) ?_
      rintro _ v _ ⟨rfl, rfl⟩
      rw [List.erase_cons_head]
      have hg'' := hg'.forget (Set.empty_subset {i})
      cases ok with
      | false => exact ⟨rfl, hgrow, hg''⟩
      | true =>
        refine wp_mono ?_ _ (ih _ hg'')
        rintro _ w _ ⟨rfl, hgrow', hgw⟩
        exact ⟨rfl, hgrow.trans hgrow', hgw⟩

theorem sysWrite_effect (hE : ∀ e, E e) (h : Ready s p) (fd k : ℕ) :
    (sysWrite p fd k).wp E (fun _ t H => H = [] ∧ Effect s p (.write fd k) t) s [] := by
  have hsame : Effect s p (.write fd k) s := (h.same (Quiet.refl s) h.good _).effect.1
  rw [sysWrite, wp_bind, Prog.wp_read]
  cases hf : State.ofile s p fd with
  | none => exact ⟨rfl, hsame⟩
  | some f =>
    rw [Option.map_some]
    cases hw : (s.file f).writable with
    | false => exact ⟨rfl, hsame⟩
    | true =>
      cases hip : (s.file f).ip with
      | none => exact hE _
      | some i =>
        have hi := held_file h.good hf hip
        refine wp_seq (writeLoop_spec hE k k (good_borrow h.good hi)) ?_
        rintro ok t _ ⟨rfl, hgrow, hg⟩
        obtain ⟨size, hsize⟩ := hgrow.dinode
        have hg := good_return hg hi (by rw [hgrow.type]; exact h.good.alloc i hi)
        rw [← hgrow.held] at hg
        exact ⟨rfl, hg, hgrow.total, t.dinode, by rw [hsize]; exact Change.write (h.good.alloc i hi),
          (sweep_self hg).symm⟩

theorem sysRead_effect (hE : ∀ e, E e) (h : Ready s p) (fd k : ℕ) :
    (sysRead p fd k).wp E (fun _ t H => H = [] ∧ Effect s p (.read fd k) t) s [] := by
  have hsame : Effect s p (.read fd k) s := (h.same (Quiet.refl s) h.good _).effect.1
  rw [sysRead, wp_bind, Prog.wp_read]
  cases hf : State.ofile s p fd with
  | none => exact ⟨rfl, hsame⟩
  | some f =>
    rw [Option.map_some]
    cases hw : (s.file f).readable with
    | false => exact ⟨rfl, hsame⟩
    | true =>
      cases hip : (s.file f).ip with
      | none => exact hE _
      | some i =>
        have hi := held_file h.good hf hip
        -- what is left when the inode is unlocked again
        have hdone : ∀ u : State, u.dinode = s.dinode → total u = total s → held u = held s →
            Good (without (held s) i) u {i} {i} ∅ → Effect s p (.read fd k) u := by
          intro u hd htotal hheld hg
          have hg := good_return hg hi (by rw [hd]; exact h.good.alloc i hi)
          rw [← hheld] at hg
          exact ⟨hg, htotal, u.dinode, by rw [hd]; exact Change.same _, (sweep_self hg).symm⟩
        refine wp_seq (ilock_spec (good_borrow h.good hi) (Multiset.mem_singleton_self i) fun _ => hE _) ?_
        rintro _ t _ ⟨rfl, hq, hg⟩
        have hg : Good (without (held s) i) t {i} {i} ∅ := hg.forget (by simp)
        rw [wp_bind, Prog.wp_read]
        by_cases hdev : (t.inode i).type = .dev
        · rw [if_pos hdev]
          refine wp_seq (device_spec hE hg) ?_
          rintro ok u _ ⟨rfl, hq', hg'⟩
          refine wp_seq (iunlock_spec hg' (Multiset.mem_singleton_self i) List.mem_cons_self) ?_
          rintro _ v _ ⟨rfl, rfl⟩
          have hqv := hq.trans hq'
          exact ⟨List.erase_cons_head .., hdone v hqv.dinode hqv.total (funext hqv.held) hg'⟩
        · rw [if_neg hdev, wp_bind, wp_atomic]
          by_cases hoff : (t.dinode i).size < (t.file f).off
          · simp only [if_pos hoff]
            refine wp_seq (iunlock_spec hg (Multiset.mem_singleton_self i) List.mem_cons_self) ?_
            rintro _ v _ ⟨rfl, rfl⟩
            exact ⟨List.erase_cons_head .., hdone v hq.dinode hq.total (funext hq.held) hg⟩
          · simp only [if_neg hoff]
            obtain ⟨hfiles, hips⟩ := files_setOff f
              ((t.file f).off + min k ((t.dinode i).size - (t.file f).off)) hg.files
            have hgu : Good (without (held s) i) ({ t with file := (update t.file f
                { t.file f with off := (t.file f).off + min k ((t.dinode i).size - (t.file f).off) }) })
                {i} {i} ∅ :=
              good_tables hg rfl ⟨rfl, rfl⟩ hfiles hg.fds
            refine wp_seq (iunlock_spec hgu (Multiset.mem_singleton_self i) List.mem_cons_self) ?_
            rintro _ v _ ⟨rfl, rfl⟩
            refine ⟨List.erase_cons_head .., hdone _ hq.dinode hq.total ?_ hgu⟩
            have hheld : held { t with file := (update t.file f
                { t.file f with off := (t.file f).off + min k ((t.dinode i).size - (t.file f).off) }) }
                = held t :=
              held_eq (fun _ => rfl) hips
            exact hheld.trans (funext hq.held)

end Xv6e.Fs.FileEffects
