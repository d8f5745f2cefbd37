import Xv6e.Fs.FileEffects

/-!
# Effects of the calls on processes, and of all calls

`chdir`, `fork` and `exit` move references between the call and the process table.  With them every call has
the effect of `Change`.

* `iput_cwd_spec` — a process leaves its current directory;
* `call_effect`, `callStep_effect` — the effect of every call.
-/

namespace Xv6e.Fs.ProcessEffects

open Library.Locking Library.Sums
open Names Inodes Syscalls Fs.Sequential InodeSpecs DiskSpecs
open CallEffects NameEffects FileEffects
open Prog (wp wp_seq wp_mono wp_bind wp_atomic)
open Function (update update_self update_of_ne)

variable {s t : State} {p n : ℕ} {c : Call} {E : Panic → Prop} {H : List ℕ}

/-! ### Current directories -/

theorem held_setProc (hp : p < NPROC) (r : Option Proc) (n : ℕ) :
    held { s with proc := update s.proc p r } n + cwdIs n (s.proc p) = held s n + cwdIs n r := by
  have := tally_update hp (cwdIs n) s.proc r
  rw [held, held]
  simp only
  omega

theorem fds_setProc (h : ∀ p fd f, State.ofile s p fd = some f → f < NFILE) {r : Option Proc}
    (hr : ∀ q fd f, r = some q → q.ofile fd = some f → f < NFILE) (p' fd f : ℕ)
    (hf : State.ofile { s with proc := update s.proc p r } p' fd = some f) : f < NFILE := by
  rw [State.ofile] at hf
  by_cases hp : p' = p
  · simp only [hp, update_self] at hf
    obtain ⟨q, hq, hqf⟩ := Option.bind_eq_some_iff.mp hf
    exact hr q fd f hq hqf
  · simp only [update_of_ne hp] at hf
    exact h p' fd f hf

/-- **A process leaves its current directory**: `iput(cwd)`, and then the record of the process is replaced by
one whose current directory, if any, the call holds. -/
theorem iput_cwd_spec {q : Proc} {r : Option Proc} {Y : Multiset ℕ} (hp : p < NPROC) (hq : s.proc p = some q)
    (h : Good (held s) s Y ∅ ∅) (hY : ∀ n, cwdIs n r = Y.count n)
    (hYfree : ∀ n ∈ Y, (s.dinode n).type ≠ .free)
    (hr : ∀ q fd f, r = some q → q.ofile fd = some f → f < NFILE) :
    (iput q.cwd).wp E (fun _ t H' => H' = H ∧ t.proc = s.proc
      ∧ (∀ v : State, v = { t with proc := update t.proc p r } →
        Good (held v) v 0 ∅ ∅ ∧ total v = total s ∧ Frees (held v) s.dinode v.dinode
          ∧ ∀ n, held v n ≤ held s n + Y.count n)) s H := by
  have hown : ∀ n, cwdIs n (s.proc p) = if n = q.cwd then 1 else 0 := fun n => by
    rw [hq, cwdIs, Option.map_some]
    simp only [Option.some.injEq, eq_comm]
  have hleft : ∀ n, held s n - (if n = q.cwd then 1 else 0) + (if n = q.cwd then 1 else 0)
      = held s n := fun n => by
    by_cases hn : n = q.cwd
    · have := held_cwd hp hq
      rw [hn, if_pos rfl]
      omega
    · rw [if_neg hn]
      rfl
  have hg : Good (fun n => held s n - if n = q.cwd then 1 else 0) s (q.cwd ::ₘ Y) ∅ ∅ := by
    refine good_transfer h (fun n => ?_) (fun n hn => h.alloc n (by omega)) (by simp)
    have := hleft n
    rw [Multiset.count_cons]
    omega
  refine wp_mono ?_ _ (iput_spec hg (Multiset.mem_cons_self q.cwd Y) (by simp))
  rintro _ t _ ⟨rfl, hb, hg'⟩
  rw [Multiset.erase_cons_head] at hg'
  refine ⟨rfl, hb.proc, ?_⟩
  rintro v rfl
  have hv : ∀ n, held { t with proc := update t.proc p r } n
      = held s n - (if n = q.cwd then 1 else 0) + Y.count n := fun n => by
    have h1 := held_setProc (s := t) hp r n
    have h2 := hleft n
    rw [hb.proc, hown n, hY n, held_congr hb.file hb.proc n] at h1
    rw [hb.proc]
    omega
  -- a reference that the call holds keeps the inode allocated
  have hfrees : Frees (held { t with proc := update t.proc p r }) s.dinode t.dinode := by
    have hput : Frees (held { t with proc := update t.proc p r }) s.dinode
        (afterPut (fun n => held s n - if n = q.cwd then 1 else 0) s (q.cwd ::ₘ Y) q.cwd) :=
        Frees.afterPut fun hl => by
      have hcount := hl.2.2.2
      have hzero : held s q.cwd - (if q.cwd = q.cwd then 1 else 0) = 0 := hl.2.2.1
      rw [Multiset.count_cons_self] at hcount
      rw [hv, hzero]
      omega
    rwa [← hb.dinode] at hput
  refine ⟨?_, hb.total, hfrees, fun n => by rw [hv n]; omega⟩
  refine good_tables (good_transfer hg' (W := ∅) (fun n => ?_) (fun n hn => ?_) (by simp)) rfl
    ⟨rfl, rfl⟩ hg'.files (fds_setProc hg'.fds hr)
  · rw [hv n, Multiset.count_zero, add_zero]
  · rcases hfrees n with heq | ⟨_, _, _, hz⟩
    · rw [heq]
      rw [hv n] at hn
      by_cases hnY : n ∈ Y
      · exact hYfree n hnY
      · rw [Multiset.count_eq_zero_of_notMem hnY] at hn
        exact h.alloc n (by omega)
    · omega

theorem sysChdir_effect (hE : ∀ e, E e) (h : Ready s p) (path : Name) :
    (sysChdir p path).wp E (fun _ t H => H = [] ∧ Effect s p (.chdir path) t) s [] := by
  rw [sysChdir]
  refine wp_seq (h.namei hE path) ?_
  rintro r t _ ⟨rfl, hq, _, hg⟩
  cases r with
  | none => exact ⟨rfl, (h.same hq hg _).effect.1⟩
  | some i =>
    refine wp_seq (ilock_spec hg (Multiset.mem_singleton_self i) fun _ => hE _) ?_
    rintro _ t1 _ ⟨rfl, hq1, hg1⟩
    have hq01 := hq.trans hq1
    rw [wp_bind, Prog.wp_read]
    by_cases hdir : (t1.inode i).type = .dir
    · rw [if_neg (not_not.mpr hdir)]
      refine wp_seq (iunlock_spec hg1 (Multiset.mem_singleton_self i) List.mem_cons_self) ?_
      rintro _ t2 _ ⟨rfl, rfl⟩
      obtain ⟨q, hpq⟩ := h.proc
      have hpq1 : t2.proc p = some q := by rw [hq01.proc, hpq]
      have hheld : held t2 = held s := funext fun n => held_congr hq01.file hq01.proc n
      have hfree := (hg1.copied_of_mem (Set.mem_insert i ∅)).2
      rw [wp_bind, Prog.wp_read, List.erase_cons_head, hpq1]
      refine wp_seq (iput_cwd_spec (r := some { q with cwd := i }) (Y := {i}) h.lt hpq1
        (by rw [hheld]; exact hg1.forget (Set.empty_subset _)) (fun n => ?_) (by simpa using hfree) ?_) ?_
      · rw [cwdIs, Multiset.count_singleton, Option.map_some]
        simp only [Option.some.injEq, eq_comm]
      · rintro q' fd f hq' hf
        cases hq'
        exact hg1.fds p fd f (by rw [State.ofile, hpq1]; exact hf)
      · rintro _ t3 _ ⟨rfl, hproc, hv⟩
        rw [wp_bind, Prog.wp_modify, hproc, hpq1]
        obtain ⟨hgv, htotal, hfrees, _⟩ := hv _ rfl
        rw [hproc] at hgv htotal hfrees
        rw [hq01.dinode] at hfrees
        exact ⟨rfl, effect_of_frees hgv (htotal.trans hq01.total) hfrees _⟩
    · rw [if_pos hdir]
      have hmid : Mid s p (.chdir path) t1 {i} {i} := h.same hq01 (hg1.forget (by simp)) _
      exact wp_seq hmid.iunlockput fun _ _ _ hpost => ⟨hpost.1, hpost.2.1⟩

/-! ### `fork` and `exit` -/

theorem dupFiles_spec (hE : ∀ e, E e) {q : ℕ} (fds : List ℕ) (h : Good (held s) s 0 ∅ ∅) :
    (dupFiles p q fds).wp E
    (fun _ t H' => H' = H ∧ Good (held t) t 0 ∅ ∅ ∧ total t = total s ∧ t.dinode = s.dinode) s H := by
  induction fds generalizing s with
  | nil => exact ⟨rfl, h, rfl, rfl⟩
  | cons fd rest ih =>
    rw [dupFiles, wp_bind, Prog.wp_read]
    cases hf : State.ofile s p fd with
    | none => exact ih h
    | some f =>
      simp only
      rw [wp_bind, filedup, wp_atomic]
      by_cases hlow : (s.file f).ref < 1
      · simp only [if_pos hlow]
        exact hE _
      · simp only [if_neg hlow]
        obtain ⟨hheld, hg⟩ := good_fileRef (f := f) (k := (s.file f).ref + 1) (Nat.succ_pos _) h
        have hg := good_setFd hg q fd (f := some f) fun g hg => Option.some.inj hg ▸ h.fds p fd f hf
        rw [← hheld, ← held_setFd _ q fd (some f)] at hg
        rw [wp_bind, Prog.wp_modify]
        exact ih hg

theorem sysFork_effect (hE : ∀ e, E e) (h : Ready s p) {q : ℕ} (hq : q < NPROC) (hfree : s.proc q = none) :
    (sysFork p q).wp E (fun _ t H => H = [] ∧ Effect s p (.fork q) t) s [] := by
  obtain ⟨r, hr⟩ := h.proc
  have hcwd := held_cwd h.lt hr
  rw [sysFork, wp_bind, Prog.wp_read, hr]
  refine wp_seq (idup_spec h.good (by have := h.good.refs r.cwd; show 0 < (s.inode r.cwd).ref; omega)) ?_
  rintro _ t _ ⟨rfl, rfl, hqt, hg⟩
  rw [wp_bind, Prog.wp_modify]
  have hheld : ∀ n, held { t with proc := update t.proc q (some ⟨r.cwd, fun _ => none⟩) } n
      = held s n + if n = r.cwd then 1 else 0 := fun n => by
    have := held_setProc (s := t) hq (some ⟨r.cwd, fun _ => none⟩) n
    rw [hqt.proc, hfree, hqt.held] at this
    simp only [cwdIs, Option.map_none, Option.map_some, Option.some.injEq, reduceCtorEq, if_false, add_zero,
      eq_comm (a := r.cwd)] at this
    rw [hqt.proc]
    exact this
  have hg2 : Good (held { t with proc := update t.proc q (some ⟨r.cwd, fun _ => none⟩) })
      { t with proc := update t.proc q (some ⟨r.cwd, fun _ => none⟩) } 0 ∅ ∅ := by
    refine good_tables (good_transfer hg (W := ∅) (fun n => ?_) (fun n hn => ?_) (by simp)) rfl
      ⟨rfl, rfl⟩ hg.files (fds_setProc hg.fds ?_)
    · rw [hheld n]
      simp only [Option.map_some, Option.getD_some, Multiset.count_cons, Multiset.count_zero]
      omega
    · rw [hheld n] at hn
      by_cases hn0 : n = r.cwd
      · rw [hn0]
        exact hg.alloc _ hcwd
      · rw [if_neg hn0] at hn
        exact hg.alloc n hn
    · rintro q' fd f hq' hf
      cases hq'
      cases hf
  refine wp_seq (dupFiles_spec hE _ hg2) ?_
  rintro _ u _ ⟨rfl, hgu, htotal, hd⟩
  refine ⟨rfl, hgu, htotal.trans hqt.total, s.dinode, Change.same _, ?_⟩
  have hs : u.dinode = s.dinode := by rw [hd]; exact hqt.dinode
  rw [← hs]
  exact (sweep_self hgu).symm

theorem closeFiles_spec (hE : ∀ e, E e) (fds : List ℕ) (h : Good (held s) s 0 ∅ ∅) :
    (closeFiles p fds).wp E (fun _ t H' => H' = H ∧ (t.proc p).map Proc.cwd = (s.proc p).map Proc.cwd
      ∧ Good (held t) t 0 ∅ ∅ ∧ Drops s t) s H := by
  induction fds generalizing s with
  | nil => exact ⟨rfl, rfl, h, Drops.refl s⟩
  | cons fd rest ih =>
    rw [closeFiles, wp_bind, Prog.wp_read]
    cases hf : State.ofile s p fd with
    | none => exact ih h
    | some f =>
      refine wp_seq (fileclose_spec hE (h.fds p fd f hf) h (by simp)) ?_
      rintro _ t _ ⟨rfl, hproc, hg, hd⟩
      rw [wp_bind, Prog.wp_modify]
      have hg := good_setFd hg p fd (f := none) (by simp)
      rw [← held_setFd t p fd none] at hg
      refine wp_mono ?_ _ (ih hg)
      rintro _ u _ ⟨rfl, hcwd, hgu, hdu⟩
      exact ⟨rfl, by rw [hcwd, cwd_setFd, hproc], hgu, (hd.trans (drops_setFd t p fd none)).trans hdu⟩

theorem sysExit_effect (hE : ∀ e, E e) (h : Ready s p) :
    (sysExit p).wp E (fun _ t H => H = [] ∧ Effect s p .exit t) s [] := by
  obtain ⟨r, hr⟩ := h.proc
  rw [sysExit]
  by_cases hinit : p = initproc
  · rw [if_pos hinit]
    exact hE _
  · rw [if_neg hinit]
    refine wp_seq (closeFiles_spec hE _ h.good) ?_
    rintro _ t _ ⟨rfl, hcwd, hg, hd⟩
    rw [hr, Option.map_some] at hcwd
    obtain ⟨q, hq, hqc⟩ := Option.map_eq_some_iff.mp hcwd
    rw [wp_bind, Prog.wp_read, hq]
    refine wp_seq (iput_cwd_spec (r := none) (Y := 0) h.lt hq hg (fun n => ?_) (by simp) (by simp)) ?_
    · rw [cwdIs, Multiset.count_zero, Option.map_none, if_neg (by simp)]
    · rintro _ u _ ⟨rfl, _, hv⟩
      rw [wp_bind, Prog.wp_modify]
      obtain ⟨hgv, htotal, hfrees, hfewer⟩ := hv _ rfl
      exact ⟨rfl, effect_of_frees hgv (htotal.trans hd.total) (hd.frees.trans hfrees hfewer) _⟩

/-! ### Every call -/

theorem ready_of_canCall (h : Good (held s) s 0 ∅ ∅)
    (hnlink : ∀ n, (s.dinode n).type ≠ .free → 0 ≤ (s.dinode n).nlink ∧ (s.dinode n).nlink < 2 ^ 15)
    (hcall : canCall s p c = true) : Ready s p := by
  refine ⟨h, hnlink, ?_, ?_⟩ <;> cases c <;>
    simp only [canCall, Bool.and_eq_true, decide_eq_true_eq, Option.isSome_iff_exists] at hcall <;>
    first | exact hcall.1.1.1 | exact hcall.1.1.2 | exact hcall.1 | exact hcall.2

theorem callStep_of_wp {Q : ℤ → State → List ℕ → Prop} (hstep : callStep s (p, c) = some t)
    (h : canCall s p c = true → (syscall p c).wp (fun _ => True) Q s []) : ∃ r H, Q r t H := by
  rw [callStep] at hstep
  obtain ⟨hcan, hrun⟩ := Option.ite_none_right_eq_some.mp hstep
  have hwp := Prog.run_of_wp _ (h hcan)
  cases hout : (syscall p c).run s [] with
  | done r u H =>
    rw [hout] at hrun hwp
    cases hrun
    exact ⟨r, H, hwp⟩
  | panic e =>
    rw [hout] at hrun
    cases hrun
  | stuck =>
    rw [hout] at hrun
    cases hrun

/-- **The effect of every call that returns.** -/
theorem call_effect (hE : ∀ e, E e) (hready : Ready s p) (hcall : canCall s p c = true) :
    (syscall p c).wp E (fun _ t H => H = [] ∧ Effect s p c t) s [] := by
  have hfirst : ∀ {Q : State → Prop} (r : ℤ) (t : State) (H : List ℕ), (H = [] ∧ Effect s p c t ∧ Q t) →
      H = [] ∧ Effect s p c t := fun _ _ _ hpost => ⟨hpost.1, hpost.2.1⟩
  cases c with
  | «open» path omode => exact sysOpen_effect hE hready path omode
  | mkdir path => exact wp_mono hfirst _ (sysMkdir_effect hE hready path)
  | mknod path major minor => exact wp_mono hfirst _ (sysMknod_effect hE hready path major minor)
  | link old new => exact wp_mono hfirst _ (sysLink_effect hE hready old new)
  | unlink path => exact wp_mono hfirst _ (sysUnlink_effect hE hready path)
  | chdir path => exact sysChdir_effect hE hready path
  | read fd k => exact sysRead_effect hE hready fd k
  | write fd k => exact sysWrite_effect hE hready fd k
  | close fd => exact sysClose_effect hE hready fd
  | fork q =>
    simp only [canCall, Bool.and_eq_true, decide_eq_true_eq, Option.isNone_iff_eq_none] at hcall
    exact sysFork_effect hE hready hcall.1.2 hcall.2
  | exit => exact sysExit_effect hE hready

theorem callStep_effect (h : Good (held s) s 0 ∅ ∅)
    (hnlink : ∀ n, (s.dinode n).type ≠ .free → 0 ≤ (s.dinode n).nlink ∧ (s.dinode n).nlink < 2 ^ 15)
    (hstep : callStep s (p, c) = some t) : Effect s p c t := by
  obtain ⟨_, _, _, heff⟩ := callStep_of_wp hstep fun hcan =>
    call_effect (fun _ => trivial) (ready_of_canCall h hnlink hcan) hcan
  exact heff

theorem callStep_unlink {path : Name} (h : Good (held s) s 0 ∅ ∅)
    (hnlink : ∀ n, (s.dinode n).type ≠ .free → 0 ≤ (s.dinode n).nlink ∧ (s.dinode n).nlink < 2 ^ 15)
    (hstep : callStep s (p, .unlink path) = some t) : held t = held s := by
  obtain ⟨_, _, _, _, hheld⟩ := callStep_of_wp hstep fun hcan =>
    sysUnlink_effect (fun _ => trivial) (ready_of_canCall h hnlink hcan) path
  exact hheld

end Xv6e.Fs.ProcessEffects
