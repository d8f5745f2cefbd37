import Xv6e.Log.Protocol

/-!
# Group commit: what holds after every run

`Inv` ties the four fields of `struct log` to the places of the processes:

* `outstanding` counts the processes between `begin_op` and `end_op`;
* `committing` is set exactly while one process — only one — is between the two locked sections of `end_op`,
  and no operation is open then;
* `lh` lists, without repetition, the blocks logged since the last commit, and is empty when the log is quiet;
* a process asleep in `begin_op` still has to wait, and someone will wake it: an operation is open or a commit
  is running.

`inv_reach` proves it for every run from what each section of `log.c` does to it, and `group_commit` reads the
protocol's promises off it.
-/

namespace Xv6e.Log.GroupCommit

open Library.Transition Commit Protocol

variable {P : Type} [DecidableEq P] {log : LogArea}

/-- The invariant of the log, together with the history of the run. -/
structure Inv (es : List (Event P)) (s : State P) : Prop where
  count : ∃ ops : Finset P, (∀ p, p ∈ ops ↔ (s.pc p).inOperation = true) ∧ s.outstanding = ops.card
  committer : s.committing = true →
    s.outstanding = 0 ∧ ∃ p, ∀ q, (s.pc q).isCommitter = true ↔ q = p
  noCommitter : s.committing = false → ∀ p, (s.pc p).isCommitter = false
  nodup : s.lh.Nodup
  exact : ∀ b, b ∈ s.lh ↔ b ∈ logged es
  quiet : s.outstanding = 0 → s.committing = false → s.lh = []
  erased : ∀ p, s.pc p = .committed → s.lh = []
  waiting : ∀ p, s.pc p = .asleep → s.mustWait ∧ (s.committing = true ∨ 1 ≤ s.outstanding)
  noPanic : s.panic ≠ some .logCommitting

omit [DecidableEq P] in
theorem inv_initial : Inv [] (initial : State P) := by
  refine ⟨⟨∅, by simp [initial, Pc.inOperation], rfl⟩, by simp [initial], by simp [initial, Pc.isCommitter],
    List.nodup_nil, by simp [initial, logged], fun _ _ => rfl, by simp [initial], by simp [initial],
    by simp [initial]⟩

variable {es es' : List (Event P)} {s t : State P} {p : P}

section

variable (h : Inv es s)
include h

omit [DecidableEq P] in
/-- A process inside an operation keeps the count positive, and so rules out a commit. -/
theorem Inv.open_operation
    (hp : (s.pc p).inOperation = true) : 1 ≤ s.outstanding ∧ s.committing = false := by
  obtain ⟨ops, hmem, hcard⟩ := h.count
  have hpos : 0 < ops.card := Finset.card_pos.mpr ⟨p, (hmem p).mpr hp⟩
  refine ⟨by omega, ?_⟩
  by_contra hc
  have := (h.committer (by simpa using hc)).1
  omega

theorem Inv.move (p : P) (c : Pc) (hlog : logged es' = logged es)
    (hop : c.inOperation = (s.pc p).inOperation) (hcm : c.isCommitter = (s.pc p).isCommitter)
    (her : c = .committed → s.lh = [])
    (hwait : c = .asleep → s.mustWait ∧ (s.committing = true ∨ 1 ≤ s.outstanding)) :
    Inv es' (s.move p c) := by
  have hin : ∀ q, ((s.move p c).pc q).inOperation = (s.pc q).inOperation := by
    intro q
    rw [move_pc]
    split
    · rename_i hq
      rw [hq, hop]
    · rfl
  have hco : ∀ q, ((s.move p c).pc q).isCommitter = (s.pc q).isCommitter := by
    intro q
    rw [move_pc]
    split
    · rename_i hq
      rw [hq, hcm]
    · rfl
  obtain ⟨ops, hmem, hcard⟩ := h.count
  refine ⟨⟨ops, fun q => by rw [hin]; exact hmem q, hcard⟩, ?_, ?_, h.nodup, ?_, h.quiet, ?_, ?_, h.noPanic⟩
  · intro hc
    obtain ⟨h0, r, hr⟩ := h.committer hc
    exact ⟨h0, r, fun q => by rw [hco]; exact hr q⟩
  · intro hc q
    rw [hco]
    exact h.noCommitter hc q
  · intro b
    rw [hlog]
    exact h.exact b
  · intro q hq
    rw [move_pc] at hq
    split at hq
    · exact her hq
    · exact h.erased q hq
  · intro q hq
    rw [move_pc] at hq
    split at hq
    · exact hwait hq
    · exact h.waiting q hq

omit [DecidableEq P] in
theorem Inv.fail {m : Panic}
    (hlog : logged es' = logged es) (hm : m ≠ .logCommitting) : Inv es' (s.fail m) :=
  ⟨h.count, h.committer, h.noCommitter, h.nodup, fun b => by rw [hlog]; exact h.exact b, h.quiet, h.erased,
    h.waiting, by simpa [State.fail] using hm⟩

/-! ### One lemma for each section -/

theorem inv_beginOp_sleep (hlog : logged es' = logged es) (hp : s.pc p = .begin) (hw : s.mustWait) :
    Inv es' (beginOp s p) := by
  rw [beginOp, if_pos hw]
  refine h.move p .asleep hlog (by rw [hp]; rfl) (by rw [hp]; rfl) (by simp) fun _ => ⟨hw, ?_⟩
  -- a quiet log is empty and has room, so whoever waits can name its waker
  by_cases hc : s.committing = true
  · exact Or.inl hc
  · right
    obtain ⟨ops, -, hcard⟩ := h.count
    by_contra hout
    have h0 : s.outstanding = 0 := by omega
    have hnil := h.quiet h0 (by simpa using hc)
    rcases hw with hw | hw
    · exact hc hw
    · rw [hnil, h0] at hw
      simp [MAXOPBLOCKS, LOGSIZE] at hw

theorem inv_beginOp_grant (hlog : logged es' = logged es) (hp : s.pc p = .begin) (hw : ¬ s.mustWait) :
    Inv es' (beginOp s p) := by
  have hc : s.committing = false := by
    by_contra hc
    exact hw (Or.inl (by simpa using hc))
  obtain ⟨ops, hmem, hcard⟩ := h.count
  have hnew : p ∉ ops := by rw [hmem, hp]; simp [Pc.inOperation]
  rw [beginOp, if_neg hw]
  refine ⟨⟨insert p ops, ?_, ?_⟩, ?_, ?_, h.nodup, ?_, ?_, ?_, ?_, h.noPanic⟩
  · intro q
    rw [Finset.mem_insert, move_pc]
    by_cases hq : q = p
    · simp [hq, Pc.inOperation]
    · simp [hq, hmem q]
  · rw [Finset.card_insert_of_notMem hnew]
    simp [State.move, hcard]
  · intro hc'
    exact absurd hc' (by simp [State.move, hc])
  · intro _ q
    rw [move_pc]
    split
    · rfl
    · exact h.noCommitter hc q
  · intro b
    rw [hlog]
    exact h.exact b
  · intro h0 _
    have h0' : s.outstanding + 1 = 0 := h0
    omega
  · intro q hq
    rw [move_pc] at hq
    split at hq
    · cases hq
    · exact h.erased q hq
  · intro q hq
    rw [move_pc] at hq
    split at hq
    · cases hq
    · -- one more operation only makes the others wait more
      obtain ⟨hwq, -⟩ := h.waiting q hq
      rcases hwq with hwq | hwq
      · exact absurd hwq (by simp [hc])
      · refine ⟨Or.inr ?_, Or.inr ?_⟩
        · simp only [State.move, MAXOPBLOCKS] at hwq ⊢
          push_cast at hwq ⊢
          linarith
        · simp only [State.move]
          omega

theorem inv_logWriteCheck {b : ℕ}
    (hlog : logged es' = logged es) (hp : s.pc p = .inOp) : Inv es' (logWriteCheck log s p b) := by
  unfold logWriteCheck
  split
  · exact h.fail hlog (by simp)
  · split
    · exact h.fail hlog (by simp)
    · exact h.move p (.appending b) hlog (by rw [hp]; rfl) (by rw [hp]; rfl) (by simp) (by simp)

/-- `log_write` records its block once: absorbed if it is listed already, appended otherwise. -/
theorem inv_logWriteAppend {b : ℕ}
    (hlog : logged es' = insert b (logged es)) (hp : s.pc p = .appending b) :
    Inv es' (logWriteAppend s p b) := by
  obtain ⟨hout, hc⟩ := h.open_operation (p := p) (by rw [hp]; rfl)
  unfold logWriteAppend
  split
  · -- absorbed: the set of logged blocks does not grow
    rename_i hb
    have hsame : logged es' = logged es := by
      rw [hlog]
      exact Finset.insert_eq_of_mem ((h.exact b).mp hb)
    exact h.move p .inOp hsame (by rw [hp]; rfl) (by rw [hp]; rfl) (by simp) (by simp)
  · rename_i hb
    have hmove : Inv es (s.move p .inOp) := h.move p .inOp rfl (by rw [hp]; rfl) (by rw [hp]; rfl)
      (by simp) (by simp)
    refine ⟨hmove.count, hmove.committer, hmove.noCommitter, ?_, ?_, ?_, ?_, ?_, h.noPanic⟩
    · simp only [State.move]
      rw [List.nodup_append]
      refine ⟨h.nodup, List.nodup_singleton b, ?_⟩
      intro x hx y hy hxy
      rw [List.mem_singleton] at hy
      exact hb (hy ▸ hxy ▸ hx)
    · intro x
      rw [hlog, Finset.mem_insert]
      simp only [State.move, List.mem_append, List.mem_singleton]
      rw [h.exact x, or_comm]
    · intro h0 _
      have h0' : s.outstanding = 0 := h0
      omega
    · -- nobody is past `commit()` while an operation is open
      intro q hq
      have hcq := hmove.noCommitter hc q
      have hq' : (s.move p .inOp).pc q = .committed := hq
      rw [hq'] at hcq
      cases hcq
    · intro q hq
      obtain ⟨hwq, hor⟩ := hmove.waiting q hq
      refine ⟨?_, hor⟩
      rcases hwq with hwq | hwq
      · exact Or.inl hwq
      · right
        simp only [State.move, List.length_append, List.length_singleton] at hwq ⊢
        push_cast
        linarith

theorem inv_endOp (hlog : logged es' = logged es) (hp : s.pc p = .inOp) : Inv es' (endOp s p) := by
  obtain ⟨hout, hc⟩ := h.open_operation (p := p) (by rw [hp]; rfl)
  obtain ⟨ops, hmem, hcard⟩ := h.count
  have hpo : p ∈ ops := (hmem p).mpr (by rw [hp]; rfl)
  have hcard' : (s.outstanding - 1 : ℤ) = (ops.erase p).card := by
    rw [Finset.card_erase_of_mem hpo, Nat.cast_sub (Finset.card_pos.mpr ⟨p, hpo⟩), hcard]
    rfl
  have herase : ∀ (c : Pc) (q : P), c.inOperation = false →
      (q ∈ ops.erase p ↔ (if q = p then c else s.pc q).inOperation = true) := by
    intro c q hcq
    rw [Finset.mem_erase]
    by_cases hq : q = p
    · simp [hq, hcq]
    · simp [hq, hmem q]
  have hnoc := h.noCommitter hc
  simp only [endOp]
  rw [if_neg (by simp [hc])]
  split
  · -- the last operation: this process becomes the committer
    rename_i h0
    refine ⟨⟨ops.erase p, fun q => by rw [move_pc]; exact herase _ q rfl, hcard'⟩, ?_, ?_,
      h.nodup, ?_, ?_, ?_, ?_, h.noPanic⟩
    · intro _
      refine ⟨h0, p, fun q => ?_⟩
      rw [move_pc]
      by_cases hq : q = p
      · simp [hq, Pc.isCommitter]
      · simp [hq, hnoc q]
    · intro hc'
      cases hc'
    · intro b
      rw [hlog]
      exact h.exact b
    · intro _ hc'
      cases hc'
    · intro q hq
      rw [move_pc] at hq
      split at hq
      · cases hq
      · exact h.erased q hq
    · intro q _
      exact ⟨Or.inl rfl, Or.inl rfl⟩
  · rename_i h0
    have h0' : s.outstanding - 1 ≠ 0 := h0
    refine ⟨⟨ops.erase p, fun q => ?_, hcard'⟩, ?_, ?_, h.nodup, ?_, ?_, ?_, ?_, h.noPanic⟩
    · rw [wakeup_inOperation, move_pc]
      exact herase _ q rfl
    · intro hc'
      exact absurd hc' (by simp [State.wakeup, State.move, hc])
    · intro _ q
      rw [wakeup_isCommitter, move_pc]
      split
      · rfl
      · exact hnoc q
    · intro b
      rw [hlog]
      exact h.exact b
    · intro h1 _
      exact absurd h1 h0'
    · intro q hq
      have hcq : ((s.move p .idle).wakeup.pc q).isCommitter = true := by
        rw [show (s.move p .idle).wakeup.pc q = .committed from hq]
        rfl
      rw [wakeup_isCommitter, move_pc] at hcq
      split at hcq
      · cases hcq
      · rw [hnoc q] at hcq
        cases hcq
    · intro q hq
      exact absurd hq (wakeup_ne_asleep _ q)

theorem inv_commit (hlog : logged es' = ∅) (hp : s.pc p = .doCommit) :
    Inv es' ({ s with lh := [] }.move p .committed) := by
  have hc : s.committing = true := by
    by_contra hc
    have := h.noCommitter (by simpa using hc) p
    rw [hp] at this
    cases this
  have hmove : Inv es (s.move p .doCommit) := h.move p .doCommit rfl (by rw [hp]) (by rw [hp])
    (by simp) (by simp)
  obtain ⟨ops, hmem, hcard⟩ := h.count
  refine ⟨⟨ops, ?_, hcard⟩, ?_, ?_, List.nodup_nil, ?_, fun _ _ => rfl, fun _ _ => rfl, ?_, h.noPanic⟩
  · intro q
    rw [hmem q, move_pc]
    by_cases hq : q = p
    · simp [hq, hp, Pc.inOperation]
    · simp [hq]
  · intro _
    obtain ⟨h0, r, hr⟩ := h.committer hc
    refine ⟨h0, r, fun q => ?_⟩
    rw [← hr q, move_pc]
    by_cases hq : q = p
    · simp [hq, hp, Pc.isCommitter]
    · simp [hq]
  · intro hc'
    exact absurd hc' (by simp [State.move, hc])
  · intro b
    simp [hlog, State.move]
  · intro q _
    exact ⟨Or.inl hc, Or.inl hc⟩

theorem inv_endCommit
    (hlog : logged es' = logged es) (hp : s.pc p = .committed) : Inv es' (endCommit s p) := by
  have hc : s.committing = true := by
    by_contra hc
    have := h.noCommitter (by simpa using hc) p
    rw [hp] at this
    cases this
  obtain ⟨ops, hmem, hcard⟩ := h.count
  obtain ⟨h0, r, hr⟩ := h.committer hc
  have hrp : p = r := (hr p).mp (by rw [hp]; rfl)
  have hnil : s.lh = [] := h.erased p hp
  unfold endCommit
  refine ⟨⟨ops, ?_, hcard⟩, ?_, ?_, h.nodup, ?_, fun _ _ => hnil, fun _ _ => hnil, ?_, h.noPanic⟩
  · intro q
    rw [wakeup_inOperation, hmem q, move_pc]
    by_cases hq : q = p
    · simp [hq, hp, Pc.inOperation]
    · simp [hq]
  · intro hc'
    cases hc'
  · intro _ q
    rw [wakeup_isCommitter, move_pc]
    by_cases hq : q = p
    · rw [if_pos hq]
      rfl
    · rw [if_neg hq]
      by_contra hcq
      exact hq (((hr q).mp (by simpa using hcq)).trans hrp.symm)
  · intro b
    rw [hlog]
    exact h.exact b
  · intro q hq
    exact absurd hq (wakeup_ne_asleep _ q)

end

/-! ### Every step, every run -/

variable {e : Event P}

theorem inv_step (h : Inv es s) (hs : step log s e = some t) : Inv (es ++ [e]) t := by
  have hlog := logged_snoc es e
  unfold step at hs
  split at hs
  · cases hs
  · cases e with
    | enter p =>
      obtain ⟨hp, rfl⟩ := guard_eq.mp hs
      exact h.move p .begin hlog (by rw [hp]; rfl) (by rw [hp]; rfl) (by simp) (by simp)
    | grant p =>
      obtain ⟨⟨hp, hw⟩, rfl⟩ := guard_eq.mp hs
      exact inv_beginOp_grant h hlog hp hw
    | sleep p =>
      obtain ⟨⟨hp, hw⟩, rfl⟩ := guard_eq.mp hs
      exact inv_beginOp_sleep h hlog hp hw
    | check p b =>
      obtain ⟨hp, rfl⟩ := guard_eq.mp hs
      exact inv_logWriteCheck h hlog hp
    | append p b =>
      obtain ⟨hp, rfl⟩ := guard_eq.mp hs
      exact inv_logWriteAppend h hlog hp
    | endOp p =>
      obtain ⟨hp, rfl⟩ := guard_eq.mp hs
      exact inv_endOp h hlog hp
    | commit p =>
      obtain ⟨hp, rfl⟩ := guard_eq.mp hs
      exact inv_commit h hlog hp
    | finish p =>
      obtain ⟨hp, rfl⟩ := guard_eq.mp hs
      exact inv_endCommit h hlog hp
    | kill p =>
      obtain ⟨hp, rfl⟩ := guard_eq.mp hs
      exact h.move p .begin hlog (by rw [hp]; rfl) (by rw [hp]; rfl) (by simp) (by simp)

/-- **The invariant holds after every run.** -/
theorem inv_reach (hr : Reach (system log P) es s) : Inv es s :=
  RunIf.induct (I := Inv) (fun s h0 => by rw [show s = initial from h0]; exact inv_initial)
    (fun _ _ _ _ h _ hs => inv_step h hs) hr

/-- Only the second locked section of `end_op` clears `committing`. -/
theorem committing_until_finish (h : Inv es s) (hc : s.committing = true) (hs : step log s e = some t) :
    t.committing = true ∨ ∃ p, e = .finish p := by
  have hclosed : ∀ p, s.pc p ≠ .inOp := by
    intro p hp
    have := (h.open_operation (p := p) (by rw [hp]; rfl)).2
    rw [hc] at this
    cases this
  unfold step at hs
  split at hs
  · cases hs
  · cases e with
    | finish p => exact Or.inr ⟨p, rfl⟩
    | check p b => exact absurd (guard_eq.mp hs).1 (hclosed p)
    | endOp p => exact absurd (guard_eq.mp hs).1 (hclosed p)
    | enter p =>
      obtain ⟨-, rfl⟩ := guard_eq.mp hs
      exact Or.inl hc
    | kill p =>
      obtain ⟨-, rfl⟩ := guard_eq.mp hs
      exact Or.inl hc
    | commit p =>
      obtain ⟨-, rfl⟩ := guard_eq.mp hs
      exact Or.inl hc
    | grant p => exact absurd (Or.inl hc) (guard_eq.mp hs).1.2
    | sleep p =>
      obtain ⟨⟨-, hw⟩, rfl⟩ := guard_eq.mp hs
      rw [beginOp, if_pos hw]
      exact Or.inl hc
    | append p b =>
      have hp := (guard_eq.mp hs).1
      have := (h.open_operation (p := p) (by rw [hp]; rfl)).2
      rw [hc] at this
      cases this

/-- **The group-commit protocol.**  After any interleaving of any number of processes:

* while a commit runs no operation is open, none is admitted and no block is logged, and only its own end
  clears `committing`;
* the panic `log.committing` is not reached;
* `lh` lists exactly the blocks logged since the last commit, each once;
* a quiet log is empty;
* whoever sleeps in `begin_op` has to, and an open operation or a running commit will wake it. -/
theorem group_commit (hr : Reach (system log P) es s) :
    (s.committing = true →
      s.outstanding = 0 ∧ (∀ p, (s.pc p).inOperation = false)
        ∧ (∀ p, step log s (.grant p) = none)
        ∧ (∀ p b, step log s (.check p b) = none ∧ step log s (.append p b) = none)
        ∧ ∀ e t, step log s e = some t → t.committing = true ∨ ∃ p, e = .finish p)
    ∧ (∀ p, (s.pc p).isCommitter = true → s.committing = true)
    ∧ s.panic ≠ some .logCommitting
    ∧ s.lh.Nodup ∧ (∀ b, b ∈ s.lh ↔ b ∈ logged es)
    ∧ (s.outstanding = 0 → s.committing = false → s.lh = [])
    ∧ ∀ p, s.pc p = .asleep → s.mustWait ∧ (s.committing = true ∨ 1 ≤ s.outstanding) := by
  have h := inv_reach hr
  refine ⟨fun hc => ?_, fun p hp => ?_, h.noPanic, h.nodup, h.exact, h.quiet, h.waiting⟩
  · have hclosed : ∀ p, (s.pc p).inOperation = false := by
      intro p
      by_contra hp
      have := (h.open_operation (p := p) (by simpa using hp)).2
      rw [hc] at this
      cases this
    have hnot : ∀ p c, c.inOperation = true → s.pc p ≠ c := by
      intro p c hcop hp
      have := hclosed p
      rw [hp, hcop] at this
      cases this
    refine ⟨(h.committer hc).1, hclosed, fun p => ?_, fun p b => ⟨?_, ?_⟩, fun e t hs =>
      committing_until_finish h hc hs⟩
    · have hw : s.mustWait := Or.inl hc
      simp [step, hw]
    · simp [step, hnot p .inOp rfl]
    · simp [step, hnot p (.appending b) rfl]
  · by_contra hc
    have := h.noCommitter (by simpa using hc) p
    rw [hp] at this
    cases this

/-- Process `0` has logged block 60 twice when process `1` comes in, logs block 61 and ends; `0` ends last and
is about to commit both blocks, while `1` waits for its next operation. -/
def sampleRun : List (Event (Fin 2)) :=
  [.enter 0, .grant 0, .check 0 60, .append 0 60, .enter 1, .grant 1, .check 1 61, .check 0 60, .append 1 61,
    .append 0 60, .endOp 1, .endOp 0, .enter 1, .sleep 1]

theorem group_commit_sample :
    ∃ s : State (Fin 2), Reach (system mkfsLog (Fin 2)) sampleRun s ∧ s.committing = true ∧ s.lh = [60, 61]
      ∧ s.pc 1 = .asleep ∧ s.outstanding = 0 ∧ (∀ b, b ∈ s.lh ↔ b ∈ logged sampleRun) := by
  have hr : Reach (system mkfsLog (Fin 2)) sampleRun _ := runIf_of_runFrom rfl rfl
  have h := group_commit hr
  exact ⟨_, hr, rfl, rfl, rfl, (h.1 rfl).1, h.2.2.2.2.1⟩

end Xv6e.Log.GroupCommit
