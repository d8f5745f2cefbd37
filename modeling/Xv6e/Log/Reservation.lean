import Xv6e.Log.GroupCommit

/-!
# The reservation of `begin_op`

`begin_op` admits an operation while `lh.n + (outstanding + 1) * MAXOPBLOCKS ≤ LOGSIZE`: every open operation
may log `MAXOPBLOCKS` blocks.  But the log that `mkfs` makes has `LOGSIZE` blocks **including** the header
block, so that only `log.size - 1 = LOGSIZE - 1` slots exist, and `log_write` panics once they are full: three
operations of full size in one group are one block too many (`reservation_overrun`).  Its capacity test also
comes before the search for the block, so that a full list refuses even a block that it holds
(`relog_overrun`).

* `Reserved` — the list and what the open operations may still add to it stay within a bound that the
  admissions keep; with `begin_op`'s own bound the list has at most `LOGSIZE` entries (`length_le_LOGSIZE`);
* `log_write_fits` — no panic and no slot outside the log area in any run whose admissions leave room in the
  slots, and in which no listed block is logged again while the list is full.
-/

namespace Xv6e.Log.Reservation

open Library.Transition Commit Protocol GroupCommit

variable {P : Type} [DecidableEq P] {log : LogArea} {es es' : List (Event P)} {s t : State P}
    {p : P} {b B : ℕ}

/-! ### What an operation has passed to `log_write` -/

/-- The blocks `log_write` has been called with in the current operation of `p`. -/
def opPassed (p : P) (es : List (Event P)) : Finset ℕ :=
  es.foldl (fun acc e => match e with
    | .check q b => if q = p then insert b acc else acc
    | .grant q => if q = p then ∅ else acc
    | _ => acc) ∅

theorem opPassed_snoc (p : P) (es : List (Event P)) (e : Event P) :
    opPassed p (es ++ [e]) = match e with
      | .check q b => if q = p then insert b (opPassed p es) else opPassed p es
      | .grant q => if q = p then ∅ else opPassed p es
      | _ => opPassed p es := by
  rw [opPassed, List.foldl_append]
  cases e <;> rfl

/-- Each operation passes at most `MAXOPBLOCKS` distinct blocks to `log_write`. -/
def Bounded (es : List (Event P)) (_ : State P) : Event P → Prop
  | .check p b => (insert b (opPassed p es)).card ≤ MAXOPBLOCKS
  | _ => True

/-- The test of `begin_op`, with `B` in the place of `LOGSIZE`: an operation is admitted only while the list
and `MAXOPBLOCKS` blocks for each operation do not exceed `B`. -/
def AdmitsWithin (B : ℕ) (s : State P) : Event P → Prop
  | .grant _ => (s.lh.length : ℤ) + (s.outstanding + 1) * MAXOPBLOCKS ≤ B
  | _ => True

/-- No block that is in the list is passed to `log_write` while the list fills all slots. -/
def NoRelog (log : LogArea) (s : State P) : Event P → Prop
  | .check _ b => b ∈ s.lh → s.lh.length ≠ log.size - 1
  | _ => True

/-- Operations are bounded and admitted within the slots of the log area, and a full list gets no block
again. -/
def Fitting (log : LogArea) (es : List (Event P)) (s : State P) (e : Event P) : Prop :=
  Bounded es s e ∧ AdmitsWithin (log.size - 1) s e ∧ NoRelog log s e

instance (es : List (Event P)) (s : State P) (e : Event P) : Decidable (Bounded es s e) := by
  unfold Bounded; cases e <;> infer_instance

instance (B : ℕ) (s : State P) (e : Event P) : Decidable (AdmitsWithin B s e) := by
  unfold AdmitsWithin; cases e <;> infer_instance

instance (s : State P) (e : Event P) : Decidable (NoRelog log s e) := by
  unfold NoRelog; cases e <;> infer_instance

instance (es : List (Event P)) (s : State P) (e : Event P) : Decidable (Fitting log es s e) := by
  unfold Fitting; infer_instance

/-- The log space suffices in a state: no panic for lack of space, no entry without a slot, and
so every block `write_log` writes is a slot of the log area. -/
def WithinLog (log : LogArea) (s : State P) : Prop :=
  s.panic ≠ some .tooBig ∧ s.lh.length ≤ log.size - 1
    ∧ ∀ d : Dev, ∃ slots : List ℕ, (writeLog log 0 s.lh d).issued.map Prod.fst
        = d.issued.map Prod.fst ++ slots ∧ ∀ b ∈ slots, log.start + 1 ≤ b ∧ b < log.start + log.size

omit [DecidableEq P] in
/-- With no more entries than slots, `write_log` stays inside the log area. -/
theorem withinLog_of_length (hp : s.panic ≠ some .tooBig) (hn : s.lh.length ≤ log.size - 1) :
    WithinLog log s := by
  refine ⟨hp, hn, fun d => ⟨_, writeLog_issued log 0 s.lh d, ?_⟩⟩
  intro b hb
  obtain ⟨i, hi, rfl⟩ := List.mem_map.mp hb
  rw [List.mem_range'_1] at hi
  have hpos := log.pos
  omega

/-! ### What an operation may still append -/

/-- The process is past the checks of `log_write` with a block that is not in the list. -/
def State.pending (s : State P) (p : P) : Prop := ∃ b, s.pc p = .appending b ∧ b ∉ s.lh

open Classical in
/-- The entries that the operation of `p` may still add to the list. -/
noncomputable def owed (es : List (Event P)) (s : State P) (p : P) : ℕ :=
  if (s.pc p).inOperation then MAXOPBLOCKS - (opPassed p es).card + if State.pending s p then 1 else 0 else 0

/-- The list and what the operations may still add to it do not exceed `B`; what an operation has passed to
`log_write` is in the list, or about to be looked for there. -/
structure Reserved (B : ℕ) (es : List (Event P)) (s : State P) : Prop where
  pending : ∀ p b, s.pc p = .appending b → b ∈ opPassed p es
  listed : ∀ p, (s.pc p).inOperation → ∀ b ∈ opPassed p es, b ∈ s.lh ∨ s.pc p = .appending b
  room : ∀ S : Finset P, s.lh.length + ∑ p ∈ S, owed es s p ≤ B

theorem reserved_initial : Reserved B [] (initial : State P) := by
  refine ⟨by simp [initial], by simp [initial, Pc.inOperation], fun S => ?_⟩
  simp [initial, owed, Pc.inOperation]

theorem Reserved.length_le (h : Reserved B es s) : s.lh.length ≤ B := h.room ∅

theorem owed_of_out (h : (s.pc p).inOperation = false) : owed es s p = 0 := by simp [owed, h]

/-- An operation owes no more than it reserved: a pending block has been passed to `log_write`. -/
theorem owed_le (h : ∀ b, s.pc p = .appending b → b ∈ opPassed p es) : owed es s p ≤ MAXOPBLOCKS := by
  rw [owed]
  split_ifs with hop hpend
  · obtain ⟨b, hb, _⟩ := hpend
    have hpos : 0 < (opPassed p es).card := Finset.card_pos.mpr ⟨b, h b hb⟩
    rw [MAXOPBLOCKS]
    omega
  · omega
  · omega

theorem owed_mono (hes : opPassed p es' = opPassed p es) (hpc : t.pc p = s.pc p)
    (hlh : ∀ b ∈ s.lh, b ∈ t.lh) : owed es' t p ≤ owed es s p := by
  have hpend : State.pending t p → State.pending s p := by
    rintro ⟨b, hb, hnot⟩
    exact ⟨b, hpc ▸ hb, fun hmem => hnot (hlh b hmem)⟩
  rw [owed, owed, hes, hpc]
  split_ifs <;> first | omega | tauto

/-- The room is kept if what `p` owes falls by as much as the list grows, and no other process owes more. -/
theorem Reserved.room_of (h : Reserved B es s) (p : P) (hother : ∀ q ≠ p, owed es' t q ≤ owed es s q)
    (hp : t.lh.length + owed es' t p ≤ s.lh.length + owed es s p) (S : Finset P) :
    t.lh.length + ∑ q ∈ S, owed es' t q ≤ B := by
  have hmem := Finset.mem_insert_self p S
  have hsub := Finset.sum_le_sum_of_subset (f := owed es' t) (Finset.subset_insert p S)
  have hrest : ∑ q ∈ (insert p S).erase p, owed es' t q ≤ ∑ q ∈ (insert p S).erase p, owed es s q :=
    Finset.sum_le_sum fun q hq => hother q (Finset.ne_of_mem_erase hq)
  have hroom := h.room (insert p S)
  rw [← Finset.add_sum_erase _ _ hmem] at hsub hroom
  omega

/-! ### One lemma for each section -/

/-- A step that leaves the list and the open operations as they are, except for those it closes. -/
theorem Reserved.of_pc (h : Reserved B es s) (hes : ∀ q, opPassed q es' = opPassed q es) (hlh : t.lh = s.lh)
    (hpc : ∀ q, (t.pc q).inOperation → t.pc q = s.pc q) : Reserved B es' t := by
  refine ⟨fun q b hq => ?_, fun q hq b hb => ?_, fun S => ?_⟩
  · rw [hes]
    exact h.pending q b ((hpc q (by rw [hq]; rfl)).symm.trans hq)
  · rw [hlh, hpc q hq]
    rw [hpc q hq] at hq
    exact h.listed q hq b (hes q ▸ hb)
  · have hle : ∑ q ∈ S, owed es' t q ≤ ∑ q ∈ S, owed es s q := Finset.sum_le_sum fun q _ => by
      by_cases hq : (t.pc q).inOperation
      · exact owed_mono (hes q) (hpc q hq) fun b hb => hlh ▸ hb
      · rw [owed_of_out (by simpa using hq)]
        exact Nat.zero_le _
    have := h.room S
    rw [hlh]
    omega

theorem inOperation_move {c : Pc} (hc : c.inOperation = false) {q : P} (h : ((s.move p c).pc q).inOperation) :
    (s.move p c).pc q = s.pc q := by
  rw [move_pc] at h ⊢
  split_ifs at h ⊢ with hq
  · rw [hc] at h
    cases h
  · rfl

theorem inOperation_idle {q : P} (h : ((s.move p .idle).wakeup.pc q).inOperation) :
    (s.move p .idle).wakeup.pc q = s.pc q := by
  rw [wakeup_pc] at h ⊢
  split_ifs at h ⊢
  · cases h
  · exact inOperation_move rfl h

/-- Each operation that is open after an admission owes at most `MAXOPBLOCKS`. -/
theorem reserved_grant (h : Reserved B es s) (hi : Inv es s)
    (hes : ∀ q, opPassed q es' = if p = q then ∅ else opPassed q es)
    (hadd : (s.lh.length : ℤ) + (s.outstanding + 1) * MAXOPBLOCKS ≤ B) :
    Reserved B es' ({ s with outstanding := s.outstanding + 1 }.move p .inOp) := by
  obtain ⟨ops, hops, hout⟩ := hi.count
  have hpending : ∀ q b, ({ s with outstanding := s.outstanding + 1 }.move p .inOp).pc q = .appending b →
      b ∈ opPassed q es' := by
    intro q b hq
    rw [move_pc] at hq
    split_ifs at hq with hqp
    rw [hes, if_neg (Ne.symm hqp)]
    exact h.pending q b hq
  refine ⟨hpending, fun q hq b hb => ?_, fun S => ?_⟩
  · rw [hes] at hb
    split_ifs at hb with hqp
    · exact absurd hb (Finset.notMem_empty b)
    · rw [move_pc, if_neg (Ne.symm hqp)] at hq ⊢
      exact h.listed q hq b hb
  · have hopen : ∀ q ∈ S, owed es' ({ s with outstanding := s.outstanding + 1 }.move p .inOp) q ≠ 0 →
        q ∈ insert p ops := by
      intro q _ hq
      rw [Finset.mem_insert, hops]
      by_contra hnot
      rw [not_or] at hnot
      exact hq (owed_of_out (by rw [move_pc, if_neg hnot.1]; simpa using hnot.2))
    have hsum := Finset.sum_le_card_nsmul (S.filter (· ∈ insert p ops)) _ MAXOPBLOCKS fun q _ =>
      owed_le (hpending q)
    rw [Finset.sum_filter_of_ne hopen, smul_eq_mul] at hsum
    have hcard : (S.filter (· ∈ insert p ops)).card ≤ ops.card + 1 :=
      (Finset.card_le_card fun q hq => (Finset.mem_filter.mp hq).2).trans (Finset.card_insert_le p ops)
    have := Nat.mul_le_mul_right MAXOPBLOCKS hcard
    rw [hout] at hadd
    show s.lh.length + _ ≤ B
    zify at *
    linarith

/-- `log_write` has not been called with the block before in the operation, or finds it in the list. -/
theorem reserved_check (h : Reserved B es s) (hp : s.pc p = .inOp)
    (hes : ∀ q, opPassed q es' = if p = q then insert b (opPassed q es) else opPassed q es)
    (hbound : (insert b (opPassed p es)).card ≤ MAXOPBLOCKS) : Reserved B es' (s.move p (.appending b)) := by
  have hlisted : b ∈ opPassed p es → b ∈ s.lh := fun hb => by
    simpa [hp] using h.listed p (by rw [hp]; rfl) b hb
  refine ⟨fun q x hq => ?_, fun q hq x hx => ?_, h.room_of p (fun q hq => ?_) ?_⟩
  · rw [hes]
    rw [move_pc] at hq
    split_ifs at hq with hqp
    · rw [if_pos hqp.symm, Pc.appending.inj hq]
      exact Finset.mem_insert_self x _
    · rw [if_neg (Ne.symm hqp)]
      exact h.pending q x hq
  · rw [hes] at hx
    rw [move_pc] at hq ⊢
    split_ifs at hq hx ⊢ with hqp hpq hpq
    · rcases Finset.mem_insert.mp hx with rfl | hx
      · exact Or.inr rfl
      · refine Or.inl ?_
        show x ∈ s.lh
        simpa [hqp, hp] using h.listed q (by rw [hqp, hp]; rfl) x hx
    · exact absurd hqp.symm hpq
    · exact absurd hpq.symm hqp
    · exact h.listed q hq x hx
  · exact owed_mono (by rw [hes, if_neg (Ne.symm hq)]) (by rw [move_pc, if_neg hq]) fun _ hb => hb
  · show s.lh.length + _ ≤ _
    have hpend : State.pending (s.move p (.appending b)) p → b ∉ opPassed p es := by
      rintro ⟨x, hx, hnot⟩ hb
      rw [move_pc, if_pos rfl] at hx
      exact hnot (Pc.appending.inj hx ▸ hlisted hb)
    have hle := Finset.card_le_card (Finset.subset_insert b (opPassed p es))
    rw [owed, owed, hes, if_pos rfl, hp, move_pc, if_pos rfl]
    simp only [Pc.inOperation, if_true]
    split_ifs with hnew hold
    · omega
    · rw [Finset.card_insert_of_notMem (hpend hnew)] at hbound ⊢
      omega
    · omega
    · omega

/-- The block is in the list, or it was pending and is added. -/
theorem reserved_append (h : Reserved B es s) (hp : s.pc p = .appending b)
    (hes : ∀ q, opPassed q es' = opPassed q es) : Reserved B es' (logWriteAppend s p b) := by
  have hpc : ∀ q, (logWriteAppend s p b).pc q = if q = p then .inOp else s.pc q := fun q => by
    rw [logWriteAppend]
    split <;> exact move_pc _ _ _ _
  have hlh : ∀ x, x ∈ (logWriteAppend s p b).lh ↔ x ∈ s.lh ∨ x = b := fun x => by
    rw [logWriteAppend]
    split_ifs with hb
    · exact ⟨Or.inl, fun hx => hx.elim id fun hxb => hxb ▸ hb⟩
    · exact List.mem_append.trans (or_congr_right List.mem_singleton)
  refine ⟨fun q x hq => ?_, fun q hq x hx => ?_, h.room_of p (fun q hq => ?_) ?_⟩
  · rw [hpc] at hq
    split_ifs at hq
    exact hes q ▸ h.pending q x hq
  · rw [hes] at hx
    rw [hpc] at hq ⊢
    rw [hlh]
    split_ifs at hq ⊢ with hqp
    · rw [hqp] at hx
      have := h.listed p (by rw [hp]; rfl) x hx
      rw [hp, Pc.appending.injEq] at this
      exact Or.inl (this.imp_right Eq.symm)
    · exact (h.listed q hq x hx).imp_left Or.inl
  · exact owed_mono (hes q) (by rw [hpc, if_neg hq]) fun x hx => (hlh x).mpr (Or.inl hx)
  · have hnot : ¬ State.pending (logWriteAppend s p b) p := by
      rintro ⟨x, hx, _⟩
      rw [hpc, if_pos rfl] at hx
      cases hx
    rw [owed, owed, hes, if_neg hnot, hpc, if_pos rfl, hp, logWriteAppend]
    simp only [Pc.inOperation, if_true]
    by_cases hb : b ∈ s.lh
    · rw [if_pos hb]
      show s.lh.length + _ ≤ _
      omega
    · rw [if_neg hb, if_pos ⟨b, hp, hb⟩]
      show (s.lh ++ [b]).length + _ ≤ _
      rw [List.length_append, List.length_singleton]
      omega

/-- No operation is open during a commit. -/
theorem reserved_commit (hi : Inv es s) (hp : s.pc p = .doCommit) :
    Reserved B es' ({ s with lh := [] }.move p .committed) := by
  have hout : ∀ q, (({ s with lh := [] }.move p .committed).pc q).inOperation = false := fun q => by
    by_contra hq
    have hpc := inOperation_move (s := { s with lh := [] }) (p := p) (c := .committed) rfl (by simpa using hq)
    have hc := (hi.open_operation (p := q) (by rw [hpc] at hq; simpa using hq)).2
    have := hi.noCommitter hc p
    rw [hp] at this
    cases this
  refine ⟨fun q b hq => ?_, fun q hq => ?_, fun S => ?_⟩
  · have := hout q
    rw [hq] at this
    cases this
  · rw [hout] at hq
    cases hq
  · rw [Finset.sum_eq_zero fun q _ => owed_of_out (hout q)]
    exact Nat.zero_le B

/-! ### Runs -/

/-- **One step** of a bounded operation keeps the room, or is a `log_write` that panics for lack of space. -/
theorem reserved_step {e : Event P} (h : Reserved B es s) (hi : Inv es s) (hbound : Bounded es s e)
    (hadd : AdmitsWithin B s e) (hs : step log s e = some t) : (t.panic = none ∧ Reserved B (es ++ [e]) t)
      ∨ ∃ p b, e = .check p b ∧ s.pc p = .inOp ∧ (LOGSIZE ≤ s.lh.length ∨ log.size ≤ s.lh.length + 1)
        ∧ t = s.fail .tooBig := by
  have hes := fun q => opPassed_snoc q es e
  unfold step at hs
  split_ifs at hs with hpanic
  rw [not_not] at hpanic
  cases e with
  | enter p =>
    obtain ⟨-, rfl⟩ := guard_eq.mp hs
    exact Or.inl ⟨hpanic, h.of_pc hes rfl fun q => inOperation_move rfl⟩
  | kill p =>
    obtain ⟨-, rfl⟩ := guard_eq.mp hs
    exact Or.inl ⟨hpanic, h.of_pc hes rfl fun q => inOperation_move rfl⟩
  | grant p =>
    obtain ⟨⟨_, hw⟩, rfl⟩ := guard_eq.mp hs
    rw [beginOp, if_neg hw]
    exact Or.inl ⟨hpanic, reserved_grant h hi hes hadd⟩
  | sleep p =>
    obtain ⟨⟨_, hw⟩, rfl⟩ := guard_eq.mp hs
    rw [beginOp, if_pos hw]
    exact Or.inl ⟨hpanic, h.of_pc hes rfl fun q => inOperation_move rfl⟩
  | check p b =>
    obtain ⟨hp, rfl⟩ := guard_eq.mp hs
    have hout := (hi.open_operation (p := p) (by rw [hp]; rfl)).1
    rw [logWriteCheck]
    split_ifs with hfull
    · exact Or.inr ⟨p, b, rfl, hp, by omega, rfl⟩
    · omega
    · exact Or.inl ⟨hpanic, reserved_check h hp hes hbound⟩
  | append p b =>
    obtain ⟨hp, rfl⟩ := guard_eq.mp hs
    refine Or.inl ⟨?_, reserved_append h hp hes⟩
    rw [logWriteAppend]
    split <;> exact hpanic
  | endOp p =>
    obtain ⟨hp, rfl⟩ := guard_eq.mp hs
    have hc := (hi.open_operation (p := p) (by rw [hp]; rfl)).2
    rw [endOp, if_neg (by simp [hc])]
    split
    · exact Or.inl ⟨hpanic, h.of_pc hes rfl fun q => inOperation_move rfl⟩
    · exact Or.inl ⟨hpanic, h.of_pc hes rfl fun q => inOperation_idle⟩
  | commit p =>
    obtain ⟨hp, rfl⟩ := guard_eq.mp hs
    exact Or.inl ⟨hpanic, reserved_commit hi hp⟩
  | finish p =>
    obtain ⟨-, rfl⟩ := guard_eq.mp hs
    exact Or.inl ⟨hpanic, h.of_pc hes rfl fun q => inOperation_idle⟩

/-- **What the reservation achieves**: in every run of bounded operations the list has at most `LOGSIZE`
entries, as many as `struct logheader` has room for. -/
theorem length_le_LOGSIZE (hr : RunIf (system log P) Bounded es s) : s.lh.length ≤ LOGSIZE := by
  suffices h : Inv es s ∧ s.lh.length ≤ LOGSIZE ∧ (s.panic = none → Reserved LOGSIZE es s) from h.2.1
  refine RunIf.induct
    (I := fun es s => Inv es s ∧ s.lh.length ≤ LOGSIZE ∧ (s.panic = none → Reserved LOGSIZE es s))
    (fun s h0 => ?_) (fun es s e t h hc hs => ⟨inv_step h.1 hs, ?_⟩) hr
  · rw [show s = initial from h0]
    exact ⟨inv_initial, Nat.zero_le _, fun _ => reserved_initial⟩
  · have hnone : s.panic = none := by
      by_contra hp
      cases hs.symm.trans (if_pos hp)
    have hadd : AdmitsWithin LOGSIZE s e := by
      cases e with
      | grant p =>
        have hgrant := (if_neg (not_not.mpr hnone)).symm.trans hs
        exact not_lt.mp fun hlt => (guard_eq.mp hgrant).1.2 (Or.inr hlt)
      | _ => trivial
    rcases reserved_step (h.2.2 hnone) h.1 hc hadd hs with ht | ⟨p, b, _, _, _, rfl⟩
    · exact ⟨ht.2.length_le, fun _ => ht.2⟩
    · exact ⟨h.2.1, fun hp => by cases hp⟩

/-- The check of `log_write` passes: a new block is one of those that the operation still owes. -/
theorem Reserved.room_for_check (h : Reserved (log.size - 1) es s) (hp : s.pc p = .inOp)
    (hbound : (insert b (opPassed p es)).card ≤ MAXOPBLOCKS)
    (hrelog : b ∈ s.lh → s.lh.length ≠ log.size - 1) : s.lh.length + 1 < log.size := by
  have hle := h.length_le
  have hpos := log.pos
  by_cases hb : b ∈ s.lh
  · have := hrelog hb
    omega
  · have hnew : b ∉ opPassed p es := fun hmem => by
      simpa [hp, hb] using h.listed p (by rw [hp]; rfl) b hmem
    have hroom := h.room {p}
    rw [Finset.card_insert_of_notMem hnew] at hbound
    rw [Finset.sum_singleton, owed, hp] at hroom
    simp only [Pc.inOperation, if_true] at hroom
    omega

/-- **When the log space suffices.**  In every run on a log of the size `mkfs` gives it whose operations are
bounded and admitted within the slots, and in which no listed block is passed to `log_write` while the list is
full, no operation panics for lack of space and `write_log` stays inside the log area. -/
theorem log_write_fits (hsize : log.size = LOGSIZE) (hr : RunIf (system log P) (Fitting log) es s) :
    WithinLog log s := by
  have h : Inv es s ∧ s.panic = none ∧ Reserved (log.size - 1) es s := by
    refine RunIf.induct (I := fun es s => Inv es s ∧ s.panic = none ∧ Reserved (log.size - 1) es s)
      (fun s h0 => ?_) (fun es s e t h hc hs => ⟨inv_step h.1 hs, ?_⟩) hr
    · rw [show s = initial from h0]
      exact ⟨inv_initial, rfl, reserved_initial⟩
    · obtain ⟨hbound, hadd, hrelog⟩ := hc
      refine (reserved_step h.2.2 h.1 hbound hadd hs).resolve_right ?_
      rintro ⟨p, b, rfl, hp, hfull, -⟩
      have := h.2.2.room_for_check hp hbound hrelog
      omega
  exact withinLog_of_length (by rw [h.2.1]; simp) h.2.2.length_le

/-! ### Three operations of full size -/

/-- The reservation made by `begin_op` suffices for the log and its processes. -/
def ReservationSuffices (log : LogArea) (P : Type) [DecidableEq P] : Prop :=
  ∀ (es : List (Event P)) (s : State P), RunIf (system log P) Bounded es s → WithinLog log s

/-- An operation logs the `n` blocks from `b` on. -/
def logRange (p : Fin 3) (b n : ℕ) : List (Event (Fin 3)) :=
  (List.range' b n).flatMap fun x => [.check p x, .append p x]

/-- Three operations are admitted, and log ten blocks each; the thirtieth `log_write` is the last event. -/
def overrun : List (Event (Fin 3)) :=
  [.enter 0, .grant 0, .enter 1, .grant 1, .enter 2, .grant 2] ++ logRange 0 100 10 ++ logRange 1 200 10
    ++ (logRange 2 300 10).dropLast

/-- **The reservation is one block short.**  On the log `mkfs` makes, three operations that log
`MAXOPBLOCKS` blocks each are all admitted, and the last `log_write` panics. -/
theorem reservation_overrun : ¬ ReservationSuffices mkfsLog (Fin 3) := by
  intro h
  have hrun : ((system mkfsLog (Fin 3)).runFrom Bounded [] initial overrun).map State.panic
      = some (some .tooBig) := by decide +kernel
  obtain ⟨s, hr, hs⟩ := exists_runIf_of_map _ rfl hrun
  exact (h _ _ hr).1 hs

/-- An operation of nine blocks, and two of ten admitted in its group: the list fills the 29 slots. -/
def fillSlots : List (Event (Fin 3)) :=
  [.enter 0, .grant 0] ++ logRange 0 100 9 ++ [.enter 1, .grant 1, .endOp 0, .enter 2, .grant 2]
    ++ logRange 1 200 10 ++ logRange 2 300 10

theorem log_write_fits_full :
    mkfsLog.size = LOGSIZE ∧ ∃ s : State (Fin 3), RunIf (system mkfsLog (Fin 3)) (Fitting mkfsLog) fillSlots s
      ∧ s.lh.length = mkfsLog.size - 1 ∧ WithinLog mkfsLog s := by
  have hrun : ((system mkfsLog (Fin 3)).runFrom (Fitting mkfsLog) [] initial fillSlots).map
      (fun s => s.lh.length) = some 29 := by decide +kernel
  obtain ⟨s, hr, hs⟩ := exists_runIf_of_map _ rfl hrun
  exact ⟨rfl, s, hr, hs, log_write_fits rfl hr⟩

/-- **A full list refuses a block that it holds**: in the same group, the next `log_write` of a listed block
panics. -/
theorem relog_overrun : ∃ s : State (Fin 3), RunIf (system mkfsLog (Fin 3))
    (fun es s e => Bounded es s e ∧ AdmitsWithin (mkfsLog.size - 1) s e) (fillSlots ++ [.check 2 300]) s
      ∧ s.panic = some .tooBig := by
  refine exists_runIf_of_map _ rfl ?_
  decide +kernel

end Xv6e.Log.Reservation
