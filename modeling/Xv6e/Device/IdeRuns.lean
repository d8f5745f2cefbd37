import Xv6e.Device.IdeQueue

/-!
# Runs of the disk driver

What holds in every state that any interleaving of `iderw`, `ideintr` and the disk reaches.

* `exec_goto`, `exec_ret`, `proof` — each statement leads from its assertion to the next one;
* `waitProof` — a process sleeps until its request is completed;
* `refines_memide` — the result.
-/

namespace Xv6e.Device.IdeRuns

open Library.Transition Library.Monitor Library.PointerList Ide IdeQueue
open Function (update update_self update_of_ne)

variable {P β : Type}
variable {d d' : Driver P β} {p q : P} {b : ℕ} {r : Request P β} {Q : List (Request P β)}
    {k : Pc β} {pp : Link}

/-! ### Frames -/

theorem frame_of (hentry : ∀ q, q ≠ p → ∀ b, Entry q b d → Entry q b d')
    (hmine : ∀ q, q ≠ p → ∀ b, Mine q b d → Mine q b d')
    (hintr : ∀ q, q ≠ p → ∀ c, d.phase = .taken q c → d'.phase = .taken q c)
    (hhist : ∀ (i : ℕ) c, d.history[i]? = some c → d'.history[i]? = some c) : Frame Away Back p d d' where
  out := fun q hq k h => by
    cases k with
    | rw b x => exact hentry q hq b h
    | wait b => exact hmine q hq b h
    | intr =>
      obtain ⟨c, hc⟩ := h
      exact ⟨c, hintr q hq c hc⟩
    | _ => exact h
  done := fun q hq r h => by
    cases r with
    | handled => trivial
    | rw b i x =>
      obtain ⟨c, hc, hrest⟩ := h
      exact ⟨c, hhist i c hc, hrest⟩

theorem frame_same (p : P) (hs : SameRequests d d') (hbuf : d'.buf = d.buf)
    (hintr : ∀ q, q ≠ p → ∀ c, d.phase = .taken q c → d'.phase = .taken q c) : Frame Away Back p d d' :=
  frame_of (fun _ _ _ => hs.entry (by rw [hbuf])) (fun _ _ _ => hs.mine (by rw [hbuf])) hintr
    fun i c hc => by
      rw [hs.history]
      exact hc

theorem frame_enqueue (hp : d.owner b = some p) (h : Core d) : Frame Away Back p d (d.enqueue p b) := by
  have other : ∀ {q : P} {a : ℕ}, q ≠ p → d.owner a = some q → a ≠ b := by
    rintro q a hq ha rfl
    rw [hp] at ha
    exact hq (Option.some.inj ha).symm
  refine frame_of (fun q hq a he => ⟨he.owner, he.ne, ?_, he.pending⟩) (fun q hq a hm => ⟨hm.owner, ?_, ?_⟩)
    (fun _ _ _ hc => hc) fun _ _ hc => hc
  · rw [queued_enqueue h]
    intro r hr
    rcases List.mem_append.mp hr with hr | hr
    · exact he.absent r hr
    · rw [List.mem_singleton.mp hr]
      exact (other hq he.owner).symm
  · obtain ⟨x, hx⟩ := hm.request
    refine ⟨x, ?_⟩
    show (d.enqueued ++ [_])[update d.ticket b d.enqueued.length a]? = _
    rw [update_of_ne (other hq hm.owner), List.getElem?_append_left (List.getElem?_eq_some_iff.mp hx).1]
    exact hx
  · intro c hc
    replace hc : d.history[update d.ticket b d.enqueued.length a]? = some c := hc
    rw [update_of_ne (other hq hm.owner)] at hc
    exact hm.done c hc

theorem frame_append (hg : Good d) (he : Entry p b d) (pp : Link) :
    Frame Away Back p d ((d.store pp b).enqueue p b) := by
  have hs := sameRequests_store d pp b
  have hrest := store_rest d pp b
  refine (frame_same p hs hrest.1 fun q _ c hc => ?_).trans (frame_enqueue ?_ (hs.core hg.core))
  · rw [hrest.2.1]
    exact hc
  · rw [hs.owner]
    exact he.owner

theorem frame_complete (h : Popped d r Q) (p : P) : Frame Away Back p d (d.complete r.addr) := by
  have hhist := complete_history h.queue r.addr
  have hin : r ∈ queued d := by
    rw [h.queue]
    exact List.mem_cons_self
  have buf_ne : ∀ {a : ℕ}, a ≠ r.addr → (d.complete r.addr).buf a = d.buf a := fun ha => update_of_ne ha ..
  refine frame_of (fun q _ a he => ⟨he.owner, he.ne, fun s hs => ?_, ?_⟩)
    (fun q _ a hm => ⟨hm.owner, hm.request, fun c hc => ?_⟩) (fun _ _ _ hc => hc) fun i c hc => ?_
  · rw [queued_complete h.queue] at hs
    exact he.absent s (by rw [h.queue]; exact List.mem_cons_of_mem r hs)
  · rw [buf_ne (he.absent r hin).symm]
    exact he.pending
  · replace hc : (d.complete r.addr).history[d.ticket a]? = some c := hc
    rw [hhist] at hc
    obtain ⟨x, hx⟩ := hm.request
    by_cases hlt : d.ticket a < d.history.length
    · rw [List.getElem?_append_left hlt] at hc
      rw [buf_ne]
      · exact hm.done c hc
      · rintro rfl
        rw [h.ticket] at hlt
        exact Nat.lt_irrefl _ hlt
    · -- the request at the first place is `r`
      rw [List.getElem?_append_right (Nat.le_of_not_lt hlt)] at hc
      obtain ⟨hone, hget⟩ := List.getElem?_eq_some_iff.mp hc
      rw [List.length_singleton] at hone
      rw [show d.ticket a = d.history.length by omega, getElem?_of_queue h.queue] at hx
      obtain rfl : r.addr = a := by rw [Option.some.inj hx]
      rw [List.getElem_singleton] at hget
      rw [← hget]
      exact update_self ..
  · rw [hhist, List.getElem?_append_left (List.getElem?_eq_some_iff.mp hc).1]
    exact hc

theorem frame_insl (h : Popped d r Q) (p : P) : Frame Away Back p d (d.insl r.addr) := by
  have hs : SameRequests d (d.insl r.addr) := ⟨rfl, rfl, rfl, rfl, rfl⟩
  have hin : r ∈ queued d := by
    rw [h.queue]
    exact List.mem_cons_self
  refine frame_of (fun q _ a he => hs.entry ?_ he) (fun q _ a hm => ⟨hm.owner, hm.request, fun c hc => ?_⟩)
    (fun _ _ _ hc => hc) fun _ _ hc => hc
  · show (update d.buf r.addr _ a).pending = _
    rw [update_of_ne (he.absent r hin).symm]
  · have hne : a ≠ r.addr := by
      rintro rfl
      replace hc : d.history[d.ticket r.addr]? = some c := hc
      rw [h.ticket, List.getElem?_eq_none (Nat.le_refl _)] at hc
      cases hc
    show update d.buf r.addr _ a = _
    rw [update_of_ne hne]
    exact hm.done c hc

theorem frame_stopped (h : Stopped d) (p : P) (x : Phase P β) : Frame Away Back p d { d with phase := x } :=
  frame_same p ⟨rfl, rfl, rfl, rfl, rfl⟩ rfl fun q _ c hc => by
    rw [h.phase] at hc
    cases hc

/-! ### One statement -/

/-- **`ideintr` takes the first request off the list.** -/
theorem here_pop (h : Good d) {c : Command β} (hc : d.phase = .taken p c) (hsome : d.idequeue ≠ 0) :
    Here p (.intrRead d.idequeue) { d with idequeue := d.qnext d.idequeue, phase := .idle }
      ∧ Frame Away Back p d { d with idequeue := d.qnext d.idequeue, phase := .idle } := by
  have hs : SameRequests d { d with idequeue := d.qnext d.idequeue, phase := .idle } :=
    ⟨rfl, rfl, rfl, rfl, rfl⟩
  have hlisted := h.listed
  cases hq : queued d with
  | nil =>
    rw [hq] at hlisted
    exact absurd hlisted.chain hsome
  | cons r Q =>
    rw [hq] at hlisted
    have hin := h.running.cons hq
    have hexec := hin.executed (by rw [hc]; rfl)
    have hchain := hlisted.chain.tail
    rw [← hlisted.head] at hchain
    refine ⟨⟨r, Q, ⟨hs.core h.core, hs.queued_eq.trans hq, ⟨hchain, fun s hsQ => ?_⟩, rfl, hin.block,
      ⟨hexec.blocks.trans (by rw [hs.base_eq]), fun hread => (hexec.port hread).trans (by rw [hs.base_eq])⟩⟩,
      hlisted.head.symm, ?_⟩, frame_same p hs rfl fun q hqp c' hc' => ?_⟩
    · exact hlisted.buf s (List.mem_cons_of_mem r hsQ)
    · show d.buf d.idequeue = r.before
      rw [hlisted.head]
      exact hlisted.buf r List.mem_cons_self
    · rw [hc] at hc'
      cases hc'
      exact absurd rfl hqp

theorem exec_goto (killed : Bool) {k' : Pc β} (h : Here p k d) (hx : exec p k killed d = .goto d' k') :
    Here p k' d' ∧ Frame Away Back p d d' := by
  cases does_exec hx with
  | @clear b x =>
    obtain ⟨hg, he⟩ := h
    have hs : SameRequests d { d with qnext := update d.qnext b 0 } := ⟨rfl, rfl, rfl, rfl, rfl⟩
    have hd : SameDisk d { d with qnext := update d.qnext b 0 } := ⟨rfl, rfl, rfl, hs.base_eq⟩
    have hnotin : b ∉ (queued d).map Request.addr := fun hb => by
      obtain ⟨r, hr, hrb⟩ := List.mem_map.mp hb
      exact he.absent r hr hrb
    refine ⟨⟨⟨hs.core hg.core, ?_, hd.running hs.queued_eq hg.running⟩, hs.entry rfl he, update_self ..,
      [], _, rfl, rfl⟩, frame_same p hs rfl fun _ _ _ hc => hc⟩
    rw [hs.queued_eq]
    exact ⟨hg.listed.chain.frame fun a ha => update_of_ne (fun hab : a = b => hnotin (hab ▸ ha)) ..,
      hg.listed.buf⟩
  | walk hmore => exact ⟨⟨h.1, h.2.1, h.2.2.1, h.2.2.2.next h.1.listed hmore⟩, Frame.refl ..⟩
  | @appendFirst b pp hend hfirst =>
    obtain ⟨hg, he, hnull, hat⟩ := h
    have hq := (first_iff hg he hnull hat hend).mp hfirst
    exact ⟨⟨stopped_append hg he hnull hat hend hq, mine_append hg he pp, hfirst, he.ne⟩,
      frame_append hg he pp⟩
  | @append b pp hend hfirst =>
    obtain ⟨hg, he, hnull, hat⟩ := h
    have hq : queued d ≠ [] := fun hq => hfirst ((first_iff hg he hnull hat hend).mpr hq)
    exact ⟨⟨good_append hg he hnull hat hend hq, mine_append hg he pp⟩, frame_append hg he pp⟩
  | rwFails => exact ⟨h.1, Frame.refl ..⟩
  | rwBusy hbusy => exact ⟨h, Frame.refl ..⟩
  | @rwStart b hblock =>
    obtain ⟨hstop, hm, hb, hne⟩ := h
    have hs : SameRequests d { d with phase := .busy (command (d.buf b)) } := ⟨rfl, rfl, rfl, rfl, rfl⟩
    exact ⟨⟨hstop.idestart hb hne hblock, hs.mine rfl hm⟩, frame_stopped hstop p _⟩
  | pop hsome =>
    obtain ⟨hg, c, hc⟩ := h
    exact here_pop hg hc hsome
  | wrote hdirty =>
    obtain ⟨r, Q, hpop, rfl, hbuf⟩ := h
    refine ⟨⟨r, Q, hpop, rfl, ?_⟩, Frame.refl ..⟩
    rw [hbuf] at hdirty
    rw [hbuf, transferred, if_pos hdirty]
  | intrBusy hbusy => exact ⟨h, Frame.refl ..⟩
  | insl hclean =>
    obtain ⟨r, Q, hpop, rfl, hbuf⟩ := h
    rw [hbuf] at hclean
    obtain ⟨hpop', hbuf'⟩ := hpop.insl hbuf hclean
    exact ⟨⟨r, Q, hpop', rfl, hbuf'⟩, frame_insl hpop p⟩
  | flags =>
    obtain ⟨r, Q, hpop, rfl, hbuf⟩ := h
    exact ⟨hpop.complete hbuf, frame_complete hpop p⟩
  | more hsome => exact ⟨⟨h, rfl, hsome⟩, Frame.refl ..⟩
  | intrFails => exact ⟨h.1, Frame.refl ..⟩
  | startBusy hbusy => exact ⟨h, Frame.refl ..⟩
  | intrStart hblock => exact ⟨h.1.idestart h.2.1 h.2.2 hblock, frame_stopped h.1 p _⟩
  | panic => exact ⟨h, Frame.refl ..⟩

theorem exec_wakeup (killed : Bool) {k' : Pc β} {c : ℕ} (h : Here p k d)
    (hx : exec p k killed d = .wakeup c k') :
    Here p k' d := by
  cases does_exec hx with
  | wake => exact h

theorem exec_sleep (killed : Bool) {k' : Pc β} {c : ℕ} (h : Here p k d)
    (hx : exec p k killed d = .sleep c k') : Good d ∧ Away p k' d ∧ k' = .wait c := by
  cases does_exec hx with
  | sleep hpending => exact ⟨h.1, h.2, rfl⟩

theorem exec_ret (killed : Bool) {ρ : Ret β} (h : Here p k d) (hx : exec p k killed d = .ret d' ρ) :
    Good d' ∧ Back p ρ d' ∧ Frame Away Back p d d' := by
  cases does_exec hx with
  | spurious hempty => exact ⟨h.1, trivial, Frame.refl ..⟩
  | noMore hempty => exact ⟨Stopped.good h hempty, trivial, Frame.refl ..⟩
  | intrEnd => exact ⟨h, trivial, Frame.refl ..⟩
  | @done b hdone =>
    obtain ⟨hg, hm⟩ := h
    have habsent := hm.absent hg hdone
    have hdisk : diskAt { d with owner := update d.owner b none } = diskAt d := by
      funext i
      cases i <;> rfl
    have hd : SameDisk d { d with owner := update d.owner b none } := ⟨rfl, rfl, rfl, congrFun hdisk _⟩
    have other : ∀ {q : P} {a : ℕ}, q ≠ p → d.owner a = some q → update d.owner b none a = some q := by
      intro q a hq ha
      rw [update_of_ne]
      · exact ha
      · rintro rfl
        rw [hm.owner] at ha
        exact hq (Option.some.inj ha).symm
    refine ⟨⟨hg.core.setOwner habsent ⟨rfl, hdisk⟩ rfl rfl rfl rfl, ⟨hg.listed.chain, hg.listed.buf⟩,
      hd.running rfl hg.running⟩, hm.completed hg hdone, frame_of (fun q hq a he => ?_) (fun q hq a hq' => ?_)
      (fun _ _ _ hc => hc) fun _ _ hc => hc⟩
    · exact ⟨other hq he.owner, he.ne, he.absent, he.pending⟩
    · exact ⟨other hq hq'.owner, hq'.request, hq'.done⟩

/-! ### Runs -/

theorem start_away {s : State P (Driver P β) ℕ (Pc β) (Ret β)}
    (ha : Asserted Good (fun c k => k = .wait c) Here Away Back s) (hs : start s p k = some d') :
    Away p k d' ∧ (Good s.data → Good d')
      ∧ ∀ q, q ≠ p → Assert Good (fun c k => k = .wait c) Here Away Back q d' (s.thread q) := by
  have hcore : Core s.data := (ha.always (fun _ h => Good.always h) fun _ _ _ h => Here.always h).core
  cases k with
  | rw b x =>
    obtain ⟨⟨hne, hfree, hcheck⟩, rfl⟩ := guard_eq.mp hs
    rw [check, Bool.and_eq_true] at hcheck
    refine ⟨⟨update_self .., hne, hcore.absent hfree, ?_⟩, fun hg => hg.call hfree p x, fun q _ => ?_⟩
    · show (update s.data.buf b x b).pending = true
      rw [update_self]
      exact hcheck.1
    · refine (ha.thread q).mono (fun hg => hg.call hfree p x) (fun k _ h => h.call hfree p x)
        (fun k _ h => ?_) fun ρ h => ?_
      · cases k with
        | rw a y => exact Entry.call h hfree p x
        | wait a => exact Mine.call h hfree p x
        | _ => exact h
      · cases ρ <;> exact h
  | intr =>
    rw [start] at hs
    cases hphase : s.data.phase with
    | raised c =>
      rw [hphase] at hs
      obtain rfl := Option.some.inj hs
      have hm := moves_take hphase p
      exact ⟨⟨c, rfl⟩, hm.good, fun q _ => (ha.thread q).mono hm.good (fun _ _ => hm.here)
        (fun _ _ => hm.away) fun _ => hm.back⟩
    | _ =>
      rw [hphase] at hs
      cases hs
  | _ => cases hs

/-- **The assertions hold in every run.** -/
theorem proof : Proof (code (P := P) (β := β)) Fresh Good (fun c k => k = .wait c) Here Away Back where
  boot := fun _ h => good_fresh h
  enter := fun p k d hg ha => by
    cases k with
    | rw b x => exact ⟨hg, ha⟩
    | wait b => exact ⟨hg, ha⟩
    | intr => exact ⟨hg, ha⟩
    | _ => cases ha
  goto := fun _ _ killed _ _ _ => exec_goto killed
  wakeup := fun _ _ killed _ _ _ => exec_wakeup killed
  sleep := fun _ _ killed _ _ _ => exec_sleep killed
  ret := fun _ _ killed _ _ _ => exec_ret killed
  start := fun _ _ _ _ ha _ => start_away ha
  env := fun d e d' he => by
    have hm := moves_finish (e := e) he
    exact ⟨hm.good, fun _ _ => hm.here, fun _ _ => hm.away, fun _ _ => hm.back⟩

/-- **A process sleeps only until its request is completed.** -/
theorem waitProof : WaitProof (code (P := P) (β := β)) (fun _ _ _ => True) (fun _ => True)
    (fun c d => (d.buf c).pending = true) fun k c => k = .intrWake c where
  same := rfl
  goto := fun es s p k d k' c _ _ _ hx _ hor => by
    cases does_exec (b := s.killed p) hx with
    | appendFirst hend hfirst =>
      refine Or.inl (hor.elim (fun hr => ?_) fun ho => (by cases ho))
      show ((s.data.store _ _).buf c).pending = true
      rw [(store_rest s.data _ _).1]
      exact hr
    | append hend hfirst =>
      refine Or.inl (hor.elim (fun hr => ?_) fun ho => (by cases ho))
      show ((s.data.store _ _).buf c).pending = true
      rw [(store_rest s.data _ _).1]
      exact hr
    | @insl b hclean =>
      refine Or.inl (hor.elim (fun hr => ?_) fun ho => (by cases ho))
      show (update s.data.buf b _ c).pending = true
      by_cases hcb : c = b
      · rw [hcb, update_self]
        rw [hcb] at hr
        exact hr
      · rw [update_of_ne hcb]
        exact hr
    | @flags b =>
      by_cases hcb : c = b
      · exact Or.inr (by rw [hcb])
      · refine Or.inl (hor.elim (fun hr => ?_) fun ho => (by cases ho))
        show (update s.data.buf b _ c).pending = true
        rw [update_of_ne hcb]
        exact hr
    | _ => exact Or.inl (hor.elim id fun ho => (by cases ho))
  wakeup := fun es s p k c' k' c _ _ _ hx _ hor => by
    cases does_exec (b := s.killed p) hx with
    | wake =>
      rcases hor with hr | ho
      · exact Or.inl hr
      · cases ho
        exact Or.inr (Or.inl rfl)
  sleep := fun es s p k c' k' _ _ _ hx => by
    cases does_exec (b := s.killed p) hx with
    | sleep hpending => exact ⟨hpending, fun c _ hor => hor.elim id fun ho => (by cases ho)⟩
  ret := fun es s p k d r c _ _ _ hx _ hor => by
    cases does_exec (b := s.killed p) hx <;> exact hor.elim id fun ho => (by cases ho)
  start := fun s p k d c _ hs hr => by
    replace hs : start s p k = some d := hs
    cases k with
    | rw b x =>
      obtain ⟨⟨_, _, hcheck⟩, rfl⟩ := guard_eq.mp hs
      rw [check, Bool.and_eq_true] at hcheck
      show (update s.data.buf b x c).pending = true
      by_cases hcb : c = b
      · rw [hcb, update_self]
        exact hcheck.1
      · rw [update_of_ne hcb]
        exact hr
    | intr =>
      rw [start] at hs
      cases hphase : s.data.phase <;> rw [hphase] at hs <;> cases hs
      exact hr
    | _ => cases hs
  env := fun d e d' c he hr => by
    rw [(moves_finish (e := e) he).buf]
    exact hr

variable [DecidableEq P]

variable {es : List (Event P (Pc β) DiskEvent)} {s : State P (Driver P β) ℕ (Pc β) (Ret β)}

/-- The request of a process that sleeps is in the queue. -/
theorem sleeper_queued (hr : Reach (system code Fresh) es s) (hfree : s.lock = none) {k : Pc β}
    (hp : s.thread p = .asleep b k) : b ∈ (queued s.data).map Request.addr := by
  have ha := proof.run hr
  have hgood := ha.data hfree
  have hout : Away p k s.data ∧ k = .wait b := by
    have := ha.thread p
    rw [hp] at this
    exact this
  obtain ⟨hmine, rfl⟩ := hout
  have hwaits : Waits (fun c d => (d.buf c).pending = true) (fun k c => k = .intrWake c) s :=
    waitProof.run (fun es s hr => ⟨(proof.run hr).locks, trivial⟩) hr
  have hpending : (s.data.buf b).pending = true :=
    hwaits.free hfree ⟨p, by rw [hp]; exact decide_eq_true rfl⟩
  cases hc : s.data.history[s.data.ticket b]? with
  | none =>
    obtain ⟨x, hx⟩ := Mine.mem_queued hmine hc
    exact List.mem_map_of_mem (f := Request.addr) hx
  | some c =>
    rw [Mine.done hmine c hc, (hgood.core.done _ c hc).after] at hpending
    cases hpending

/-- **The driver does what `memide.c` does.**  In every run: the list of waiting buffers has no cycle and no
buffer twice, and only its head can have a command in progress; it has one whenever the lock is free, and
whoever sleeps then is in the list.  The completed requests are the first of those that were put into the
queue, in order.  Each is completed with `B_VALID` set and `B_DIRTY` clear, and a request for disk 1 has
changed its buffer and the disk as `iderw` of `memide.c` does; that buffer is what its call returns with. -/
theorem refines_memide (hr : Reach (system code Fresh) es s) :
    (∃ L, Chain s.data.qnext s.data.idequeue L ∧ L.Nodup
      ∧ (∀ c, s.data.phase.command = some c → ∃ b, L.head? = some b ∧ c = command (s.data.buf b))
      ∧ (s.lock = none → s.data.phase.command = L.head?.map (fun b => command (s.data.buf b))
        ∧ s.data.enqueued.map Request.addr = s.data.history.map (fun c => c.request.addr) ++ L
        ∧ (∀ p b k, s.thread p = .asleep b k → b ∈ L)
        ∧ (L = [] → s.data.blocks = diskAt s.data s.data.history.length)))
    ∧ s.data.history.map Completion.request = s.data.enqueued.take s.data.history.length
    ∧ (∀ (i : ℕ) c, s.data.history[i]? = some c → c.after.valid = true ∧ c.after.dirty = false
      ∧ ∀ disksize, c.request.before.dev = 1 → c.request.before.blockno < disksize →
        Memide.iderw disksize c.request.before (diskAt s.data i 1) = .ok (c.after, c.disk 1))
    ∧ ∀ p b i x, s.thread p = .done (.rw b i x) → x.valid = true ∧ x.dirty = false
      ∧ ∃ c, s.data.history[i]? = some c ∧ c.request.proc = p ∧ c.request.addr = b ∧ c.after = x := by
  have ha := proof.run hr
  have halways := ha.always (fun _ h => Good.always h) fun _ _ _ h => Here.always h
  have hdone : ∀ (i : ℕ) c, s.data.history[i]? = some c → c.after.valid = true ∧ c.after.dirty = false :=
      fun i c hc => by
    rw [(halways.core.done i c hc).after]
    exact ⟨rfl, rfl⟩
  refine ⟨?_, halways.core.requests,
    fun i c hc => ⟨(hdone i c hc).1, (hdone i c hc).2, fun disksize hdev hsize => ?_⟩, fun p b i x hp => ?_⟩
  · cases hlock : s.lock with
    | some q =>
      obtain ⟨L, hchain, hnodup, hhead⟩ := halways.list
      exact ⟨L, hchain, hnodup, hhead, fun hf => (by cases hf)⟩
    | none =>
      have hgood := ha.data hlock
      refine ⟨(queued s.data).map Request.addr, hgood.listed.chain, hgood.core.nodup, ?_,
        fun _ => ⟨?_, ?_, ?_, ?_⟩⟩
      · intro c hc
        cases hq : queued s.data with
        | nil =>
          rw [(hgood.running.nil hq).1] at hc
          cases hc
        | cons r Q =>
          rw [(hgood.running.cons hq).command] at hc
          refine ⟨r.addr, rfl, ?_⟩
          rw [hgood.listed.buf r (by rw [hq]; exact List.mem_cons_self)]
          exact (Option.some.inj hc).symm
      · cases hq : queued s.data with
        | nil =>
          rw [(hgood.running.nil hq).1]
          rfl
        | cons r Q =>
          rw [(hgood.running.cons hq).command]
          show _ = some (command (s.data.buf r.addr))
          rw [hgood.listed.buf r (by rw [hq]; exact List.mem_cons_self)]
      · rw [← hgood.core.enqueued_eq, List.map_append, List.map_map]
        rfl
      · exact fun p b k hp => sleeper_queued hr hlock hp
      · intro hnil
        exact (hgood.running.nil (List.map_eq_nil_iff.mp hnil)).2
  · have hc' := halways.core.done i c hc
    rw [memide_eq hc'.pending hc'.block hdev hsize, hc'.after, hc'.disk]
  · have hback : Back p (.rw b i x) s.data := by
      have := ha.thread p
      rw [hp] at this
      exact this
    obtain ⟨c, hc, hproc, haddr, rfl⟩ := hback
    exact ⟨(hdone i c hc).1, (hdone i c hc).2, c, hc, hproc, haddr, rfl⟩

abbrev Trace : Type := List (Event (Fin 3) (Pc ℕ) DiskEvent)

/-- Process 0 writes block 5 of disk 1 and process 1 then reads it; process 2 handles both interrupts. -/
def writeThenRead : List (Event (Fin 3) (Pc ℕ) DiskEvent) :=
  ([.start 0 (.rw 8 ⟨false, true, 1, 5, 7⟩)] : Trace) ++ (List.replicate 4 (.step 0) : Trace)
    ++ (List.replicate 4 (.step 0) : Trace) ++ ([.start 1 (.rw 16 ⟨false, false, 1, 5, 0⟩)] : Trace)
    ++ (List.replicate 8 (.step 1) : Trace) ++ ([.env .finish, .start 2 .intr] : Trace)
    ++ (List.replicate 9 (.step 2) : Trace) ++ ([.env .finish, .start 2 .intr] : Trace)
    ++ (List.replicate 7 (.step 2) : Trace) ++ (List.replicate 3 (.step 0) : Trace)
    ++ (List.replicate 3 (.step 1) : Trace)

/-- A driver that has done nothing, with empty disks. -/
def newDriver : Driver (Fin 3) ℕ where
  buf := fun _ => ⟨false, false, 0, 0, 0⟩
  qnext := fun _ => 0
  idequeue := 0
  havedisk1 := true
  phase := .idle
  port := 0
  blocks := fun _ _ => 0
  owner := fun _ => none
  ticket := fun _ => 0
  enqueued := []
  history := []
  first := fun _ _ => 0

def newState : State (Fin 3) (Driver (Fin 3) ℕ) ℕ (Pc ℕ) (Ret ℕ) where
  data := newDriver
  lock := none
  table := none
  thread := fun _ => .idle
  killed := fun _ => false

theorem init_newState : (system code Fresh).init newState :=
  ⟨⟨rfl, rfl, fun _ => rfl, rfl, rfl, rfl⟩, rfl, rfl, fun _ => rfl⟩

/-- The second request reads what the first one wrote. -/
theorem refines_memide_read : ∃ s : State (Fin 3) (Driver (Fin 3) ℕ) ℕ (Pc ℕ) (Ret ℕ),
    Reach (system code Fresh) writeThenRead s ∧ s.thread 1 = .done (.rw 16 1 ⟨true, false, 1, 5, 7⟩)
    ∧ ∃ c, s.data.history[1]? = some c ∧ c.request.proc = 1 ∧ c.request.addr = 16
    ∧ c.after = ⟨true, false, 1, 5, 7⟩ := by
  have hrun : ((system code Fresh).runFrom (fun _ _ _ => True) [] newState writeThenRead).map
      (fun s => s.thread 1) = some (.done (.rw 16 1 ⟨true, false, 1, 5, 7⟩)) := by decide +kernel
  obtain ⟨s, hr, hs⟩ := exists_runIf_of_map writeThenRead init_newState hrun
  have hdone := (refines_memide hr).2.2.2 1 16 1 _ hs
  exact ⟨s, hr, hs, hdone.2.2⟩

end Xv6e.Device.IdeRuns
