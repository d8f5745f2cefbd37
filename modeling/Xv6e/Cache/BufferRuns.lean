import Xv6e.Cache.Buffers

/-!
# Coherence of the buffer cache

* `Inv` — the list, the reference counts, the locks, and how the data of the buffers, the disk and the latest
  updates go together;
* `Inv.change` — whatever the holder of a buffer does to it and to its block;
* `Inv.step` — every step keeps the invariant;
* `buffers_coherent` — coherence after every run.
-/

namespace Xv6e.Cache.Buffers

open Library.Transition Library.Holders Library.PointerRing
open Function (update update_self update_of_ne update_eq_self)

theorem head_notMem : head ∉ buffers := by decide

theorem buffers_nodup : buffers.Nodup := List.nodup_range'

section Places

variable {c c' : Pc} {b n : ℕ}

theorem Pc.refs_of_use (h : c.use = c'.use) : c.refs b = c'.refs b := by
  rw [Pc.refs, Pc.refs, h]

theorem Pc.refs_eq_one (h : c.use = some (b, n)) : c.refs b = 1 := by
  rw [Pc.refs, h]
  exact if_pos rfl

theorem Pc.refs_other {a : ℕ} (h : c.use = some (b, n)) (hne : a ≠ b) : c.refs a = 0 := by
  rw [Pc.refs, h]
  exact if_neg fun heq => hne (Option.some.inj heq).symm

theorem Pc.locked_of_read (h : c.read = true) (hu : c.use = some (b, n)) : c.locked = some b := by
  cases c <;> simp_all [Pc.locked, Pc.use, Pc.read]

end Places

variable {P β : Type}

def Listed (s : State P β) : Prop := ∃ L, Doubly s.next s.prev head L ∧ L.Perm buffers

variable {L : List ℕ}

theorem notMem_of_perm (hL : L.Perm buffers) : head ∉ L := fun h => head_notMem (hL.mem_iff.mp h)

theorem nodup_of_perm (hL : L.Perm buffers) : (head :: L).Nodup :=
  List.nodup_cons.mpr ⟨notMem_of_perm hL, hL.nodup_iff.mpr buffers_nodup⟩

variable {dev n b : ℕ}

section Loops

variable {s : State P β}

/-- The first loop of `bget` ends, at a buffer of the block or at the head. -/
theorem lookup_spec (h : Listed s) (dev n : ℕ) :
    (s.lookup dev n = some head ∧ ∀ b ∈ buffers, ¬ ((s.buf b).dev = dev ∧ (s.buf b).blockno = n))
    ∨ ∃ b ∈ buffers, ((s.buf b).dev = dev ∧ (s.buf b).blockno = n) ∧ s.lookup dev n = some b := by
  obtain ⟨L, hL, hperm⟩ := h
  have hlen : L.length < NBUF + 1 := by
    rw [hperm.length_eq]
    decide
  rcases hL.1.follow_head (f := fun b => decide ((s.buf b).dev = dev ∧ (s.buf b).blockno = n))
      (notMem_of_perm hperm) hlen with
    ⟨hend, hnone⟩ | ⟨b, hb, htest, hend⟩
  · left
    exact ⟨hend, fun b hb => of_decide_eq_false (hnone b (hperm.mem_iff.mpr hb))⟩
  · right
    exact ⟨b, hperm.mem_iff.mp hb, of_decide_eq_true htest, hend⟩

/-- The second loop ends, at an unused buffer or at the head. -/
theorem unused_spec (h : Listed s) :
    (s.unused = some head ∧ ∀ b ∈ buffers, ¬ ((s.buf b).refcnt = 0 ∧ (s.buf b).dirty = false))
    ∨ ∃ b ∈ buffers, ((s.buf b).refcnt = 0 ∧ (s.buf b).dirty = false) ∧ s.unused = some b := by
  obtain ⟨L, hL, hperm⟩ := h
  have hhead : head ∉ L.reverse := fun hmem => notMem_of_perm hperm (List.mem_reverse.mp hmem)
  have hlen : L.reverse.length < NBUF + 1 := by
    rw [List.length_reverse, hperm.length_eq]
    decide
  rcases hL.2.follow_head (f := fun b => decide ((s.buf b).refcnt = 0 ∧ (s.buf b).dirty = false))
      hhead hlen with
    ⟨hend, hnone⟩ | ⟨b, hb, htest, hend⟩
  · left
    exact ⟨hend, fun b hb => of_decide_eq_false (hnone b (List.mem_reverse.mpr (hperm.mem_iff.mpr hb)))⟩
  · right
    exact ⟨b, hperm.mem_iff.mp (List.mem_reverse.mp hb), of_decide_eq_true htest, hend⟩

theorem lookup_hit (h : Listed s) (hb : s.lookup dev n = some b) (hne : b ≠ head) :
    b ∈ buffers ∧ (s.buf b).dev = dev ∧ (s.buf b).blockno = n := by
  rcases lookup_spec h dev n with ⟨hend, _⟩ | ⟨a, ha, htest, hend⟩
  · rw [hend] at hb
    exact absurd (Option.some.inj hb).symm hne
  · rw [hend] at hb
    obtain rfl := Option.some.inj hb
    exact ⟨ha, htest⟩

theorem lookup_miss (h : Listed s) (hb : s.lookup dev n = some head) :
    ∀ b ∈ buffers, (s.buf b).dev = dev → (s.buf b).blockno ≠ n := by
  intro b hmem hdev hno
  rcases lookup_spec h dev n with ⟨_, hnone⟩ | ⟨a, ha, _, hend⟩
  · exact hnone b hmem ⟨hdev, hno⟩
  · rw [hend] at hb
    rw [Option.some.inj hb] at ha
    exact head_notMem ha

theorem unused_found (h : Listed s) (hb : s.unused = some b) (hne : b ≠ head) :
    b ∈ buffers ∧ (s.buf b).refcnt = 0 ∧ (s.buf b).dirty = false := by
  rcases unused_spec h with ⟨hend, _⟩ | ⟨a, ha, htest, hend⟩
  · rw [hend] at hb
    exact absurd (Option.some.inj hb).symm hne
  · rw [hend] at hb
    obtain rfl := Option.some.inj hb
    exact ⟨ha, htest⟩

theorem Listed.moveFront (h : Listed s) (hb : b ∈ buffers) : Listed ((s.unlink b).linkFront b) := by
  obtain ⟨L, hL, hperm⟩ := h
  obtain ⟨A, B, rfl⟩ := List.append_of_mem (hperm.mem_iff.mpr hb)
  have hnd := nodup_of_perm hperm
  have hmid : (head :: (A ++ b :: B)).Perm (b :: head :: (A ++ B)) :=
    (List.Perm.cons head List.perm_middle).trans (List.Perm.swap b head (A ++ B))
  have hnd' : (b :: head :: (A ++ B)).Nodup := hmid.nodup_iff.mp hnd
  have hout : Doubly (s.unlink b).next (s.unlink b).prev head (A ++ B) := by
    have hself : s.next b ≠ b := by
      rw [hL.next_eq]
      intro heq
      apply (List.nodup_cons.mp hnd').1
      cases B with
      | nil =>
        rw [← heq]
        exact List.mem_cons_self
      | cons y B =>
        rw [← heq]
        simp
    have hsame : (update s.prev (s.next b) (s.prev b)) b = s.prev b := update_of_ne hself.symm _ _
    have hnew := hL.unlink hnd
    rw [State.unlink]
    simp only [hsame]
    exact hnew
  refine ⟨b :: (A ++ B), ?_, List.perm_middle.symm.trans hperm⟩
  have hne : head ≠ b := fun heq => head_notMem (heq ▸ hb)
  have hfront := hout.linkFront (List.nodup_cons.mp hnd').2 (List.nodup_cons.mp hnd').1
  rw [State.linkFront]
  simp only [update_of_ne hne]
  exact hfront

end Loops

variable [Fintype P]

structure Inv (s : State P β) : Prop where
  listed : Listed s
  unique : ∀ a ∈ buffers, ∀ b ∈ buffers, (s.buf a).dev = ROOTDEV → (s.buf b).dev = ROOTDEV →
    (s.buf a).blockno = (s.buf b).blockno → a = b
  refcnt : ∀ b, (s.buf b).refcnt = held (Pc.refs b) s.pc
  uses : ∀ p b n, (s.pc p).use = some (b, n) → b ∈ buffers ∧ (s.buf b).dev = ROOTDEV ∧ (s.buf b).blockno = n
  lock : ∀ b p, s.lock b = some p ↔ (s.pc p).locked = some b
  valid : ∀ p b n, (s.pc p).use = some (b, n) → (s.pc p).read = true → (s.buf b).valid = true
  writing : ∀ p b n, s.pc p = .writing b n → (s.buf b).dirty = true
  clean : ∀ b, (s.buf b).valid = false → (s.buf b).dirty = false
  data : ∀ b ∈ buffers, (s.buf b).dev = ROOTDEV → (s.buf b).valid = true →
    (∀ p, s.lock b = some p → (s.pc p).changing = false) → (s.buf b).data = s.latest (s.buf b).blockno
  disk : ∀ b ∈ buffers, (s.buf b).dev = ROOTDEV → (s.buf b).dirty = false →
    s.disk (s.buf b).blockno = s.latest (s.buf b).blockno
  away : ∀ n, (∀ b ∈ buffers, (s.buf b).dev = ROOTDEV → (s.buf b).blockno ≠ n) → s.disk n = s.latest n

variable {c : Pc} {disk : ℕ → β} {t : State P β} {e : Event P β}

section Steps

variable {s : State P β} {p : P} {b n : ℕ}

theorem Inv.not_used (h : Inv s) (hb : (s.buf b).refcnt = 0) (q : P) (m : ℕ) :
    (s.pc q).use ≠ some (b, m) := by
  intro huse
  rw [h.refcnt, held_eq_zero] at hb
  have := hb q
  rw [Pc.refs_eq_one huse] at this
  exact Nat.one_ne_zero this

theorem Inv.holder_eq {q : P} (h : Inv s) (hp : (s.pc p).locked = some b)
    (hq : (s.pc q).locked = some b) : q = p :=
  Option.some.inj (((h.lock b q).mpr hq).symm.trans ((h.lock b p).mpr hp))

variable [DecidableEq P]

section

variable (h : Inv s)
include h

/-- **What the holder of a buffer does** to it and to its block: the buffer stays assigned to the block, and
nothing happens to other blocks. -/
theorem Inv.change {x : Buf β} {latest : ℕ → β} (hp : (s.pc p).locked = some b)
    (hn : (s.pc p).use = some (b, n)) (hplace : c.locked = some b ∧ c.use = some (b, n))
    (hsame : x.dev = (s.buf b).dev ∧ x.blockno = (s.buf b).blockno ∧ x.refcnt = (s.buf b).refcnt)
    (hread : c.read = true → x.valid = true) (hwriting : c = .writing b n → x.dirty = true)
    (hclean : x.valid = false → x.dirty = false)
    (hdata : x.valid = true → c.changing = false → x.data = latest n)
    (hdisk : x.dirty = false → disk n = latest n)
    (hother : ∀ m, m ≠ n → disk m = s.disk m ∧ latest m = s.latest m) :
    Inv ({ s with buf := update s.buf b x, disk := disk, latest := latest }.goto p c) := by
  obtain ⟨hc, hcn⟩ := hplace
  obtain ⟨hdev, hno, href⟩ := hsame
  obtain ⟨hb, hbdev, hbno⟩ := h.uses p b n hn
  have hdev' : ∀ a, (update s.buf b x a).dev = (s.buf a).dev := fun a => by
    by_cases ha : a = b
    · rw [ha, update_self, hdev]
    · rw [update_of_ne ha]
  have hno' : ∀ a, (update s.buf b x a).blockno = (s.buf a).blockno := fun a => by
    by_cases ha : a = b
    · rw [ha, update_self, hno]
    · rw [update_of_ne ha]
  have huse : ∀ q, (update s.pc p c q).use = (s.pc q).use := fun q => by
    by_cases hq : q = p
    · rw [hq, update_self, hn, hcn]
    · rw [update_of_ne hq]
  have hlock : ∀ q, (update s.pc p c q).locked = (s.pc q).locked := fun q => by
    by_cases hq : q = p
    · rw [hq, update_self, hp, hc]
    · rw [update_of_ne hq]
  -- Another buffer of the device has another block.
  have hblock : ∀ a ∈ buffers, a ≠ b → (s.buf a).dev = ROOTDEV → (s.buf a).blockno ≠ n :=
      fun a ha hne hadev hano =>
    hne (h.unique a ha b hb hadev hbdev (hano.trans hbno.symm))
  constructor
  case listed => exact h.listed
  case unique =>
    intro a ha a' ha' hadev hadev' hano
    simp only [State.goto, hdev', hno'] at hadev hadev' hano
    exact h.unique a ha a' ha' hadev hadev' hano
  case refcnt =>
    intro a
    simp only [State.goto]
    rw [held_update_same (Pc.refs_of_use (hcn.trans hn.symm)), ← h.refcnt]
    by_cases ha : a = b
    · simp only [ha, update_self, href]
    · simp only [update_of_ne ha]
  case uses =>
    intro q a m hq
    simp only [State.goto, huse, hdev', hno'] at hq ⊢
    exact h.uses q a m hq
  case lock =>
    intro a q
    simp only [State.goto, hlock]
    exact h.lock a q
  case valid =>
    intro q a m hq hqread
    by_cases hqp : q = p
    · simp only [State.goto, hqp, update_self] at hq hqread
      obtain ⟨rfl, rfl⟩ := Prod.mk.inj (Option.some.inj (hcn.symm.trans hq))
      simp only [State.goto, update_self]
      exact hread hqread
    · simp only [State.goto, update_of_ne hqp] at hq hqread
      have ha : a ≠ b := by
        rintro rfl
        exact hqp (h.holder_eq hp (Pc.locked_of_read hqread hq))
      simp only [State.goto, update_of_ne ha]
      exact h.valid q a m hq hqread
  case writing =>
    intro q a m hq
    by_cases hqp : q = p
    · simp only [State.goto, hqp, update_self] at hq
      rw [hq] at hcn
      obtain ⟨rfl, rfl⟩ := Prod.mk.inj (Option.some.inj hcn)
      simp only [State.goto, update_self]
      exact hwriting hq
    · simp only [State.goto, update_of_ne hqp] at hq
      have ha : a ≠ b := by
        rintro rfl
        exact hqp (h.holder_eq hp (by rw [hq]; rfl))
      simp only [State.goto, update_of_ne ha]
      exact h.writing q a m hq
  case clean =>
    intro a
    by_cases ha : a = b
    · simp only [State.goto, ha, update_self]
      exact hclean
    · simp only [State.goto, update_of_ne ha]
      exact h.clean a
  case data =>
    intro a ha hadev hvalid hchange
    simp only [State.goto, hdev', hno'] at hadev hvalid hchange ⊢
    by_cases hab : a = b
    · subst hab
      rw [update_self] at hvalid ⊢
      have hcp := hchange p ((h.lock a p).mpr hp)
      rw [update_self] at hcp
      rw [hbno, hdata hvalid hcp]
    · rw [update_of_ne hab] at hvalid ⊢
      rw [(hother _ (hblock a ha hab hadev)).2]
      apply h.data a ha hadev hvalid
      intro q hq
      have hqp : q ≠ p := by
        rintro rfl
        exact hab (Option.some.inj (((h.lock a q).mp hq).symm.trans hp))
      have := hchange q hq
      rwa [update_of_ne hqp] at this
  case disk =>
    intro a ha hadev hdirty
    simp only [State.goto, hdev', hno'] at hadev hdirty ⊢
    by_cases hab : a = b
    · subst hab
      rw [update_self] at hdirty
      rw [hbno, hdisk hdirty]
    · rw [update_of_ne hab] at hdirty
      rw [(hother _ (hblock a ha hab hadev)).1, (hother _ (hblock a ha hab hadev)).2]
      exact h.disk a ha hadev hdirty
  case away =>
    intro m hm
    simp only [State.goto, hdev', hno'] at hm ⊢
    have hmn : m ≠ n := fun heq => hm b hb hbdev (hbno.trans heq.symm)
    rw [(hother m hmn).1, (hother m hmn).2]
    exact h.away m hm

theorem Inv.relock {lock : ℕ → Option P} (huse : c.use = (s.pc p).use)
    (hread : c.read = true → (s.pc p).read = true) (hwriting : ∀ a m, c ≠ .writing a m)
    (hlock : ∀ a q, lock a = some q ↔ (update s.pc p c q).locked = some a)
    (hdata : ∀ a, (∀ q, lock a = some q → (update s.pc p c q).changing = false) →
      ∀ q, s.lock a = some q → (s.pc q).changing = false) :
    Inv ({ s with lock := lock }.goto p c) := by
  have huse' : ∀ q, (update s.pc p c q).use = (s.pc q).use := fun q => by
    by_cases hq : q = p
    · rw [hq, update_self, huse]
    · rw [update_of_ne hq]
  constructor
  case listed => exact h.listed
  case unique => exact h.unique
  case clean => exact h.clean
  case disk => exact h.disk
  case away => exact h.away
  case lock => exact hlock
  case refcnt =>
    intro a
    simp only [State.goto]
    rw [held_update_same (Pc.refs_of_use huse)]
    exact h.refcnt a
  case uses =>
    intro q a m hq
    simp only [State.goto, huse'] at hq
    exact h.uses q a m hq
  case valid =>
    intro q a m hq hqread
    simp only [State.goto, huse'] at hq hqread
    apply h.valid q a m hq
    by_cases hqp : q = p
    · rw [hqp, update_self] at hqread
      rw [hqp]
      exact hread hqread
    · rwa [update_of_ne hqp] at hqread
  case writing =>
    intro q a m hq
    have hqp : q ≠ p := by
      rintro rfl
      simp only [State.goto, update_self] at hq
      exact hwriting a m hq
    simp only [State.goto, update_of_ne hqp] at hq
    exact h.writing q a m hq
  case data =>
    intro a ha hadev hvalid hchange
    exact h.data a ha hadev hvalid (hdata a hchange)

theorem Inv.acquiresleep (hp : s.pc p = .locking b n) (hfree : s.lock b = none) :
    Inv ({ s with lock := update s.lock b (some p) }.goto p (.checking b n)) := by
  apply h.relock
  case huse => rw [hp]; rfl
  case hread => exact fun h => by cases h
  case hwriting => simp
  case hlock =>
    intro a q
    by_cases hab : a = b
    · subst hab
      rw [update_self]
      by_cases hq : q = p
      · simp [hq, Pc.locked]
      · rw [update_of_ne hq, ← h.lock, hfree]
        simp [Ne.symm hq]
    · rw [update_of_ne hab, h.lock]
      by_cases hq : q = p
      · rw [hq, update_self, hp]
        simp [Pc.locked, Ne.symm hab]
      · rw [update_of_ne hq]
  case hdata =>
    intro a hchange q hq
    have hab : a ≠ b := by
      rintro rfl
      rw [hfree] at hq
      cases hq
    have hqp : q ≠ p := by
      rintro rfl
      have := (h.lock a q).mp hq
      rw [hp] at this
      cases this
    have := hchange q (by rwa [update_of_ne hab])
    rwa [update_of_ne hqp] at this

theorem Inv.releasesleep (hp : s.pc p = .held b n) :
    Inv ({ s with lock := update s.lock b none }.goto p (.releasing b n)) := by
  have hlocked : (s.pc p).locked = some b := by rw [hp]; rfl
  apply h.relock
  case huse => rw [hp]; rfl
  case hread => exact fun h => by cases h
  case hwriting => simp
  case hlock =>
    intro a q
    by_cases hab : a = b
    · subst hab
      rw [update_self]
      by_cases hq : q = p
      · simp [hq, Pc.locked]
      · rw [update_of_ne hq]
        simp only [reduceCtorEq, false_iff]
        exact fun hqa => hq (h.holder_eq hlocked hqa)
    · rw [update_of_ne hab, h.lock]
      by_cases hq : q = p
      · rw [hq, update_self, hp]
        simp [Pc.locked, Ne.symm hab]
      · rw [update_of_ne hq]
  case hdata =>
    intro a hchange q hq
    by_cases hqp : q = p
    · rw [hqp, hp]
      rfl
    · have hab : a ≠ b := by
        rintro rfl
        exact hqp (h.holder_eq hlocked ((h.lock a q).mp hq))
      have := hchange q (by rwa [update_of_ne hab])
      rwa [update_of_ne hqp] at this

/-- A user without a lock goes to another place without one, and a count goes with it. -/
theorem Inv.count {r : ℕ} {prev next : ℕ → ℕ} (hp : (s.pc p).locked = none) (hc : c.locked = none)
    (hlist : ∃ L, Doubly next prev head L ∧ L.Perm buffers)
    (hr : r + (s.pc p).refs b = (s.buf b).refcnt + c.refs b)
    (hother : ∀ a, a ≠ b → c.refs a = (s.pc p).refs a)
    (huse : ∀ a m, c.use = some (a, m) → a ∈ buffers ∧ (s.buf a).dev = ROOTDEV ∧ (s.buf a).blockno = m) :
    Inv ({ s with
      buf := update s.buf b { s.buf b with refcnt := r }, prev := prev, next := next }.goto p c) := by
  have hbuf : ∀ a, ∃ r', update s.buf b { s.buf b with refcnt := r } a
      = { s.buf a with refcnt := r' } := fun a => by
    by_cases ha : a = b
    · exact ⟨r, by rw [ha, update_self]⟩
    · exact ⟨(s.buf a).refcnt, by rw [update_of_ne ha]⟩
  have hreadp : ∀ a m, c.use = some (a, m) → c.read ≠ true := fun a m hu hread => by
    rw [Pc.locked_of_read hread hu] at hc
    cases hc
  have hlock : ∀ q a, (update s.pc p c q).locked = some a ↔ (s.pc q).locked = some a := fun q a => by
    by_cases hq : q = p
    · rw [hq, update_self, hp, hc]
    · rw [update_of_ne hq]
  constructor
  case listed => exact hlist
  case unique =>
    intro a ha a' ha'
    obtain ⟨r₁, hr₁⟩ := hbuf a
    obtain ⟨r₂, hr₂⟩ := hbuf a'
    simp only [State.goto, hr₁, hr₂]
    exact h.unique a ha a' ha'
  case refcnt =>
    intro a
    have hheld := held_update (Pc.refs a) s.pc p c
    have hcount := h.refcnt a
    by_cases ha : a = b
    · simp only [State.goto, ha, update_self] at hheld hcount ⊢
      omega
    · have := hother a ha
      simp only [State.goto, update_of_ne ha]
      omega
  case uses =>
    intro q a m hq
    obtain ⟨r', hr'⟩ := hbuf a
    simp only [State.goto, hr'] at hq ⊢
    by_cases hqp : q = p
    · rw [hqp, update_self] at hq
      exact huse a m hq
    · rw [update_of_ne hqp] at hq
      exact h.uses q a m hq
  case lock =>
    intro a q
    simp only [State.goto, hlock]
    exact h.lock a q
  case valid =>
    intro q a m hq hqread
    obtain ⟨r', hr'⟩ := hbuf a
    simp only [State.goto, hr'] at hq hqread ⊢
    by_cases hqp : q = p
    · rw [hqp, update_self] at hq hqread
      exact absurd hqread (hreadp a m hq)
    · rw [update_of_ne hqp] at hq hqread
      exact h.valid q a m hq hqread
  case writing =>
    intro q a m hq
    obtain ⟨r', hr'⟩ := hbuf a
    simp only [State.goto, hr'] at hq ⊢
    obtain ⟨hqp, hq⟩ | ⟨hqp, hq⟩ := update_cases hq
    · rw [hq] at hc
      cases hc
    · exact h.writing q a m hq
  case clean =>
    intro a
    obtain ⟨r', hr'⟩ := hbuf a
    simp only [State.goto, hr']
    exact h.clean a
  case data =>
    intro a ha hadev hvalid hchange
    obtain ⟨r', hr'⟩ := hbuf a
    simp only [State.goto, hr'] at hadev hvalid hchange ⊢
    apply h.data a ha hadev hvalid
    intro q hq
    have hqp : q ≠ p := by
      rintro rfl
      rw [(h.lock a q).mp hq] at hp
      cases hp
    have := hchange q hq
    rwa [update_of_ne hqp] at this
  case disk =>
    intro a ha
    obtain ⟨r', hr'⟩ := hbuf a
    simp only [State.goto, hr']
    exact h.disk a ha
  case away =>
    intro m hm
    apply h.away m
    intro a ha
    obtain ⟨r', hr'⟩ := hbuf a
    have := hm a ha
    simpa only [State.goto, hr'] using this

/-- **`bget` of a cached block.** -/
theorem Inv.hit (hp : s.pc p = .idle) (hb : s.lookup ROOTDEV n = some b) (hne : b ≠ head) :
    Inv ((s.setBuf b { s.buf b with refcnt := (s.buf b).refcnt + 1 }).goto p (.locking b n)) := by
  obtain ⟨hmem, hdev, hno⟩ := lookup_hit h.listed hb hne
  apply h.count
  case hp => rw [hp]; rfl
  case hc => rfl
  case hlist => exact h.listed
  case hr => rw [hp, Pc.refs_eq_one (c := .locking b n) rfl]; rfl
  case hother =>
    intro a ha
    rw [Pc.refs_other (c := .locking b n) rfl ha, hp]
    rfl
  case huse =>
    intro a m hu
    obtain ⟨rfl, rfl⟩ := Prod.mk.inj (Option.some.inj hu)
    exact ⟨hmem, hdev, hno⟩

/-- **The section of `brelse` under `bcache.lock`.** -/
theorem Inv.unref (hp : s.pc p = .releasing b n) : Inv ((s.unref b).goto p .idle) := by
  have hmem : b ∈ buffers := (h.uses p b n (by rw [hp]; rfl)).1
  have hrefs : (s.pc p).refs b = 1 := Pc.refs_eq_one (n := n) (by rw [hp]; rfl)
  have hpos : 0 < (s.buf b).refcnt := by
    have := le_held (Pc.refs b) s.pc p
    have := h.refcnt b
    omega
  have hnew : ∀ prev next : ℕ → ℕ, (∃ L, Doubly next prev head L ∧ L.Perm buffers) →
      Inv ({ s with buf := update s.buf b { s.buf b with refcnt := (s.buf b).refcnt - 1 }, prev := prev,
                    next := next }.goto p .idle) := by
    intro prev next hlist
    apply h.count
    case hp => rw [hp]; rfl
    case hc => rfl
    case hlist => exact hlist
    case hr =>
      rw [hrefs]
      exact Nat.sub_add_cancel hpos
    case hother =>
      intro a ha
      rw [Pc.refs_other (c := s.pc p) (b := b) (n := n) (by rw [hp]; rfl) ha]
      rfl
    case huse => exact fun _ _ h => by cases h
  rw [State.unref]
  split
  · exact hnew _ _ (h.listed.moveFront hmem)
  · exact hnew s.prev s.next h.listed

/-- **`bget` recycles an unused buffer.** -/
theorem Inv.recycle (hp : s.pc p = .idle) (hmiss : s.lookup ROOTDEV n = some head) (hb : s.unused = some b)
    (hne : b ≠ head) :
    Inv ((s.setBuf b
      { s.buf b with dev := ROOTDEV, blockno := n, valid := false, dirty := false, refcnt := 1 }).goto p
      (.locking b n)) := by
  obtain ⟨hmem, href, hdirty⟩ := unused_found h.listed hb hne
  have habsent := lookup_miss h.listed hmiss
  -- Nobody has asked for the buffer.
  have hnot : ∀ q a m, (s.pc q).use = some (a, m) → a ≠ b :=
    fun q a m hq hab => h.not_used href q m (hab ▸ hq)
  have hlock : ∀ q a, (update s.pc p (.locking b n) q).locked = some a
      ↔ (s.pc q).locked = some a := fun q a => by
    by_cases hq : q = p
    · rw [hq, update_self, hp]
      rfl
    · rw [update_of_ne hq]
  constructor
  case listed => exact h.listed
  case unique =>
    intro a ha a' ha' hadev hadev' hano
    simp only [State.goto, State.setBuf] at hadev hadev' hano
    by_cases hab : a = b <;> by_cases hab' : a' = b
    · rw [hab, hab']
    · simp only [hab, update_self, update_of_ne hab'] at hadev' hano
      exact absurd hano.symm (habsent a' ha' hadev')
    · simp only [hab', update_self, update_of_ne hab] at hadev hano
      exact absurd hano (habsent a ha hadev)
    · rw [update_of_ne hab] at hadev hano
      rw [update_of_ne hab'] at hadev' hano
      exact h.unique a ha a' ha' hadev hadev' hano
  case refcnt =>
    intro a
    have hheld := held_update (Pc.refs a) s.pc p (.locking b n)
    have hcount := h.refcnt a
    have hidle : (s.pc p).refs a = 0 := by rw [hp]; rfl
    by_cases ha : a = b
    · have hone := Pc.refs_eq_one (c := .locking b n) rfl
      subst ha
      simp only [State.goto, State.setBuf, update_self]
      omega
    · have hzero := Pc.refs_other (c := .locking b n) rfl ha
      simp only [State.goto, State.setBuf, update_of_ne ha]
      omega
  case uses =>
    intro q a m hq
    simp only [State.goto, State.setBuf] at hq ⊢
    by_cases hqp : q = p
    · rw [hqp, update_self] at hq
      obtain ⟨rfl, rfl⟩ := Prod.mk.inj (Option.some.inj hq)
      rw [update_self]
      exact ⟨hmem, rfl, rfl⟩
    · rw [update_of_ne hqp] at hq
      rw [update_of_ne (hnot q a m hq)]
      exact h.uses q a m hq
  case lock =>
    intro a q
    simp only [State.goto, State.setBuf, hlock]
    exact h.lock a q
  case valid =>
    intro q a m hq hqread
    simp only [State.goto, State.setBuf] at hq hqread ⊢
    by_cases hqp : q = p
    · rw [hqp, update_self] at hqread
      cases hqread
    · rw [update_of_ne hqp] at hq hqread
      rw [update_of_ne (hnot q a m hq)]
      exact h.valid q a m hq hqread
  case writing =>
    intro q a m hq
    simp only [State.goto, State.setBuf] at hq ⊢
    obtain ⟨hqp, hq⟩ | ⟨hqp, hq⟩ := update_cases hq
    · cases hq
    · rw [update_of_ne (hnot q a m (by rw [hq]; rfl))]
      exact h.writing q a m hq
  case clean =>
    intro a
    simp only [State.goto, State.setBuf]
    by_cases ha : a = b
    · rw [ha, update_self]
      exact fun _ => rfl
    · rw [update_of_ne ha]
      exact h.clean a
  case data =>
    intro a ha hadev hvalid hchange
    simp only [State.goto, State.setBuf] at hadev hvalid hchange ⊢
    by_cases hab : a = b
    · rw [hab, update_self] at hvalid
      cases hvalid
    · rw [update_of_ne hab] at hadev hvalid ⊢
      apply h.data a ha hadev hvalid
      intro q hq
      have hqp : q ≠ p := by
        rintro rfl
        have := (h.lock a q).mp hq
        rw [hp] at this
        cases this
      have := hchange q hq
      rwa [update_of_ne hqp] at this
  case disk =>
    intro a ha hadev hadirty
    simp only [State.goto, State.setBuf] at hadev hadirty ⊢
    by_cases hab : a = b
    · rw [hab, update_self]
      exact h.away n habsent
    · rw [update_of_ne hab] at hadev hadirty ⊢
      exact h.disk a ha hadev hadirty
  case away =>
    intro m hm
    simp only [State.goto, State.setBuf] at hm ⊢
    by_cases hold : (s.buf b).dev = ROOTDEV ∧ (s.buf b).blockno = m
    · -- The block that the buffer had is clean.
      have := h.disk b hmem hold.1 hdirty
      rwa [hold.2] at this
    · apply h.away m
      intro a ha hadev hano
      have hab : a ≠ b := by
        rintro rfl
        exact hold ⟨hadev, hano⟩
      apply hm a ha
      · rw [update_of_ne hab]
        exact hadev
      · rw [update_of_ne hab]
        exact hano

omit [DecidableEq P] in
theorem Inv.fresh (hp : (s.pc p).locked = some b) (hn : (s.pc p).use = some (b, n))
    (hchange : (s.pc p).changing = false) (hvalid : (s.buf b).valid = true) :
    (s.buf b).data = s.latest n := by
  obtain ⟨hb, hdev, hno⟩ := h.uses p b n hn
  rw [h.data b hb hdev hvalid, hno]
  intro q hq
  rw [h.holder_eq hp ((h.lock b q).mp hq)]
  exact hchange

omit [DecidableEq P] in
theorem Inv.disk_eq (hn : (s.pc p).use = some (b, n)) (hdirty : (s.buf b).dirty = false) :
    s.disk n = s.latest n := by
  obtain ⟨hb, hdev, hno⟩ := h.uses p b n hn
  rw [← hno]
  exact h.disk b hb hdev hdirty

/-- **`bread` of a valid buffer.** -/
theorem Inv.cached (hp : s.pc p = .checking b n) (hv : (s.buf b).valid = true) :
    Inv (s.goto p (.held b n)) := by
  have hlocked : (s.pc p).locked = some b := by rw [hp]; rfl
  have huse : (s.pc p).use = some (b, n) := by rw [hp]; rfl
  have hnew : Inv ({ s with buf := update s.buf b (s.buf b), disk := s.disk, latest := s.latest }.goto p
      (.held b n)) := by
    apply h.change hlocked huse
    case hplace => exact ⟨rfl, rfl⟩
    case hsame => exact ⟨rfl, rfl, rfl⟩
    case hread => exact fun _ => hv
    case hwriting => simp
    case hclean => exact h.clean b
    case hdata => exact fun _ _ => h.fresh hlocked huse (by rw [hp]; rfl) hv
    case hdisk => exact h.disk_eq huse
    case hother => exact fun m _ => ⟨rfl, rfl⟩
  rw [update_eq_self] at hnew
  exact hnew

/-- **`bread` reads the block.** -/
theorem Inv.fill (hp : s.pc p = .checking b n) (hv : (s.buf b).valid = false) :
    Inv ((s.iderw b).goto p (.held b n)) := by
  have huse : (s.pc p).use = some (b, n) := by rw [hp]; rfl
  have hdirty := h.clean b hv
  rw [State.iderw, if_neg (by rw [hdirty]; exact Bool.false_ne_true)]
  apply h.change (by rw [hp]; rfl) huse
  case hplace => exact ⟨rfl, rfl⟩
  case hsame => exact ⟨rfl, rfl, rfl⟩
  case hread => exact fun _ => rfl
  case hwriting => simp
  case hclean => simp
  case hdata =>
    intro _ _
    rw [(h.uses p b n huse).2.2]
    exact h.disk_eq huse hdirty
  case hdisk => exact h.disk_eq huse
  case hother => exact fun m _ => ⟨rfl, rfl⟩

end

section Holder

variable (h : Inv s) (hp : s.pc p = .held b n ∨ s.pc p = .changed b n)
include h hp

omit h [Fintype P] [DecidableEq P] in
theorem use_of_held : (s.pc p).locked = some b ∧ (s.pc p).use = some (b, n) ∧ (s.pc p).read = true := by
  rcases hp with hp | hp <;> rw [hp] <;> exact ⟨rfl, rfl, rfl⟩

theorem Inv.changeData (x : β) : Inv ((s.setBuf b { s.buf b with data := x }).goto p (.changed b n)) := by
  obtain ⟨hlocked, huse, hread⟩ := use_of_held hp
  apply h.change hlocked huse
  case hplace => exact ⟨rfl, rfl⟩
  case hsame => exact ⟨rfl, rfl, rfl⟩
  case hread => exact fun _ => h.valid p b n huse hread
  case hwriting => simp
  case hclean => exact h.clean b
  case hdata => exact fun _ h => by cases h
  case hdisk => exact h.disk_eq huse
  case hother => exact fun m _ => ⟨rfl, rfl⟩

/-- **`bwrite` marks the buffer.** -/
theorem Inv.bwrite : Inv ((s.setBuf b { s.buf b with dirty := true }).goto p (.writing b n)) := by
  obtain ⟨hlocked, huse, hread⟩ := use_of_held hp
  have hvalid := h.valid p b n huse hread
  apply h.change hlocked huse
  case hplace => exact ⟨rfl, rfl⟩
  case hsame => exact ⟨rfl, rfl, rfl⟩
  case hread => exact fun _ => hvalid
  case hwriting => exact fun _ => rfl
  case hclean => exact fun hv => absurd (hvalid.symm.trans hv) Bool.true_eq_false_eq_False
  case hdata => exact fun _ h => by cases h
  case hdisk => simp
  case hother => exact fun m _ => ⟨rfl, rfl⟩

theorem Inv.logWrite : Inv (((s.setBuf b { s.buf b with dirty := true }).update b).goto p (.held b n)) := by
  obtain ⟨hlocked, huse, hread⟩ := use_of_held hp
  have hvalid := h.valid p b n huse hread
  have hno := (h.uses p b n huse).2.2
  apply h.change hlocked huse
  case hplace => exact ⟨rfl, rfl⟩
  case hsame => exact ⟨rfl, rfl, rfl⟩
  case hread => exact fun _ => hvalid
  case hwriting => simp
  case hclean => exact fun hv => absurd (hvalid.symm.trans hv) Bool.true_eq_false_eq_False
  case hdata =>
    intro _ _
    simp only [State.setBuf, update_self, hno]
  case hdisk => simp
  case hother =>
    intro m hm
    simp only [State.setBuf, update_self, hno, update_of_ne hm, and_self]

end Holder

/-- **`bwrite` writes the block.** -/
theorem Inv.iderw (h : Inv s) (hp : s.pc p = .writing b n) :
    Inv (((s.iderw b).update b).goto p (.held b n)) := by
  have huse : (s.pc p).use = some (b, n) := by rw [hp]; rfl
  have hno := (h.uses p b n huse).2.2
  rw [State.iderw, if_pos (h.writing p b n hp)]
  apply h.change (by rw [hp]; rfl) huse
  case hplace => exact ⟨rfl, rfl⟩
  case hsame => exact ⟨rfl, rfl, rfl⟩
  case hread => exact fun _ => rfl
  case hwriting => simp
  case hclean => simp
  case hdata =>
    intro _ _
    simp only [State.setBuf, update_self, hno]
  case hdisk =>
    intro _
    simp only [State.setBuf, update_self, hno]
  case hother =>
    intro m hm
    simp only [State.setBuf, update_self, hno, update_of_ne hm, and_self]

/-- **Every step keeps the invariant.** -/
theorem Inv.step (h : Inv s) (hs : Buffers.step s e = some t) : Inv t := by
  cases does_step hs with
  | hit p n b hp hb hne => exact h.hit hp hb hne
  | recycle p n b hp hmiss hb hne => exact h.recycle hp hmiss hb hne
  | acquiresleep p b n hp hfree => exact h.acquiresleep hp hfree
  | cached p b n hp hv => exact h.cached hp hv
  | fill p b n hp hv => exact h.fill hp hv
  | change p x b n hp => exact h.changeData hp x
  | bwrite p b n hp => exact h.bwrite hp
  | iderw p b n hp => exact h.iderw hp
  | logWrite p b n hp => exact h.logWrite hp
  | releasesleep p b n hp => exact h.releasesleep hp
  | unref p b n hp => exact h.unref hp

/-- **A buffer in use keeps its block.** -/
theorem Inv.pinned (h : Inv s) (hs : Buffers.step s e = some t)
    (hb : 0 < (s.buf b).refcnt ∨ (s.buf b).dirty = true) :
    (t.buf b).dev = (s.buf b).dev ∧ (t.buf b).blockno = (s.buf b).blockno := by
  have hset : ∀ (a : ℕ) (x : Buf β), x.dev = (s.buf a).dev ∧ x.blockno = (s.buf a).blockno →
      (update s.buf a x b).dev = (s.buf b).dev ∧ (update s.buf a x b).blockno = (s.buf b).blockno := by
    intro a x hx
    by_cases hab : b = a
    · rw [hab, update_self]
      exact hx
    · rw [update_of_ne hab]
      exact ⟨rfl, rfl⟩
  cases does_step hs with
  | recycle p n a hp hmiss ha hne =>
    obtain ⟨_, href, hdirty⟩ := unused_found h.listed ha hne
    have hab : b ≠ a := by
      rintro rfl
      rw [href, hdirty] at hb
      simp at hb
    simp only [State.goto, State.setBuf, update_of_ne hab, and_self]
  | fill p a n hp hv =>
    rw [State.iderw, if_neg (by rw [h.clean a hv]; exact Bool.false_ne_true)]
    exact hset a _ ⟨rfl, rfl⟩
  | iderw p a n hp =>
    rw [State.iderw, if_pos (h.writing p a n hp)]
    exact hset a _ ⟨rfl, rfl⟩
  | unref p a n hp =>
    rw [State.unref]
    split <;> exact hset a _ ⟨rfl, rfl⟩
  | hit p n a hp ha hne => exact hset a _ ⟨rfl, rfl⟩
  | change p x a n hp => exact hset a _ ⟨rfl, rfl⟩
  | bwrite p a n hp => exact hset a _ ⟨rfl, rfl⟩
  | logWrite p a n hp => exact hset a _ ⟨rfl, rfl⟩
  | acquiresleep => exact ⟨rfl, rfl⟩
  | cached => exact ⟨rfl, rfl⟩
  | releasesleep => exact ⟨rfl, rfl⟩

end Steps

omit [Fintype P] in
/-- The loop of `binit`. -/
theorem foldl_linkFront (M : List ℕ) (s : State P β) (L : List ℕ) (h : Doubly s.next s.prev head L)
    (hnd : (head :: (M.reverse ++ L)).Nodup) :
    ∃ prev next, M.foldl State.linkFront s = { s with prev := prev, next := next }
      ∧ Doubly next prev head (M.reverse ++ L) := by
  induction M generalizing s L with
  | nil => exact ⟨s.prev, s.next, rfl, h⟩
  | cons b M ih =>
    rw [List.reverse_cons, List.append_assoc, List.singleton_append] at hnd ⊢
    have hbL : (head :: b :: L).Nodup :=
      hnd.sublist ((List.sublist_append_right M.reverse (b :: L)).cons_cons head)
    have hne : head ≠ b := fun heq => (List.nodup_cons.mp hbL).1 (heq ▸ List.mem_cons_self)
    have hfront : Doubly (s.linkFront b).next (s.linkFront b).prev head (b :: L) := by
      have hnd' : (b :: head :: L).Nodup := (List.Perm.swap b head L).nodup_iff.mp hbL
      have hnew := h.linkFront (List.nodup_cons.mp hnd').2 (List.nodup_cons.mp hnd').1
      rw [State.linkFront]
      simp only [update_of_ne hne]
      exact hnew
    obtain ⟨prev, next, heq, hlist⟩ := ih (s.linkFront b) (b :: L) hfront hnd
    exact ⟨prev, next, heq, hlist⟩

theorem inv_binit (disk : ℕ → β) : Inv (binit (P := P) disk) := by
  have hnd : (head :: (buffers.reverse ++ [])).Nodup := by
    rw [List.append_nil]
    exact nodup_of_perm (List.reverse_perm buffers)
  obtain ⟨prev, next, heq, hlist⟩ := foldl_linkFront (P := P) buffers
    { buf := fun _ => ⟨false, false, 0, 0, 0, disk 0⟩, prev := fun _ => head, next := fun _ => head,
      lock := fun _ => none, pc := fun _ => .idle, disk := disk, latest := disk } [] ⟨ring_cons.mpr rfl, ring_cons.mpr rfl⟩ hnd
  rw [List.append_nil] at hlist
  rw [binit, heq]
  constructor
  case listed => exact ⟨buffers.reverse, hlist, List.reverse_perm buffers⟩
  case unique => exact fun _ _ _ _ hdev => by cases hdev
  case refcnt =>
    intro b
    exact (held_eq_zero.mpr fun _ => rfl).symm
  case uses => exact fun _ _ _ h => by cases h
  case lock =>
    intro b p
    exact ⟨(fun h => by cases h), (fun h => by cases h)⟩
  case valid => exact fun _ _ _ h => by cases h
  case writing => simp
  case clean => exact fun _ _ => rfl
  case data => simp
  case disk => simp
  case away => exact fun _ _ => rfl

structure Coherent [DecidableEq P] (s : State P β) : Prop where
  /-- The list holds every buffer once, in both directions. -/
  listed : ∃ L, Ring s.next (head :: L) ∧ Ring s.prev (head :: L.reverse) ∧ L.Perm buffers
  /-- A block has one buffer at most. -/
  unique : ∀ a ∈ buffers, ∀ b ∈ buffers, (s.buf a).dev = ROOTDEV → (s.buf b).dev = ROOTDEV →
    (s.buf a).blockno = (s.buf b).blockno → a = b
  /-- `refcnt` is the number of `bget`s not yet matched by `brelse`. -/
  refcnt : ∀ b ∈ buffers,
    (s.buf b).refcnt = (Finset.univ.filter fun p => (s.pc p).use.map Prod.fst = some b).card
  /-- A buffer in use keeps its block. -/
  pinned : ∀ e t, step s e = some t → ∀ b ∈ buffers, 0 < (s.buf b).refcnt ∨ (s.buf b).dirty = true →
    (t.buf b).dev = (s.buf b).dev ∧ (t.buf b).blockno = (s.buf b).blockno
  /-- What `bread` has returned is locked and holds the latest update of the block. -/
  returned : ∀ p b n, s.pc p = .held b n →
    s.lock b = some p ∧ (s.buf b).dev = ROOTDEV ∧ (s.buf b).blockno = n ∧ (s.buf b).data = s.latest n

variable [DecidableEq P]

/-- **The buffer cache is coherent** after every run of its users. -/
theorem buffers_coherent {es : List (Event P β)} {s : State P β} (hr : Reach (system disk) es s) :
    Coherent s := by
  have h : Inv s := by
    refine hr.induct (I := fun _ s => Inv s) ?_ ?_
    · rintro s rfl
      exact inv_binit disk
    · intro _ s e t hs _ hstep
      exact hs.step hstep
  constructor
  case listed =>
    obtain ⟨L, hL, hperm⟩ := h.listed
    exact ⟨L, hL.1, hL.2, hperm⟩
  case unique => exact h.unique
  case refcnt =>
    intro b _
    rw [h.refcnt, Finset.card_filter]
    rfl
  case pinned => exact fun e t hs b _ hb => h.pinned hs hb
  case returned =>
    intro p b n hp
    have hlocked : (s.pc p).locked = some b := by rw [hp]; rfl
    have huse : (s.pc p).use = some (b, n) := by rw [hp]; rfl
    obtain ⟨_, hdev, hno⟩ := h.uses p b n huse
    have hvalid := h.valid p b n huse (by rw [hp]; rfl)
    exact ⟨(h.lock b p).mpr hlocked, hdev, hno, h.fresh hlocked huse (by rw [hp]; rfl) hvalid⟩

/-- One user reads block 5, writes 7 to it through the log and releases it while another one waits for it;
that one then has the buffer with 7. -/
theorem buffers_coherent_waiting :
    ∃ s : State (Fin 2) ℕ, Reach (system fun _ => 0)
        [.bget 0 5, .acquiresleep 0, .bread 0, .bget 1 5, .change 0 7, .logWrite 0, .releasesleep 0,
          .acquiresleep 1, .unref 0, .bread 1] s
      ∧ Coherent s ∧ s.pc 1 = .held 1 5 ∧ (s.buf 1).data = 7 := by
  obtain ⟨s, hr, hs⟩ := exists_runIf_of_map (S := system (P := Fin 2) fun _ => 0) (C := fun _ _ _ => True)
    (f := fun s => (s.pc 1, (s.buf 1).data)) (y := (.held 1 5, 7))
    [.bget 0 5, .acquiresleep 0, .bread 0, .bget 1 5, .change 0 7, .logWrite 0, .releasesleep 0,
      .acquiresleep 1, .unref 0, .bread 1] rfl (by decide +kernel)
  exact ⟨s, hr, buffers_coherent hr, congrArg Prod.fst hs, congrArg Prod.snd hs⟩

end Xv6e.Cache.Buffers
