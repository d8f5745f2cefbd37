import Xv6e.Cache.InodeSteps

/-!
# The inode cache has one entry for an inode

* `Inv` — the invariant;
* `Inv.count`, `Inv.relock`, `Inv.work` — a user without a lock moves, a user takes or drops a lock, and the
  holder of a lock works on its entry;
* `Inv.step` — every step keeps the invariant;
* `icache_sound` — what holds after every run.
-/

namespace Xv6e.Cache.Inodes

open Library.Transition Library.Holders
open Function (update update_self update_of_ne update_eq_self)

variable {P : Type} [DecidableEq P]

variable {c : Pc} {e ninodes : ℕ} {ph ph' : Phase}

section Places

omit [DecidableEq P] in
/-- The phase of the holder of the lock. -/
def State.holder (s : State P) (e : ℕ) : Option Phase := (s.lock e).bind fun p => (s.pc p).phase

theorem Pc.locked_entry (h : c.locked = some e) : ∃ k ph, c = .entry e k ph ∧ ph.holds = true := by
  cases c with
  | entry a k ph =>
    rw [Pc.locked] at h
    split at h
    case isTrue hph =>
      obtain rfl := Option.some.inj h
      exact ⟨k, ph, rfl, hph⟩
    case isFalse => cases h
  | _ => cases h

theorem Pc.locked_of_holds {k : Key} (h : ph.holds = true) : (Pc.entry e k ph).locked = some e := by
  rw [Pc.locked, h]
  rfl

theorem Pc.locked_of_not_holds {k : Key} (h : ph.holds = false) : (Pc.entry e k ph).locked = none := by
  rw [Pc.locked, h]
  rfl

theorem Pc.refs_entry (e : ℕ) (k : Key) (ph : Phase) : (Pc.entry e k ph).refs e = 1 := if_pos rfl

theorem Pc.refs_entry_of_ne {a : ℕ} (k : Key) (ph : Phase) (h : a ≠ e) :
    (Pc.entry e k ph).refs a = 0 := if_neg h.symm

end Places

variable [Fintype P]

structure Inv (s : State P) : Prop where
  unique : ∀ a b, 0 < (s.inode a).ref → 0 < (s.inode b).ref → (s.inode a).key = (s.inode b).key → a = b
  ref : ∀ e, (s.inode e).ref = held (Pc.refs e) s.pc
  uses : ∀ p e k ph, s.pc p = .entry e k ph → e < NINODE ∧ (s.inode e).key = k
  lock : ∀ e p, s.lock e = some p ↔ (s.pc p).locked = some e
  agrees : ∀ e, 0 < (s.inode e).ref →
    Agrees (s.holder e) (s.inode e).valid (s.inode e).fields (s.disk (s.inode e).key)
  marks : Alternate s.marks s.disk
  types : ∀ p dev type inum, s.pc p = .scanning dev type inum → type ≠ 0

variable {t : State P} {ev : Event P}

section Steps

variable {s : State P} {p : P} {e : ℕ} {k : Key}

omit [DecidableEq P] in
theorem Inv.ref_pos (h : Inv s) (hp : s.pc p = .entry e k ph) : 0 < (s.inode e).ref := by
  have hle := le_held (Pc.refs e) s.pc p
  rw [hp, Pc.refs_entry, ← h.ref] at hle
  exact hle

omit [DecidableEq P] in
theorem Inv.lt_of_ref_pos (h : Inv s) (he : 0 < (s.inode e).ref) : e < NINODE := by
  by_contra hnot
  rw [h.ref, Nat.pos_iff_ne_zero, Ne, held_eq_zero, not_forall] at he
  obtain ⟨q, hq⟩ := he
  cases hpc : s.pc q with
  | entry a m ph =>
    rw [hpc, Pc.refs] at hq
    split at hq
    case isTrue hae => exact hnot (hae ▸ (h.uses q a m ph hpc).1)
    case isFalse => exact hq rfl
  | _ => rw [hpc] at hq; exact hq rfl

omit [DecidableEq P] in
theorem Inv.lock_none (h : Inv s) (he : (s.inode e).ref = 0) : s.lock e = none := by
  cases hlock : s.lock e with
  | none => rfl
  | some q =>
    obtain ⟨m, ph, hq, _⟩ := Pc.locked_entry ((h.lock e q).mp hlock)
    exact absurd he (Nat.pos_iff_ne_zero.mp (h.ref_pos hq))

omit [DecidableEq P] in
theorem Inv.holder_eq (h : Inv s) (hp : s.pc p = .entry e k ph) (hph : ph.holds = true) :
    s.lock e = some p ∧ s.holder e = some ph := by
  have hlock : s.lock e = some p := (h.lock e p).mpr (by rw [hp]; exact Pc.locked_of_holds hph)
  refine ⟨hlock, ?_⟩
  rw [State.holder, hlock, Option.bind_some, hp]
  rfl

omit [Fintype P] in
/-- The lock of an entry says the same when a user moves that does not have it. -/
theorem holder_update {lock : Option P} (hp : lock ≠ some p) :
    (lock.bind fun q => (update s.pc p c q).phase) = lock.bind fun q => (s.pc q).phase := by
  cases lock with
  | none => rfl
  | some q =>
    have hqp : q ≠ p := fun heq => hp (by rw [heq])
    rw [Option.bind_some, Option.bind_some, update_of_ne hqp]

omit [Fintype P] in
theorem locked_update (hp : (s.pc p).locked = none) (hc : c.locked = none) (q : P) :
    (update s.pc p c q).locked = (s.pc q).locked := by
  by_cases hq : q = p
  · rw [hq, update_self, hp, hc]
  · rw [update_of_ne hq]

section

variable (h : Inv s)
include h

/-- A user without a lock goes to another place without one, and the count of an entry goes with it. -/
theorem Inv.count {r : ℕ} (hp : (s.pc p).locked = none) (hc : c.locked = none)
    (hr : r + (s.pc p).refs e = (s.inode e).ref + c.refs e) (hpos : 0 < r → 0 < (s.inode e).ref)
    (hother : ∀ a, a ≠ e → c.refs a = (s.pc p).refs a)
    (huse : ∀ a m ph, c = .entry a m ph → a < NINODE ∧ (s.inode a).key = m)
    (htype : ∀ dev type inum, c = .scanning dev type inum → type ≠ 0) :
    Inv ((s.setInode e { s.inode e with ref := r }).goto p c) := by
  have hinode : ∀ a, ∃ r', update s.inode e { s.inode e with ref := r } a = { s.inode a with ref := r' }
      ∧ (0 < r' → 0 < (s.inode a).ref) := fun a => by
    by_cases ha : a = e
    · exact ⟨r, by rw [ha, update_self], by rw [ha]; exact hpos⟩
    · exact ⟨(s.inode a).ref, by rw [update_of_ne ha], id⟩
  have hnot : ∀ a, s.lock a ≠ some p := fun a ha => by
    rw [(h.lock a p).mp ha] at hp
    cases hp
  constructor
  case unique =>
    intro a b
    obtain ⟨r₁, hr₁, hpos₁⟩ := hinode a
    obtain ⟨r₂, hr₂, hpos₂⟩ := hinode b
    simp only [State.goto, State.setInode, hr₁, hr₂]
    exact fun ha hb hkey => h.unique a b (hpos₁ ha) (hpos₂ hb) hkey
  case ref =>
    intro a
    have hheld := held_update (Pc.refs a) s.pc p c
    have hcount := h.ref a
    by_cases ha : a = e
    · simp only [State.goto, State.setInode, ha, update_self] at hheld hcount ⊢
      omega
    · have := hother a ha
      simp only [State.goto, State.setInode, update_of_ne ha]
      omega
  case uses =>
    intro q a m ph hq
    obtain ⟨r', hr', _⟩ := hinode a
    simp only [State.goto, State.setInode, hr'] at hq ⊢
    obtain ⟨hqp, hq⟩ | ⟨hqp, hq⟩ := update_cases hq
    · exact huse a m ph hq
    · exact h.uses q a m ph hq
  case lock =>
    intro a q
    simp only [State.goto, State.setInode, locked_update hp hc]
    exact h.lock a q
  case agrees =>
    intro a
    obtain ⟨r', hr', hpos'⟩ := hinode a
    simp only [State.goto, State.setInode, State.holder, hr', holder_update (hnot a)]
    exact fun ha => h.agrees a (hpos' ha)
  case marks => exact h.marks
  case types =>
    intro q dev type inum hq
    simp only [State.goto, State.setInode] at hq
    obtain ⟨hqp, hq⟩ | ⟨hqp, hq⟩ := update_cases hq
    · exact htype dev type inum hq
    · exact h.types q dev type inum hq

theorem Inv.place (hp : (s.pc p).locked = none) (hc : c.locked = none)
    (hrefs : ∀ e, c.refs e = (s.pc p).refs e)
    (huse : ∀ e k ph, c = .entry e k ph → ∃ ph', s.pc p = .entry e k ph')
    (htype : ∀ dev type inum, c = .scanning dev type inum → type ≠ 0 ∨ ∃ n, s.pc p = .scanning dev type n) :
    Inv (s.goto p c) := by
  have hnew : Inv ((s.setInode 0 (s.inode 0)).goto p c) := by
    apply h.count (r := (s.inode 0).ref) hp hc
    case hr => rw [hrefs]
    case hpos => exact id
    case hother => exact fun a _ => hrefs a
    case huse =>
      intro a m ph hcase
      obtain ⟨ph', hp'⟩ := huse a m ph hcase
      exact h.uses p a m ph' hp'
    case htype =>
      intro dev type inum hcase
      rcases htype dev type inum hcase with htype | ⟨n, hn⟩
      · exact htype
      · exact h.types p dev type n hn
  rw [State.setInode, update_eq_self] at hnew
  exact hnew

theorem Inv.share (hp : s.pc p = .getting k ∨ s.pc p = .idle)
    (he : (e < NINODE ∧ 0 < (s.inode e).ref ∧ (s.inode e).key = k) ∨ ∃ q ph, s.pc q = .entry e k ph) :
    Inv ((s.setInode e { s.inode e with ref := (s.inode e).ref + 1 }).goto p (.entry e k .ref)) := by
  have hplace : (s.pc p).locked = none ∧ ∀ a, (s.pc p).refs a = 0 := by
    rcases hp with hp | hp <;> rw [hp] <;> exact ⟨rfl, fun _ => rfl⟩
  have he' : e < NINODE ∧ 0 < (s.inode e).ref ∧ (s.inode e).key = k := by
    rcases he with he | ⟨q, ph, hq⟩
    · exact he
    · exact ⟨(h.uses q e k ph hq).1, h.ref_pos hq, (h.uses q e k ph hq).2⟩
  apply h.count hplace.1 rfl
  case hr => rw [hplace.2, Pc.refs_entry]
  case hpos => exact fun _ => he'.2.1
  case hother =>
    intro a ha
    rw [hplace.2, Pc.refs_entry_of_ne k .ref ha]
  case huse =>
    intro a m ph heq
    obtain ⟨rfl, rfl, _⟩ := Pc.entry.inj heq
    exact ⟨he'.1, he'.2.2⟩
  case htype => simp

theorem Inv.drop (hp : s.pc p = .entry e k .dropping) :
    Inv ((s.setInode e { s.inode e with ref := (s.inode e).ref - 1 }).goto p .idle) := by
  have hpos := h.ref_pos hp
  apply h.count
  case hp => rw [hp]; rfl
  case hc => rfl
  case hr =>
    rw [hp, Pc.refs_entry]
    exact Nat.sub_add_cancel hpos
  case hpos => exact fun _ => hpos
  case hother =>
    intro a ha
    rw [hp, Pc.refs_entry_of_ne k .dropping ha]
    rfl
  case huse => simp
  case htype => simp

theorem Inv.recycle (hp : s.pc p = .getting k) (he : e < NINODE) (href : (s.inode e).ref = 0)
    (hnone : ∀ a < NINODE, 0 < (s.inode a).ref → (s.inode a).key ≠ k) :
    Inv ((s.setInode e { s.inode e with dev := k.1, inum := k.2, ref := 1, valid := false }).goto p
      (.entry e k .ref)) := by
  have hlocked : (s.pc p).locked = none := by rw [hp]; rfl
  have hnot : ∀ a, s.lock a ≠ some p := fun a ha => by
    rw [(h.lock a p).mp ha] at hlocked
    cases hlocked
  have huser : ∀ q a m ph, s.pc q = .entry a m ph → a ≠ e := by
    rintro q a m ph hq rfl
    exact absurd href (Nat.pos_iff_ne_zero.mp (h.ref_pos hq))
  constructor
  case unique =>
    intro a b ha hb hkey
    simp only [State.goto, State.setInode] at ha hb hkey
    by_cases hae : a = e <;> by_cases hbe : b = e
    · rw [hae, hbe]
    · simp only [hae, update_self, update_of_ne hbe] at hb hkey
      exact absurd hkey.symm (hnone b (h.lt_of_ref_pos hb) hb)
    · simp only [hbe, update_self, update_of_ne hae] at ha hkey
      exact absurd hkey (hnone a (h.lt_of_ref_pos ha) ha)
    · rw [update_of_ne hae] at ha hkey
      rw [update_of_ne hbe] at hb hkey
      exact h.unique a b ha hb hkey
  case ref =>
    intro a
    have hheld := held_update (Pc.refs a) s.pc p (.entry e k .ref)
    have hcount := h.ref a
    have hgetting : (s.pc p).refs a = 0 := by rw [hp]; rfl
    by_cases hae : a = e
    · have hone := Pc.refs_entry e k .ref
      subst hae
      simp only [State.goto, State.setInode, update_self]
      omega
    · have hzero := Pc.refs_entry_of_ne k .ref hae
      simp only [State.goto, State.setInode, update_of_ne hae]
      omega
  case uses =>
    intro q a m ph hq
    simp only [State.goto, State.setInode] at hq ⊢
    obtain ⟨hqp, hq⟩ | ⟨hqp, hq⟩ := update_cases hq
    · obtain ⟨rfl, rfl, _⟩ := Pc.entry.inj hq
      rw [update_self]
      exact ⟨he, rfl⟩
    · rw [update_of_ne (huser q a m ph hq)]
      exact h.uses q a m ph hq
  case lock =>
    intro a q
    simp only [State.goto, State.setInode]
    rw [locked_update hlocked rfl]
    exact h.lock a q
  case agrees =>
    intro a ha
    simp only [State.goto, State.setInode, State.holder, holder_update (hnot a)] at ha ⊢
    by_cases hae : a = e
    · rw [hae, h.lock_none href, update_self]
      exact fun h => by cases h
    · rw [update_of_ne hae] at ha ⊢
      exact h.agrees a ha
  case marks => exact h.marks
  case types =>
    intro q dev type inum hq
    simp only [State.goto, State.setInode] at hq
    obtain ⟨_, hq⟩ | ⟨hqp, hq⟩ := update_cases hq
    · cases hq
    exact h.types q dev type inum hq

theorem Inv.alloc {dev type inum : ℕ} (hp : s.pc p = .scanning dev type inum)
    (hfree : (s.disk (dev, inum)).type = 0) :
    Inv (({ s with disk := update s.disk (dev, inum) { Dinode.zero with type := type } }.mark
      (.alloc (dev, inum))).goto p (.getting (dev, inum))) := by
  have hplace : Inv (s.goto p (.getting (dev, inum))) := by
    apply h.place
    case hp => rw [hp]; rfl
    case hc => rfl
    case hrefs => intro a; rw [hp]; rfl
    case huse => simp
    case htype => simp
  constructor
  case unique => exact hplace.unique
  case ref => exact hplace.ref
  case uses => exact hplace.uses
  case lock => exact hplace.lock
  case types => exact hplace.types
  case agrees =>
    intro a ha
    have hold := hplace.agrees a ha
    simp only [State.goto, State.mark] at ha ⊢
    by_cases hkey : (s.inode a).key = (dev, inum)
    · rw [hkey, update_self]
      apply hold.alloc
      show (s.disk (s.inode a).key).type = 0
      rw [hkey]
      exact hfree
    · rw [update_of_ne hkey]
      exact hold
  case marks =>
    simp only [State.goto, State.mark]
    apply h.marks.alloc hfree
    · rw [update_self]
      exact h.types p dev type inum hp
    · exact fun m hm => update_of_ne hm _ _

theorem Inv.relock {lock : ℕ → Option P} (hp : s.pc p = .entry e k ph)
    (hlock : ∀ a q, lock a = some q ↔ (update s.pc p (.entry e k ph') q).locked = some a)
    (hsame : ∀ a, a ≠ e → lock a = s.lock a)
    (hagrees : Agrees (s.holder e) (s.inode e).valid (s.inode e).fields (s.disk (s.inode e).key) →
      Agrees ((lock e).bind fun q => (update s.pc p (.entry e k ph') q).phase) (s.inode e).valid
        (s.inode e).fields (s.disk (s.inode e).key)) :
    Inv ({ s with lock := lock }.goto p (.entry e k ph')) := by
  constructor
  case unique => exact h.unique
  case marks => exact h.marks
  case lock => exact hlock
  case ref =>
    intro a
    simp only [State.goto]
    rw [held_update_same (by rw [hp]; rfl)]
    exact h.ref a
  case uses =>
    intro q a m ph'' hq
    simp only [State.goto] at hq
    obtain ⟨hqp, hq⟩ | ⟨hqp, hq⟩ := update_cases hq
    · obtain ⟨rfl, rfl, _⟩ := Pc.entry.inj hq
      exact h.uses p e k ph hp
    · exact h.uses q a m ph'' hq
  case agrees =>
    intro a ha
    simp only [State.goto, State.holder] at ha ⊢
    by_cases hae : a = e
    · rw [hae]
      exact hagrees (h.agrees e (hae ▸ ha))
    · have hnot : s.lock a ≠ some p := by
        intro hlocked
        have := (h.lock a p).mp hlocked
        rw [hp] at this
        obtain ⟨_, _, heq, _⟩ := Pc.locked_entry this
        exact hae (Pc.entry.inj heq).1.symm
      rw [hsame a hae, holder_update hnot]
      exact h.agrees a ha
  case types =>
    intro q dev type inum hq
    simp only [State.goto] at hq
    obtain ⟨_, hq⟩ | ⟨hqp, hq⟩ := update_cases hq
    · cases hq
    exact h.types q dev type inum hq

theorem Inv.acquire (hp : s.pc p = .entry e k ph) (hph : ph.holds = false)
    (hph' : ph' = .checking ∨ ph' = .putLocked) (hfree : s.lock e = none) :
    Inv ({ s with lock := update s.lock e (some p) }.goto p (.entry e k ph')) := by
  have hholds : ph'.holds = true := by rcases hph' with rfl | rfl <;> rfl
  apply h.relock hp
  case hlock =>
    intro a q
    by_cases hq : q = p
    · rw [hq, update_self, Pc.locked_of_holds hholds]
      by_cases hae : a = e
      · simp [hae]
      · rw [update_of_ne hae, h.lock, hp, Pc.locked_of_not_holds hph]
        simp [Ne.symm hae]
    · rw [update_of_ne hq, ← h.lock]
      by_cases hae : a = e
      · simp [hae, hfree, Ne.symm hq]
      · rw [update_of_ne hae]
  case hsame => exact fun a ha => update_of_ne ha _ _
  case hagrees =>
    intro ha
    rw [State.holder, hfree] at ha
    rw [update_self, Option.bind_some, update_self]
    rcases hph' with rfl | rfl <;> exact ha

theorem Inv.release (hp : s.pc p = .entry e k ph) (hph : ph = .locked ∨ ph = .unlocking)
    (hph' : ph'.holds = false) : Inv (s.releasesleep p e k ph') := by
  have hholds : ph.holds = true := by rcases hph with rfl | rfl <;> rfl
  obtain ⟨hlock, hholder⟩ := h.holder_eq hp hholds
  apply h.relock hp
  case hlock =>
    intro a q
    by_cases hq : q = p
    · rw [hq, update_self, Pc.locked_of_not_holds hph']
      by_cases hae : a = e
      · simp [hae]
      · rw [update_of_ne hae, h.lock, hp, Pc.locked_of_holds hholds]
        simp [Ne.symm hae]
    · rw [update_of_ne hq, ← h.lock]
      by_cases hae : a = e
      · simp [hae, hlock, Ne.symm hq]
      · rw [update_of_ne hae]
  case hsame => exact fun a ha => update_of_ne ha _ _
  case hagrees =>
    intro ha
    rw [hholder] at ha
    rw [update_self]
    rcases hph with rfl | rfl
    · exact fun _ => ha.2
    · exact ha

/-- **The holder of the lock works on the entry and on its inode.** -/
theorem Inv.work {ip : Inode} {d : Dinode} {marks : List Mark} (hp : s.pc p = .entry e k ph)
    (hph : ph.holds = true) (hph' : ph'.holds = true)
    (hip : ip.key = (s.inode e).key ∧ ip.ref = (s.inode e).ref)
    (hd : Agrees (some ph) (s.inode e).valid (s.inode e).fields (s.disk (s.inode e).key) →
      Agrees (some ph') ip.valid ip.fields d
        ∧ (marks = s.marks ∧ ((s.disk (s.inode e).key).type ≠ 0 → d.type ≠ 0)
          ∨ marks = s.marks ++ [.free (s.inode e).key])) :
    Inv (s.worked p e k ph' ip d marks) := by
  obtain ⟨hlock, hholder⟩ := h.holder_eq hp hph
  have hpos := h.ref_pos hp
  have hold := h.agrees e hpos
  rw [hholder] at hold
  obtain ⟨hagrees, hmarks⟩ := hd hold
  have hkey : ∀ a, (update s.inode e ip a).key = (s.inode a).key := fun a => by
    by_cases ha : a = e
    · rw [ha, update_self, hip.1]
    · rw [update_of_ne ha]
  have href : ∀ a, (update s.inode e ip a).ref = (s.inode a).ref := fun a => by
    by_cases ha : a = e
    · rw [ha, update_self, hip.2]
    · rw [update_of_ne ha]
  constructor
  case unique =>
    intro a b
    simp only [State.worked, State.goto, hkey, href]
    exact h.unique a b
  case ref =>
    intro a
    simp only [State.worked, State.goto, href]
    rw [held_update_same (by rw [hp]; rfl)]
    exact h.ref a
  case uses =>
    intro q a m ph'' hq
    simp only [State.worked, State.goto, hkey] at hq ⊢
    obtain ⟨hqp, hq⟩ | ⟨hqp, hq⟩ := update_cases hq
    · obtain ⟨rfl, rfl, _⟩ := Pc.entry.inj hq
      exact h.uses p e k ph hp
    · exact h.uses q a m ph'' hq
  case lock =>
    intro a q
    simp only [State.worked, State.goto]
    rw [h.lock]
    by_cases hqp : q = p
    · rw [hqp, update_self, hp, Pc.locked_of_holds hph, Pc.locked_of_holds hph']
    · rw [update_of_ne hqp]
  case agrees =>
    intro a ha
    simp only [State.worked, State.goto, State.holder, hkey, href] at ha ⊢
    by_cases hae : a = e
    · rw [hae, hlock, Option.bind_some, update_self, update_self, update_self]
      exact hagrees
    · -- Another entry in use is for another inode.
      have hne : (s.inode a).key ≠ (s.inode e).key := fun heq => hae (h.unique a e ha hpos heq)
      have hnot : s.lock a ≠ some p := by
        intro hlocked
        have := (h.lock a p).mp hlocked
        rw [hp, Pc.locked_of_holds hph] at this
        exact hae (Option.some.inj this).symm
      rw [update_of_ne hae, update_of_ne hne, holder_update hnot]
      exact h.agrees a ha
  case marks =>
    simp only [State.worked, State.goto]
    rcases hmarks with ⟨rfl, htype⟩ | rfl
    · apply h.marks.keep
      intro m hm
      by_cases hmk : m = (s.inode e).key
      · rw [hmk, update_self]
        exact htype (hmk ▸ hm)
      · rwa [update_of_ne hmk]
    · exact h.marks.free fun m hm => update_of_ne hm _ _
  case types =>
    intro q dev type inum hq
    simp only [State.worked, State.goto] at hq
    obtain ⟨_, hq⟩ | ⟨hqp, hq⟩ := update_cases hq
    · cases hq
    exact h.types q dev type inum hq

/-- **Every step keeps the invariant.** -/
theorem Inv.step (hs : Inodes.step ninodes s ev = some t) : Inv t := by
  cases does_step hs with
  | place p c hp hc hrefs huse htype => exact h.place hp hc hrefs huse htype
  | alloc p dev type inum hp hfree => exact h.alloc hp hfree
  | share p e k hp he => exact h.share hp he
  | recycle p e k hp he href hnone => exact h.recycle hp he href hnone
  | acquire p e k ph ph' hp hph hph' hfree => exact h.acquire hp hph hph' hfree
  | work p e k ph ph' ip d marks hp hph hph' hip hd => exact h.work hp hph hph' hip hd
  | release p e k ph ph' hp hph hph' => exact h.release hp hph hph'
  | drop p e k hp => exact h.drop hp

end

omit [Fintype P] in
/-- **An entry in use is not recycled.** -/
theorem key_step (hs : Inodes.step ninodes s ev = some t) (he : 0 < (s.inode e).ref) :
    (t.inode e).key = (s.inode e).key := by
  have hset : ∀ (a : ℕ) (ip : Inode), ip.key = (s.inode a).key → (update s.inode a ip e).key
      = (s.inode e).key := by
    intro a ip hip
    by_cases hea : e = a
    · rw [hea, update_self, hip]
    · rw [update_of_ne hea]
  cases does_step hs with
  | place => rfl
  | alloc => rfl
  | acquire => rfl
  | release => rfl
  | share p a k hp ha => exact hset a _ rfl
  | work p a k ph ph' ip d marks hp hph hph' hip hd => exact hset a ip hip.1
  | drop p a k hp => exact hset a _ rfl
  | recycle p a k hp ha href hnone =>
    have hea : e ≠ a := by
      rintro rfl
      exact absurd href (Nat.pos_iff_ne_zero.mp he)
    simp only [State.goto, State.setInode, update_of_ne hea]

end Steps

omit [DecidableEq P] in
theorem inv_start (disk : Key → Dinode) : Inv (start (P := P) disk) where
  unique _ _ ha := absurd ha (Nat.lt_irrefl 0)
  ref _ := (held_eq_zero.mpr fun _ => rfl).symm
  uses := (fun _ _ _ _ h => by cases h)
  lock _ _ := ⟨(fun h => by cases h), (fun h => by cases h)⟩
  agrees _ ha := absurd ha (Nat.lt_irrefl 0)
  marks := ⟨fun A _ _ _ hm => by simp [start] at hm, fun A _ _ hm => by simp [start] at hm⟩
  types := (fun _ _ _ _ h => by cases h)

structure Sound (ninodes : ℕ) (s : State P) : Prop where
  /-- One entry in use for an inode at most. -/
  unique : ∀ a < NINODE, ∀ b < NINODE, 0 < (s.inode a).ref → 0 < (s.inode b).ref →
    (s.inode a).dev = (s.inode b).dev → (s.inode a).inum = (s.inode b).inum → a = b
  /-- An entry in use is not recycled. -/
  kept : ∀ ev t, step ninodes s ev = some t → ∀ e < NINODE, 0 < (s.inode e).ref →
    (t.inode e).dev = (s.inode e).dev ∧ (t.inode e).inum = (s.inode e).inum
  /-- `ref` is the number of references handed out and not yet put. -/
  ref : ∀ e < NINODE, (s.inode e).ref = (Finset.univ.filter fun p => (s.pc p).refs e = 1).card
  /-- Between two allocations of an inode it was freed. -/
  allocs : ∀ A B C k, s.marks = A ++ .alloc k :: (B ++ .alloc k :: C) → Mark.free k ∈ B
  /-- After `ilock` the entry holds the fields of the inode that the reference is for. -/
  locked : ∀ p e k, s.pc p = .entry e k .locked →
    s.lock e = some p ∧ (s.inode e).key = k ∧ (s.inode e).valid = true ∧ (s.inode e).fields = s.disk k

theorem Pc.refs_eq_ite (c : Pc) (e : ℕ) : c.refs e = if c.refs e = 1 then 1 else 0 := by
  cases c with
  | entry a k ph =>
    rw [Pc.refs]
    split <;> rfl
  | _ => rfl

/-- **The inode cache is sound** after every run of its users. -/
theorem icache_sound {disk : Key → Dinode} {es : List (Event P)} {s : State P}
    (hr : Reach (system ninodes disk) es s) : Sound ninodes s := by
  have h : Inv s := by
    refine hr.induct (I := fun _ s => Inv s) ?_ ?_
    · rintro s rfl
      exact inv_start disk
    · intro _ s ev t hs _ hstep
      exact hs.step hstep
  constructor
  case unique => exact fun a _ b _ ha hb hdev hinum => h.unique a b ha hb (Prod.ext hdev hinum)
  case kept => exact fun ev t hs e _ he => Prod.mk.inj (key_step hs he)
  case ref =>
    intro e _
    rw [h.ref, held, Finset.card_filter]
    exact Finset.sum_congr rfl fun p _ => Pc.refs_eq_ite (s.pc p) e
  case allocs => exact h.marks.between
  case locked =>
    intro p e k hp
    obtain ⟨hlock, hholder⟩ := h.holder_eq hp rfl
    have hkey := (h.uses p e k .locked hp).2
    have hagrees := h.agrees e (h.ref_pos hp)
    rw [hholder, hkey] at hagrees
    exact ⟨hlock, hkey, hagrees.1, hagrees.2.1⟩

/-- A user gets inode 1 from `ialloc` and puts it; while it is between freeing the inode and dropping its
reference, another one allocates inode 1 again and finds the same entry.  Its `ilock` reads the inode from the
disk. -/
theorem icache_sound_reallocated :
    ∃ s : State (Fin 2), Reach (system 200 fun _ => Dinode.zero)
        (([.ialloc 0 1 1, .run 0, .run 0, .ilock 0, .run 0, .run 0, .iunlock 0, .iput 0, .run 0, .run 0,
          .run 0, .run 0, .run 0,
          .run 0, .run 0] : List (Event (Fin 2))) ++ ([.ialloc 1 1 2, .run 1, .run 1,
          .ilock 1] : List (Event (Fin 2)))
          ++ ([.run 0, .run 0, .run 1, .run 1, .run 0] : List (Event (Fin 2)))) s
      ∧ Sound 200 s ∧ s.pc 1 = .entry 0 (1, 1) .locked ∧ (s.inode 0).fields.type = 2 := by
  generalize hes :
    ([.ialloc 0 1 1, .run 0, .run 0, .ilock 0, .run 0, .run 0, .iunlock 0, .iput 0, .run 0, .run 0, .run 0,
      .run 0, .run 0, .run 0, .run 0] : List (Event (Fin 2)))
      ++ ([.ialloc 1 1 2, .run 1, .run 1, .ilock 1] : List (Event (Fin 2)))
    ++ ([.run 0, .run 0, .run 1, .run 1, .run 0] : List (Event (Fin 2))) = es
  have hrun : ((system (P := Fin 2) 200 fun _ => Dinode.zero).runFrom (fun _ _ _ => True) []
    (start fun _ => Dinode.zero) es).map
      (fun s => (s.pc 1, (s.inode 0).fields.type)) = some (.entry 0 (1, 1) .locked, 2) := by
    rw [← hes]
    decide +kernel
  obtain ⟨s, hr, hs⟩ := exists_runIf_of_map es rfl hrun
  exact ⟨s, hr, icache_sound hr, congrArg Prod.fst hs, congrArg Prod.snd hs⟩

end Xv6e.Cache.Inodes
