import Xv6e.Cache.Inodes

/-!
# What the steps of the inode cache do

* `Agrees` — how the fields of an entry, its `valid` and the inode on the disk go together, by the phase of
  the holder of the lock;
* `Alternate` — an inode is freed between two allocations;
* `search_hit`, `search_empty` — how the loop of `iget` ends;
* `Does`, `does_step` — what a step does: one case for each way of changing the counts, the locks and the
  copies.
-/

namespace Xv6e.Cache.Inodes

open Library.Transition Library.Holders

/-- An entry against the inode on the disk.  The phase is that of the holder of the lock; with nobody at the
lock, and where the code is about to look at `valid`, a valid entry is a copy of an inode in use. -/
def Agrees (ph : Option Phase) (valid : Bool) (fields disk : Dinode) : Prop :=
  match ph with
  | some .locked | some .putRefs | some .trunc | some .freeing => valid = true ∧ fields = disk ∧ disk.type ≠ 0
  | some .changed | some .truncated => valid = true ∧ fields.type ≠ 0 ∧ disk.type ≠ 0
  | some .freed => disk.type ≠ 0
  | some .erased => True
  | _ => valid = true → fields = disk ∧ disk.type ≠ 0

theorem Agrees.alloc {ph : Option Phase} {valid : Bool} {fields disk disk' : Dinode}
    (h : Agrees ph valid fields disk) (hfree : disk.type = 0) : Agrees ph valid fields disk' := by
  unfold Agrees at h ⊢
  split at h
  case h_1 | h_2 | h_3 | h_4 => exact absurd hfree h.2.2
  case h_5 | h_6 => exact absurd hfree h.2.2
  case h_7 => exact absurd hfree h
  case h_8 => trivial
  case h_9 => exact fun hv => absurd hfree (h hv).2

/-- Between two allocations of an inode it is freed, and an inode that was not freed since is in use. -/
structure Alternate (marks : List Mark) (disk : Key → Dinode) : Prop where
  between : ∀ A B C k, marks = A ++ .alloc k :: (B ++ .alloc k :: C) → Mark.free k ∈ B
  live : ∀ A B k, marks = A ++ .alloc k :: B → Mark.free k ∉ B → (disk k).type ≠ 0

section Marks

variable {marks : List Mark} {disk disk' : Key → Dinode} {k : Key}

theorem Alternate.keep (h : Alternate marks disk) (hd : ∀ k, (disk k).type ≠ 0 → (disk' k).type ≠ 0) :
    Alternate marks disk' :=
  ⟨h.between, fun A B k hm hB => hd k (h.live A B k hm hB)⟩

/-- A list that ends with one more mark, cut at a mark. -/
theorem cut_concat {A B : List Mark} {m m' : Mark} (h : marks ++ [m] = A ++ m' :: B) :
    (B = [] ∧ m' = m ∧ A = marks) ∨ ∃ B', B = B' ++ [m] ∧ marks = A ++ m' :: B' := by
  rcases List.eq_nil_or_concat B with rfl | ⟨B', x, rfl⟩
  · left
    obtain ⟨hA, hm⟩ := List.append_inj' h rfl
    exact ⟨rfl, (List.singleton_inj.mp hm).symm, hA.symm⟩
  · right
    rw [List.concat_eq_append, ← List.cons_append, ← List.append_assoc] at h
    obtain ⟨hA, hm⟩ := List.append_inj' h rfl
    obtain rfl := List.singleton_inj.mp hm
    exact ⟨B', List.concat_eq_append, hA⟩

theorem Alternate.alloc (h : Alternate marks disk) (hfree : (disk k).type = 0) (hk : (disk' k).type ≠ 0)
    (hd : ∀ m, m ≠ k → disk' m = disk m) : Alternate (marks ++ [.alloc k]) disk' := by
  constructor
  · intro A B C m hm
    rcases cut_concat hm with ⟨hB, _, _⟩ | ⟨B', hB, hold⟩
    · simp at hB
    · rcases List.eq_nil_or_concat C with rfl | ⟨C', x, rfl⟩
      · -- The second allocation is the new one.
        obtain ⟨rfl, hmk⟩ := List.append_inj' hB rfl
        obtain rfl : m = k := Mark.alloc.inj (List.singleton_inj.mp hmk)
        by_contra hnot
        exact h.live A B m hold hnot hfree
      · rw [List.concat_eq_append, ← List.cons_append, ← List.append_assoc] at hB
        obtain ⟨rfl, _⟩ := List.append_inj' hB rfl
        exact h.between A B C' m hold
  · intro A B m hm hB
    by_cases hmk : m = k
    · rw [hmk]
      exact hk
    · rw [hd m hmk]
      rcases cut_concat hm with ⟨_, heq, _⟩ | ⟨B', rfl, hold⟩
      · exact absurd (Mark.alloc.inj heq) hmk
      · exact h.live A B' m hold fun hmem => hB (List.mem_append_left _ hmem)

theorem Alternate.free (h : Alternate marks disk) (hd : ∀ m, m ≠ k → disk' m = disk m) :
    Alternate (marks ++ [.free k]) disk' := by
  constructor
  · intro A B C m hm
    rcases cut_concat hm with ⟨hB, _, _⟩ | ⟨B', hB, hold⟩
    · simp at hB
    · rcases List.eq_nil_or_concat C with rfl | ⟨C', x, rfl⟩
      · obtain ⟨_, hmk⟩ := List.append_inj' hB rfl
        cases List.singleton_inj.mp hmk
      · rw [List.concat_eq_append, ← List.cons_append, ← List.append_assoc] at hB
        obtain ⟨rfl, _⟩ := List.append_inj' hB rfl
        exact h.between A B C' m hold
  · intro A B m hm hB
    rcases cut_concat hm with ⟨_, heq, _⟩ | ⟨B', rfl, hold⟩
    · cases heq
    · have hmk : m ≠ k := by
        rintro rfl
        exact hB (List.mem_append_right _ List.mem_cons_self)
      rw [hd m hmk]
      exact h.live A B' m hold fun hmem => hB (List.mem_append_left _ hmem)

end Marks

variable {L : List ℕ} {empty : Option ℕ} {e ninodes : ℕ}

section Search

variable {P : Type} {s : State P} {k : Key}

theorem search_hit (h : s.search k L empty = .hit e) :
    e ∈ L ∧ 0 < (s.inode e).ref ∧ (s.inode e).key = k := by
  induction L generalizing empty with
  | nil => cases empty <;> cases h
  | cons a L ih =>
    rw [State.search] at h
    split at h
    case isTrue ha =>
      cases h
      exact ⟨List.mem_cons_self, ha⟩
    case isFalse =>
      obtain ⟨hmem, hfound⟩ := ih h
      exact ⟨List.mem_cons_of_mem a hmem, hfound⟩

/-- The slot that the loop remembers is empty, and no entry is in use for the inode. -/
theorem search_empty (h : s.search k L empty = .empty e) :
    (empty = some e ∨ e ∈ L ∧ (s.inode e).ref = 0) ∧ ∀ a ∈ L, 0 < (s.inode a).ref → (s.inode a).key ≠ k := by
  induction L generalizing empty with
  | nil =>
    cases empty with
    | none => cases h
    | some a =>
      cases h
      exact ⟨Or.inl rfl, by simp⟩
  | cons a L ih =>
    rw [State.search] at h
    split at h
    case isTrue => cases h
    case isFalse ha =>
      obtain ⟨hslot, hnone⟩ := ih h
      constructor
      · rcases hslot with hslot | ⟨hmem, href⟩
        · split at hslot
          case isTrue hempty =>
            obtain rfl := Option.some.inj hslot
            exact Or.inr ⟨List.mem_cons_self, hempty.2⟩
          case isFalse => exact Or.inl hslot
        · exact Or.inr ⟨List.mem_cons_of_mem a hmem, href⟩
      · intro b hb hbref
        rcases List.mem_cons.mp hb with rfl | hb
        · exact fun hkey => ha ⟨hbref, hkey⟩
        · exact hnone b hb hbref

end Search

variable {P : Type} [DecidableEq P]

/-- The state after a step of the holder of the entry `e`. -/
def State.worked (s : State P) (p : P) (e : ℕ) (k : Key) (ph : Phase) (ip : Inode) (d : Dinode)
    (marks : List Mark) : State P :=
  { s with
    inode := Function.update s.inode e ip
    disk := Function.update s.disk (s.inode e).key d
    marks := marks }.goto p (.entry e k ph)

theorem worked_same (s : State P) (p : P) (e : ℕ) (k : Key) (ph : Phase) (ip : Inode) :
    s.worked p e k ph ip (s.disk (s.inode e).key) s.marks = (s.setInode e ip).goto p (.entry e k ph) := by
  rw [State.worked, Function.update_eq_self]
  rfl

theorem worked_goto (s : State P) (p : P) (e : ℕ) (k : Key) (ph : Phase) :
    s.worked p e k ph (s.inode e) (s.disk (s.inode e).key) s.marks = s.goto p (.entry e k ph) := by
  rw [worked_same, State.setInode, Function.update_eq_self]

theorem worked_iupdate (s : State P) (p : P) (e : ℕ) (k : Key) (ph : Phase) (marks : List Mark) :
    s.worked p e k ph (s.inode e) (s.inode e).fields marks = { s.iupdate e with marks := marks }.goto p
    (.entry e k ph) := by
  rw [State.worked, Function.update_eq_self]
  rfl

/-- **What a step does.** -/
inductive Does (s : State P) : State P → Prop
  /-- A user without a lock goes on. -/
  | place (p : P) (c : Pc) (hp : (s.pc p).locked = none) (hc : c.locked = none)
      (hrefs : ∀ e, c.refs e = (s.pc p).refs e)
      (huse : ∀ e k ph, c = .entry e k ph → ∃ ph', s.pc p = .entry e k ph')
      (htype : ∀ dev type inum, c = .scanning dev type inum → type ≠ 0 ∨ ∃ n, s.pc p = .scanning dev type n) :
      Does s (s.goto p c)
  /-- `ialloc` marks a free inode. -/
  | alloc (p : P) (dev type inum : ℕ) (hp : s.pc p = .scanning dev type inum)
      (hfree : (s.disk (dev, inum)).type = 0) :
      Does s (({ s with disk := Function.update s.disk (dev, inum) { Dinode.zero with type := type } }.mark
        (.alloc (dev, inum))).goto p (.getting (dev, inum)))
  /-- One more reference to an entry in use. -/
  | share (p : P) (e : ℕ) (k : Key) (hp : s.pc p = .getting k ∨ s.pc p = .idle)
      (he : (e < NINODE ∧ 0 < (s.inode e).ref ∧ (s.inode e).key = k) ∨ ∃ q ph, s.pc q = .entry e k ph) :
      Does s ((s.setInode e { s.inode e with ref := (s.inode e).ref + 1 }).goto p (.entry e k .ref))
  /-- `iget` recycles an entry. -/
  | recycle (p : P) (e : ℕ) (k : Key) (hp : s.pc p = .getting k) (he : e < NINODE)
      (href : (s.inode e).ref = 0) (hnone : ∀ a < NINODE, 0 < (s.inode a).ref → (s.inode a).key ≠ k) :
      Does s ((s.setInode e { s.inode e with dev := k.1, inum := k.2, ref := 1, valid := false }).goto p
        (.entry e k .ref))
  | acquire (p : P) (e : ℕ) (k : Key) (ph ph' : Phase) (hp : s.pc p = .entry e k ph) (hph : ph.holds = false)
      (hph' : ph' = .checking ∨ ph' = .putLocked) (hfree : s.lock e = none) :
      Does s ({ s with lock := Function.update s.lock e (some p) }.goto p (.entry e k ph'))
  /-- The holder of the lock works on the entry and on its inode. -/
  | work (p : P) (e : ℕ) (k : Key) (ph ph' : Phase) (ip : Inode) (d : Dinode) (marks : List Mark)
      (hp : s.pc p = .entry e k ph)
      (hph : ph.holds = true) (hph' : ph'.holds = true)
      (hip : ip.key = (s.inode e).key ∧ ip.ref = (s.inode e).ref)
      (hd : Agrees (some ph) (s.inode e).valid (s.inode e).fields (s.disk (s.inode e).key) →
        Agrees (some ph') ip.valid ip.fields d
          ∧ (marks = s.marks ∧ ((s.disk (s.inode e).key).type ≠ 0 → d.type ≠ 0)
            ∨ marks = s.marks ++ [.free (s.inode e).key])) :
      Does s (s.worked p e k ph' ip d marks)
  | release (p : P) (e : ℕ) (k : Key) (ph ph' : Phase) (hp : s.pc p = .entry e k ph)
      (hph : ph = .locked ∨ ph = .unlocking) (hph' : ph'.holds = false) : Does s (s.releasesleep p e k ph')
  | drop (p : P) (e : ℕ) (k : Key) (hp : s.pc p = .entry e k .dropping) :
      Does s ((s.setInode e { s.inode e with ref := (s.inode e).ref - 1 }).goto p .idle)

variable {ph ph' : Phase}

section Inversion

variable {s t : State P} {p : P} {e : ℕ} {k : Key}

theorem Does.next (hp : s.pc p = .entry e k ph) (hph : ph.holds = false) (hph' : ph'.holds = false) :
    Does s (s.goto p (.entry e k ph')) := by
  apply Does.place
  case hp => rw [hp, Pc.locked, hph]; rfl
  case hc => rw [Pc.locked, hph']; rfl
  case hrefs => intro a; rw [hp]; rfl
  case huse =>
    intro a m ph'' heq
    obtain ⟨rfl, rfl, _⟩ := Pc.entry.inj heq
    exact ⟨ph, hp⟩
  case htype => simp

theorem does_iget (hp : s.pc p = .getting k)
    (h : (s.iget k).map (fun r => r.2.goto p (.entry r.1 k .ref)) = some t) : Does s t := by
  obtain ⟨⟨e, u⟩, hget, rfl⟩ := Option.map_eq_some_iff.mp h
  rw [State.iget] at hget
  split at hget
  case h_1 e' hfound =>
    obtain ⟨rfl, rfl⟩ := Prod.mk.inj (Option.some.inj hget)
    obtain ⟨hmem, href, hkey⟩ := search_hit hfound
    exact Does.share p e' k (Or.inl hp) (Or.inl ⟨List.mem_range.mp hmem, href, hkey⟩)
  case h_2 e' hfound =>
    obtain ⟨rfl, rfl⟩ := Prod.mk.inj (Option.some.inj hget)
    obtain ⟨hslot, hnone⟩ := search_empty hfound
    rcases hslot with hslot | ⟨hmem, href⟩
    · cases hslot
    · exact Does.recycle p e' k hp (List.mem_range.mp hmem) href fun a ha => hnone a (List.mem_range.mpr ha)
  case h_3 => cases hget

theorem does_acquiresleep (hp : s.pc p = .entry e k ph) (hph : ph.holds = false)
    (hph' : ph' = .checking ∨ ph' = .putLocked) (h : s.acquiresleep p e k ph' = some t) : Does s t := by
  rw [State.acquiresleep] at h
  split at h
  case isTrue hfree =>
    cases h
    exact Does.acquire p e k ph ph' hp hph hph' (Option.isNone_iff_eq_none.mp hfree)
  case isFalse => cases h

theorem does_goto (hp : s.pc p = .entry e k ph) (hph : ph.holds = true) (hph' : ph'.holds = true)
    (hd : Agrees (some ph) (s.inode e).valid (s.inode e).fields (s.disk (s.inode e).key) →
      Agrees (some ph') (s.inode e).valid (s.inode e).fields (s.disk (s.inode e).key)) :
    Does s (s.goto p (.entry e k ph')) := by
  rw [← worked_goto]
  exact Does.work p e k ph ph' _ _ _ hp hph hph' ⟨rfl, rfl⟩ fun h => ⟨hd h, Or.inl ⟨rfl, id⟩⟩

theorem does_setInode {ip : Inode} (hp : s.pc p = .entry e k ph) (hph : ph.holds = true)
    (hph' : ph'.holds = true) (hip : ip.key = (s.inode e).key ∧ ip.ref = (s.inode e).ref)
    (hd : Agrees (some ph) (s.inode e).valid (s.inode e).fields (s.disk (s.inode e).key) →
      Agrees (some ph') ip.valid ip.fields (s.disk (s.inode e).key)) :
    Does s ((s.setInode e ip).goto p (.entry e k ph')) := by
  rw [← worked_same]
  exact Does.work p e k ph ph' _ _ _ hp hph hph' hip fun h => ⟨hd h, Or.inl ⟨rfl, id⟩⟩

theorem does_iupdate (hp : s.pc p = .entry e k ph) (hph : ph.holds = true) (hph' : ph'.holds = true)
    (hd : Agrees (some ph) (s.inode e).valid (s.inode e).fields (s.disk (s.inode e).key) →
      Agrees (some ph') (s.inode e).valid (s.inode e).fields (s.inode e).fields
      ∧ (s.inode e).fields.type ≠ 0) :
    Does s ((s.iupdate e).goto p (.entry e k ph')) := by
  have hwork := Does.work p e k ph ph' (s.inode e) (s.inode e).fields s.marks hp hph hph' ⟨rfl, rfl⟩ fun h =>
    ⟨(hd h).1, Or.inl ⟨rfl, fun _ => (hd h).2⟩⟩
  rw [worked_iupdate] at hwork
  exact hwork

theorem does_run (h : s.run ninodes p = some t) : Does s t := by
  rw [State.run] at h
  split at h
  case h_1 => cases h
  case h_2 dev type inum hp =>
    split at h
    case isFalse => cases h
    case isTrue =>
      split at h
      case isTrue hfree =>
        cases h
        exact Does.alloc p dev type inum hp hfree
      case isFalse =>
        cases h
        apply Does.place
        case hp => rw [hp]; rfl
        case hc => rfl
        case hrefs => intro a; rw [hp]; rfl
        case huse => simp
        case htype =>
          intro dev' type' inum' heq
          obtain ⟨rfl, rfl, _⟩ := Pc.scanning.inj heq
          exact Or.inr ⟨inum, hp⟩
  case h_3 k hp => exact does_iget hp h
  case h_4 e k hp => exact does_acquiresleep hp rfl (Or.inl rfl) h
  case h_5 e k hp =>
    split at h
    case isTrue hv =>
      dsimp only at h
      split at h
      case isTrue => cases h
      case isFalse htype =>
        cases h
        exact does_setInode hp rfl rfl ⟨rfl, rfl⟩ fun _ => ⟨rfl, rfl, htype⟩
    case isFalse hv =>
      cases h
      rw [Bool.not_eq_false] at hv
      exact does_goto hp rfl rfl fun ha => ⟨hv, ha hv⟩
  case h_6 e k hp => exact does_acquiresleep hp rfl (Or.inr rfl) h
  case h_7 e k hp =>
    cases h
    split
    case isTrue hput => exact does_goto hp rfl rfl fun ha => ⟨hput.1, ha hput.1⟩
    case isFalse => exact does_goto hp rfl rfl id
  case h_8 e k hp =>
    cases h
    split
    case isTrue => exact does_goto hp rfl rfl id
    case isFalse => exact does_goto hp rfl rfl fun ha _ => ha.2
  case h_9 e k hp =>
    cases h
    refine does_setInode hp rfl rfl ⟨rfl, rfl⟩ fun ha => ⟨ha.1, ?_, ha.2.2⟩
    show (s.inode e).fields.type ≠ 0
    rw [ha.2.1]
    exact ha.2.2
  case h_10 e k hp =>
    cases h
    exact does_iupdate hp rfl rfl fun ha => ⟨⟨ha.1, rfl, ha.2.1⟩, ha.2.1⟩
  case h_11 e k hp =>
    cases h
    exact does_setInode hp rfl rfl ⟨rfl, rfl⟩ fun ha => ha.2.2
  case h_12 e k hp =>
    cases h
    have hwork := Does.work p e k .freed .erased (s.inode e) (s.inode e).fields
      (s.marks ++ [.free (s.inode e).key]) hp rfl rfl ⟨rfl, rfl⟩ fun _ => ⟨trivial, Or.inr rfl⟩
    rw [worked_iupdate] at hwork
    exact hwork
  case h_13 e k hp =>
    cases h
    exact does_setInode hp rfl rfl ⟨rfl, rfl⟩ fun _ => (fun h => by cases h)
  case h_14 e k hp =>
    cases h
    exact Does.release p e k .unlocking .dropping hp (Or.inr rfl) rfl
  case h_15 e k hp =>
    cases h
    exact Does.drop p e k hp
  all_goals cases h

theorem does_step {e : Event P} (h : step ninodes s e = some t) : Does s t := by
  cases e with
  | ialloc p dev type =>
    rw [step] at h
    split at h
    case isFalse => cases h
    case isTrue hp =>
      cases h
      apply Does.place
      case hp => rw [hp.1]; rfl
      case hc => rfl
      case hrefs => intro a; rw [hp.1]; rfl
      case huse => simp
      case htype =>
        intro dev' type' inum' heq
        obtain ⟨_, rfl, _⟩ := Pc.scanning.inj heq
        exact Or.inl hp.2
  | iget p k =>
    rw [step] at h
    split at h
    case isFalse => cases h
    case isTrue hp =>
      cases h
      apply Does.place
      case hp => rw [hp]; rfl
      case hc => rfl
      case hrefs => intro a; rw [hp]; rfl
      case huse => simp
      case htype => simp
  | idup p q =>
    rw [step] at h
    split at h
    case h_1 e k hp hq => cases h; exact Does.share q e k (Or.inr hq) (Or.inr ⟨p, _, hp⟩)
    case h_2 e k hp hq => cases h; exact Does.share q e k (Or.inr hq) (Or.inr ⟨p, _, hp⟩)
    case h_3 e k hp hq => cases h; exact Does.share q e k (Or.inr hq) (Or.inr ⟨p, _, hp⟩)
    case h_4 => cases h
  | ilock p =>
    rw [step] at h
    split at h
    case h_1 e k hp => cases h; exact Does.next hp rfl rfl
    case h_2 => cases h
  | change p f =>
    rw [step] at h
    split at h
    case h_1 e k hp =>
      split at h
      case isTrue hf =>
        cases h
        exact does_setInode hp rfl rfl ⟨rfl, rfl⟩ fun ha => ⟨ha.1, hf, ha.2.2⟩
      case isFalse => cases h
    case h_2 e k hp =>
      split at h
      case isTrue hf =>
        cases h
        exact does_setInode hp rfl rfl ⟨rfl, rfl⟩ fun ha => ⟨ha.1, hf, ha.2.2⟩
      case isFalse => cases h
    case h_3 => cases h
  | iupdate p =>
    rw [step] at h
    split at h
    case h_1 e k hp =>
      cases h
      refine does_iupdate hp rfl rfl fun ha => ?_
      have htype : (s.inode e).fields.type ≠ 0 := by
        rw [ha.2.1]
        exact ha.2.2
      exact ⟨⟨ha.1, rfl, htype⟩, htype⟩
    case h_2 e k hp =>
      cases h
      exact does_iupdate hp rfl rfl fun ha => ⟨⟨ha.1, rfl, ha.2.1⟩, ha.2.1⟩
    case h_3 => cases h
  | iunlock p =>
    rw [step] at h
    split at h
    case h_1 e k hp => cases h; exact Does.release p e k .locked .ref hp (Or.inl rfl) rfl
    case h_2 => cases h
  | iput p =>
    rw [step] at h
    split at h
    case h_1 e k hp => cases h; exact Does.next hp rfl rfl
    case h_2 => cases h
  | run p => exact does_run h

end Inversion

end Xv6e.Cache.Inodes
