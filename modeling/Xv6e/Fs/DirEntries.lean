import Xv6e.Fs.ProcessEffects

/-!
# Entries of a directory

A directory holds the entries `.` and `..` and then the others.  An entry is added at a place that is free, or
at the end; an entry that is removed leaves a free place.

* `IsDirOf n d` — `d` has the entries of a directory with number `n`;
* `Added`, `Removed` — one entry more and one entry less, with the counts of entries;
* `added_addEntry`, `removed_withEntry` — `dirlink` adds and `unlink` removes;
* `addEntry_map` — what a look-up finds afterwards.
-/

namespace Xv6e.Fs.DirEntries

open Names Inodes DiskSpecs

def rest (d : Dinode) : List Dirent := d.entries.drop 2

def up (d : Dinode) : ℕ := (d.entries.getD 1 Dirent.zero).inum

/-- The entries of a directory with number `n`. -/
structure IsDirOf (n : ℕ) (d : Dinode) : Prop where
  entries : d.entries = ⟨n, dot⟩ :: ⟨up d, dotdot⟩ :: rest d
  up_pos : 0 < up d
  names : ∀ e ∈ rest d, e.inum ≠ 0 → sameName e.name dot = false ∧ sameName e.name dotdot = false

/-- The same entries with one more, `e`. -/
def Added (e : Dirent) (r r' : List Dirent) : Prop :=
  ∃ j ≤ r.length, (∀ x, r[j]? = some x → x.inum = 0) ∧ r' = putEntry r j e

def Removed (e : Dirent) (r r' : List Dirent) : Prop := ∃ j, r[j]? = some e ∧ r' = r.set j Dirent.zero

variable {e x : Dirent} {r r' : List Dirent} {p : Dirent → Bool}

theorem split_at {j : ℕ} (h : r[j]? = some x) : ∃ l l', r = l ++ x :: l' ∧ l.length = j := by
  obtain ⟨hj, hx⟩ := List.getElem?_eq_some_iff.mp h
  refine ⟨r.take j, r.drop (j + 1), ?_, List.length_take_of_le hj.le⟩
  rw [← hx, List.cons_getElem_drop_succ, List.take_append_drop]

theorem Added.mem (h : Added e r r') (hx : x ∈ r') : x = e ∨ x ∈ r := by
  obtain ⟨j, _, _, rfl⟩ := h
  rw [putEntry] at hx
  split_ifs at hx
  · exact (List.mem_or_eq_of_mem_set hx).symm
  · rcases List.mem_append.mp hx with hx | hx
    · exact Or.inr hx
    · exact Or.inl (List.mem_singleton.mp hx)

theorem Added.countP (h : Added e r r') (hp : ∀ x, x.inum = 0 → p x = false) :
    r'.countP p = r.countP p + if p e then 1 else 0 := by
  obtain ⟨j, _, hfree, rfl⟩ := h
  rw [putEntry]
  by_cases hj : j < r.length
  · obtain ⟨l, l', hr, hl⟩ := split_at (List.getElem?_eq_getElem hj)
    have hz := hp _ (hfree _ (List.getElem?_eq_getElem hj))
    rw [if_pos hj]
    generalize r[j] = y at hr hz
    rw [hr, ← hl, List.set_append_right _ _ (le_refl _), Nat.sub_self, List.set_cons_zero, List.countP_append,
      List.countP_append, List.countP_cons, List.countP_cons, hz]
    simp only [Bool.false_eq_true, if_false]
    omega
  · rw [if_neg hj, List.countP_append, List.countP_singleton]

theorem Removed.mem (h : Removed e r r') (hx : x ∈ r') (hne : x.inum ≠ 0) : x ∈ r := by
  obtain ⟨j, _, rfl⟩ := h
  rcases List.mem_or_eq_of_mem_set hx with hx | hx
  · exact hx
  · exact absurd (by rw [hx]; rfl) hne

theorem Removed.mem_entry (h : Removed e r r') : e ∈ r := by
  obtain ⟨j, hj, _⟩ := h
  exact List.mem_of_getElem? hj

theorem Removed.countP (h : Removed e r r') (hp : p Dirent.zero = false) :
    r'.countP p + (if p e then 1 else 0) = r.countP p := by
  obtain ⟨j, hj, rfl⟩ := h
  obtain ⟨l, l', rfl, hl⟩ := split_at hj
  rw [← hl, List.set_append_right _ _ (le_refl _), Nat.sub_self, List.set_cons_zero, List.countP_append,
    List.countP_append, List.countP_cons, List.countP_cons, hp]
  simp only [Bool.false_eq_true, if_false]
  omega

/-! ### `dirlink` and `unlink` -/

theorem sameName_take (name name' : Name) : sameName (name.take DIRSIZ) name' = sameName name name' := by
  rw [sameName, sameName, List.take_take, min_self]

variable {n : ℕ} {d : Dinode} {name : Name}

/-- A name that is not found is not that of an entry in use. -/
theorem findEntry_none {entries : List Dirent} {off : ℕ} (h : findEntry name entries off = none)
    (hx : x ∈ entries) (hne : x.inum ≠ 0) : sameName name x.name = false := by
  induction entries generalizing off with
  | nil => cases hx
  | cons e rest ih =>
    rw [findEntry] at h
    by_cases hz : e.inum = 0
    · rw [if_pos hz] at h
      rcases List.mem_cons.mp hx with rfl | hx
      · exact absurd hz hne
      · exact ih h hx
    · rw [if_neg hz] at h
      by_cases hs : sameName name e.name = true
      · rw [if_pos hs] at h
        cases h
      · rw [if_neg hs] at h
        rcases List.mem_cons.mp hx with rfl | hx
        · exact Bool.not_eq_true _ ▸ hs
        · exact ih h hx

theorem IsDirOf.new_name (h : IsDirOf n d) (hn : 0 < n) (hnew : findEntry name d.entries 0 = none) :
    sameName name dot = false ∧ sameName name dotdot = false := by
  constructor
  · exact findEntry_none (x := ⟨n, dot⟩) hnew (by rw [h.entries]; exact List.mem_cons_self) hn.ne'
  · exact findEntry_none (x := ⟨up d, dotdot⟩) hnew
      (by rw [h.entries]; exact List.mem_cons_of_mem _ List.mem_cons_self) h.up_pos.ne'

theorem rest_up_of_entries {m : ℕ} (hd : d.entries = ⟨n, dot⟩ :: ⟨m, dotdot⟩ :: r) :
    rest d = r ∧ up d = m := by
  rw [rest, up, hd]
  exact ⟨rfl, rfl⟩

theorem putEntry_cons_cons (a b : Dirent) (r : List Dirent) (j : ℕ) (e : Dirent) :
    putEntry (a :: b :: r) (j + 2) e = a :: b :: putEntry r j e := by
  rw [putEntry, putEntry]
  by_cases hj : j < r.length
  · rw [if_pos hj, if_pos (by simpa using hj)]
    rfl
  · rw [if_neg hj, if_neg (by simpa using hj)]
    rfl

/-- **`dirlink` adds an entry** after `.` and `..`. -/
theorem added_addEntry (h : IsDirOf n d) (hn : 0 < n) (hnew : findEntry name d.entries 0 = none) (i : ℕ) :
    Added ⟨i, name.take DIRSIZ⟩ (rest d) (rest (addEntry d name i)) ∧ up (addEntry d name i) = up d
      ∧ IsDirOf n (addEntry d name i) := by
  obtain ⟨j, hj, hoff, hfree⟩ := freeEntry_place (rest d) (2 * direntSize)
  have hplace : freeEntry d.entries 0 = 2 * direntSize + direntSize * j := by
    rw [h.entries, freeEntry, if_neg hn.ne', freeEntry, if_neg h.up_pos.ne', ← hoff]
    rfl
  have hentries : (addEntry d name i).entries
      = ⟨n, dot⟩ :: ⟨up d, dotdot⟩ :: putEntry (rest d) j ⟨i, name.take DIRSIZ⟩ := by
    have hdiv : (2 * direntSize + direntSize * j) / direntSize = j + 2 := by
      simp only [direntSize]
      omega
    rw [addEntry, withEntry, hplace, hdiv]
    show putEntry d.entries (j + 2) _ = _
    rw [h.entries, putEntry_cons_cons]
  obtain ⟨hrest, hup⟩ := rest_up_of_entries hentries
  have hadded : Added ⟨i, name.take DIRSIZ⟩ (rest d) (rest (addEntry d name i)) := ⟨j, hj, hfree, hrest⟩
  refine ⟨hadded, hup, by rw [hup, hrest]; exact hentries, by rw [hup]; exact h.up_pos, fun e he hne => ?_⟩
  rcases hadded.mem he with rfl | he
  · have := h.new_name hn hnew
    rwa [sameName_take, sameName_take]
  · exact h.names e he hne

/-- **`unlink` removes an entry** after `.` and `..`. -/
theorem removed_withEntry (h : IsDirOf n d) {off i : ℕ}
    (hdots : sameName name dot = false ∧ sameName name dotdot = false)
    (hfound : findEntry name d.entries 0 = some (off, i)) :
    ∃ e : Dirent, e.inum = i ∧ i ≠ 0 ∧ Removed e (rest d) (rest (withEntry d (off / direntSize) Dirent.zero))
      ∧ up (withEntry d (off / direntSize) Dirent.zero) = up d
      ∧ IsDirOf n (withEntry d (off / direntSize) Dirent.zero) := by
  obtain ⟨k, e, hk, hoff, hi, hne, hname⟩ := findEntry_some hfound
  -- the first two entries have other names
  obtain ⟨j, rfl⟩ : ∃ j, k = j + 2 := by
    rw [h.entries] at hk
    rcases k with _ | _ | j
    · cases hk
      exact absurd (hdots.1.symm.trans hname) Bool.false_ne_true
    · cases hk
      exact absurd (hdots.2.symm.trans hname) Bool.false_ne_true
    · exact ⟨j, rfl⟩
  have hj : (rest d)[j]? = some e := by
    rw [h.entries] at hk
    exact hk
  have hlt : j < (rest d).length := (List.getElem?_eq_some_iff.mp hj).1
  have hdiv : off / direntSize = j + 2 := by
    rw [hoff]
    simp only [direntSize]
    omega
  have hentries : (withEntry d (off / direntSize) Dirent.zero).entries
      = ⟨n, dot⟩ :: ⟨up d, dotdot⟩ :: (rest d).set j Dirent.zero := by
    rw [withEntry, hdiv]
    show putEntry d.entries (j + 2) _ = _
    rw [h.entries, putEntry_cons_cons, putEntry, if_pos (by exact hlt)]
  obtain ⟨hrest, hup⟩ := rest_up_of_entries hentries
  have hremoved : Removed e (rest d) (rest (withEntry d (off / direntSize) Dirent.zero)) := ⟨j, hj, hrest⟩
  exact ⟨e, hi, hne, hremoved, hup, by rw [hup, hrest]; exact hentries, by rw [hup]; exact h.up_pos,
    fun e' he' hne' => h.names e' (hremoved.mem he' hne') hne'⟩

/-! ### The map of a directory -/

theorem putEntry_cons (a : Dirent) (r : List Dirent) (j : ℕ) (e : Dirent) :
    putEntry (a :: r) (j + 1) e = a :: putEntry r j e := by
  rw [putEntry, putEntry]
  split_ifs <;> simp_all

theorem putEntry_putEntry {j : ℕ} (hj : j ≤ r.length) (e e' : Dirent) :
    putEntry (putEntry r j e) j e' = putEntry r j e' := by
  induction r generalizing j with
  | nil =>
    obtain rfl : j = 0 := Nat.le_zero.mp hj
    rfl
  | cons a r ih =>
    cases j with
    | zero => rfl
    | succ j => rw [putEntry_cons, putEntry_cons, putEntry_cons, ih (Nat.le_of_succ_le_succ hj)]

/-- An entry in a free place is found there by its name, and changes nothing for other names. -/
theorem findEntry_putEntry {j off : ℕ} (hj : j ≤ r.length) (hfree : ∀ x, r[j]? = some x → x.inum = 0)
    (e : Dirent) (hnew : e.inum ≠ 0 → sameName name e.name = true → findEntry name r off = none) :
    findEntry name (putEntry r j e) off
      = if e.inum ≠ 0 ∧ sameName name e.name = true then some (off + direntSize * j, e.inum)
      else findEntry name r off := by
  induction r generalizing j off with
  | nil =>
    obtain rfl : j = 0 := Nat.le_zero.mp hj
    show findEntry name [e] off = _
    simp only [findEntry]
    grind
  | cons a r ih =>
    cases j with
    | zero =>
      have ha := hfree a rfl
      show findEntry name (e :: r) off = _
      simp only [findEntry]
      grind
    | succ j =>
      rw [findEntry] at hnew
      rw [putEntry_cons, findEntry, findEntry, ih (Nat.le_of_succ_le_succ hj) hfree (by grind)]
      grind

/-- **A directory is a map.**  The entry that `dirlink` writes for a new name was free or is at the end; the
name is found there, every other name is found as before, and no other entry changes.  Clearing the entry, as
`unlink` does, restores the map. -/
theorem addEntry_map {i : ℕ} (hi : i ≠ 0) (hnew : findEntry name d.entries 0 = none) :
    ∃ j ≤ d.entries.length, (∀ x, d.entries[j]? = some x → x.inum = 0)
      ∧ findEntry name (addEntry d name i).entries 0 = some (direntSize * j, i)
      ∧ (∀ t, sameName t name = false → findEntry t (addEntry d name i).entries 0 = findEntry t d.entries 0)
      ∧ (∀ k, k ≠ j → (addEntry d name i).entries[k]? = d.entries[k]?)
      ∧ ∀ t, findEntry t (withEntry (addEntry d name i) j Dirent.zero).entries 0
      = findEntry t d.entries 0 := by
  obtain ⟨j, hj, hoff, hfree⟩ := freeEntry_place d.entries 0
  have hself : ∀ t, sameName t (name.take DIRSIZ) = sameName t name := fun t => by
    rw [sameName, sameName, List.take_take, min_self]
  have hadd : (addEntry d name i).entries = putEntry d.entries j ⟨i, name.take DIRSIZ⟩ := by
    rw [addEntry, withEntry, hoff, Nat.zero_add, Nat.mul_div_cancel_left j (by decide)]
  simp only [withEntry, hadd]
  refine ⟨j, hj, hfree, ?_, fun t ht => ?_, fun k hk => ?_, fun t => ?_⟩
  · rw [findEntry_putEntry hj hfree _ fun _ _ => hnew,
      if_pos ⟨hi, by rw [hself, sameName, beq_self_eq_true]⟩, Nat.zero_add]
  · have hother : ¬ sameName t (name.take DIRSIZ) = true := by rw [hself, ht]; exact Bool.false_ne_true
    rw [findEntry_putEntry hj hfree _ fun _ h => absurd h hother, if_neg fun h => hother h.2]
  · rw [putEntry]
    split_ifs
    · rw [List.getElem?_set_ne hk.symm]
    · grind
  · rw [putEntry_putEntry hj, findEntry_putEntry hj hfree _ fun h => absurd rfl h, if_neg fun h => h.1 rfl]

/-- A directory with the names `x` and `y` and a free entry between them. -/
def gapDir : Dinode :=
  ⟨.dir, 0, 0, 1, [⟨3, dot⟩, ⟨1, dotdot⟩, ⟨4, [120]⟩, Dirent.zero, ⟨5, [121]⟩], 0⟩

/-- A name is added to it, and `y` is found as before. -/
theorem addEntry_map_gap : (∃ off, findEntry [97] (addEntry gapDir [97] 6).entries 0 = some (off, 6))
    ∧ findEntry [121] (addEntry gapDir [97] 6).entries 0 = some (64, 5) := by
  obtain ⟨j, _, _, hfound, hother, _⟩ := @addEntry_map gapDir [97] 6 (by decide) (by decide)
  exact ⟨⟨_, hfound⟩, (hother [121] (by decide)).trans (by decide)⟩

end Xv6e.Fs.DirEntries
