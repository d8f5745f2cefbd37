import Mathlib

/-!
# Names and paths

Path elements and directory entries of `fs.c`.  A path is the bytes of the string before its terminator; an
element of it, and the name in a directory entry, is cut to `DIRSIZ` bytes.

* `skipelem` — the first element of a path and what follows it;
* `findEntry`, `freeEntry` — the loops of `dirlookup` and `dirlink` over the entries of a directory;
* `dirlookup_bytes` — what they find is what `namecmp` finds in the bytes.
-/

namespace Xv6e.Fs.Names

def DIRSIZ : ℕ := 14

abbrev Name : Type := List UInt8

def slash : UInt8 := 47

def dot : Name := [46]

def dotdot : Name := [46, 46]

/-- `struct dirent`; the name without its padding. -/
structure Dirent where
  inum : ℕ
  name : Name
  deriving DecidableEq, Repr

def Dirent.zero : Dirent := ⟨0, []⟩

def direntSize : ℕ := 16

def sameName (s t : Name) : Bool := s.take DIRSIZ == t.take DIRSIZ

/-- `skipelem`: the next element and the rest of the path, without leading slashes. -/
def skipelem (path : Name) : Option (Name × Name) :=
  let path := path.dropWhile (· = slash)
  if path = [] then none
  else some ((path.takeWhile (· ≠ slash)).take DIRSIZ, (path.dropWhile (· ≠ slash)).dropWhile (· = slash))

/-- The loop of `dirlookup`: the offset and the inode number of the first entry in use with a name. -/
def findEntry (name : Name) : List Dirent → ℕ → Option (ℕ × ℕ)
  | [], _ => none
  | de :: rest, off =>
    if de.inum = 0 then findEntry name rest (off + direntSize)
    else if sameName name de.name then some (off, de.inum)
    else findEntry name rest (off + direntSize)

/-- The loop of `dirlink`: the offset of the first entry that is free, or the end of the directory. -/
def freeEntry : List Dirent → ℕ → ℕ
  | [], off => off
  | de :: rest, off => if de.inum = 0 then off else freeEntry rest (off + direntSize)

/-- `isdirempty`: only the first two entries may be in use. -/
def isdirempty (entries : List Dirent) : Bool := (entries.drop 2).all (·.inum = 0)

theorem skipelem_length {path name rest : Name} (h : skipelem path = some (name, rest)) :
    rest.length < path.length := by
  rw [skipelem] at h
  obtain ⟨hne, h⟩ := Option.ite_none_left_eq_some.mp h
  obtain ⟨_, rfl⟩ := Prod.mk.injEq .. ▸ Option.some.inj h
  have h1 : (path.dropWhile (· = slash)).length ≤ path.length := (List.dropWhile_sublist _).length_le
  obtain ⟨c, cs, hc⟩ := List.exists_cons_of_ne_nil hne
  have h2 :=
    (List.dropWhile_sublist (l := (path.dropWhile (· = slash)).dropWhile (· ≠ slash)) (· = slash)).length_le
  -- the element has at least one byte: what is left of the path starts with no slash
  have hfirst : c ≠ slash := by
    have := List.head?_dropWhile_not (fun b => decide (b = slash)) path
    rw [hc] at this
    simpa using this
  have h3 : ((path.dropWhile (· = slash)).dropWhile (· ≠ slash)).length ≤ cs.length := by
    rw [hc, List.dropWhile_cons_of_pos (by simpa using hfirst)]
    exact (List.dropWhile_sublist _).length_le
  rw [hc, List.length_cons] at h1
  omega

/-- An entry that is found is in use and has the name; its offset is that of its place. -/
theorem findEntry_some {name : Name} {entries : List Dirent} {off k inum : ℕ}
    (h : findEntry name entries off = some (k, inum)) :
    ∃ j de, entries[j]? = some de ∧ k = off + direntSize * j ∧ de.inum = inum ∧ inum ≠ 0
      ∧ sameName name de.name = true := by
  induction entries generalizing off with
  | nil => cases h
  | cons e rest ih =>
    -- the entry is at the head, or at a place of the rest that is one further in the whole
    have hlater : findEntry name rest (off + direntSize) = some (k, inum) → ∃ j de, (e :: rest)[j]? = some de
        ∧ k = off + direntSize * j ∧ de.inum = inum ∧ inum ≠ 0 ∧ sameName name de.name = true := by
      intro h
      obtain ⟨j, de, hj, hk, hrest⟩ := ih h
      exact ⟨j + 1, de, hj, by rw [hk, Nat.mul_succ]; omega, hrest⟩
    rw [findEntry] at h
    by_cases hzero : e.inum = 0
    · rw [if_pos hzero] at h
      exact hlater h
    · rw [if_neg hzero] at h
      by_cases hname : sameName name e.name = true
      · rw [if_pos hname] at h
        obtain ⟨rfl, rfl⟩ := Prod.mk.injEq .. ▸ Option.some.inj h
        exact ⟨0, e, rfl, by omega, rfl, hzero, hname⟩
      · rw [if_neg hname] at h
        exact hlater h

/-- The place that `dirlink` writes is free, or the end. -/
theorem freeEntry_place (entries : List Dirent) (off : ℕ) :
    ∃ j ≤ entries.length, freeEntry entries off = off + direntSize * j
      ∧ ∀ de, entries[j]? = some de → de.inum = 0 := by
  induction entries generalizing off with
  | nil => exact ⟨0, Nat.le_refl _, rfl, fun _ h => by cases h⟩
  | cons e rest ih =>
    rw [freeEntry]
    by_cases hzero : e.inum = 0
    · rw [if_pos hzero]
      exact ⟨0, Nat.zero_le _, rfl, fun de h => Option.some.inj h ▸ hzero⟩
    · rw [if_neg hzero]
      obtain ⟨j, hj, hoff, hfree⟩ := ih (off + direntSize)
      exact ⟨j + 1, Nat.succ_le_succ hj, by rw [hoff, Nat.mul_succ]; omega, hfree⟩

/-! ### The bytes of a directory -/

/-- `strncmp(p, q, n)`. -/
def strncmp : ℕ → List UInt8 → List UInt8 → ℤ
  | 0, _, _ => 0
  | n + 1, p, q =>
    if p.headD 0 ≠ 0 ∧ p.headD 0 = q.headD 0 then strncmp n p.tail q.tail
      else (p.headD 0).toNat - (q.headD 0).toNat

/-- The bytes that `strncpy(s, t, n)` writes. -/
def strncpy : ℕ → List UInt8 → List UInt8
  | 0, _ => []
  | n + 1, t => if t.headD 0 ≠ 0 then t.headD 0 :: strncpy n t.tail else List.replicate (n + 1) 0

def namecmp (s t : List UInt8) : ℤ := strncmp DIRSIZ s t

/-- `strncmp` with a name that `strncpy` has stored compares the first `n` bytes. -/
theorem strncmp_strncpy {s t : Name} (hs : 0 ∉ s) (ht : 0 ∉ t) (n : ℕ) :
    strncmp n (s ++ [0]) (strncpy n (t ++ [0])) = 0 ↔ s.take n = t.take n := by
  induction n generalizing s t with
  | zero => simp [strncmp]
  | succ n ih =>
    have hzero : ∀ a : UInt8, a.toNat = 0 ↔ a = 0 := fun a => UInt8.toNat_inj (b := 0)
    cases s with
    | nil =>
      cases t with
      | nil => simp [strncmp, strncpy, List.replicate_succ]
      | cons b t =>
        have hb : b ≠ 0 := fun h => ht (h ▸ List.mem_cons_self)
        simp [strncmp, strncpy, hb, hzero]
    | cons a s =>
      have ha : a ≠ 0 := fun h => hs (h ▸ List.mem_cons_self)
      cases t with
      | nil => simp [strncmp, strncpy, List.replicate_succ, ha, hzero]
      | cons b t =>
        have hb : b ≠ 0 := fun h => ht (h ▸ List.mem_cons_self)
        have ih := ih (fun h => hs (List.mem_cons_of_mem a h)) fun h => ht (List.mem_cons_of_mem b h)
        by_cases hab : a = b
        · simp [strncmp, strncpy, hb, hab, ih]
        · simp [strncmp, strncpy, ha, hb, hab, sub_eq_zero, UInt8.toNat_inj]

theorem strncpy_take {t : Name} (ht : 0 ∉ t) (n : ℕ) :
    strncpy n (t.take n ++ [0]) = strncpy n (t ++ [0]) := by
  induction n generalizing t with
  | zero => rfl
  | succ n ih =>
    cases t with
    | nil => rfl
    | cons b t =>
      have hb : b ≠ 0 := fun h => ht (h ▸ List.mem_cons_self)
      simp [strncpy, hb, ih fun h => ht (List.mem_cons_of_mem b h)]

/-- An entry as it is in the blocks of the directory. -/
def Dirent.bytes (e : Dirent) : ℕ × List UInt8 := (e.inum, strncpy DIRSIZ (e.name ++ [0]))

/-- The loop of `dirlookup` over the entries that `readi` reads. -/
def dirlookupLoop (name : List UInt8) : List (ℕ × List UInt8) → ℕ → Option (ℕ × ℕ)
  | [], _ => none
  | de :: rest, off =>
    if de.1 = 0 then dirlookupLoop name rest (off + direntSize)
    else if namecmp name de.2 = 0 then some (off, de.1)
    else dirlookupLoop name rest (off + direntSize)

/-- **The bytes of a directory** hold its entries: `dirlookup` finds in them what `findEntry` finds, and what
`dirlink` stores for a name of any length is the entry with the name cut to `DIRSIZ` bytes. -/
theorem dirlookup_bytes {name : Name} {entries : List Dirent} (hname : 0 ∉ name)
    (hentries : ∀ e ∈ entries, 0 ∉ e.name) (off i : ℕ) :
    dirlookupLoop (name ++ [0]) (entries.map Dirent.bytes) off = findEntry name entries off
      ∧ (i, strncpy DIRSIZ (name ++ [0])) = Dirent.bytes ⟨i, name.take DIRSIZ⟩ := by
  refine ⟨?_, by rw [Dirent.bytes, strncpy_take hname]⟩
  induction entries generalizing off with
  | nil => rfl
  | cons e rest ih =>
    have hcmp : namecmp (name ++ [0]) (Dirent.bytes e).2 = 0 ↔ sameName name e.name = true := by
      rw [namecmp, Dirent.bytes, strncmp_strncpy hname (hentries e List.mem_cons_self), sameName, beq_iff_eq]
    rw [List.map_cons, dirlookupLoop, findEntry, ih fun x hx => hentries x (List.mem_cons_of_mem e hx)]
    simp only [hcmp]
    rfl

/-- A name of fifteen bytes is found under its first fourteen. -/
theorem dirlookup_bytes_long :
    dirlookupLoop (List.replicate 15 97 ++ [0]) [Dirent.bytes ⟨7, List.replicate 14 97⟩] 0 = some (0, 7) :=
  (@dirlookup_bytes _ [⟨7, List.replicate 14 97⟩] (by decide) (by decide) 0 7).1.trans (by decide)

end Xv6e.Fs.Names
