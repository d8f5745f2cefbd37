import Mathlib

/-!
# The MP configuration table

`mpconfig` and `mpinit` of `mp.c`, for a configuration table given by its bytes from the header on.  How
`mpsearch` finds the table, and the `outb` that `mpinit` ends with, are left out.

* `sum`, `mpconfig` — the tests of the header;
* `entryLoop`, `mpinit` — the loop over the entries; `fuel` bounds its rounds, and `none` means that there
  were more;
* `entryTypes` — the types of the entries, up to the first one that is unknown;
* `mpinit_ends_iff` — `mpinit` does what it should exactly when every type is known: otherwise it does not
  end.
-/

namespace Xv6e.Device.Mp

/-! ### The functions -/

def NCPU : ℕ := 8

abbrev Table : Type := ℕ → UInt8

/-- `sum`: the sum of bytes, as an `uchar`. -/
def sum (table : Table) : ℕ → UInt8
  | 0 => 0
  | len + 1 => sum table len + table len

def confLength (table : Table) : ℕ := (table 4).toNat + 2 ^ 8 * (table 5).toNat

def lapicaddr (table : Table) : ℕ :=
  (table 36).toNat + 2 ^ 8 * (table 37).toNat + 2 ^ 16 * (table 38).toNat + 2 ^ 24 * (table 39).toNat

def confSize : ℕ := 44

/-- The tests of `mpconfig`: the signature `PCMP`, the version, the sum of the bytes. -/
def mpconfig (table : Table) : Bool :=
  decide (table 0 = 80 ∧ table 1 = 67 ∧ table 2 = 77 ∧ table 3 = 80) && (table 6 == 1 || table 6 == 4)
    && sum table (confLength table) == 0

/-- The global variables that `mpinit` sets; `apicid i` is `cpus[i].apicid`. -/
structure Cpus where
  lapic : ℕ
  ncpu : ℕ
  apicid : ℕ → UInt8
  ioapicid : UInt8
  ismp : Bool

inductive EntryType where
  | proc
  | bus
  | ioapic
  | iointr
  | lintr
  deriving DecidableEq, Repr

/-- The type that the first byte of an entry stands for. -/
def entryType (b : UInt8) : Option EntryType :=
  if b = 0 then some .proc
  else if b = 1 then some .bus
  else if b = 2 then some .ioapic
  else if b = 3 then some .iointr
  else if b = 4 then some .lintr
  else none

/-- The size of an entry: `sizeof(struct mpproc)`, `sizeof(struct mpioapic)`, and 8 for the others. -/
def EntryType.size : EntryType → ℕ
  | .proc => 20
  | _ => 8

def addCpu (c : Cpus) (apicid : UInt8) : Cpus :=
  if c.ncpu < NCPU then { c with apicid := Function.update c.apicid c.ncpu apicid, ncpu := c.ncpu + 1 } else c

/-- What an entry at `p` of a known type does. -/
def addEntry (table : Table) (p : ℕ) (c : Cpus) : EntryType → Cpus
  | .proc => addCpu c (table (p + 1))
  | .ioapic => { c with ioapicid := table (p + 1) }
  | _ => c

/-- The loop of `mpinit` over the entries from `p` to `e`.  The `break` of the case `default` leaves the
`switch` only. -/
def entryLoop (table : Table) (e : ℕ) : ℕ → ℕ → Cpus → Option Cpus
  | 0, _, _ => none
  | fuel + 1, p, c =>
    if p < e then
      match entryType (table p) with
      | some t => entryLoop table e fuel (p + t.size) (addEntry table p c t)
      | none => entryLoop table e fuel p { c with ismp := false }
    else some c

inductive Panic where
  /-- `Expect to run on an SMP` -/
  | expectSmp
  /-- `Didn't find a suitable machine` -/
  | notSuitable
  deriving DecidableEq, Repr

/-- The variables when the loop starts. -/
def noCpus (table : Table) : Cpus := ⟨lapicaddr table, 0, fun _ => 0, 0, true⟩

def mpinit (fuel : ℕ) (table : Table) : Option (Except Panic Cpus) :=
  if mpconfig table then
    (entryLoop table (confLength table) fuel confSize (noCpus table)).map fun c => if c.ismp then .ok c
      else .error .notSuitable
  else some (.error .expectSmp)

/-! ### The entries of a table -/

/-- The types of the entries from `p` to `e`, up to the first one that is unknown; at most `fuel` of them. -/
def typesFrom (table : Table) (e : ℕ) : ℕ → ℕ → List (Option EntryType)
  | 0, _ => []
  | fuel + 1, p =>
    if p < e then
      entryType (table p) :: (entryType (table p)).elim [] fun t => typesFrom table e fuel (p + t.size)
    else []

/-- The types of the entries of a table.  It has fewer entries than bytes. -/
def entryTypes (table : Table) : List (Option EntryType) := typesFrom table (confLength table)
    (confLength table) confSize

def EveryKnown (table : Table) : Prop := none ∉ entryTypes table

def processors (table : Table) : ℕ := (entryTypes table).count (some .proc)

/-! ### Results -/

theorem size_pos (t : EntryType) : 0 < t.size := by
  cases t <;> decide

theorem addEntry_ncpu (table : Table) (p : ℕ) (c : Cpus) (t : EntryType) (h : c.ncpu ≤ NCPU) :
    (addEntry table p c t).ncpu = min NCPU (c.ncpu + if t = .proc then 1 else 0)
      ∧ (addEntry table p c t).ismp = c.ismp := by
  cases t with
  | proc =>
    rw [addEntry, addCpu, if_pos rfl]
    by_cases hlt : c.ncpu < NCPU
    · rw [if_pos hlt]
      exact ⟨(min_eq_right hlt).symm, rfl⟩
    · rw [if_neg hlt]
      exact ⟨by omega, rfl⟩
  | _ => exact ⟨by rw [if_neg (by decide), Nat.add_zero, min_eq_right h]; rfl, rfl⟩

variable {table : Table} {e : ℕ}

/-- **The loop over known entries ends**, and has counted the processors. -/
theorem entryLoop_known {fuel p : ℕ} {c : Cpus} (hfuel : e ≤ p + fuel) (hc : c.ncpu ≤ NCPU)
    (h : none ∉ typesFrom table e fuel p) :
    ∃ d, entryLoop table e (fuel + 1) p c = some d ∧ d.ismp = c.ismp
      ∧ d.ncpu = min NCPU (c.ncpu + (typesFrom table e fuel p).count (some .proc)) := by
  induction fuel generalizing p c with
  | zero =>
    refine ⟨c, ?_, rfl, (min_eq_right hc).symm⟩
    rw [entryLoop, if_neg (by omega)]
  | succ fuel ih =>
    rw [typesFrom] at h ⊢
    by_cases hp : p < e
    · rw [if_pos hp] at h ⊢
      cases ht : entryType (table p) with
      | none =>
        rw [ht] at h
        exact absurd List.mem_cons_self h
      | some t =>
        rw [ht] at h
        have hrest : none ∉ typesFrom table e fuel (p + t.size) := fun hmem => h (List.mem_cons_of_mem _ hmem)
        have hsize := size_pos t
        obtain ⟨hadd, hsame⟩ := addEntry_ncpu table p c t hc
        obtain ⟨d, hd, hismp, hncpu⟩ := ih (c := addEntry table p c t) (by omega) (by omega) hrest
        refine ⟨d, ?_, hismp.trans hsame, ?_⟩
        · rw [entryLoop, if_pos hp, ht]
          exact hd
        · rw [hncpu, hadd, Option.elim_some, List.count_cons]
          have hone : (if some t == some EntryType.proc then 1 else 0) = if t = .proc then 1 else 0 := by
            cases t <;> rfl
          rw [hone]
          omega
    · rw [if_neg hp]
      refine ⟨c, ?_, rfl, (min_eq_right hc).symm⟩
      rw [entryLoop, if_neg hp]

/-- An unknown entry is looked at again and again. -/
theorem entryLoop_stays {p : ℕ} (hp : p < e) (ht : entryType (table p) = none) (fuel : ℕ) (c : Cpus) :
    entryLoop table e fuel p c = none := by
  induction fuel generalizing c with
  | zero => rfl
  | succ fuel ih =>
    rw [entryLoop, if_pos hp, ht]
    exact ih _

/-- **The loop does not end** when it comes to an unknown entry. -/
theorem entryLoop_unknown {n p : ℕ} (h : none ∈ typesFrom table e n p) (fuel : ℕ) (c : Cpus) :
    entryLoop table e fuel p c = none := by
  induction n generalizing p c fuel with
  | zero => cases h
  | succ n ih =>
    rw [typesFrom] at h
    by_cases hp : p < e
    · rw [if_pos hp] at h
      cases ht : entryType (table p) with
      | none => exact entryLoop_stays hp ht fuel c
      | some t =>
        rw [ht] at h
        have hrest : none ∈ typesFrom table e n (p + t.size) :=
          (List.mem_cons.mp h).resolve_left fun hc => by cases hc
        cases fuel with
        | zero => rfl
        | succ fuel =>
          rw [entryLoop, if_pos hp, ht]
          exact ih hrest fuel _
    · rw [if_neg hp] at h
      cases h

/-- What `mpinit` should do with a table: end, with as many CPUs as there are processor entries and room for,
or with a panic if some entry type is unknown. -/
def Ends (table : Table) : Prop :=
  ∃ fuel r, mpinit fuel table = some r
    ∧ (EveryKnown table → ∃ c, r = .ok c ∧ c.ncpu ≤ NCPU ∧ c.ncpu = min NCPU (processors table))
    ∧ (¬ EveryKnown table → r = .error .notSuitable)

/-- **`mpinit` ends exactly when every entry type is known.** -/
theorem mpinit_ends_iff (h : mpconfig table = true) : Ends table ↔ EveryKnown table := by
  constructor
  · rintro ⟨fuel, r, hr, _, _⟩ hunknown
    rw [mpinit, if_pos h, entryLoop_unknown hunknown] at hr
    cases hr
  · intro hknown
    obtain ⟨d, hd, hismp, hncpu⟩ :=
      entryLoop_known (c := noCpus table) (Nat.le_add_left (confLength table) confSize)
      (Nat.zero_le NCPU) hknown
    refine ⟨confLength table + 1, .ok d, ?_, fun _ => ⟨d, rfl, ?_, ?_⟩, fun hno => absurd hknown hno⟩
    · rw [mpinit, if_pos h, hd]
      show some (if d.ismp then _ else _) = _
      rw [hismp]
      rfl
    · rw [hncpu]
      exact min_le_left ..
    · rw [hncpu, noCpus, Nat.zero_add]
      rfl

/-- A table of the given bytes, followed by zeros. -/
def tableOf (bytes : List UInt8) : Table := fun i => bytes.getD i 0

/-- The header of a table of `length` bytes, with a checksum. -/
def header (length checksum : UInt8) : List UInt8 :=
  [80, 67, 77, 80, length, 0, 1, checksum] ++ List.replicate 36 0

/-- A table with one processor and one bus. -/
def oneCpu : Table := tableOf (header 72 134 ++ List.replicate 20 0 ++ [1])

/-- The table of one processor and one bus is read. -/
theorem mpinit_ends_oneCpu : mpconfig oneCpu = true ∧ EveryKnown oneCpu ∧ Ends oneCpu := by
  have hconfig : mpconfig oneCpu = true := by decide +kernel
  have hknown : EveryKnown oneCpu := by
    rw [EveryKnown]
    decide +kernel
  exact ⟨hconfig, hknown, (mpinit_ends_iff hconfig).mpr hknown⟩

def unknownEntry : Table := tableOf (header 52 150 ++ [5])

/-- **`mpinit` does not end** on a table with an entry of an unknown type. -/
theorem mpinit_loops :
    mpconfig unknownEntry = true ∧ ¬ EveryKnown unknownEntry ∧ ∀ fuel, mpinit fuel unknownEntry = none := by
  have hconfig : mpconfig unknownEntry = true := by decide +kernel
  have hunknown : none ∈ entryTypes unknownEntry := by decide +kernel
  refine ⟨hconfig, fun h => h hunknown, fun fuel => ?_⟩
  rw [mpinit, if_pos hconfig, entryLoop_unknown hunknown]
  rfl

end Xv6e.Device.Mp
