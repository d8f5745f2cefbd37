import Mathlib

/-!
# Address-ordered lists of free regions

A free list as a list of regions `(start, length)` in increasing order, with no two of them touching.

* `firstFit` — take `k` units from the first region that has as many;
* `release` — put a range back, merging it with the regions it touches;
* `Coalesced.firstFit`, `Coalesced.release` — both keep the list coalesced and change the set it covers by
  exactly the range;
* `Coalesced.run_in_region` — a run of covered units lies in one region, so that a list that is coalesced
  never refuses a request it has the room for (`firstFit_eq_none_iff_no_run`);
* `Coalesced.ext` — the set determines the list.
-/

namespace Xv6e.Library.RegionList

def covered (rs : List (ℕ × ℕ)) : Set ℕ :=
  {x | ∃ r ∈ rs, r.1 ≤ x ∧ x < r.1 + r.2}

/-- No region is empty, and each ends strictly before the later ones start. -/
structure Coalesced (rs : List (ℕ × ℕ)) : Prop where
  nonempty : ∀ r ∈ rs, 0 < r.2
  apart : rs.Pairwise fun a b => a.1 + a.2 < b.1

/-- Take `k` units from the first region that has as many. -/
def firstFit (k : ℕ) : List (ℕ × ℕ) → Option (ℕ × List (ℕ × ℕ))
  | [] => none
  | r :: rs =>
    if k ≤ r.2 then some (r.1, if r.2 = k then rs else (r.1 + k, r.2 - k) :: rs)
    else (firstFit k rs).map fun p => (p.1, r :: p.2)

/-- Put a region in front of the later ones, merging it with the first of them if they touch. -/
def absorb (r : ℕ × ℕ) : List (ℕ × ℕ) → List (ℕ × ℕ)
  | [] => [r]
  | c :: rs => if r.1 + r.2 = c.1 then (r.1, r.2 + c.2) :: rs else r :: c :: rs

/-- Put a range back between the regions before it and those after it. -/
def releaseAt (v k : ℕ) (before after : List (ℕ × ℕ)) : List (ℕ × ℕ) :=
  match before.getLast? with
  | some p => if p.1 + p.2 = v then before.dropLast ++ absorb (p.1, p.2 + k) after
      else before ++ absorb (v, k) after
  | none => absorb (v, k) after

/-- Put the range of `k` units from `v` back. -/
def release (v k : ℕ) (rs : List (ℕ × ℕ)) : List (ℕ × ℕ) :=
  releaseAt v k (rs.takeWhile fun r => r.1 < v) (rs.dropWhile fun r => r.1 < v)

/-! ### What a list covers -/

variable {rs ts : List (ℕ × ℕ)} {k v : ℕ}

variable {x : ℕ}

theorem mem_covered : x ∈ covered rs ↔ ∃ r ∈ rs, r.1 ≤ x ∧ x < r.1 + r.2 :=
  Iff.rfl

variable {r : ℕ × ℕ}

theorem Ico_subset_covered (hr : r ∈ rs) : Set.Ico r.1 (r.1 + r.2) ⊆ covered rs :=
  fun _ hx => ⟨r, hr, hx.1, hx.2⟩

@[simp]
theorem covered_nil : covered [] = ∅ := by
  ext x
  simp [covered]

theorem covered_cons (r : ℕ × ℕ) (rs : List (ℕ × ℕ)) :
    covered (r :: rs) = Set.Ico r.1 (r.1 + r.2) ∪ covered rs := by
  ext x
  simp [covered, Set.mem_Ico]

theorem covered_append (rs ts : List (ℕ × ℕ)) : covered (rs ++ ts) = covered rs ∪ covered ts := by
  induction rs with
  | nil => rw [List.nil_append, covered_nil, Set.empty_union]
  | cons r rs ih => rw [List.cons_append, covered_cons, covered_cons, ih, Set.union_assoc]

/-! ### Coalesced lists -/

theorem coalesced_nil : Coalesced [] := ⟨by simp, List.Pairwise.nil⟩

theorem coalesced_cons :
    Coalesced (r :: rs) ↔ 0 < r.2 ∧ (∀ q ∈ rs, r.1 + r.2 < q.1) ∧ Coalesced rs := by
  constructor
  · intro h
    obtain ⟨hr, hrs⟩ := List.pairwise_cons.mp h.apart
    exact ⟨h.nonempty r List.mem_cons_self, hr, fun q hq => h.nonempty q (List.mem_cons_of_mem r hq), hrs⟩
  · rintro ⟨hpos, hr, hrs⟩
    refine ⟨?_, List.pairwise_cons.mpr ⟨hr, hrs.apart⟩⟩
    intro q hq
    rcases List.mem_cons.mp hq with rfl | hq
    · exact hpos
    · exact hrs.nonempty q hq

theorem coalesced_append :
    Coalesced (rs ++ ts) ↔ Coalesced rs ∧ Coalesced ts ∧ ∀ a ∈ rs, ∀ b ∈ ts, a.1 + a.2 < b.1 := by
  constructor
  · intro h
    obtain ⟨hrs, hts, hsep⟩ := List.pairwise_append.mp h.apart
    exact ⟨⟨fun r hr => h.nonempty r (List.mem_append_left ts hr), hrs⟩,
      ⟨fun r hr => h.nonempty r (List.mem_append_right rs hr), hts⟩, hsep⟩
  · rintro ⟨hrs, hts, hsep⟩
    refine ⟨?_, List.pairwise_append.mpr ⟨hrs.apart, hts.apart, hsep⟩⟩
    intro r hr
    rcases List.mem_append.mp hr with hr | hr
    · exact hrs.nonempty r hr
    · exact hts.nonempty r hr

/-- The start of every region is covered. -/
theorem Coalesced.start_mem (h : Coalesced rs) (hr : r ∈ rs) :
    r.1 ∈ covered rs :=
  ⟨r, hr, le_refl _, by have := h.nonempty r hr; omega⟩

/-- The unit just past a region is free of the list: regions do not touch. -/
theorem Coalesced.end_notMem (h : Coalesced rs) (hr : r ∈ rs) :
    r.1 + r.2 ∉ covered rs := by
  rintro ⟨q, hq, hlo, hhi⟩
  obtain ⟨before, after, rfl⟩ := List.append_of_mem hr
  obtain ⟨_, hafter, hsep⟩ := coalesced_append.mp h
  rcases List.mem_append.mp hq with hq | hq
  · have := hsep q hq r List.mem_cons_self
    omega
  · rcases List.mem_cons.mp hq with rfl | hq
    · omega
    · have := (coalesced_cons.mp hafter).2.1 q hq
      omega

/-- **A run of covered units lies in one region.** -/
theorem Coalesced.run_in_region (h : Coalesced rs) (hk : 0 < k)
    (hrun : Set.Ico x (x + k) ⊆ covered rs) : ∃ r ∈ rs, r.1 ≤ x ∧ x + k ≤ r.1 + r.2 := by
  obtain ⟨r, hr, hlo, hhi⟩ := hrun ⟨le_refl x, by omega⟩
  refine ⟨r, hr, hlo, ?_⟩
  -- otherwise the run would cross the unit just past the region, which is not covered
  by_contra hshort
  exact h.end_notMem hr (hrun ⟨by omega, by omega⟩)

/-! ### First fit -/

theorem firstFit_eq_none_iff : firstFit k rs = none ↔ ∀ r ∈ rs, r.2 < k := by
  induction rs with
  | nil => simp [firstFit]
  | cons r rs ih =>
    rw [firstFit]
    by_cases hk : k ≤ r.2
    · rw [if_pos hk]
      simp only [reduceCtorEq, List.mem_cons, forall_eq_or_imp, false_iff, not_and]
      omega
    · rw [if_neg hk, Option.map_eq_none_iff, ih]
      simp only [List.mem_cons, forall_eq_or_imp]
      exact ⟨fun h => ⟨by omega, h⟩, fun h => h.2⟩

variable {before after : List (ℕ × ℕ)}

/-- First fit takes from the first region with room. -/
theorem firstFit_append (hb : ∀ q ∈ before, q.2 < k) (hr : k ≤ r.2) : firstFit k (before ++ r :: after)
      = some (r.1, before ++ if r.2 = k then after else (r.1 + k, r.2 - k) :: after) := by
  induction before with
  | nil => rw [List.nil_append, firstFit, if_pos hr, List.nil_append]
  | cons q before ih =>
    have hq := hb q List.mem_cons_self
    rw [List.cons_append, firstFit, if_neg (by omega), ih fun p hp => hb p (List.mem_cons_of_mem q hp)]
    rfl

/-- First fit refuses exactly when there is no run of `k` covered units. -/
theorem firstFit_eq_none_iff_no_run (h : Coalesced rs) (hk : 0 < k) :
    firstFit k rs = none ↔ ¬ ∃ x, Set.Ico x (x + k) ⊆ covered rs := by
  rw [firstFit_eq_none_iff]
  constructor
  · rintro hsmall ⟨x, hrun⟩
    obtain ⟨r, hr, hlo, hhi⟩ := h.run_in_region hk hrun
    have := hsmall r hr
    omega
  · intro hno r hr
    by_contra hbig
    refine hno ⟨r.1, fun y hy => ⟨r, hr, hy.1, ?_⟩⟩
    have := hy.2
    omega

/-- The region first fit takes from is the lowest one with room. -/
theorem firstFit_lowest (h : Coalesced rs) (hf : firstFit k rs = some (v, ts)) :
    ∃ r ∈ rs, r.1 = v ∧ k ≤ r.2 ∧ ∀ q ∈ rs, k ≤ q.2 → v ≤ q.1 := by
  induction rs generalizing v ts with
  | nil => cases hf
  | cons r rs ih =>
    obtain ⟨_, hfirst, hrs⟩ := coalesced_cons.mp h
    rw [firstFit] at hf
    by_cases hk : k ≤ r.2
    · rw [if_pos hk, Option.some.injEq, Prod.mk.injEq] at hf
      refine ⟨r, List.mem_cons_self, hf.1, hk, ?_⟩
      intro q hq _
      rcases List.mem_cons.mp hq with rfl | hq
      · omega
      · have := hfirst q hq
        omega
    · rw [if_neg hk, Option.map_eq_some_iff] at hf
      obtain ⟨p, hp, hpv⟩ := hf
      rw [Prod.mk.injEq] at hpv
      obtain ⟨q, hq, hqv, hkq, hlow⟩ := ih hrs hp
      refine ⟨q, List.mem_cons_of_mem r hq, hqv.trans hpv.1, hkq, ?_⟩
      intro u hu hku
      rcases List.mem_cons.mp hu with rfl | hu
      · exact absurd hku hk
      · exact hpv.1 ▸ hlow u hu hku

/-- **First fit** keeps the list coalesced and takes exactly the range it returns. -/
theorem Coalesced.firstFit (h : Coalesced rs) (hk : 0 < k) (hf : firstFit k rs = some (v, ts)) :
    Coalesced ts ∧ covered ts = covered rs \ Set.Ico v (v + k) ∧ (∀ q ∈ ts, ∃ r ∈ rs, r.1 ≤ q.1) := by
  induction rs generalizing ts with
  | nil => cases hf
  | cons r rs ih =>
    obtain ⟨hpos, hfirst, hrs⟩ := coalesced_cons.mp h
    rw [RegionList.firstFit] at hf
    by_cases hkr : k ≤ r.2
    · rw [if_pos hkr, Option.some.injEq, Prod.mk.injEq] at hf
      obtain ⟨rfl, rfl⟩ := hf
      -- the later regions lie past the range
      have hlater : Disjoint (covered rs) (Set.Ico r.1 (r.1 + k)) := by
        rw [Set.disjoint_left]
        rintro x ⟨q, hq, hlo, _⟩ ⟨_, hx⟩
        have := hfirst q hq
        omega
      by_cases heq : r.2 = k
      · rw [if_pos heq]
        refine ⟨hrs, ?_, fun q hq => ⟨q, List.mem_cons_of_mem r hq, le_refl _⟩⟩
        rw [covered_cons, heq, Set.union_sdiff_left, hlater.sdiff_eq_left]
      · rw [if_neg heq]
        refine ⟨coalesced_cons.mpr ⟨?_, ?_, hrs⟩, ?_, ?_⟩
        · show 0 < r.2 - k
          omega
        · intro q hq
          have := hfirst q hq
          show r.1 + k + (r.2 - k) < q.1
          omega
        · rw [covered_cons, covered_cons, Set.union_sdiff_distrib, hlater.sdiff_eq_left]
          congr 1
          ext x
          simp only [Set.mem_Ico, Set.mem_sdiff]
          omega
        · intro q hq
          rcases List.mem_cons.mp hq with rfl | hq
          · exact ⟨r, List.mem_cons_self, Nat.le_add_right _ _⟩
          · exact ⟨q, List.mem_cons_of_mem r hq, le_refl _⟩
    · rw [if_neg hkr, Option.map_eq_some_iff] at hf
      obtain ⟨⟨w, us⟩, hp, hpv⟩ := hf
      rw [Prod.mk.injEq] at hpv
      obtain ⟨rfl, rfl⟩ := hpv
      obtain ⟨hus, hcov, hlow⟩ := ih hrs hp
      obtain ⟨p, hpm, hpw, hkp, _⟩ := firstFit_lowest hrs hp
      have hpast := hfirst p hpm
      refine ⟨coalesced_cons.mpr ⟨hpos, ?_, hus⟩, ?_, ?_⟩
      · intro q hq
        obtain ⟨u, hu, huq⟩ := hlow q hq
        have := hfirst u hu
        omega
      · rw [covered_cons, covered_cons, hcov, Set.union_sdiff_distrib]
        congr 1
        ext x
        simp only [Set.mem_Ico, Set.mem_sdiff]
        omega
      · intro q hq
        rcases List.mem_cons.mp hq with rfl | hq
        · exact ⟨q, List.mem_cons_self, le_refl _⟩
        · obtain ⟨u, hu, huq⟩ := hlow q hq
          exact ⟨u, List.mem_cons_of_mem r hu, huq⟩

/-- What first fit takes was covered. -/
theorem firstFit_subset (h : Coalesced rs)
    (hf : firstFit k rs = some (v, ts)) : Set.Ico v (v + k) ⊆ covered rs := by
  obtain ⟨r, hr, rfl, hkr, _⟩ := firstFit_lowest h hf
  intro x hx
  exact ⟨r, hr, hx.1, lt_of_lt_of_le hx.2 (by omega)⟩

/-! ### Putting a range back -/

/-- A region in front of later ones that it does not overlap. -/
theorem Coalesced.absorb (h : Coalesced rs) (hr : 0 < r.2) (hbefore : ∀ q ∈ rs, r.1 + r.2 ≤ q.1) :
    Coalesced (absorb r rs) ∧ covered (RegionList.absorb r rs) = covered rs ∪ Set.Ico r.1 (r.1 + r.2)
      ∧ ∀ q ∈ RegionList.absorb r rs, r.1 ≤ q.1 := by
  cases rs with
  | nil =>
    refine ⟨coalesced_cons.mpr ⟨hr, by simp, coalesced_nil⟩, ?_, ?_⟩
    · rw [RegionList.absorb, covered_cons, covered_nil, Set.union_comm]
    · intro q hq
      rw [List.mem_singleton.mp hq]
  | cons c rs =>
    obtain ⟨hc, hfirst, hrs⟩ := coalesced_cons.mp h
    have hrc := hbefore c List.mem_cons_self
    rw [RegionList.absorb]
    by_cases htouch : r.1 + r.2 = c.1
    · rw [if_pos htouch]
      refine ⟨coalesced_cons.mpr ⟨?_, ?_, hrs⟩, ?_, ?_⟩
      · show 0 < r.2 + c.2
        omega
      · intro q hq
        have := hfirst q hq
        show r.1 + (r.2 + c.2) < q.1
        omega
      · rw [covered_cons, covered_cons]
        ext x
        simp only [Set.mem_union, Set.mem_Ico]
        by_cases hx : x ∈ covered rs
        · simp only [hx, or_true, true_or]
        · simp only [hx, or_false]
          omega
      · intro q hq
        rcases List.mem_cons.mp hq with rfl | hq
        · exact le_refl _
        · have := hbefore q (List.mem_cons_of_mem c hq)
          omega
    · rw [if_neg htouch]
      refine ⟨coalesced_cons.mpr ⟨hr, ?_, h⟩, ?_, ?_⟩
      · intro q hq
        rcases List.mem_cons.mp hq with rfl | hq
        · omega
        · have := hfirst q hq
          omega
      · rw [covered_cons, Set.union_comm]
      · intro q hq
        rcases List.mem_cons.mp hq with rfl | hq
        · exact le_refl _
        · have := hbefore q hq
          omega

/-- The parts of a range put back between regions before and after it. -/
theorem Coalesced.releaseAt (before after : List (ℕ × ℕ)) (h : Coalesced (before ++ after))
    (hk : 0 < k) (hb : ∀ q ∈ before, q.1 + q.2 ≤ v) (ha : ∀ q ∈ after, v + k ≤ q.1) :
    Coalesced (releaseAt v k before after)
      ∧ covered (RegionList.releaseAt v k before after) = covered (before ++ after) ∪ Set.Ico v (v + k) := by
  obtain ⟨hbc, hac, hsep⟩ := coalesced_append.mp h
  rcases List.eq_nil_or_concat' before with rfl | ⟨front, p, rfl⟩
  · obtain ⟨hco, hcov, _⟩ := hac.absorb (r := (v, k)) hk ha
    exact ⟨hco, hcov⟩
  · obtain ⟨hfront, hpc, hfp⟩ := coalesced_append.mp hbc
    have hpv := hb p (by simp)
    have hp : 0 < p.2 := (coalesced_cons.mp hpc).1
    rw [RegionList.releaseAt, List.getLast?_concat]
    simp only [List.dropLast_concat]
    by_cases htouch : p.1 + p.2 = v
    · rw [if_pos htouch]
      obtain ⟨hco, hcov, hlow⟩ := hac.absorb (r := (p.1, p.2 + k)) (Nat.add_pos_left hp k) fun q hq => by
        have := ha q hq
        show p.1 + (p.2 + k) ≤ q.1
        omega
      refine ⟨coalesced_append.mpr ⟨hfront, hco, ?_⟩, ?_⟩
      · intro a haf b hbm
        have h1 := hfp a haf p (by simp)
        have h2 := hlow b hbm
        omega
      · rw [covered_append, hcov, covered_append, covered_append, covered_cons, covered_nil]
        ext x
        simp only [Set.mem_union, Set.mem_Ico, Set.mem_empty_iff_false, or_false]
        by_cases hx1 : x ∈ covered front
        · simp only [hx1, true_or]
        · by_cases hx2 : x ∈ covered after
          · simp only [hx2, true_or, or_true]
          · simp only [hx1, hx2, false_or, or_false]
            omega
    · rw [if_neg htouch]
      obtain ⟨hco, hcov, hlow⟩ := hac.absorb (r := (v, k)) hk ha
      refine ⟨coalesced_append.mpr ⟨hbc, hco, ?_⟩, ?_⟩
      · intro a ham b hbm
        have h2 := hlow b hbm
        rcases List.mem_append.mp ham with haf | hap
        · have h1 := hfp a haf p (by simp)
          simp only at h2
          omega
        · rw [List.mem_singleton.mp hap]
          simp only at h2
          omega
      · rw [covered_append, hcov, covered_append (front ++ [p]) after, Set.union_assoc]

/-- The regions before a range that the list does not cover end at or before it, the others start past it. -/
theorem Coalesced.split (h : Coalesced rs) (hk : 0 < k)
    (hdisj : Disjoint (Set.Ico v (v + k)) (covered rs)) :
    (∀ q ∈ rs, q.1 < v → q.1 + q.2 ≤ v) ∧ ∀ q ∈ rs, v ≤ q.1 → v + k ≤ q.1 := by
  rw [Set.disjoint_left] at hdisj
  constructor
  · intro q hq hlt
    by_contra hover
    exact hdisj ⟨le_refl v, by omega⟩ ⟨q, hq, by omega, by omega⟩
  · intro q hq hle
    by_contra hover
    exact hdisj ⟨hle, by omega⟩ (h.start_mem hq)

/-- In a coalesced list the regions from the first that starts at or past `v` on all do. -/
theorem Coalesced.le_of_mem_dropWhile (h : Coalesced rs) :
    ∀ q ∈ rs.dropWhile fun r => r.1 < v, v ≤ q.1 := by
  induction rs with
  | nil => simp
  | cons r rs ih =>
    rw [List.dropWhile_cons]
    by_cases hr : r.1 < v
    · rw [if_pos (decide_eq_true hr)]
      exact ih (coalesced_cons.mp h).2.2
    · rw [if_neg (by simpa using hr)]
      intro q hq
      rcases List.mem_cons.mp hq with rfl | hq
      · omega
      · have := (coalesced_cons.mp h).2.1 q hq
        omega

/-- Where a range is put back. -/
theorem release_append (hb : ∀ q ∈ before, q.1 < v)
    (ha : ∀ q ∈ after.head?, v ≤ q.1) : release v k (before ++ after) = releaseAt v k before after := by
  have htake : (before ++ after).takeWhile (fun r => r.1 < v) = before := by
    rw [List.takeWhile_append_of_pos (by simpa using hb)]
    cases after with
    | nil => simp
    | cons c after => simp [ha c rfl]
  have hdrop : (before ++ after).dropWhile (fun r => r.1 < v) = after := by
    rw [List.dropWhile_append_of_pos (by simpa using hb)]
    cases after with
    | nil => simp
    | cons c after => simp [ha c rfl]
  rw [release, htake, hdrop]

/-- **Putting a range back** keeps the list coalesced and adds exactly the range. -/
theorem Coalesced.release (h : Coalesced rs) (hk : 0 < k)
    (hdisj : Disjoint (Set.Ico v (v + k)) (covered rs)) :
    Coalesced (release v k rs)
      ∧ covered (RegionList.release v k rs) = covered rs ∪ Set.Ico v (v + k) := by
  obtain ⟨hbefore, hafter⟩ := h.split hk hdisj
  have hjoin : rs.takeWhile (fun r => r.1 < v) ++ rs.dropWhile (fun r => r.1 < v) = rs :=
    List.takeWhile_append_dropWhile
  have hparts := Coalesced.releaseAt (v := v) (rs.takeWhile fun r => r.1 < v)
    (rs.dropWhile fun r => r.1 < v) (by rw [hjoin]; exact h) hk
    (fun q hq => hbefore q ((List.takeWhile_sublist _).subset hq)
      (by simpa using List.mem_takeWhile_imp hq))
    (fun q hq => hafter q ((List.dropWhile_sublist _).subset hq) (h.le_of_mem_dropWhile q hq))
  rw [hjoin] at hparts
  exact hparts

theorem Coalesced.covered_tail (h : Coalesced (r :: rs)) (x : ℕ) :
    x ∈ covered rs ↔ x ∈ covered (r :: rs) ∧ r.1 + r.2 ≤ x := by
  obtain ⟨_, hapart, _⟩ := coalesced_cons.mp h
  rw [covered_cons]
  constructor
  · rintro ⟨q, hq, hlo, hhi⟩
    have := hapart q hq
    exact ⟨Or.inr ⟨q, hq, hlo, hhi⟩, by omega⟩
  · rintro ⟨hx | hx, hle⟩
    · exact absurd hx.2 (not_lt.mpr hle)
    · exact hx

theorem Coalesced.head_le (h : Coalesced (r :: rs)) (hx : x ∈ covered (r :: rs)) : r.1 ≤ x := by
  obtain ⟨q, hq, hlo, _⟩ := hx
  rcases List.mem_cons.mp hq with rfl | hq
  · exact hlo
  · have := (coalesced_cons.mp h).2.1 q hq
    omega

/-- **A coalesced list is determined by what it covers.** -/
theorem Coalesced.ext (h : Coalesced rs) (h' : Coalesced ts) (heq : covered rs = covered ts) : rs = ts := by
  induction rs generalizing ts with
  | nil =>
    cases ts with
    | nil => rfl
    | cons q ts => exact absurd (heq ▸ h'.start_mem List.mem_cons_self) (by simp)
  | cons r rs ih =>
    cases ts with
    | nil => exact absurd (heq ▸ h.start_mem List.mem_cons_self) (by simp)
    | cons q ts =>
      -- the first regions start with the least covered unit, and end before the least one that is not
      have hr := h.start_mem (r := r) List.mem_cons_self
      have hq := h'.start_mem (r := q) List.mem_cons_self
      have hrend := h.end_notMem (r := r) List.mem_cons_self
      have hqend := h'.end_notMem (r := q) List.mem_cons_self
      rw [heq] at hr hrend
      rw [← heq] at hq hqend
      have hstart : r.1 = q.1 := Nat.le_antisymm (h.head_le hq) (h'.head_le hr)
      have hlen : r.2 = q.2 := by
        rcases Nat.lt_trichotomy r.2 q.2 with hlt | hlt | hlt
        · exact absurd (Ico_subset_covered List.mem_cons_self ⟨by omega, by omega⟩) hrend
        · exact hlt
        · exact absurd (Ico_subset_covered List.mem_cons_self ⟨by omega, by omega⟩) hqend
      obtain rfl : r = q := Prod.ext hstart hlen
      rw [ih (coalesced_cons.mp h).2.2 (coalesced_cons.mp h').2.2]
      ext x
      rw [h.covered_tail, h'.covered_tail, heq]

end Xv6e.Library.RegionList
