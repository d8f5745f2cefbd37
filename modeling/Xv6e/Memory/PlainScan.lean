import Xv6e.Memory.Growproc

/-!
# `deallocuvm` and the plain scan

`deallocuvm` jumps over the four megabytes of a page table that is not there.

* `scan` — the pages visited one at a time;
* `deallocLoop_eq_scan` — the loop with its jumps computes the same, whatever the memory holds;
* `scan_cleared` — in a page directory whose pages are not shared, the scan frees the frames and clears the
  entries of the pages that it visits and that are present, and nothing else;
* `deallocuvm_eq_scan` — both for `deallocuvm`.
-/

namespace Xv6e.Memory.PlainScan

open PageTable Ownership AddressSpace Frames FrameCalls Library.Fallible
open HeapInvariant (smallLayout smallBoot)

variable {lay : Layout} {m m' m'' : Mem} {d a oldsz : ℕ}

/-- The body of the loop, for one page. -/
def visit (lay : Layout) (pgdir : ℕ) (m : Mem) (a : ℕ) : Except Stop Mem :=
  match walkpgdir m pgdir a false with
  | (none, m) => .ok m
  | (some (pgtab, i), m) =>
    if Present (m.word pgtab i) then
      let pa := PTE_ADDR (m.word pgtab i)
      if pa = 0 then .error .kfree
      else do
        let m ← kfree lay (P2V pa) m
        .ok (m.setWord pgtab i 0)
    else .ok m

/-- The pages visited one at a time. -/
def scan (lay : Layout) (pgdir : ℕ) (pages : List ℕ) (m : Mem) : Except Stop Mem :=
  pages.foldlM (visit lay pgdir) m

/-- The pages from `a` on that start below `z`. -/
def pagesBelow (a z : ℕ) : List ℕ := List.range' a ((z - a + (PGSIZE - 1)) / PGSIZE) PGSIZE

variable {z b : ℕ}

theorem pagesBelow_nil (h : z ≤ a) : pagesBelow a z = [] := by
  rw [pagesBelow, Nat.sub_eq_zero_of_le h]
  rfl

theorem pagesBelow_cons (h : a < z) : pagesBelow a z = a :: pagesBelow (a + PGSIZE) z := by
  have hlen : (z - a + (PGSIZE - 1)) / PGSIZE = (z - (a + PGSIZE) + (PGSIZE - 1)) / PGSIZE + 1 := by
    simp only [PGSIZE]
    omega
  rw [pagesBelow, hlen, List.range'_succ, pagesBelow]

/-- The page table that the entry for `va` stands in. -/
def tableAt (m : Mem) (d va : ℕ) : ℕ := P2V (PTE_ADDR (m.word d (PDX va)))

theorem pteAt_of_table (h : Present (m.word d (PDX a))) : pteAt m d a = m.word (tableAt m d a)
    (PTX a) := if_pos h

theorem table_of_present (h : Present (pteAt m d a)) : Present (m.word d (PDX a)) := by
  by_contra hno
  rw [pteAt, if_neg hno] at h
  exact not_present_zero h

/-! ### The jump -/

theorem visit_absent (h : ¬ Present (pteAt m d a)) : visit lay d m a = .ok m := by
  rw [visit, walkpgdir]
  by_cases hdir : Present (m.word d (PDX a))
  · rw [pteAt_of_table hdir, tableAt] at h
    simp only [if_pos hdir, if_neg h]
  · simp only [if_neg hdir, if_true]

theorem visit_present (h : Present (pteAt m d a)) :
    visit lay d m a = if PTE_ADDR (pteAt m d a) = 0 then .error .kfree
      else kfree lay (frameAt m d a) m >>= fun m' => .ok (m'.setWord (tableAt m d a) (PTX a) 0) := by
  have hdir := table_of_present h
  rw [pteAt_of_table hdir, tableAt] at h
  rw [visit, walkpgdir, frameAt, pteAt_of_table hdir]
  simp only [if_pos hdir, tableAt, if_pos h]
  rfl

theorem deallocLoop_visit (ha : a < oldsz) (hdir : Present (m.word d (PDX a))) (n : ℕ) :
    deallocLoop lay d oldsz (n + 1) a m = visit lay d m a >>= deallocLoop lay d oldsz n
    ((a + PGSIZE) % ADDRESSES) := by
  rw [deallocLoop, if_neg (not_le.mpr ha)]
  have hpte := pteAt_of_table hdir
  by_cases hp : Present (pteAt m d a)
  · rw [visit_present hp, walkpgdir, frameAt]
    rw [hpte, tableAt] at *
    simp only [if_pos hdir, if_pos hp]
    split_ifs
    · rfl
    · cases kfree lay _ m <;> rfl
  · rw [visit_absent hp, walkpgdir, ok_bind]
    rw [hpte, tableAt] at hp
    simp only [if_pos hdir, if_neg hp]

/-- Where there is no page table the scan changes nothing up to the next one. -/
theorem scan_skip (k : ℕ) (hb : a + k * PGSIZE = b)
    (habs : ∀ va, a ≤ va → va < b → ¬ Present (pteAt m d va)) :
    scan lay d (pagesBelow a oldsz) m = scan lay d (pagesBelow b oldsz) m := by
  induction k generalizing a with
  | zero => rw [← hb, Nat.zero_mul, Nat.add_zero]
  | succ k ih =>
    have hpos : 0 < PGSIZE := by decide
    rw [Nat.succ_mul] at hb
    rcases le_or_gt oldsz a with hle | hlt
    · rw [pagesBelow_nil hle, pagesBelow_nil (by omega)]
    · rw [← ih (a := a + PGSIZE) (by omega) fun va h1 h2 => habs va (by omega) h2, pagesBelow_cons hlt, scan,
        List.foldlM_cons, visit_absent (habs a le_rfl (by omega)), ok_bind, scan]

/-- **The jump** goes forward, does not go round, and passes no page that is present. -/
theorem jump (hal : a % PGSIZE = 0) (ha : a < KERNBASE) (hdir : ¬ Present (m.word d (PDX a))) :
    a < (PDX a + 1) * 2 ^ 22 ∧ (PDX a + 1) * 2 ^ 22 < ADDRESSES
      ∧ ∀ va, a ≤ va → va < (PDX a + 1) * 2 ^ 22 → ¬ Present (pteAt m d va) := by
  have hpdx : PDX a = a / 2 ^ 22 := by
    simp only [PDX, NPDENTRIES, KERNBASE] at *
    omega
  obtain ⟨b, hb, hge, _, hsame⟩ := next_table hal ha
  rw [Nat.mod_eq_of_lt (by rw [hpdx]; simp only [ADDRESSES, KERNBASE] at *; omega)] at hb
  rw [hb]
  refine ⟨lt_of_lt_of_le (Nat.lt_add_of_pos_right (by decide)) hge, ?_, fun va h1 h2 hp => ?_⟩
  · rw [← hb, hpdx]
    simp only [ADDRESSES, KERNBASE] at *
    omega
  · have := table_of_present hp
    rw [hsame va h1 h2] at this
    exact hdir this

/-- **The loop with its jumps is the plain scan.** -/
theorem deallocLoop_eq_scan (hold : oldsz ≤ KERNBASE) {n : ℕ} (hal : a % PGSIZE = 0)
    (hn : oldsz ≤ a + n * PGSIZE) :
    deallocLoop lay d oldsz (n + 1) a m = scan lay d (pagesBelow a oldsz) m := by
  induction n generalizing a m with
  | zero =>
    rw [deallocLoop, if_pos (by omega), pagesBelow_nil (by omega)]
    rfl
  | succ n ih =>
    rw [Nat.succ_mul] at hn
    rcases le_or_gt oldsz a with hle | hlt
    · rw [deallocLoop, if_pos hle, pagesBelow_nil hle]
      rfl
    have ha : a < KERNBASE := by omega
    by_cases hdir : Present (m.word d (PDX a))
    · have hnext : (a + PGSIZE) % ADDRESSES = a + PGSIZE := by
        simp only [PGSIZE, ADDRESSES, KERNBASE] at *
        omega
      rw [deallocLoop_visit hlt hdir, hnext, pagesBelow_cons hlt, scan, List.foldlM_cons]
      exact bind_congr fun m₁ => ih (by simp only [PGSIZE] at *; omega) (by omega)
    · -- no page table: on with the first page of the next one
      obtain ⟨h1, h2, habs⟩ := jump hal ha hdir
      have hmod : (PDX a + 1) * 2 ^ 22 % PGSIZE = 0 := Nat.mod_eq_zero_of_dvd (Dvd.dvd.mul_left (by decide) _)
      rw [deallocLoop, if_neg (not_le.mpr hlt), walkpgdir]
      simp only [if_neg hdir, if_true]
      rw [Nat.mod_eq_of_lt h2]
      generalize (PDX a + 1) * 2 ^ 22 = b at *
      have hk : a + (b - a) / PGSIZE * PGSIZE = b := by
        simp only [PGSIZE] at *
        omega
      rw [ih hmod (by simp only [PGSIZE] at *; omega), scan_skip _ hk habs]

/-! ### What the scan does -/

/-- No page of the page directory is used twice: its page tables differ, and no user page is one of them. -/
structure Unshared (m : Mem) (d : ℕ) : Prop where
  tables : ∀ va vb, Present (m.word d (PDX va)) → Present (m.word d (PDX vb))
    → tableAt m d va = tableAt m d vb → PDX va = PDX vb
  table_ne : ∀ va, Present (m.word d (PDX va)) → tableAt m d va ≠ d
  frame_ne : ∀ va < KERNBASE, Present (pteAt m d va) → frameAt m d va ≠ d
    ∧ ∀ vb, Present (m.word d (PDX vb)) → frameAt m d va ≠ tableAt m d vb

/-- Owners that fit the memory keep the pages apart. -/
theorem unshared_of_exact {own : ℕ → Owner} {kpgdir : ℕ} (h : Exact lay own kpgdir m) (hd : own d = .dir) :
    Unshared m d := by
  have htable : ∀ {va}, Present (m.word d (PDX va)) → own (tableAt m d va) = .table d (PDX va) :=
    fun {va} hp => (h.table_of_present hd (PDX_lt va) hp).1
  refine ⟨fun va vb ha hb heq => ?_, fun va ha heq => ?_, fun va hlt hp => ?_⟩
  · have := htable ha
    rw [heq, htable hb] at this
    exact (Owner.table.inj this).2.symm
  · have := htable ha
    rw [heq, hd] at this
    cases this
  · have huser := h.user d va hd hlt hp
    refine ⟨fun heq => ?_, fun vb hb heq => ?_⟩
    · rw [frameAt] at heq
      rw [heq, hd] at huser
      cases huser
    · rw [frameAt] at heq
      rw [heq, htable hb] at huser
      cases huser

/-- The frames of those of the pages that are present. -/
def framesOf (m : Mem) (d : ℕ) (pages : List ℕ) : List ℕ :=
  (pages.filter fun a => Present (pteAt m d a)).map (frameAt m d)

/-- The frames of the pages are freed and their entries cleared. -/
structure Cleared (d : ℕ) (pages : List ℕ) (m m' : Mem) : Prop where
  freelist : m'.freelist = (framesOf m d pages).reverse ++ m.freelist
  dir : m'.word d = m.word d
  pte : ∀ va < ADDRESSES, pteAt m' d va
    = if va / PGSIZE ∈ pages.map (· / PGSIZE) ∧ Present (pteAt m d va) then 0 else pteAt m d va
  words : ∀ v ∉ framesOf m d pages, (∀ va, Present (m.word d (PDX va)) → v ≠ tableAt m d va)
    → m'.word v = m.word v

theorem cleared_nil : Cleared d [] m m := ⟨rfl, rfl, fun _ _ => by simp, fun _ _ _ => rfl⟩

variable {pages : List ℕ}

theorem Cleared.tableAt_eq (h : Cleared d pages m m') (va : ℕ) : tableAt m' d va = tableAt m d va := by
  rw [tableAt, h.dir, tableAt]

theorem Cleared.unshared (h : Cleared d pages m m') (hu : Unshared m d) : Unshared m' d := by
  refine ⟨fun va vb => ?_, fun va => ?_, fun va hlt hp => ?_⟩
  · rw [h.dir, h.tableAt_eq, h.tableAt_eq]
    exact hu.tables va vb
  · rw [h.dir, h.tableAt_eq]
    exact hu.table_ne va
  · have hpte := h.pte va (lt_trans hlt (by decide))
    have hsame : pteAt m' d va = pteAt m d va := hpte.trans (if_neg fun hc => by
      rw [hpte, if_pos hc] at hp
      exact not_present_zero hp)
    rw [frameAt, hsame, h.dir]
    simp only [h.tableAt_eq]
    exact hu.frame_ne va hlt (hsame ▸ hp)

theorem visit_cleared (hu : Unshared m d) (ha : a < KERNBASE) (h : visit lay d m a = .ok m') :
    Cleared d [a] m m' := by
  by_cases hp : Present (pteAt m d a)
  · have hdir := table_of_present hp
    rw [visit_present hp] at h
    split_ifs at h
    obtain ⟨m₁, hk, hset⟩ := bind_ok.mp h
    obtain ⟨-, hm₁⟩ := kfree_ok (P2V_lt _) hk
    cases hset
    have hfree : m₁.freelist = frameAt m d a :: m.freelist := by rw [hm₁, frameAt]
    have hframes : framesOf m d [a] = [frameAt m d a] := by simp [framesOf, hp]
    obtain ⟨hfd, hft⟩ := hu.frame_ne a ha hp
    have hkept : ∀ v, v ≠ frameAt m d a → m₁.word v = m.word v := fun v hv => by
      rw [hm₁]
      exact memset_word_of_ne m 1 hv
    have hword : ∀ v, v ≠ frameAt m d a → v ≠ tableAt m d a →
        (m₁.setWord (tableAt m d a) (PTX a) 0).word v = m.word v := fun v hv1 hv2 =>
      (setWord_word_of_ne _ _ _ hv2).trans (hkept v hv1)
    have hd := hword d hfd.symm (hu.table_ne a hdir).symm
    refine ⟨by rw [hframes]; exact hfree, hd, fun va hva => ?_,
      fun v hv hvt => hword v (by simpa [hframes] using hv) (hvt a hdir)⟩
    simp only [List.map_cons, List.map_nil, List.mem_singleton]
    by_cases hvdir : Present (m.word d (PDX va))
    · rw [pteAt, hd, if_pos hvdir, pteAt_of_table hvdir, ← tableAt]
      have hpage : PDX va = PDX a ∧ PTX va = PTX a ↔ va / PGSIZE = a / PGSIZE :=
        samePage_iff (lt_trans ha (by decide)) hva
      by_cases hsame : tableAt m d va = tableAt m d a
      · rw [hsame, setWord_word, hkept _ (hft a hdir).symm]
        by_cases hi : PTX va = PTX a
        · have hin := hpage.mp ⟨hu.tables va a hvdir hdir hsame, hi⟩
          rw [pteAt_of_table hdir] at hp
          rw [if_pos hi, hi]
          exact (if_pos ⟨hin, hp⟩).symm
        · rw [if_neg hi, if_neg fun hc => hi (hpage.mpr hc.1).2]
      · have hne : va / PGSIZE ≠ a / PGSIZE := fun heq =>
          hsame (congrArg (fun i => P2V (PTE_ADDR (m.word d i))) (hpage.mpr heq).1)
        rw [hword _ (hft va hvdir).symm hsame, if_neg fun hc => hne hc.1]
    · rw [pteAt, hd, if_neg hvdir, pteAt, if_neg hvdir, ite_self]
  · rw [visit_absent hp] at h
    cases h
    have hframes : framesOf m d [a] = [] := by simp [framesOf, hp]
    refine ⟨by rw [hframes]; rfl, rfl, fun va hva => (if_neg fun hc => hp ?_).symm, fun _ _ _ => rfl⟩
    have hpage : va / PGSIZE = a / PGSIZE := by simpa using hc.1
    rw [← pteAt_page, ← hpage, pteAt_page]
    exact hc.2

theorem Cleared.cons (h : Cleared d [a] m m') (h' : Cleared d pages m' m'')
    (hne : ∀ b ∈ pages, b < ADDRESSES ∧ b / PGSIZE ≠ a / PGSIZE) : Cleared d (a :: pages) m m'' := by
  have hkeep : ∀ b ∈ pages, pteAt m' d b = pteAt m d b := fun b hb => by
    rw [h.pte b (hne b hb).1, if_neg fun hc => (hne b hb).2 (by simpa using hc.1)]
  have hframes : framesOf m' d pages = framesOf m d pages := by
    rw [framesOf, framesOf, List.filter_congr fun b hb => by rw [hkeep b hb]]
    refine List.map_congr_left fun b hb => ?_
    rw [frameAt, hkeep b (List.mem_of_mem_filter hb), frameAt]
  have hcons : framesOf m d (a :: pages) = framesOf m d [a] ++ framesOf m d pages := by
    rw [framesOf, framesOf, framesOf, ← List.map_append, ← List.filter_append]
    rfl
  refine ⟨?_, h'.dir.trans h.dir, fun va hva => ?_, fun v hv hvt => ?_⟩
  · rw [h'.freelist, h.freelist, hframes, hcons, List.reverse_append, List.append_assoc]
  · rw [h'.pte va hva, h.pte va hva]
    simp only [List.map_cons, List.map_nil, List.mem_cons, List.not_mem_nil, or_false]
    by_cases hp : Present (pteAt m d va)
    · by_cases h1 : va / PGSIZE = a / PGSIZE
      · simp only [h1, hp, true_and, if_true, true_or, not_present_zero, and_false, if_false]
      · simp only [h1, false_and, if_false, false_or]
    · simp only [hp, and_false, if_false]
  · rw [hcons, List.mem_append, not_or] at hv
    rw [h'.words v (by rw [hframes]; exact hv.2) (by simpa only [h.dir, h.tableAt_eq] using hvt),
      h.words v hv.1 hvt]

/-- **The scan** frees and clears what it visits and finds present, and nothing else. -/
theorem scan_cleared (hu : Unshared m d) (hlt : ∀ b ∈ pages, b < KERNBASE)
    (hnd : (pages.map (· / PGSIZE)).Nodup) (h : scan lay d pages m = .ok m') : Cleared d pages m m' := by
  induction pages generalizing m with
  | nil =>
    cases h
    exact cleared_nil
  | cons a pages ih =>
    rw [scan, List.foldlM_cons] at h
    obtain ⟨m₁, hv, hrest⟩ := bind_ok.mp h
    rw [List.map_cons, List.nodup_cons] at hnd
    have h1 := visit_cleared hu (hlt a List.mem_cons_self) hv
    refine h1.cons (ih (h1.unshared hu) (fun b hb => hlt b (List.mem_cons_of_mem a hb)) hnd.2 hrest)
      fun b hb => ?_
    exact ⟨lt_trans (hlt b (List.mem_cons_of_mem a hb)) (by decide),
      fun heq => hnd.1 (heq ▸ List.mem_map_of_mem hb)⟩

theorem scan_ne_loops : scan lay d pages m ≠ .error .loops := by
  induction pages generalizing m with
  | nil => exact fun h => by cases h
  | cons a pages ih =>
    rw [scan, List.foldlM_cons]
    by_cases hp : Present (pteAt m d a)
    · rw [visit_present hp, kfree]
      split_ifs
      · exact fun h => by cases h
      · exact fun h => by cases h
      · exact ih
    · rw [visit_absent hp]
      exact ih

theorem mem_pagesBelow (hal : a % PGSIZE = 0) :
    b ∈ pagesBelow a z ↔ a ≤ b ∧ b < z ∧ b % PGSIZE = 0 := by
  rw [pagesBelow, List.mem_range']
  simp only [PGSIZE] at *
  constructor
  · rintro ⟨i, hi, rfl⟩
    omega
  · rintro ⟨h1, h2, h3⟩
    exact ⟨(b - a) / 4096, by omega, by omega⟩

theorem pagesBelow_nodup (a z : ℕ) : ((pagesBelow a z).map (· / PGSIZE)).Nodup := by
  rw [pagesBelow]
  generalize (z - a + (PGSIZE - 1)) / PGSIZE = n
  induction n generalizing a with
  | zero => exact List.nodup_nil
  | succ n ih =>
    rw [List.range'_succ, List.map_cons, List.nodup_cons]
    refine ⟨fun hmem => ?_, ih (a + PGSIZE)⟩
    obtain ⟨b, hb, heq⟩ := List.mem_map.mp hmem
    obtain ⟨i, -, rfl⟩ := List.mem_range'.mp hb
    simp only [PGSIZE] at heq
    omega

/-- **`deallocuvm` is the plain scan** of the pages from `PGROUNDUP(newsz)` up to `oldsz`. -/
theorem deallocuvm_eq_scan (lay : Layout) (m : Mem) (d newsz oldsz : ℕ) (hlt : newsz < oldsz)
    (hold : oldsz ≤ KERNBASE) : deallocuvm lay m d oldsz newsz
        = (scan lay d (pagesBelow (PGROUNDUP newsz) oldsz) m >>= fun m' => .ok (newsz, m'))
      ∧ deallocuvm lay m d oldsz newsz ≠ .error .loops
      ∧ (∀ a < oldsz, a % PGSIZE = 0 → ¬ Present (m.word d (PDX a)) →
        a < (PDX a + 1) * 2 ^ 22 ∧ (PDX a + 1) * 2 ^ 22 < ADDRESSES
          ∧ ∀ va, a ≤ va → va < (PDX a + 1) * 2 ^ 22 → ¬ Present (pteAt m d va))
      ∧ (Unshared m d → ∀ m', deallocuvm lay m d oldsz newsz = .ok (newsz, m') →
        m'.freelist = (framesOf m d (pagesBelow (PGROUNDUP newsz) oldsz)).reverse ++ m.freelist
          ∧ (∀ va < ADDRESSES, pteAt m' d va = if PGROUNDUP newsz ≤ va ∧ va / PGSIZE * PGSIZE < oldsz
            ∧ Present (pteAt m d va) then 0 else pteAt m d va)
          ∧ (∀ va, va / PGSIZE = newsz / PGSIZE → newsz % PGSIZE ≠ 0 → pteAt m' d va = pteAt m d va)
          ∧ ∀ v ∉ framesOf m d (pagesBelow (PGROUNDUP newsz) oldsz),
            (∀ va, Present (m.word d (PDX va)) → v ≠ tableAt m d va) → m'.word v = m.word v) := by
  have hal := PGROUNDUP_aligned newsz
  have hloop : deallocuvm lay m d oldsz newsz
      = (scan lay d (pagesBelow (PGROUNDUP newsz) oldsz) m >>= fun m' => .ok (newsz, m')) := by
    rw [deallocuvm, if_neg (not_le.mpr hlt),
      deallocLoop_eq_scan hold hal (by simp only [PAGES, PGSIZE, KERNBASE] at *; omega)]
  refine ⟨hloop, ?_, fun a ha hal' hdir => jump hal' (lt_of_lt_of_le ha hold) hdir, fun hu m' h => ?_⟩
  · rw [hloop]
    have hne : scan lay d (pagesBelow (PGROUNDUP newsz) oldsz) m ≠ .error .loops := scan_ne_loops
    cases hs : scan lay d (pagesBelow (PGROUNDUP newsz) oldsz) m with
    | error e => exact fun h => hne (by rw [hs]; injection h with h; rw [h])
    | ok m' => exact fun h => by cases h
  · rw [hloop] at h
    obtain ⟨m₁, hs, hok⟩ := bind_ok.mp h
    cases hok
    have hc := scan_cleared hu (fun b hb => lt_of_lt_of_le ((mem_pagesBelow hal).mp hb).2.1 hold)
      (pagesBelow_nodup _ _) hs
    have hin : ∀ va, va / PGSIZE ∈ (pagesBelow (PGROUNDUP newsz) oldsz).map (· / PGSIZE)
        ↔ PGROUNDUP newsz ≤ va ∧ va / PGSIZE * PGSIZE < oldsz := fun va => by
      rw [List.mem_map]
      simp only [mem_pagesBelow hal]
      generalize PGROUNDUP newsz = r at *
      simp only [PGSIZE] at *
      constructor
      · rintro ⟨b, hb, heq⟩
        omega
      · rintro ⟨h1, h2⟩
        exact ⟨va / 4096 * 4096, by omega, by omega⟩
    have hpte : ∀ va < ADDRESSES, pteAt m' d va = if PGROUNDUP newsz ≤ va ∧ va / PGSIZE * PGSIZE < oldsz
        ∧ Present (pteAt m d va) then 0 else pteAt m d va := fun va hva => by
      rw [hc.pte va hva]
      exact if_congr (by rw [hin va, and_assoc]) rfl rfl
    refine ⟨hc.freelist, hpte, fun va hpage hpart => ?_, hc.words⟩
    rw [hpte va, if_neg]
    · simp only [PGROUNDUP, PGROUNDDOWN, PGSIZE, ADDRESSES, KERNBASE] at *
      omega
    · simp only [PGSIZE, ADDRESSES, KERNBASE] at *
      omega

/-- A process with two pages, and no page table for the next four megabytes, which the loop jumps over: it is
cut to half a page, and the first page stays. -/
theorem deallocuvm_eq_scan_half : ∃ m m', Unshared m smallBoot.kpgdir ∧ ¬ Present
    (m.word smallBoot.kpgdir (PDX 0x400000))
    ∧ deallocuvm smallLayout m smallBoot.kpgdir 0x401000 2048 = .ok (2048, m')
    ∧ Present (pteAt m smallBoot.kpgdir 4096) ∧ pteAt m' smallBoot.kpgdir 4096 = 0
    ∧ pteAt m' smallBoot.kpgdir 0 = pteAt m smallBoot.kpgdir 0 := by
  obtain ⟨own, m, howned, hdir, hgrow, hs⟩ := Growproc.grown_small (n := 8192) (k := 8192)
    (by decide) (by decide) (by decide +kernel)
  have htable : (Growproc.growproc smallLayout smallBoot.mem smallBoot.kpgdir 0 8192).toOption.map
      (fun x => x.2.2.word smallBoot.kpgdir 1) = some 0 := by decide +kernel
  rw [hgrow] at htable
  obtain ⟨own₁, h₁, hdir₁⟩ := Growproc.exists_exact howned
  obtain ⟨_, m', hok, _⟩ := deallocuvm_exact (by decide) (by decide) (by decide : 2048 < 0x401000) h₁
    (hdir₁ _ hdir)
  have hu := unshared_of_exact h₁ (hdir₁ _ hdir)
  obtain ⟨_, hpte, hpart, _⟩ := (deallocuvm_eq_scan smallLayout m smallBoot.kpgdir 2048 0x401000 (by decide)
    (by decide)).2.2.2 hu m' hok
  have hthere := (hs 4096 (by decide)).mpr (by decide)
  refine ⟨m, m', hu, ?_, hok, hthere, ?_, hpart 0 (by decide) (by decide)⟩
  · rw [show m.word smallBoot.kpgdir (PDX 0x400000) = 0 from Option.some.inj htable]
    exact not_present_zero
  · rw [hpte 4096 (by decide), if_pos ⟨by decide, by decide, hthere⟩]

end Xv6e.Memory.PlainScan
