import Xv6e.Memory.Frames

/-!
# What the calls of `vm.c` do with pages

Each function of `vm.c` returns, and what it has done to the owners of pages is said exactly.

* `deallocuvm_exact` — the user pages of a range go back to the free list, and nothing else changes;
* `freevm_exact` — all pages of a page directory go back, once each;
* `allocuvm_exact` — pages of zeros up to the new size, or page tables only.
-/

namespace Xv6e.Memory.FrameCalls

open PageTable Ownership AddressSpace Frames
open Function (update update_self update_of_ne)

variable {lay : Layout} {own own' own'' : ℕ → Owner} {kpgdir d : ℕ} {m m' m'' : Mem} {U V : ℕ → Prop}

/-! ### `deallocuvm` -/

theorem shrunk_refl (h : Exact lay own kpgdir m) (hU : ∀ va, ¬ U va) : Shrunk lay kpgdir d U own m own m :=
  ⟨h, fun _ _ _ hp => absurd hp (hU _), fun _ _ => rfl, fun va _ hva => absurd hva (hU va),
    fun _ _ _ _ _ => rfl, fun _ _ _ _ => rfl⟩

theorem shrunk_congr (h : Shrunk lay kpgdir d U own m own' m') (hUV : ∀ va, U va ↔ V va) :
    Shrunk lay kpgdir d V own m own' m' := by
  have : U = V := funext fun va => propext (hUV va)
  rwa [← this]

theorem shrunk_widen (hexact : Exact lay own kpgdir m) (hd : own d = .dir)
    (h : Shrunk lay kpgdir d U own m own' m') (hUV : ∀ va, U va → V va)
    (habsent : ∀ va < KERNBASE, V va → ¬ U va → ¬ Present (pteAt m d va)) :
    Shrunk lay kpgdir d V own m own' m' where
  exact := h.exact
  freed v p hv hp := by
    by_cases hU : U (p * PGSIZE)
    · exact h.freed v p hv hU
    · obtain ⟨_, hlt, hpres, _⟩ := hexact.mapped v d p hv
      exact absurd hpres (habsent _ hlt hp hU)
  kept v hv := h.kept v fun p hp hU => hv p hp (hUV _ hU)
  gone va hva hV := by
    by_cases hU : U va
    · exact h.gone va hva hU
    · rw [h.pte d va hd (lt_trans hva (by decide)) fun hc => hU hc.2]
      exact habsent va hva hV hU
  pte e va he hva hV := h.pte e va he hva fun hU => hV ⟨hU.1, hUV va hU.2⟩
  words := h.words

variable {e a oldsz va newsz : ℕ}

theorem shrunk_dir (h : Shrunk lay kpgdir d U own m own' m') (he : own e = .dir) : own' e = .dir := by
  rw [h.kept e fun p hp => absurd (he.symm.trans hp) (by simp), he]

theorem shrunk_trans (hd : own d = .dir) (h : Shrunk lay kpgdir d U own m own' m')
    (h' : Shrunk lay kpgdir d V own' m' own'' m'') :
    Shrunk lay kpgdir d (fun va => U va ∨ V va) own m own'' m'' := by
  have hfree : ∀ v p, own v = .user d p → U (p * PGSIZE) → own'' v = .free := fun v p hv hp => by
    have hv' := h.freed v p hv hp
    rw [h'.kept v fun q hq => absurd (hv'.symm.trans hq) (by simp), hv']
  have hkeep : ∀ v, (∀ p, own v = .user d p → ¬ U (p * PGSIZE)) → own' v = own v := h.kept
  refine ⟨h'.exact, fun v p hv hp => ?_, fun v hv => ?_, fun va hva hUV => ?_, fun e va he hva hUV => ?_,
    fun v hfv hpv hsame => ?_⟩
  · by_cases hU : U (p * PGSIZE)
    · exact hfree v p hv hU
    · have hv' : own' v = .user d p := by
        rw [hkeep v fun q hq => ?_, hv]
        rw [hv] at hq
        exact (Owner.user.inj hq).2 ▸ hU
      exact h'.freed v p hv' (hp.resolve_left hU)
  · have hv' := hkeep v fun p hp hU => hv p hp (Or.inl hU)
    rw [h'.kept v fun p hp hV => hv p (hv' ▸ hp) (Or.inr hV), hv']
  · by_cases hV : V va
    · exact h'.gone va hva hV
    · rw [h'.pte d va (shrunk_dir h hd) (lt_trans hva (by decide)) fun hc => hV hc.2]
      exact h.gone va hva (hUV.resolve_right hV)
  · rw [h'.pte e va (shrunk_dir h he) hva fun hc => hUV ⟨hc.1, Or.inr hc.2⟩,
      h.pte e va he hva fun hc => hUV ⟨hc.1, Or.inl hc.2⟩]
  · have hv' : own' v = own v := hkeep v fun p hp hU => by
      rw [hfree v p hp hU, hp] at hsame
      cases hsame
    rw [h'.words v (by rw [hv']; exact hfv) (by rw [hv']; exact hpv) (by rw [hv', hsame]),
      h.words v hfv hpv hv']

/-- The pages from `a` on that start below `z`. -/
def span (a z : ℕ) : ℕ → Prop := fun va => a ≤ va ∧ va / PGSIZE * PGSIZE < z

theorem span_page {z : ℕ} (hal : a % PGSIZE = 0) (hz : a < z) (va : ℕ) :
    pageOf a va ∨ span (a + PGSIZE) z va ↔ span a z va := by
  simp only [pageOf, span, PGSIZE] at *
  omega

/-- A user page leads to a page that is not at the start of physical memory. -/
theorem frame_ne_zero (hend : KERNBASE < lay.kernelEnd) {v pte : ℕ} (hv : ValidPage lay v)
    (hp : P2V (PTE_ADDR pte) = v) : PTE_ADDR pte ≠ 0 := fun hz => by
  rw [hz] at hp
  have := hv.2.2.2
  have hbase : P2V 0 = KERNBASE := by decide
  omega

/-- `PGADDR(PDX(a) + 1, 0, 0)` is the first page of the next page table. -/
theorem next_table (hal : a % PGSIZE = 0) (ha : a < KERNBASE) :
    ∃ b, (PDX a + 1) * 2 ^ 22 % ADDRESSES = b ∧ a + PGSIZE ≤ b ∧ b % PGSIZE = 0 ∧ ∀ va, a ≤ va → va < b
      → PDX va = PDX a := by
  refine ⟨(a / 2 ^ 22 + 1) * 2 ^ 22, ?_, ?_, ?_, fun va h1 h2 => ?_⟩
  all_goals simp only [PDX, NPDENTRIES, ADDRESSES, KERNBASE, PGSIZE] at *
  all_goals omega

theorem deallocLoop_exact (hend : KERNBASE < lay.kernelEnd) (hold : oldsz ≤ KERNBASE) (n a : ℕ)
    (hal : a % PGSIZE = 0) (hn : oldsz ≤ a + n * PGSIZE) (h : Exact lay own kpgdir m) (hd : own d = .dir) :
    ∃ own' m', deallocLoop lay d oldsz (n + 1) a m = .ok m'
      ∧ Shrunk lay kpgdir d (span a oldsz) own m own' m' := by
  induction n generalizing a m own with
  | zero =>
    refine ⟨own, m, ?_, shrunk_refl h fun va hva => ?_⟩
    · rw [deallocLoop, if_pos (by omega)]
    · obtain ⟨h1, h2⟩ := hva
      simp only [PGSIZE] at *
      omega
  | succ n ih =>
    by_cases hdone : oldsz ≤ a
    · refine ⟨own, m, by rw [deallocLoop, if_pos hdone], shrunk_refl h fun va hva => ?_⟩
      obtain ⟨h1, h2⟩ := hva
      simp only [PGSIZE] at *
      omega
    have ha : a < KERNBASE := by omega
    have hnext : (a + PGSIZE) % ADDRESSES = a + PGSIZE := by
      simp only [PGSIZE, ADDRESSES, KERNBASE] at *
      omega
    have hal' : (a + PGSIZE) % PGSIZE = 0 := by
      simp only [PGSIZE] at *
      omega
    have hn' : oldsz ≤ a + PGSIZE + n * PGSIZE := by
      rw [Nat.succ_mul] at hn
      omega
    rw [deallocLoop, if_neg hdone]
    by_cases hdir : Present (m.word d (PDX a))
    · obtain ⟨ht, hw⟩ := h.table_of_present hd (PDX_lt a) hdir
      have hpte : m.word (P2V (PTE_ADDR (m.word d (PDX a)))) (PTX a) = pteAt m d a := by
        rw [pteAt, if_pos hdir]
      rw [walkpgdir]
      simp only [if_pos hdir]
      rw [hpte]
      by_cases hp : Present (pteAt m d a)
      · obtain ⟨m₁, hk, hown, h1, hpte1, hword1⟩ := h.unmapUser hd ht hw ha hp
        have hdne : d ≠ frameAt m d a := fun hdf => by
          rw [← hdf, hd] at hown
          cases hown
        have hd1 : update own (frameAt m d a) .free d = .dir := by rw [update_of_ne hdne, hd]
        obtain ⟨own', m', hloop, hs⟩ := ih (a + PGSIZE) hal' hn' h1 hd1
        have hone : Shrunk lay kpgdir d (pageOf a) own m (update own (frameAt m d a) .free)
            (m₁.setWord (P2V (PTE_ADDR (m.word d (PDX a)))) (PTX a) 0) := by
          refine ⟨h1, fun v p hv hpage => ?_, fun v hv => ?_, fun va hva hpage => ?_,
            fun e va he hva hne => ?_, fun v _ hpv hsame => ?_⟩
          · rw [pageOf, Nat.mul_div_cancel p (by decide)] at hpage
            have hfr := (h.mapped v d p hv).2.2.2
            rw [frameAt, hpage, pteAt_page] at hfr
            rw [← hfr]
            exact update_self ..
          · refine update_of_ne (fun hvf => hv (a / PGSIZE) (by rw [hvf, hown]) ?_) ..
            rw [pageOf, Nat.mul_div_cancel _ (by decide)]
          · rw [hpte1 d va hd (lt_trans hva (by decide)), if_pos ⟨rfl, hpage⟩]
            exact not_present_zero
          · exact (hpte1 e va he hva).trans (if_neg hne)
          · refine hword1 v (fun hvf => ?_) fun hvt => ?_
            · rw [hvf, update_self, hown] at hsame
              cases hsame
            · rw [hvt, ht] at hpv
              cases hpv
        refine ⟨own', m', ?_, shrunk_congr (shrunk_trans hd hone hs) (span_page hal (by omega))⟩
        have hvalid : ValidPage lay (frameAt m d a) := h.valid _ (by simp [hown])
        rw [if_pos hp, if_neg (frame_ne_zero hend hvalid rfl), hnext]
        rw [frameAt] at hk
        rw [hk]
        exact hloop
      · obtain ⟨own', m', hloop, hs⟩ := ih (a + PGSIZE) hal' hn' h hd
        refine ⟨own', m', by rw [if_neg hp, hnext]; exact hloop, shrunk_widen h hd hs ?_ ?_⟩
        · exact fun va hva => (span_page hal (by omega) va).mp (Or.inr hva)
        · intro va _ hva hno
          have hpage := ((span_page hal (by omega) va).mpr hva).resolve_right hno
          rw [← pteAt_page, hpage, pteAt_page]
          exact hp
    · -- no page table: the loop goes on with the first page of the next one
      obtain ⟨b, hjump, hge, hb, hsame⟩ := next_table hal ha
      obtain ⟨own', m', hloop, hs⟩ := ih b hb (by omega) h hd
      refine ⟨own', m', ?_, shrunk_widen h hd hs ?_ ?_⟩
      · rw [walkpgdir]
        simp only [if_neg hdir, if_true]
        rw [hjump]
        exact hloop
      · exact fun va hva => ⟨le_trans (by omega) hva.1, hva.2⟩
      · intro va hva hin hout
        have hlt : va < b := by
          by_contra hge'
          exact hout ⟨not_lt.mp hge', hin.2⟩
        rw [pteAt, hsame va hin.1 hlt, if_neg hdir]
        exact not_present_zero

/-- **`deallocuvm`** gives the user pages between the sizes back and returns the new size. -/
theorem deallocuvm_exact (hend : KERNBASE < lay.kernelEnd) {z : ℕ} (hold : oldsz ≤ KERNBASE)
    (hlt : z < oldsz) (h : Exact lay own kpgdir m) (hd : own d = .dir) :
    ∃ own' m', deallocuvm lay m d oldsz z = .ok (z, m')
      ∧ Shrunk lay kpgdir d (span (PGROUNDUP z) oldsz) own m own' m' := by
  obtain ⟨own', m', hloop, hs⟩ := deallocLoop_exact hend hold PAGES (PGROUNDUP z) (PGROUNDUP_aligned z)
    (by simp only [PAGES, PGSIZE, KERNBASE] at *; omega) h hd
  refine ⟨own', m', ?_, hs⟩
  rw [deallocuvm, if_neg (by omega), hloop]
  rfl

/-! ### `freevm` -/

/-- The page directory that a page table or a user page belongs to. -/
def dirOf : Owner → Option ℕ
  | .table d _ => some d
  | .user d _ => some d
  | _ => none

/-- The owners when a page directory and all that belongs to it are given to `o`. -/
def handOver (o : Owner) (own : ℕ → Owner) (d : ℕ) : ℕ → Owner := fun v =>
  if v = d ∨ dirOf (own v) = some d then o else own v

theorem handOver_of_ne {o : Owner} {v : ℕ} (hv : v ≠ d) (hof : dirOf (own v) ≠ some d) :
    handOver o own d v = own v :=
  if_neg fun h => h.elim hv hof

/-- A page directory may be taken out of use, with its pages. -/
theorem exact_retire (h : Exact lay own kpgdir m) (hd : own d = .dir) :
    Exact lay (handOver .other own d) kpgdir m := by
  have hback : ∀ {v : ℕ} {o : Owner}, handOver .other own d v = o → o ≠ .other →
      own v = o ∧ v ≠ d ∧ dirOf (own v) ≠ some d := fun {v o} hv ho => by
    rw [handOver] at hv
    by_cases hc : v = d ∨ dirOf (own v) = some d
    · rw [if_pos hc] at hv
      exact absurd hv.symm ho
    · rw [if_neg hc] at hv
      exact ⟨hv, fun h1 => hc (Or.inl h1), fun h2 => hc (Or.inr h2)⟩
  have hkeep : ∀ {v : ℕ} {o : Owner}, own v = o → o ≠ .dir → dirOf o ≠ some d → handOver .other own d v = o :=
    fun {v o} hv ho hof => by
      have hne : v ≠ d := fun hvd => ho (by rw [← hv, hvd, hd])
      rw [handOver_of_ne hne (by rw [hv]; exact hof), hv]
  have hdir : ∀ {e : ℕ}, own e = .dir → e ≠ d → handOver .other own d e = .dir := fun he hed => by
    rw [handOver_of_ne hed (by rw [he]; exact (fun h => by cases h)), he]
  refine ⟨⟨fun v hv => ?_, h.nodup, fun v hv => ?_, fun e i he hi hp => ?_, fun e va he hva hp => ?_,
    fun va hk hva hp => ?_⟩, fun v hv => ?_, fun v e i hv => ?_, fun v e p hv => ?_⟩
  · exact hkeep (h.free v hv) (fun h => by cases h) (fun h => by cases h)
  · obtain ⟨hown, _⟩ := hback rfl hv
    exact h.valid v (by rw [hown]; exact hv)
  · obtain ⟨he, hed, _⟩ := hback he (by simp)
    obtain ⟨t, ht, hw⟩ := h.table e i he hi hp
    exact ⟨t, hkeep ht (by simp) fun hc => hed (Option.some.inj hc), hw⟩
  · obtain ⟨he, hed, _⟩ := hback he (by simp)
    exact hkeep (h.user e va he hva hp) (by simp) fun hc => hed (Option.some.inj hc)
  · obtain ⟨hk, _⟩ := hback hk (by simp)
    exact hkeep (h.heap va hk hva hp) (fun h => by cases h) (fun h => by cases h)
  · exact h.listed v (hback hv (by simp)).1
  · obtain ⟨hown, _, hof⟩ := hback hv (by simp)
    obtain ⟨he, hi, hw⟩ := h.linked v e i hown
    exact ⟨hdir he fun hed => hof (by rw [hown, hed]; rfl), hi, hw⟩
  · obtain ⟨hown, _, hof⟩ := hback hv (by simp)
    obtain ⟨he, hp, hpres, hframe⟩ := h.mapped v e p hown
    exact ⟨hdir he fun hed => hof (by rw [hown, hed]; rfl), hp, hpres, hframe⟩

/-- The page tables of a directory, from entry `i` on. -/
def tablesFrom (m : Mem) (d i n : ℕ) (v : ℕ) : Prop :=
  ∃ j, i ≤ j ∧ j < i + n ∧ Present (m.word d j) ∧ P2V (PTE_ADDR (m.word d j)) = v

/-- The loop of `freevm` over the entries of a page directory that is no longer in use. -/
theorem freeTables_exact (n i : ℕ) (h : Exact lay own kpgdir m) (hd : own d = .other)
    (hown : ∀ v, tablesFrom m d i n v → own v = .other ∧ ValidPage lay v ∧ v ≠ d)
    (hinj : ∀ j k, Present (m.word d j) → Present (m.word d k) → i ≤ j → i ≤ k → j < i + n → k < i + n →
      P2V (PTE_ADDR (m.word d j)) = P2V (PTE_ADDR (m.word d k)) → j = k) :
    ∃ own' m', freeTables lay d n i m = .ok m' ∧ Exact lay own' kpgdir m'
      ∧ (∀ v, tablesFrom m d i n v → own' v = .free)
      ∧ (∀ v, ¬ tablesFrom m d i n v → own' v = own v ∧ m'.word v = m.word v)
      ∧ ∀ e va, own e = .dir → pteAt m' e va = pteAt m e va := by
  induction n generalizing i m own with
  | zero =>
    have hnone : ∀ v, ¬ tablesFrom m d i 0 v := fun v ⟨j, h1, h2, _⟩ => by omega
    exact ⟨own, m, rfl, h, fun v hv => absurd hv (hnone v), fun _ _ => ⟨rfl, rfl⟩, fun _ _ _ => rfl⟩
  | succ n ih =>
    rw [freeTables]
    by_cases hp : Present (m.word d i)
    · have hthis : tablesFrom m d i (n + 1) (P2V (PTE_ADDR (m.word d i))) := ⟨i, le_refl i, by omega, hp, rfl⟩
      obtain ⟨hother, hvalid, hne⟩ := hown _ hthis
      obtain ⟨m₁, hk, h1, hword, hpte⟩ := h.give hvalid hother
      have hwd : m₁.word d = m.word d := hword d hne.symm
      have hiff : ∀ v, tablesFrom m₁ d (i + 1) n v → tablesFrom m d i (n + 1) v
          ∧ v ≠ P2V (PTE_ADDR (m.word d i)) := by
        rintro v ⟨j, h1, h2, hpj, hj⟩
        rw [hwd] at hpj hj
        refine ⟨⟨j, by omega, by omega, hpj, hj⟩, fun hv => ?_⟩
        have := hinj j i hpj hp (by omega) (by omega) (by omega) (by omega) (hj.trans hv)
        omega
      obtain ⟨own', m', hloop, h', hfree, hkeep, hpte'⟩ := ih (i + 1) h1
        (by rw [update_of_ne hne.symm, hd])
        (fun v hv => by
          obtain ⟨hin, hvne⟩ := hiff v hv
          rw [update_of_ne hvne]
          exact hown v hin)
        (fun j k hpj hpk h1 h2 h3 h4 heq => by
          rw [hwd] at hpj hpk heq
          exact hinj j k hpj hpk (by omega) (by omega) (by omega) (by omega) heq)
      refine ⟨own', m', ?_, h', fun v hv => ?_, fun v hv => ?_, fun e va he => ?_⟩
      · rw [if_pos hp, hk]
        exact hloop
      · by_cases hvi : tablesFrom m₁ d (i + 1) n v
        · exact hfree v hvi
        · have hv0 : v = P2V (PTE_ADDR (m.word d i)) := by
            obtain ⟨j, h1, h2, hpj, hj⟩ := hv
            by_cases hji : j = i
            · rw [← hj, hji]
            · exact absurd ⟨j, by omega, by omega, by rw [hwd]; exact hpj, by rw [hwd]; exact hj⟩ hvi
          rw [(hkeep v hvi).1, hv0, update_self]
      · have hvne : v ≠ P2V (PTE_ADDR (m.word d i)) := fun hvi => hv (hvi ▸ hthis)
        obtain ⟨ho, hw⟩ := hkeep v fun hvi => hv (hiff v hvi).1
        exact ⟨by rw [ho, update_of_ne hvne], by rw [hw, hword v hvne]⟩
      · have hene : e ≠ P2V (PTE_ADDR (m.word d i)) := fun hei => by
          rw [hei, hother] at he
          cases he
        rw [hpte' e va (by rw [update_of_ne hene, he]), hpte e va he]
    · have hiff : ∀ v, tablesFrom m d i (n + 1) v ↔ tablesFrom m d (i + 1) n v := fun v => by
        constructor
        · rintro ⟨j, h1, h2, hpj, hj⟩
          have hji : j ≠ i := fun hji => hp (hji ▸ hpj)
          exact ⟨j, by omega, by omega, hpj, hj⟩
        · rintro ⟨j, h1, h2, hpj, hj⟩
          exact ⟨j, by omega, by omega, hpj, hj⟩
      obtain ⟨own', m', hloop, h', hfree, hkeep, hpte'⟩ :=
        ih (i + 1) h hd (fun v hv => hown v ((hiff v).mpr hv))
        fun j k hpj hpk h1 h2 h3 h4 => hinj j k hpj hpk (by omega) (by omega) (by omega) (by omega)
      refine ⟨own', m', by rw [if_neg hp]; exact hloop, h', fun v hv => hfree v ((hiff v).mp hv),
        fun v hv => ?_, hpte'⟩
      exact hkeep v fun hc => hv ((hiff v).mpr hc)

/-- **`freevm`** gives back every page of its page directory, and no other. -/
theorem freevm_exact (hend : KERNBASE < lay.kernelEnd) (h : Exact lay own kpgdir m) (hd : own d = .dir) :
    ∃ m', freevm lay m d = .ok m' ∧ Exact lay (handOver .free own d) kpgdir m'
      ∧ (∀ e va, own e = .dir → e ≠ d → va < ADDRESSES → pteAt m' e va = pteAt m e va)
      ∧ ∀ v, own v ≠ .free → (own v).paging = false → dirOf (own v) ≠ some d → m'.word v = m.word v := by
  have hvalid : ValidPage lay d := h.valid d (by simp [hd])
  obtain ⟨own₁, m₁, hdealloc, hs⟩ := deallocuvm_exact hend (le_refl KERNBASE) (z := 0) (by decide) h hd
  have hspan : ∀ va < KERNBASE, span (PGROUNDUP 0) KERNBASE va := fun va hva =>
    ⟨Nat.zero_le va, lt_of_le_of_lt (Nat.div_mul_le_self va PGSIZE) hva⟩
  have hd₁ : own₁ d = .dir := shrunk_dir hs hd
  have hother : ∀ v, dirOf (own v) ≠ some d → own₁ v = own v := fun v hv =>
    hs.kept v fun p hp => absurd (by rw [hp]; rfl) hv
  -- from here on `d` and its page tables are the caller's
  have h₂ := exact_retire hs.exact hd₁
  have htab : ∀ v, tablesFrom m₁ d 0 NPDENTRIES v ↔ ∃ i, own₁ v = .table d i := by
    intro v
    constructor
    · rintro ⟨j, _, hj, hp, rfl⟩
      exact ⟨j, (hs.exact.table_of_present hd₁ (by omega) hp).1⟩
    · rintro ⟨i, hi⟩
      obtain ⟨_, hlt, hw⟩ := hs.exact.linked v d i hi
      refine ⟨i, Nat.zero_le i, by omega, by rw [hw]; exact present_tableEntry v, ?_⟩
      rw [hw]
      exact frame_tableEntry (hs.exact.valid v (by simp [hi]))
  obtain ⟨own₃, m₃, hfree, h₃, hfreed, hkept, hpte₃⟩ := freeTables_exact NPDENTRIES 0 h₂ (if_pos (Or.inl rfl))
    (fun v hv => by
      obtain ⟨i, hi⟩ := (htab v).mp hv
      refine ⟨if_pos (Or.inr (by rw [hi]; rfl)), hs.exact.valid v (by simp [hi]), fun hvd => ?_⟩
      rw [hvd, hd₁] at hi
      cases hi)
    (fun j k hpj hpk _ _ hj hk heq => by
      have hj := (hs.exact.table_of_present hd₁ (by omega : j < NPDENTRIES) hpj).1
      rw [heq, (hs.exact.table_of_present hd₁ (by omega : k < NPDENTRIES) hpk).1] at hj
      exact (Owner.table.inj hj).2.symm)
  have hnd : ¬ tablesFrom m₁ d 0 NPDENTRIES d := fun hc => by
    obtain ⟨i, hi⟩ := (htab d).mp hc
    rw [hd₁] at hi
    cases hi
  have hd₃ : own₃ d = .other := by
    rw [(hkept d hnd).1]
    exact if_pos (Or.inl rfl)
  obtain ⟨m₄, hk, h₄, hword₄, hpte₄⟩ := h₃.give hvalid hd₃
  have howners : update own₃ d .free = handOver .free own d := by
    funext v
    by_cases hvd : v = d
    · rw [hvd, update_self]
      exact (if_pos (Or.inl rfl)).symm
    rw [update_of_ne hvd]
    by_cases hof : dirOf (own v) = some d
    · rw [handOver, if_pos (Or.inr hof)]
      cases hown : own v with
      | table e i =>
        rw [hown] at hof
        obtain rfl : e = d := Option.some.inj hof
        refine hfreed v ((htab v).mpr ⟨i, ?_⟩)
        rw [hs.kept v fun p hp => absurd (hown.symm.trans hp) (by simp), hown]
      | user e p =>
        rw [hown] at hof
        obtain rfl : e = d := Option.some.inj hof
        have hv₁ : own₁ v = .free := hs.freed v p hown (hspan _ (h.mapped v e p hown).2.1)
        have hnt : ¬ tablesFrom m₁ e 0 NPDENTRIES v := fun hc => by
          obtain ⟨i, hi⟩ := (htab v).mp hc
          rw [hv₁] at hi
          cases hi
        rw [(hkept v hnt).1, handOver_of_ne hvd (by rw [hv₁]; exact (fun h => by cases h)), hv₁]
      | _ =>
        rw [hown] at hof
        cases hof
    · have hv₁ := hother v hof
      have hnt : ¬ tablesFrom m₁ d 0 NPDENTRIES v := fun hc => by
        obtain ⟨i, hi⟩ := (htab v).mp hc
        rw [← hv₁, hi] at hof
        exact hof rfl
      rw [handOver_of_ne hvd hof, (hkept v hnt).1, handOver_of_ne hvd (by rw [hv₁]; exact hof), hv₁]
  rw [howners] at h₄
  refine ⟨m₄, ?_, h₄, fun e va he hed hva => ?_, fun v hfv hpv hof => ?_⟩
  · rw [freevm, if_neg hvalid.ne_zero, hdealloc]
    show (freeTables lay d NPDENTRIES 0 m₁ >>= fun m => kfree lay d m) = _
    rw [hfree]
    exact hk
  · have he₁ : own₁ e = .dir := shrunk_dir hs he
    have he₂ : handOver .other own₁ d e = .dir := by
      rw [handOver_of_ne hed (by rw [he₁]; exact (fun h => by cases h)), he₁]
    have hnt : ¬ tablesFrom m₁ d 0 NPDENTRIES e := fun hc => by
      obtain ⟨i, hi⟩ := (htab e).mp hc
      rw [he₁] at hi
      cases hi
    rw [hpte₄ e va (by rw [(hkept e hnt).1, he₂]), hpte₃ e va he₂, hs.pte e va he hva fun hc => hed hc.1]
  · have hvd : v ≠ d := fun hvd => by
      rw [hvd, hd] at hpv
      cases hpv
    have hv₁ := hother v hof
    have hnt : ¬ tablesFrom m₁ d 0 NPDENTRIES v := fun hc => by
      obtain ⟨i, hi⟩ := (htab v).mp hc
      rw [← hv₁, hi] at hof
      exact hof rfl
    rw [hword₄ v hvd, (hkept v hnt).2, hs.words v hfv hpv hv₁]

/-! ### `allocuvm` -/

section

variable (h : Exact lay own kpgdir m)
include h

/-- **One page more**: `mappages` of a page that has just been taken from the free list and filled. -/
theorem mappages_user (hd : own d = .dir) {r w : ℕ} {rest : List ℕ} (ha : a < KERNBASE) (hal : a % PGSIZE = 0)
    (habsent : ¬ Present (pteAt m d a)) (hperm : w < PGSIZE) (hf : m.freelist = r :: rest)
    (hf' : m'.freelist = rest) (hword : ∀ u, u ≠ r → m'.word u = m.word u) :
    mappages m' d a PGSIZE (V2P r) w = .ok (false, m')
    ∨ ∃ own'' m'', mappages m' d a PGSIZE (V2P r) w = .ok (true, m'')
      ∧ Grown lay kpgdir d (pageOf a) own m own'' m''
      ∧ pteAt m'' d a = V2P r ||| w ||| PTE_P ∧ Present (pteAt m'' d a) ∧ frameAt m'' d a = r
      ∧ m''.word r = m'.word r := by
  obtain ⟨hr, hvr, h1⟩ := h.take hf
  have hother : update own r .other r = .other := update_self ..
  obtain ⟨h1, hpte1⟩ := h1.write (k := m') (v := r) (by rw [hother]; rfl) hf' hword
  have hdr : d ≠ r := fun hdr => by
    rw [hdr, hr] at hd
    cases hd
  have hd1 : update own r .other d = .dir := by rw [update_of_ne hdr, hd]
  have hdown : PGROUNDDOWN a = a := by
    simp only [PGROUNDDOWN, PGSIZE] at *
    omega
  have hlast : PGROUNDDOWN ((a + PGSIZE + (ADDRESSES - 1)) % ADDRESSES) = a := by
    simp only [PGROUNDDOWN, PGSIZE, ADDRESSES, KERNBASE] at ha hal ⊢
    omega
  obtain ⟨n, hn⟩ : ∃ n, PAGES = n + 1 := ⟨PAGES - 1, by decide⟩
  rw [mappages, hdown, hlast, hn, mapLoop]
  rcases h1.walk hd1 a with hwalk | ⟨t, own₂, m₂, hwalk, hg, ht, hw, hentry⟩
  · left
    simp only [hwalk]
  right
  simp only [hwalk]
  have hd2 : own₂ d = .dir := by rw [hg.keep (by simp [hd1]), hd1]
  have hr2 : own₂ r = .other := by rw [hg.keep (by simp), hother]
  have habsent1 : ¬ Present (pteAt m' d a) := by
    rw [hpte1 d a hd1]
    exact habsent
  have habsent2 : ¬ Present (pteAt m₂ d a) := by
    rw [hg.pte d a hd1 (lt_trans ha (by decide)) (fun hc => hc.2)]
    exact habsent1
  obtain ⟨h3, hpte3⟩ := hg.exact.mapUser hd2 ht hw ha hr2 hvr hperm habsent2
  have htr : t ≠ r := fun htr => by
    rw [htr, hr2] at ht
    cases ht
  have hdir : ∀ e, own e = .dir → update own r .other e = .dir ∧ own₂ e = .dir := fun e he => by
    have her : e ≠ r := fun her => by
      rw [her, hr] at he
      cases he
    have he1 : update own r .other e = .dir := by rw [update_of_ne her, he]
    exact ⟨he1, by rw [hg.keep (by simp [he1]), he1]⟩
  have hnew : pteAt (m₂.setWord t (PTX a) (V2P r ||| w ||| PTE_P)) d a = V2P r ||| w ||| PTE_P := by
    rw [hpte3 d a hd2 (lt_trans ha (by decide)), if_pos ⟨rfl, rfl⟩]
  refine ⟨_, m₂.setWord t (PTX a) (V2P r ||| w ||| PTE_P), ?_, ⟨h3, fun v => ?_, fun e va he hva hU => ?_,
    fun v hfv hpv => ?_⟩, hnew, ?_, ?_, ?_⟩
  · simp only [hentry, if_neg habsent1, if_true]
  · by_cases hvr' : v = r
    · rw [hvr', update_self]
      refine Or.inr ⟨hr, Or.inr ⟨a / PGSIZE, ?_, rfl⟩⟩
      rw [pageOf, Nat.mul_div_cancel _ (by decide)]
    · rw [update_of_ne hvr']
      rcases hg.gains v with hv | ⟨hfree, hv | ⟨p, hp, _⟩⟩
      · rw [hv, update_of_ne hvr']
        exact Or.inl rfl
      · rw [update_of_ne hvr'] at hfree
        exact Or.inr ⟨hfree, Or.inl hv⟩
      · exact hp.elim
  · obtain ⟨he1, he2⟩ := hdir e he
    refine (hpte3 e va he2 hva).trans ((if_neg hU).trans ?_)
    rw [hg.pte e va he1 hva fun hc => hc.2, hpte1 e va he1]
    rfl
  · have hvr' : v ≠ r := fun hvr' => hfv (by rw [hvr', hr])
    have hv1 : update own r .other v = own v := update_of_ne hvr' ..
    have hvt : v ≠ t := fun hvt => by
      have hv2 : own₂ v = own v := by rw [hg.keep (by rw [hv1]; exact hfv), hv1]
      rw [← hv2, hvt, ht] at hpv
      cases hpv
    rw [setWord_word_of_ne _ _ _ hvt, hg.words v (by rw [hv1]; exact hfv)
      (by rw [hv1]; exact hpv), hword v hvr']
  · rw [hnew]
    exact present_or _
  · rw [frameAt, hnew]
    exact frame_of_entry hvr hperm
  · rw [setWord_word_of_ne _ _ _ htr.symm, hg.words r (by simp) (by rw [hother]; rfl)]

/-- The pages that a page directory has taken and not kept: page tables only. -/
def TablesOnly (d : ℕ) (own own' : ℕ → Owner) : Prop :=
  ∀ v, own' v = own v ∨ own v = .free ∧ ∃ i, own' v = .table d i

/-- **Growth that is taken back** leaves page tables behind, and no other page. -/
theorem rollback (hg : Grown lay kpgdir d U own m own' m')
    (hs : Shrunk lay kpgdir d V own' m' own'' m'') (hUV : ∀ va, U va → V va)
    (habsent : ∀ va < KERNBASE, V va → ¬ Present (pteAt m d va)) :
    Grown lay kpgdir d V own m own'' m'' ∧ TablesOnly d own own'' := by
  have hkeep : ∀ v, own v ≠ .free → own'' v = own v := fun v hv => by
    have hv' := hg.keep hv
    rw [hs.kept v fun p hp hV => ?_, hv']
    rw [hv'] at hp
    obtain ⟨_, hlt, hpres, _⟩ := h.mapped v d p hp
    exact habsent _ hlt hV hpres
  have htables : TablesOnly d own own'' := fun v => by
    by_cases hfree : own v = .free
    · rcases hg.gains v with hv | ⟨_, ⟨i, hv⟩ | ⟨p, hp, hv⟩⟩
      · rw [hs.kept v fun q hq => ?_, hv]
        · exact Or.inl rfl
        · rw [hv, hfree] at hq
          cases hq
      · refine Or.inr ⟨hfree, i, ?_⟩
        rw [hs.kept v fun q hq => absurd (hv.symm.trans hq) (by simp), hv]
      · rw [hs.freed v p hv (hUV _ hp), hfree]
        exact Or.inl rfl
    · exact Or.inl (hkeep v hfree)
  refine ⟨⟨hs.exact, fun v => (htables v).imp id fun hv => ⟨hv.1, Or.inl hv.2⟩, fun e va he hva hV => ?_,
    fun v hfv hpv => ?_⟩, htables⟩
  · rw [hs.pte e va (by rw [hg.keep (by simp [he]), he]) hva hV,
      hg.pte e va he hva fun hU => hV ⟨hU.1, hUV va hU.2⟩]
  · have hv' := hg.keep hfv
    rw [hs.words v (by rw [hv']; exact hfv) (by rw [hv']; exact hpv) (by rw [hkeep v hfv, hv']),
      hg.words v hfv hpv]

/-- `deallocuvm` while the caller holds one more page, and then `kfree` of that page. -/
theorem shrunk_held (hd : own d = .dir) {r : ℕ} {rest : List ℕ} (hf : m.freelist = r :: rest)
    (hf' : m'.freelist = rest) (hword : ∀ u, u ≠ r → m'.word u = m.word u)
    (hs : Shrunk lay kpgdir d U (update own r .other) m' own'' m'') :
    ∃ own₃ m₃, kfree lay r m'' = .ok m₃ ∧ Shrunk lay kpgdir d U own m own₃ m₃ := by
  obtain ⟨hr, hvr, h1⟩ := h.take hf
  have hother : update own r .other r = .other := update_self ..
  obtain ⟨_, hpte1⟩ := h1.write (k := m') (v := r) (by rw [hother]; rfl) hf' hword
  have hr2 : own'' r = .other := by rw [hs.kept r fun p hp => absurd (hother.symm.trans hp) (by simp), hother]
  obtain ⟨m₃, hk, h3, hword3, hpte3⟩ := hs.exact.give hvr hr2
  have hsame : ∀ v, v ≠ r → update own r .other v = own v := fun v hv => update_of_ne hv ..
  have hdr : ∀ e, own e = .dir → e ≠ r := fun e he her => by
    rw [her, hr] at he
    cases he
  refine ⟨_, m₃, hk, h3, fun v p hv hp => ?_, fun v hv => ?_, fun va hva hU => ?_, fun e va he hva hU => ?_,
    fun v hfv hpv hkept => ?_⟩
  · have hvr' : v ≠ r := fun hvr' => by
      rw [hvr', hr] at hv
      cases hv
    rw [update_of_ne hvr']
    exact hs.freed v p (by rw [hsame v hvr', hv]) hp
  · by_cases hvr' : v = r
    · rw [hvr', update_self, hr]
    · rw [update_of_ne hvr', hs.kept v fun p hp => hv p (by rw [← hsame v hvr', hp]), hsame v hvr']
  · have hd1 : update own r .other d = .dir := by rw [hsame d (hdr d hd), hd]
    rw [hpte3 d va (shrunk_dir hs hd1)]
    exact hs.gone va hva hU
  · have he1 : update own r .other e = .dir := by rw [hsame e (hdr e he), he]
    rw [hpte3 e va (shrunk_dir hs he1), hs.pte e va he1 hva hU, hpte1 e va he1]
    rfl
  · have hvr' : v ≠ r := fun hvr' => hfv (by rw [hvr', hr])
    have hv1 := hsame v hvr'
    rw [update_of_ne hvr'] at hkept
    rw [hword3 v hvr', hs.words v (by rw [hv1]; exact hfv) (by rw [hv1]; exact hpv)
      (by rw [hkept, hv1]), hword v hvr']

theorem grown_page (hg : Grown lay kpgdir d U own m own' m') (he : own e = .dir)
    (hva : va < KERNBASE) (hU : ¬ (e = d ∧ U va)) (hp : Present (pteAt m e va)) :
    pteAt m' e va = pteAt m e va ∧ m'.word (frameAt m' e va) = m.word (frameAt m e va) := by
  have hpte := hg.pte e va he (lt_trans hva (by decide)) hU
  have hown := h.user e va he hva hp
  refine ⟨hpte, ?_⟩
  rw [frameAt, hpte]
  exact hg.words _ (by simp [hown]) (by rw [hown]; rfl)

theorem shrunk_page (hs : Shrunk lay kpgdir d U own m own' m') (he : own e = .dir) (hva : va < KERNBASE)
    (hU : ¬ (e = d ∧ U (va / PGSIZE * PGSIZE))) (hUpage : U va → U (va / PGSIZE * PGSIZE))
    (hp : Present (pteAt m e va)) :
    pteAt m' e va = pteAt m e va ∧ m'.word (frameAt m' e va) = m.word (frameAt m e va) := by
  have hpte := hs.pte e va he (lt_trans hva (by decide)) fun hc => hU ⟨hc.1, hUpage hc.2⟩
  have hown := h.user e va he hva hp
  refine ⟨hpte, ?_⟩
  rw [frameAt, hpte]
  refine hs.words _ (by simp [hown]) (by rw [hown]; rfl) (hs.kept _ fun p hq => ?_)
  rw [hown] at hq
  obtain ⟨rfl, rfl⟩ := Owner.user.inj hq
  exact fun hc => hU ⟨rfl, hc⟩

end

def Fresh (m : Mem) (d va : ℕ) : Prop := Present (pteAt m d va) ∧ ∀ i, m.word (frameAt m d va) i = 0

theorem PGROUNDUP_ge {sz : ℕ} (h : sz < KERNBASE) : sz ≤ PGROUNDUP sz ∧ PGROUNDUP sz < sz + PGSIZE := by
  simp only [PGROUNDUP, PGROUNDDOWN, PGSIZE, ADDRESSES, KERNBASE] at *
  omega

/-- How `allocuvm` leaves the page directory: grown with pages of zeros, or with page tables only. -/
def Allocated (lay : Layout) (kpgdir d oldsz newsz sz : ℕ) (own : ℕ → Owner) (m : Mem)
    (own' : ℕ → Owner) (m' : Mem) : Prop :=
  Grown lay kpgdir d (span (PGROUNDUP oldsz) newsz) own m own' m'
  ∧ (sz = newsz ∧ (∀ va < KERNBASE, span (PGROUNDUP oldsz) newsz va → Fresh m' d va)
    ∨ sz = 0 ∧ (∀ va < KERNBASE, span (PGROUNDUP oldsz) newsz va → ¬ Present (pteAt m' d va))
    ∧ TablesOnly d own own')

theorem span_sub (hal : a % PGSIZE = 0) (hlast : a = PGROUNDUP oldsz ∨ a < newsz + PGSIZE)
    (hva : span (PGROUNDUP oldsz) a va) : span (PGROUNDUP oldsz) newsz va := by
  have hal0 := PGROUNDUP_aligned oldsz
  simp only [span, PGSIZE] at *
  omega

theorem allocated_done (hal : a % PGSIZE = 0) (hlast : a = PGROUNDUP oldsz ∨ a < newsz + PGSIZE)
    (hg : Grown lay kpgdir d (span (PGROUNDUP oldsz) a) own m own' m')
    (hfresh : ∀ va < KERNBASE, span (PGROUNDUP oldsz) a va → Fresh m' d va) (hdone : newsz ≤ a) :
    Allocated lay kpgdir d oldsz newsz newsz own m own' m' := by
  refine ⟨hg.mono fun _ => span_sub hal hlast, Or.inl ⟨rfl, fun va hva hin => hfresh va hva ?_⟩⟩
  exact ⟨hin.1, lt_of_lt_of_le hin.2 hdone⟩

/-- The loop of `allocuvm`, when it has come to page `a`. -/
theorem allocLoop_exact (hend : KERNBASE < lay.kernelEnd) (hle : oldsz ≤ newsz) (hnew : newsz < KERNBASE)
    (h : Exact lay own kpgdir m) (hd : own d = .dir)
    (habsent : ∀ va < KERNBASE, PGROUNDUP oldsz ≤ va → ¬ Present (pteAt m d va)) (n a : ℕ)
    (hal : a % PGSIZE = 0) (hn : newsz ≤ a + n * PGSIZE) (ha : PGROUNDUP oldsz ≤ a)
    (hlast : a = PGROUNDUP oldsz ∨ a < newsz + PGSIZE)
    (hg : Grown lay kpgdir d (span (PGROUNDUP oldsz) a) own m own' m')
    (hfresh : ∀ va < KERNBASE, span (PGROUNDUP oldsz) a va → Fresh m' d va) :
    ∃ sz own'' m'', allocLoop lay d oldsz newsz (n + 1) a m' = .ok (sz, m'')
      ∧ Allocated lay kpgdir d oldsz newsz sz own m own'' m'' := by
  have hup := PGROUNDUP_ge (lt_of_le_of_lt hle hnew)
  have hal0 := PGROUNDUP_aligned oldsz
  induction n generalizing a own' m' with
  | zero =>
    refine ⟨newsz, own', m', ?_, allocated_done hal hlast hg hfresh (by omega)⟩
    rw [allocLoop, if_pos (by omega)]
  | succ n ih =>
    by_cases hdone : newsz ≤ a
    · refine ⟨newsz, own', m', ?_, allocated_done hal hlast hg hfresh hdone⟩
      rw [allocLoop, if_pos hdone]
    have hdirs : own' d = .dir := by rw [hg.keep (by simp [hd]), hd]
    have haK : a < KERNBASE := by omega
    have habs : ∀ va < KERNBASE, span (PGROUNDUP oldsz) newsz va → ¬ Present (pteAt m d va) :=
        fun va hva hin =>
      habsent va hva hin.1
    have hfail : ∀ {own₂ : ℕ → Owner} {m₂ : Mem},
        Shrunk lay kpgdir d (span (PGROUNDUP oldsz) newsz) own' m' own₂ m₂ →
        Allocated lay kpgdir d oldsz newsz 0 own m own₂ m₂ := fun hs => by
      obtain ⟨hgrown, htables⟩ := rollback h hg hs (fun _ => span_sub hal hlast) habs
      exact ⟨hgrown, Or.inr ⟨rfl, hs.gone, htables⟩⟩
    rw [allocLoop, if_neg hdone]
    rcases kalloc_cases m' with ⟨_, hka⟩ | ⟨r, rest, hf, hka⟩
    · rw [hka]
      obtain ⟨own₂, m₂, hdealloc, hs⟩ :=
        deallocuvm_exact hend (le_of_lt hnew) (by omega : oldsz < newsz) hg.exact hdirs
      refine ⟨0, own₂, m₂, ?_, hfail hs⟩
      simp only [if_true, hdealloc]
      rfl
    obtain ⟨hr, hvr, htake⟩ := hg.exact.take hf
    have habsA : ¬ Present (pteAt m' d a) := by
      rw [hg.pte d a hd (lt_trans haK (by decide)) fun hc => ?_]
      · exact habsent a haK ha
      · have := hc.2.2
        simp only [PGSIZE] at *
        omega
    have hfill : ∀ u, u ≠ r → (Mem.memset { m' with freelist := rest } r 0).word u = m'.word u := fun u hu =>
      memset_word_of_ne _ 0 hu
    rcases mappages_user hg.exact hdirs haK hal habsA (w := PTE_W ||| PTE_U) (by decide) hf rfl hfill with
      hmap | ⟨own₂, m₂, hmap, hg2, _, hpres, hframe, hword⟩
    · -- no memory for a page table
      have hother : update own' r .other r = .other := update_self ..
      obtain ⟨h2, _⟩ := htake.write (k := Mem.memset { m' with freelist := rest } r 0) (v := r)
        (by rw [hother]; rfl) rfl fun u hu => memset_word_of_ne _ 0 hu
      have hdr : d ≠ r := fun hdr => by
        rw [hdr, hr] at hdirs
        cases hdirs
      obtain ⟨own₃, m₃, hdealloc, hs⟩ := deallocuvm_exact hend (le_of_lt hnew) (by omega : oldsz < newsz) h2
        (by rw [update_of_ne hdr, hdirs])
      obtain ⟨own₄, m₄, hk, hs'⟩ := shrunk_held hg.exact hdirs hf rfl hfill hs
      refine ⟨0, own₄, m₄, ?_, hfail hs'⟩
      rw [hka]
      simp only [if_neg hvr.ne_zero, hmap]
      show (deallocuvm lay _ d newsz oldsz >>= fun x => kfree lay r x.2 >>= fun m => .ok (0, m)) = _
      rw [hdealloc]
      show (kfree lay r m₃ >>= fun m => .ok (0, m)) = _
      rw [hk]
      rfl
    · have hnext : (a + PGSIZE) % ADDRESSES = a + PGSIZE := by
        simp only [PGSIZE, ADDRESSES, KERNBASE] at haK ⊢
        omega
      have hspan : ∀ va, span (PGROUNDUP oldsz) (a + PGSIZE) va ↔ span (PGROUNDUP oldsz) a va
          ∨ pageOf a va := fun va => by
        simp only [span, pageOf, PGSIZE] at *
        omega
      have hgrown : Grown lay kpgdir d (span (PGROUNDUP oldsz) (a + PGSIZE)) own m own₂ m₂ :=
        (hg.mono fun va hva => (hspan va).mpr (Or.inl hva)).trans
          (hg2.mono fun va hva => (hspan va).mpr (Or.inr hva))
      obtain ⟨sz, own₃, m₃, hloop, hall⟩ := ih (a + PGSIZE) (by simp only [PGSIZE] at *; omega)
        (by rw [Nat.succ_mul] at hn; omega) (by omega) (Or.inr (by omega)) hgrown
        (fun va hva hin => by
          by_cases hpage : pageOf a va
          · have hpte : pteAt m₂ d va = pteAt m₂ d a := by rw [← pteAt_page, hpage, pteAt_page]
            refine ⟨by rw [hpte]; exact hpres, fun i => ?_⟩
            rw [frameAt, hpte]
            rw [frameAt] at hframe
            rw [hframe, hword]
            exact memset_word_self ..
          · obtain ⟨hp, hz⟩ := hfresh va hva (((hspan va).mp hin).resolve_right hpage)
            obtain ⟨hpte, hwords⟩ := grown_page hg.exact hg2 hdirs hva (fun hc => hpage hc.2) hp
            exact ⟨by rw [hpte]; exact hp, fun i => by rw [hwords]; exact hz i⟩)
      refine ⟨sz, own₃, m₃, ?_, hall⟩
      rw [hka]
      simp only [if_neg hvr.ne_zero, hmap]
      show allocLoop lay d oldsz newsz (n + 1) ((a + PGSIZE) % ADDRESSES) m₂ = _
      rw [hnext]
      exact hloop

/-- **`allocuvm`** maps pages of zeros up to the new size, or takes back what it has mapped and returns 0. -/
theorem allocuvm_exact (hend : KERNBASE < lay.kernelEnd) (hle : oldsz ≤ newsz) (hnew : newsz < KERNBASE)
    (h : Exact lay own kpgdir m) (hd : own d = .dir)
    (habsent : ∀ va < KERNBASE, PGROUNDUP oldsz ≤ va → ¬ Present (pteAt m d va)) :
    ∃ sz own' m', allocuvm lay m d oldsz newsz = .ok (sz, m')
      ∧ Allocated lay kpgdir d oldsz newsz sz own m own' m' := by
  have hempty : ∀ va, ¬ span (PGROUNDUP oldsz) (PGROUNDUP oldsz) va := fun va hva => by
    have := PGROUNDUP_aligned oldsz
    simp only [span, PGSIZE] at *
    omega
  rw [allocuvm, if_neg (by omega), if_neg (by omega)]
  exact allocLoop_exact hend hle hnew h hd habsent PAGES (PGROUNDUP oldsz) (PGROUNDUP_aligned oldsz)
    (by simp only [PAGES, PGSIZE, KERNBASE] at *; omega) (le_refl _) (Or.inl rfl) (Grown.refl h)
    fun va _ hva => absurd hva (hempty va)

end Xv6e.Memory.FrameCalls
