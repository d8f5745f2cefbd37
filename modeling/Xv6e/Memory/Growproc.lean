import Xv6e.Memory.NewSpaces
import Xv6e.Memory.HeapInvariant

/-!
# `growproc`

`growproc(n)` changes the size of a process by `n` bytes.  Both `allocuvm` and `deallocuvm` return the new
size, and `growproc` takes 0 for failure.  So a process that gives back all its memory loses its pages but
keeps its size, and one that gives back more than it has is told that it has done so: the sum wraps around,
and `deallocuvm` does nothing.

* `Sized` — exactly the pages below the size are mapped; `GrowsRight` — what `growproc` should do;
* `growproc_right_iff` — it does so exactly if it does not give back all the memory of a process, or more;
* `shrink_to_zero` — a process that gives back all its memory.
-/

namespace Xv6e.Memory.Growproc

open PageTable Ownership AddressSpace Frames FrameCalls
open NewSpaces HeapInvariant

variable {lay : Layout} {own own' : ℕ → Owner} {kpgdir d sz : ℕ} {m m' : Mem} {n : ℤ}

/-- `growproc` for a process with page directory `pgdir` and size `sz`: what it returns, and the new size. -/
def growproc (lay : Layout) (m : Mem) (pgdir sz : ℕ) (n : ℤ) : Except Stop (ℤ × ℕ × Mem) :=
  let newsz := ((sz + n) % ADDRESSES).toNat
  if 0 < n then do
    let (sz', m) ← allocuvm lay m pgdir sz newsz
    if sz' = 0 then .ok (-1, sz, m) else .ok (0, sz', m)
  else if n < 0 then do
    let (sz', m) ← deallocuvm lay m pgdir sz newsz
    if sz' = 0 then .ok (-1, sz, m) else .ok (0, sz', m)
  else .ok (0, sz, m)

/-- Exactly the user pages below the size are mapped. -/
def Sized (m : Mem) (d sz : ℕ) : Prop := ∀ va < KERNBASE, Present (pteAt m d va) ↔ va < PGROUNDUP sz

/-- The contents of the page at an address. -/
def content (m : Mem) (d va : ℕ) : ℕ → ℕ := m.word (frameAt m d va)

/-- **What `growproc` should do**: return 0 with a size changed by `n`, the pages below it mapped, pages that
stay as they were and new pages of zeros; or return -1 with size and pages as they were. -/
def GrowsRight (m : Mem) (d sz : ℕ) (n ret : ℤ) (sz' : ℕ) (m' : Mem) : Prop :=
  (ret = 0 ∧ (sz' : ℤ) = sz + n ∧ Sized m' d sz'
    ∧ (∀ va < KERNBASE, va < PGROUNDUP sz → va < PGROUNDUP sz' → content m' d va = content m d va)
    ∧ ∀ va < KERNBASE, PGROUNDUP sz ≤ va → va < PGROUNDUP sz' → ∀ i, content m' d va i = 0)
  ∨ ret = -1 ∧ sz' = sz ∧ ∀ va < KERNBASE, (Present (pteAt m' d va) ↔ Present (pteAt m d va))
    ∧ (Present (pteAt m d va) → content m' d va = content m d va)

/-! ### Owners that are real -/

/-- A page has the use that its owner says. -/
def Real (own : ℕ → Owner) (m : Mem) (v : ℕ) : Prop :=
  match own v with
  | .free => v ∈ m.freelist
  | .table d i => own d = .dir ∧ i < NPDENTRIES ∧ m.word d i = tableEntry v
  | .user d p => own d = .dir ∧ p * PGSIZE < KERNBASE ∧ Present (pteAt m d (p * PGSIZE))
      ∧ frameAt m d (p * PGSIZE) = v
  | _ => True

/-- Pages that nothing refers to may count as the caller's. -/
theorem exists_exact (h : Owned lay own kpgdir m) :
    ∃ own', Exact lay own' kpgdir m ∧ ∀ e, own e = .dir → own' e = .dir := by
  classical
  let own' : ℕ → Owner := fun v => if Real own m v then own v else .other
  have hkeep : ∀ {v : ℕ}, Real own m v → own' v = own v := fun hr => if_pos hr
  have hback : ∀ {v : ℕ} {o : Owner}, own' v = o → o ≠ .other → Real own m v ∧ own v = o :=
      fun {v o} hv ho => by
    by_cases hr : Real own m v
    · exact ⟨hr, by rw [← hkeep hr, hv]⟩
    · exact absurd ((if_neg hr).symm.trans hv).symm ho
  have hdir : ∀ e, own e = .dir → own' e = .dir := fun e he => by
    rw [hkeep (by rw [Real, he]; trivial), he]
  have hdir' : ∀ e, own' e = .dir → own e = .dir := fun e he => (hback he (by simp)).2
  refine ⟨own', ⟨⟨fun v hv => ?_, h.nodup, fun v hv => ?_, fun e i he hi hp => ?_, fun e va he hva hp => ?_,
    fun va hk hva hp => ?_⟩, fun v hv => ?_, fun v e i hv => ?_, fun v e p hv => ?_⟩, hdir⟩
  · have hfree := h.free v hv
    rw [hkeep (by rw [Real, hfree]; exact hv), hfree]
  · exact h.valid v (by rw [(hback rfl hv).2]; exact hv)
  · obtain ⟨t, ht, hw⟩ := h.table e i (hdir' e he) hi hp
    refine ⟨t, ?_, hw⟩
    rw [hkeep (by rw [Real, ht]; exact ⟨hdir' e he, hi, hw⟩), ht]
  · have hu := h.user e va (hdir' e he) hva hp
    have hpage : pteAt m e (va / PGSIZE * PGSIZE) = pteAt m e va := pteAt_page m e va
    rw [hkeep ?_, hu]
    rw [Real, hu]
    refine ⟨hdir' e he, lt_of_le_of_lt (Nat.div_mul_le_self va PGSIZE) hva, by rw [hpage]; exact hp, ?_⟩
    rw [frameAt, hpage]
  · have hu := h.heap va (hdir' _ hk) hva hp
    rw [hkeep (by rw [Real, hu]; trivial), hu]
  · obtain ⟨hr, hown⟩ := hback hv (by simp)
    rwa [Real, hown] at hr
  · obtain ⟨hr, hown⟩ := hback hv (by simp)
    rw [Real, hown] at hr
    exact ⟨hdir e hr.1, hr.2⟩
  · obtain ⟨hr, hown⟩ := hback hv (by simp)
    rw [Real, hown] at hr
    exact ⟨hdir e hr.1, hr.2⟩

/-! ### Sizes -/

theorem lt_PGROUNDUP {va sz : ℕ} (hsz : sz < KERNBASE) : va < PGROUNDUP sz ↔ va / PGSIZE * PGSIZE < sz := by
  simp only [PGROUNDUP, PGROUNDDOWN, PGSIZE, ADDRESSES, KERNBASE] at *
  omega

theorem Sized.absent (h : Sized m d sz) {va : ℕ} (hva : va < KERNBASE) (hge : PGROUNDUP sz ≤ va) :
    ¬ Present (pteAt m d va) := fun hp => absurd ((h va hva).mp hp) (not_lt.mpr hge)

/-- The pages that `allocuvm` asks for are those between the sizes. -/
theorem span_iff {sz newsz va : ℕ} (hnew : newsz < KERNBASE) :
    span (PGROUNDUP sz) newsz va ↔ PGROUNDUP sz ≤ va ∧ va < PGROUNDUP newsz := by
  rw [span, lt_PGROUNDUP hnew]

theorem grown_right {newsz sz' : ℕ} (h : Exact lay own kpgdir m) (hd : own d = .dir) (hs : Sized m d sz)
    (hle : sz ≤ newsz) (hnew : newsz < KERNBASE) (hn : (newsz : ℤ) = sz + n) (hpos : 0 < newsz)
    (ha : Allocated lay kpgdir d sz newsz sz' own m own' m') :
    GrowsRight m d sz n (if sz' = 0 then -1 else 0) (if sz' = 0 then sz else sz') m' := by
  obtain ⟨hg, ⟨rfl, hfresh⟩ | ⟨rfl, hgone, _⟩⟩ := ha
  · rw [if_neg (by omega), if_neg (by omega)]
    have hmono : PGROUNDUP sz ≤ PGROUNDUP sz' := by
      have hsz : sz < KERNBASE := lt_of_le_of_lt hle hnew
      simp only [PGROUNDUP, PGROUNDDOWN, PGSIZE, ADDRESSES, KERNBASE] at *
      omega
    have hold : ∀ va < KERNBASE, va < PGROUNDUP sz →
        pteAt m' d va = pteAt m d va ∧ m'.word (frameAt m' d va) = m.word (frameAt m d va) :=
        fun va hva hlt =>
      grown_page h hg hd hva (fun hc => absurd hc.2.1 (not_le.mpr hlt)) ((hs va hva).mpr hlt)
    refine Or.inl ⟨rfl, hn, fun va hva => ?_, fun va hva hlt _ => (hold va hva hlt).2,
      fun va hva hge hlt => ?_⟩
    · by_cases hlt : va < PGROUNDUP sz
      · rw [(hold va hva hlt).1, hs va hva]
        exact ⟨fun _ => lt_of_lt_of_le hlt hmono, fun _ => hlt⟩
      · by_cases hin : va < PGROUNDUP sz'
        · exact ⟨fun _ => hin, fun _ => (hfresh va hva ((span_iff hnew).mpr ⟨not_lt.mp hlt, hin⟩)).1⟩
        · rw [hg.pte d va hd (lt_trans hva (by decide)) fun hc => hin ((span_iff hnew).mp hc.2).2, hs va hva]
          exact ⟨fun hc => absurd hc hlt, fun hc => absurd hc hin⟩
    · exact (hfresh va hva ((span_iff hnew).mpr ⟨hge, hlt⟩)).2
  · rw [if_pos rfl, if_pos rfl]
    refine Or.inr ⟨rfl, rfl, fun va hva => ?_⟩
    by_cases hin : span (PGROUNDUP sz) newsz va
    · have hno := hs.absent hva hin.1
      exact ⟨iff_of_false (hgone va hva hin) hno, fun hp => absurd hp hno⟩
    · have hpte := hg.pte d va hd (lt_trans hva (by decide)) fun hc => hin hc.2
      exact ⟨by rw [hpte], fun hp => (grown_page h hg hd hva (fun hc => hin hc.2) hp).2⟩

theorem shrunk_right {newsz : ℕ} (h : Exact lay own kpgdir m) (hd : own d = .dir) (hs : Sized m d sz)
    (hlt : newsz < sz) (hsz : sz < KERNBASE) (hn : (newsz : ℤ) = sz + n)
    (hsh : Shrunk lay kpgdir d (span (PGROUNDUP newsz) sz) own m own' m') :
    GrowsRight m d sz n 0 newsz m' := by
  have hmono : PGROUNDUP newsz ≤ PGROUNDUP sz := by
    simp only [PGROUNDUP, PGROUNDDOWN, PGSIZE, ADDRESSES, KERNBASE] at *
    omega
  have hpage : ∀ va, va / PGSIZE * PGSIZE / PGSIZE * PGSIZE = va / PGSIZE * PGSIZE := fun va => by
    rw [Nat.mul_div_cancel _ (by decide)]
  have hold : ∀ va < KERNBASE, va < PGROUNDUP newsz →
      pteAt m' d va = pteAt m d va ∧ m'.word (frameAt m' d va) = m.word (frameAt m d va) :=
      fun va hva hin => by
    refine shrunk_page h hsh hd hva (fun hc => ?_) (fun hc => ?_) ((hs va hva).mpr (lt_of_lt_of_le hin hmono))
    · exact absurd (le_trans hc.2.1 (Nat.div_mul_le_self va PGSIZE)) (not_le.mpr hin)
    · exact absurd hc.1 (not_le.mpr hin)
  refine Or.inl ⟨rfl, hn, fun va hva => ?_, fun va hva _ hin => (hold va hva hin).2, fun va hva hge hin => ?_⟩
  · by_cases hin : va < PGROUNDUP newsz
    · rw [(hold va hva hin).1, hs va hva]
      exact ⟨fun _ => hin, fun _ => lt_of_lt_of_le hin hmono⟩
    · by_cases hspan : span (PGROUNDUP newsz) sz va
      · exact iff_of_false (hsh.gone va hva hspan) hin
      · rw [hsh.pte d va hd (lt_trans hva (by decide)) fun hc => hspan hc.2, hs va hva]
        exact iff_of_false (fun hc => hspan ((span_iff hsz).mpr ⟨not_lt.mp hin, hc⟩)) hin
  · exact absurd (lt_of_lt_of_le hin hmono) (not_lt.mpr hge)

theorem grows_nothing : GrowsRight m d sz n (-1) sz m := Or.inr ⟨rfl, rfl, fun _ _ => ⟨Iff.rfl, fun _ => rfl⟩⟩

/-! ### The result -/

/-- The process does not give back all its memory, or more. -/
def Leaves (sz : ℕ) (n : ℤ) : Prop := 0 ≤ n ∨ sz = 0 ∨ -n < sz

theorem grow_exact (hend : KERNBASE < lay.kernelEnd) (h : Exact lay own kpgdir m) (hd : own d = .dir)
    (hs : Sized m d sz) (hsz : sz < KERNBASE) (hpos : 0 < n) (hn : n < 2 ^ 31) :
    ∃ ret sz' own' m', growproc lay m d sz n = .ok (ret, sz', m') ∧ Exact lay own' kpgdir m'
      ∧ (∀ e, own e = .dir → own' e = .dir) ∧ sz' < KERNBASE ∧ GrowsRight m d sz n ret sz' m' := by
  obtain ⟨k, rfl⟩ : ∃ k : ℕ, n = k := ⟨n.toNat, by omega⟩
  have hnew : (((sz : ℤ) + k) % (ADDRESSES : ℕ)).toNat = sz + k := by
    simp only [ADDRESSES, KERNBASE] at *
    omega
  simp only [growproc, if_pos hpos, hnew]
  by_cases hbig : KERNBASE ≤ sz + k
  · refine ⟨-1, sz, own, m, ?_, h, fun _ he => he, hsz, grows_nothing⟩
    rw [allocuvm, if_pos hbig]
    rfl
  · obtain ⟨sz', own', m', halloc, ha⟩ := allocuvm_exact hend (Nat.le_add_right sz k) (not_le.mp hbig) h hd
      fun va hva hge => hs.absent hva hge
    refine ⟨if sz' = 0 then -1 else 0, if sz' = 0 then sz else sz', own', m', ?_, ha.1.exact,
      fun e he => ?_, ?_, grown_right h hd hs (Nat.le_add_right sz k) (not_le.mp hbig) (by push_cast; rfl)
      (by omega) ha⟩
    · rw [halloc]
      show (if sz' = 0 then _ else _) = _
      split_ifs <;> rfl
    · rw [ha.1.keep (by simp [he]), he]
    · split_ifs with hz
      · exact hsz
      · rcases ha.2 with ⟨rfl, _⟩ | ⟨hz', _⟩
        · exact not_le.mp hbig
        · exact absurd hz' hz

theorem shrink_exact (hend : KERNBASE < lay.kernelEnd) (h : Exact lay own kpgdir m) (hd : own d = .dir)
    (hs : Sized m d sz) (hsz : sz < KERNBASE) (hneg : n < 0) (hn : -(2 ^ 31) ≤ n) :
    ∃ ret sz' own' m', growproc lay m d sz n = .ok (ret, sz', m') ∧ Exact lay own' kpgdir m'
      ∧ (∀ e, own e = .dir → own' e = .dir) ∧ sz' < KERNBASE
      ∧ (GrowsRight m d sz n ret sz' m' ↔ sz = 0 ∨ -n < sz) := by
  simp only [growproc, if_neg (not_lt.mpr (le_of_lt hneg)), if_pos hneg]
  by_cases hmore : (sz : ℤ) < -n
  · -- the sum wraps around
    have hbig : sz ≤ (((sz : ℤ) + n) % (ADDRESSES : ℕ)).toNat := by
      simp only [ADDRESSES, KERNBASE] at *
      omega
    rw [deallocuvm, if_pos hbig]
    by_cases hz : sz = 0
    · refine ⟨-1, sz, own, m, ?_, h, fun _ he => he, hsz, iff_of_true grows_nothing (Or.inl hz)⟩
      exact if_pos hz
    · refine ⟨0, sz, own, m, if_neg hz, h, fun _ he => he, hsz, iff_of_false (fun hr => ?_) (by omega)⟩
      rcases hr with ⟨_, hsum, _⟩ | ⟨hret, _⟩
      · omega
      · cases hret
  · obtain ⟨k, hk⟩ : ∃ k : ℕ, (k : ℤ) = sz + n := ⟨(sz + n).toNat, by omega⟩
    have hnew : (((sz : ℤ) + n) % (ADDRESSES : ℕ)).toNat = k := by
      rw [← hk]
      simp only [ADDRESSES, KERNBASE] at *
      omega
    have hlt : k < sz := by omega
    obtain ⟨own', m', hdealloc, hsh⟩ := deallocuvm_exact hend (le_of_lt hsz) hlt h hd
    rw [hnew, hdealloc]
    by_cases hz : k = 0
    · refine ⟨-1, sz, own', m', if_pos hz, hsh.exact, fun e he => shrunk_dir hsh he, hsz,
        iff_of_false (fun hr => ?_) (by omega)⟩
      -- the first page was mapped and is gone
      have hzero : (0 : ℕ) < KERNBASE := by decide
      have hgone := hsh.gone 0 hzero ⟨by rw [hz]; decide, by rw [Nat.zero_div, Nat.zero_mul]; omega⟩
      have hthere : Present (pteAt m d 0) := (hs 0 hzero).mpr (lt_of_lt_of_le (by omega) (PGROUNDUP_ge hsz).1)
      rcases hr with ⟨hret, _⟩ | ⟨_, _, hsame⟩
      · cases hret
      · exact hgone ((hsame 0 hzero).1.mpr hthere)
    · refine ⟨0, k, own', m', if_neg hz, hsh.exact, fun e he => shrunk_dir hsh he, lt_trans hlt hsz,
        iff_of_true ?_ (by omega)⟩
      exact shrunk_right h hd hs hlt hsz hk hsh

theorem growproc_exact (hend : KERNBASE < lay.kernelEnd) (h : Exact lay own kpgdir m) (hd : own d = .dir)
    (hs : Sized m d sz) (hsz : sz < KERNBASE) (hn : -(2 ^ 31) ≤ n ∧ n < 2 ^ 31) :
    ∃ ret sz' own' m', growproc lay m d sz n = .ok (ret, sz', m') ∧ Exact lay own' kpgdir m'
      ∧ (∀ e, own e = .dir → own' e = .dir) ∧ sz' < KERNBASE
      ∧ (GrowsRight m d sz n ret sz' m' ↔ Leaves sz n) := by
  rcases lt_trichotomy n 0 with hneg | rfl | hpos
  · obtain ⟨ret, sz', own', m', hok, h', hdirs, hlt, hiff⟩ := shrink_exact hend h hd hs hsz hneg hn.1
    refine ⟨ret, sz', own', m', hok, h', hdirs, hlt, hiff.trans ?_⟩
    exact ⟨Or.inr, fun hl => hl.resolve_left (not_le.mpr hneg)⟩
  · refine ⟨0, sz, own, m, rfl, h, fun _ he => he, hsz,
      iff_of_true (Or.inl ⟨rfl, by rw [add_zero], hs, ?_, ?_⟩) (Or.inl le_rfl)⟩
    · exact fun _ _ _ _ => rfl
    · exact fun va _ hge hlt => absurd hlt (not_lt.mpr hge)
  · obtain ⟨ret, sz', own', m', hok, h', hdirs, hlt, hright⟩ := grow_exact hend h hd hs hsz hpos hn.2
    exact ⟨ret, sz', own', m', hok, h', hdirs, hlt, iff_of_true hright (Or.inl (le_of_lt hpos))⟩

theorem sized_of_right {ret : ℤ} {sz' : ℕ} (hs : Sized m d sz) (hr : GrowsRight m d sz n ret sz' m') :
    Sized m' d sz' := by
  rcases hr with ⟨_, _, hs', _⟩ | ⟨_, rfl, hsame⟩
  · exact hs'
  · exact fun va hva => (hsame va hva).1.trans (hs va hva)

/-- **`growproc` keeps size and pages of a process consistent** exactly if the process does not give back all
its memory, or more; and then `copyuvm` finds all the pages it looks for. -/
theorem growproc_right_iff (hend : KERNBASE < lay.kernelEnd) (h : Owned lay own kpgdir m)
    (hk : own kpgdir = .dir) (hd : own d = .dir) (hs : Sized m d sz) (hsz : sz < KERNBASE)
    (hn : -(2 ^ 31) ≤ n ∧ n < 2 ^ 31) :
    ∃ ret sz' m', growproc lay m d sz n = .ok (ret, sz', m') ∧ (GrowsRight m d sz n ret sz' m' ↔ Leaves sz n)
      ∧ (Leaves sz n → ∀ x, copyuvm lay m' d sz' ≠ .error x) := by
  obtain ⟨own₁, h₁, hdir₁⟩ := exists_exact h
  obtain ⟨ret, sz', own', m', hok, h', hdirs, hlt, hiff⟩ := growproc_exact hend h₁ (hdir₁ d hd) hs hsz hn
  refine ⟨ret, sz', m', hok, hiff, fun hl x hx => ?_⟩
  have hsized := sized_of_right hs (hiff.mpr hl)
  have hk' : own' kpgdir ≠ .free := by
    rw [hdirs _ (hdir₁ _ hk)]
    simp
  rcases copyuvm_exact hend (le_of_lt hlt) h' hk' (hdirs d (hdir₁ d hd)) with ⟨y, _, _, va, hva, habsent⟩
    | ⟨r, m₂, hcopy, _⟩
  · exact habsent ((hsized va (lt_trans hva hlt)).mpr (lt_of_lt_of_le hva (PGROUNDUP_ge hlt).1))
  · rw [hcopy] at hx
    cases hx

/-- The small machine, whose only page directory maps no user page. -/
theorem sized_small : Sized smallBoot.mem smallBoot.kpgdir 0 := fun va _ => by
  rw [pteAt_of_zero fun _ => rfl]
  exact iff_of_false not_present_zero (Nat.not_lt_zero va)

/-- A process of the small machine that has grown from nothing. -/
theorem grown_small {k : ℕ} (hpos : 0 < n) (hn : n < 2 ^ 31)
    (heval : (growproc smallLayout smallBoot.mem smallBoot.kpgdir 0 n).toOption.map (fun x => (x.1, x.2.1))
    = some (0, k)) : ∃ own m, Owned smallLayout own smallBoot.kpgdir m ∧ own smallBoot.kpgdir = .dir
      ∧ growproc smallLayout smallBoot.mem smallBoot.kpgdir 0 n = .ok (0, k, m)
      ∧ Sized m smallBoot.kpgdir k := by
  have hdir : smallOwn smallBoot.kpgdir = .dir := by decide
  obtain ⟨own₁, h₁, hdir₁⟩ := exists_exact boot_small.owned
  obtain ⟨ret, sz', own', m', hok, h', hdirs, _, hright⟩ :=
    grow_exact (by decide) h₁ (hdir₁ _ hdir) sized_small (by decide) hpos hn
  rw [hok] at heval
  obtain ⟨rfl, rfl⟩ : ret = 0 ∧ sz' = k := Prod.mk.injEq .. ▸ Option.some.inj heval
  exact ⟨own', m', h'.toOwned, hdirs _ (hdir₁ _ hdir), hok, sized_of_right sized_small hright⟩

/-- A process of the small machine with one page. -/
theorem onePage_small : ∃ own m, Owned smallLayout own smallBoot.kpgdir m ∧ own smallBoot.kpgdir = .dir
    ∧ growproc smallLayout smallBoot.mem smallBoot.kpgdir 0 4096 = .ok (0, 4096, m)
    ∧ Sized m smallBoot.kpgdir 4096 :=
  grown_small (by decide) (by decide) (by decide +kernel)

/-- The process gives half of its page back. -/
theorem growproc_right_half : ∃ own m ret sz' m', Owned smallLayout own smallBoot.kpgdir m
    ∧ growproc smallLayout m smallBoot.kpgdir 4096 (-2048) = .ok (ret, sz', m')
    ∧ GrowsRight m smallBoot.kpgdir 4096 (-2048) ret sz' m' := by
  obtain ⟨own, m, h, hdir, _, hs⟩ := onePage_small
  obtain ⟨ret, sz', m', hok, hiff, _⟩ :=
    growproc_right_iff (n := -2048) (by decide) h hdir hdir hs (by decide) ⟨by decide, by decide⟩
  exact ⟨own, m, ret, sz', m', h, hok, hiff.mpr (Or.inr (Or.inr (by decide)))⟩

/-- **A process that gives back all its memory** is told that it has failed, and has no page left; a process
that gives back more is told that it has succeeded. -/
theorem shrink_to_zero : ∃ own m, Owned smallLayout own smallBoot.kpgdir m ∧ own smallBoot.kpgdir = .dir
    ∧ Sized m smallBoot.kpgdir 4096
    ∧ (∃ m', growproc smallLayout m smallBoot.kpgdir 4096 (-4096) = .ok (-1, 4096, m')
      ∧ Present (pteAt m smallBoot.kpgdir 0) ∧ ¬ Present (pteAt m' smallBoot.kpgdir 0))
    ∧ growproc smallLayout m smallBoot.kpgdir 4096 (-4097) = .ok (0, 4096, m) := by
  obtain ⟨own, m, h, hdir, _, hs⟩ := onePage_small
  obtain ⟨own₁, h₁, hdir₁⟩ := exists_exact h
  obtain ⟨own', m', hdealloc, hsh⟩ := deallocuvm_exact (show KERNBASE < smallLayout.kernelEnd by decide)
    (by decide : 4096 ≤ KERNBASE) (by decide : 0 < 4096) h₁ (hdir₁ _ hdir)
  refine ⟨own, m, h, hdir, hs,
    ⟨m', ?_, (hs 0 (by decide)).mpr (by decide), hsh.gone 0 (by decide) ⟨by decide, by decide⟩⟩, ?_⟩
  · have hnew : (((4096 : ℕ) + (-4096 : ℤ)) % (ADDRESSES : ℕ)).toNat = 0 := by decide
    simp only [growproc, hnew, if_neg (by decide : ¬ (0 : ℤ) < -4096),
      if_pos (by decide : (-4096 : ℤ) < 0), hdealloc]
    rfl
  · have hnew : (((4096 : ℕ) + (-4097 : ℤ)) % (ADDRESSES : ℕ)).toNat = 4294967295 := by decide
    simp only [growproc, hnew, if_neg (by decide : ¬ (0 : ℤ) < -4097),
      if_pos (by decide : (-4097 : ℤ) < 0), deallocuvm]
    rfl

end Xv6e.Memory.Growproc
