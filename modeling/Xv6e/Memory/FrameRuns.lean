import Xv6e.Memory.Processes

/-!
# Physical pages over whole runs

* `fork_exact`, `exec_inv`, `reap_inv`, `inv_step`, `inv_run` — the invariant of `Processes` over calls, steps
  and runs;
* `frames_conserved` — after every run, each page of the pool has exactly one use; calls that fail give back
  what they took and `freevm` gives back the pages of its page directory.
-/

namespace Xv6e.Memory.FrameRuns

open Library.Transition
open PageTable Ownership AddressSpace Frames FrameCalls
open NewSpaces Growproc Exec Processes
open HeapInvariant (smallLayout smallBoot)
open Function (update update_idem update_self update_of_ne update_eq_self)

variable {lay : Layout} {pool : ℕ → Prop} {own own' : ℕ → Owner} {s : State} {m m' : Mem} {d p q : ℕ}

/-! ### Calls and steps -/

variable {kpgdir : ℕ} {sp : Space}

theorem growproc_adjusted (hend : KERNBASE < lay.kernelEnd) {n : ℤ} (h : Exact lay own kpgdir m)
    (hd : own sp.pgdir = .dir) (hb : Bounded m sp) (hn : -(2 ^ 31) ≤ n ∧ n < 2 ^ 31) :
    ∃ ret sz own' m', growproc lay m sp.pgdir sp.sz n = .ok (ret, sz, m')
      ∧ Adjusted lay kpgdir sp.pgdir own m own' m'
      ∧ Bounded m' ⟨sp.pgdir, sz⟩ ∧ (0 < n → ret = -1 → TablesOnly sp.pgdir own own') := by
  obtain ⟨hsz, habsent⟩ := hb
  rcases lt_trichotomy n 0 with hneg | rfl | hpos
  · simp only [growproc, if_neg (not_lt.mpr (le_of_lt hneg)), if_pos hneg]
    have hpos : ¬ 0 < n := not_lt.mpr (le_of_lt hneg)
    by_cases hmore : sp.sz ≤ (((sp.sz : ℤ) + n) % (ADDRESSES : ℕ)).toNat
    · rw [deallocuvm, if_pos hmore]
      refine ⟨if sp.sz = 0 then -1 else 0, sp.sz, own, m, ?_, adjusted_refl h, ⟨hsz, habsent⟩,
        fun hc => absurd hc hpos⟩
      show (if sp.sz = 0 then Except.ok (-1, sp.sz, m) else Except.ok (0, sp.sz, m)) = _
      split_ifs <;> rfl
    · have hlt := not_le.mp hmore
      obtain ⟨own', m', hdealloc, hsh⟩ := deallocuvm_exact hend (le_of_lt hsz) hlt h hd
      rw [hdealloc]
      generalize (((sp.sz : ℤ) + n) % (ADDRESSES : ℕ)).toNat = k at hlt hsh
      have hgone : ∀ va < KERNBASE, PGROUNDUP k ≤ va → ¬ Present (pteAt m' sp.pgdir va) :=
          fun va hva hge => by
        by_cases hin : span (PGROUNDUP k) sp.sz va
        · exact hsh.gone va hva hin
        · rw [hsh.pte sp.pgdir va hd (lt_trans hva (by decide)) fun hc => hin hc.2]
          refine habsent va hva (not_lt.mp fun hc => hin ⟨hge, ?_⟩)
          exact (lt_PGROUNDUP hsz).mp hc
      have hmono : PGROUNDUP k ≤ PGROUNDUP sp.sz := by
        simp only [PGROUNDUP, PGROUNDDOWN, PGSIZE, ADDRESSES, KERNBASE] at hlt hsz ⊢
        omega
      by_cases hz : k = 0
      · exact ⟨-1, sp.sz, own', m', if_pos hz, adjusted_of_shrunk hsh,
          ⟨hsz, fun va hva hge => hgone va hva (le_trans hmono hge)⟩, fun hc => absurd hc hpos⟩
      · exact ⟨0, k, own', m', if_neg hz, adjusted_of_shrunk hsh, ⟨lt_trans hlt hsz, hgone⟩,
          fun hc => absurd hc hpos⟩
  · exact ⟨0, sp.sz, own, m, rfl, adjusted_refl h, ⟨hsz, habsent⟩, fun hc => absurd hc (lt_irrefl 0)⟩
  · obtain ⟨k, rfl⟩ : ∃ k : ℕ, n = k := ⟨n.toNat, by omega⟩
    have hnew : (((sp.sz : ℤ) + k) % (ADDRESSES : ℕ)).toNat = sp.sz + k := by
      simp only [ADDRESSES, KERNBASE] at hsz ⊢
      omega
    simp only [growproc, if_pos hpos, hnew]
    by_cases hbig : KERNBASE ≤ sp.sz + k
    · refine ⟨-1, sp.sz, own, m, ?_, adjusted_refl h, ⟨hsz, habsent⟩, fun _ _ v => Or.inl rfl⟩
      rw [allocuvm, if_pos hbig]
      rfl
    · have hlt := not_le.mp hbig
      obtain ⟨sz', own', m', halloc, hg, hres⟩ :=
        allocuvm_exact hend (Nat.le_add_right sp.sz k) hlt h hd habsent
      have hmono : PGROUNDUP sp.sz ≤ PGROUNDUP (sp.sz + k) := by
        simp only [PGROUNDUP, PGROUNDDOWN, PGSIZE, ADDRESSES, KERNBASE] at hlt ⊢
        omega
      rw [halloc]
      rcases hres with ⟨rfl, _⟩ | ⟨rfl, hgone, htables⟩
      · have hz : ¬ sp.sz + k = 0 := by omega
        refine ⟨0, sp.sz + k, own', m', if_neg hz, adjusted_of_grown hg, ⟨hlt, fun va hva hge => ?_⟩, by simp⟩
        rw [hg.pte sp.pgdir va hd (lt_trans hva (by decide))
          fun hc => absurd ((span_iff hlt).mp hc.2).2 (not_lt.mpr hge)]
        exact habsent va hva (le_trans hmono hge)
      · refine ⟨-1, sp.sz, own', m', rfl, adjusted_of_grown hg, ⟨hsz, fun va hva hge => ?_⟩,
          fun _ _ => htables⟩
        by_cases hin : span (PGROUNDUP sp.sz) (sp.sz + k) va
        · exact hgone va hva hin
        · rw [hg.pte sp.pgdir va hd (lt_trans hva (by decide)) fun hc => hin hc.2]
          exact habsent va hva hge

def SameFree (m m' : Mem) : Prop := ∀ v, v ∈ m'.freelist ↔ v ∈ m.freelist

theorem mem_free {v : ℕ} (h : Exact lay own kpgdir m) : v ∈ m.freelist ↔ own v = .free :=
  ⟨h.free v, h.listed v⟩

theorem sameFree (h : Exact lay own kpgdir m) (h' : Exact lay own kpgdir m') : SameFree m m' := fun v => by
  rw [mem_free h, mem_free h']

theorem bounded_of_copied {sz : ℕ} (hsz : sz < KERNBASE)
    (hp : ∀ va < KERNBASE, Present (pteAt m' d va) ↔ span 0 sz va) : Bounded m' ⟨d, sz⟩ := by
  refine ⟨hsz, fun va hva hge hc => ?_⟩
  exact absurd ((lt_PGROUNDUP hsz).mpr ((hp va hva).mp hc).2) (not_lt.mpr hge)

section

variable (hend : KERNBASE < lay.kernelEnd)
include hend

/-- **`fork`** fails with nothing taken, or makes a process; or `copyuvm` panics. -/
theorem fork_exact (h : Inv lay pool own s) (hp : s.space p = some sp)
    (hq : s.space q = none) (hkq : s.kstack q = none) :
    (∃ x, fork lay s.mem sp = .error x)
    ∨ (∃ m', fork lay s.mem sp = .ok (none, m') ∧ Inv lay pool own { s with mem := m' })
    ∨ ∃ kstack pgdir own' m', fork lay s.mem sp = .ok (some (kstack, pgdir), m') ∧ Inv lay pool own'
      { s with
        mem := m'
        space := update s.space q (some ⟨pgdir, sp.sz⟩)
        kstack := update s.kstack q (some kstack) } := by
  rcases kalloc_cases s.mem with ⟨_, hk⟩ | ⟨r, rest, hf, hk⟩
  · refine Or.inr (Or.inl ⟨s.mem, ?_, h⟩)
    rw [fork, hk]
    exact if_pos rfl
  obtain ⟨hr, hvalid, _⟩ := h.spaces.exact.take hf
  have h₁ := h.takeStack hf hkq
  have hdir : update own r .other s.kpgdir ≠ .free := by
    rw [(h₁.spaces.dirs s.kpgdir).mpr (Or.inl rfl)]
    simp
  have hfork : fork lay s.mem sp = copyuvm lay { s.mem with freelist := rest } sp.pgdir sp.sz >>= fun x =>
      if x.1 = 0 then kfree lay r x.2 >>= fun m => .ok (none, m) else .ok (some (r, x.1), x.2) := by
    rw [fork, hk]
    exact if_neg hvalid.ne_zero
  rcases copyuvm_exact hend (le_of_lt (h.spaces.bounded p sp hp).1) h₁.spaces.exact hdir
      (h₁.spaces.dir hp) with
    ⟨x, hcopy, _⟩ | ⟨d, m₁, hcopy, ⟨hd, hun⟩ | ⟨hd, own₂, hm, hpages⟩⟩
  · left
    refine ⟨x, ?_⟩
    rw [hfork, hcopy]
    rfl
  · right; left
    obtain ⟨m₂, hfree, h₂⟩ := (h₁.unchanged hun).giveStack (update_self ..)
    have hown : update (update own r .other) r .free = own := by
      rw [update_idem, ← hr, update_eq_self]
    have hstack : update (update s.kstack q (some r)) q none = s.kstack := by
      rw [update_idem, ← hkq, update_eq_self]
    rw [hown, hstack] at h₂
    refine ⟨m₂, ?_, h₂⟩
    rw [hfork, hcopy]
    show (if d = 0 then kfree lay r m₁ >>= fun m => Except.ok (none, m) else Except.ok (some (r, d), m₁)) = _
    rw [if_pos hd, hfree]
    rfl
  · right; right
    refine ⟨r, d, own₂, m₁, ?_, h₁.make hq hm (bounded_of_copied (h.spaces.bounded p sp hp).1 hpages)⟩
    rw [hfork, hcopy]
    exact if_neg hd

theorem exec_inv (h : Inv lay pool own s) (hp : s.space p = some sp) (im : Image) :
    (∃ m', exec lay s.mem sp.pgdir im = .ok (none, m') ∧ Inv lay pool own { s with mem := m' })
    ∨ ∃ pgdir sz own' m', exec lay s.mem sp.pgdir im = .ok (some (pgdir, sz), m')
      ∧ Inv lay pool own' { s with mem := m', space := update s.space p (some ⟨pgdir, sz⟩) } := by
  have hk : own s.kpgdir ≠ .free := by
    rw [(h.spaces.dirs s.kpgdir).mpr (Or.inl rfl)]
    simp
  obtain ⟨r, m', hexec, ⟨rfl, hun⟩ | ⟨d, sz, own₁, m₁, rfl, hsz, hm, hs, hfree⟩⟩ :=
    exec_exact hend h.spaces.exact hk (h.spaces.dir hp) im
  · exact Or.inl ⟨m', hexec, h.unchanged hun⟩
  · have hold : own₁ sp.pgdir = .dir := (made_dirs hm _).mpr (Or.inr (h.spaces.dir hp))
    obtain ⟨m₂, hfree', hexact, hpte, _⟩ := freevm_exact hend hm.exact hold
    obtain rfl : m₂ = m' := Except.ok.inj (hfree'.symm.trans hfree)
    exact Or.inr ⟨d, sz, _, m₂, hexec, h.exchange hp hm hexact hpte
      ⟨hsz, fun va hva hge => hs.absent hva hge⟩⟩

theorem reap_inv {r : ℕ} (h : Inv lay pool own s) (hp : s.space p = some sp)
    (hr : s.kstack p = some r) :
    ∃ own' m', reap lay s.mem r sp.pgdir = .ok m' ∧ Inv lay pool own'
      { s with mem := m', space := update s.space p none, kstack := update s.kstack p none } := by
  obtain ⟨m₁, hk, h₁⟩ := h.giveStack hr
  obtain ⟨m₂, hfree, hexact, hpte, _⟩ := freevm_exact hend h₁.spaces.exact (h₁.spaces.dir hp)
  refine ⟨_, m₂, ?_, h₁.free hp hexact hpte⟩
  rw [reap, hk]
  exact hfree

theorem inv_step {e : Event} {t : State} (h : Inv lay pool own s)
    (hs : step lay s e = some t) : ∃ own', Inv lay pool own' t := by
  cases e with
  | fork p q =>
    rw [step] at hs
    split at hs
    · next parent hp hq hkq =>
      rcases fork_exact hend h hp hq hkq with ⟨x, hf⟩ | ⟨m', hf, h'⟩ | ⟨r, d, own', m', hf, h'⟩
      · rw [hf] at hs
        cases hs
      · rw [hf] at hs
        exact ⟨own, Option.some.inj hs ▸ h'⟩
      · rw [hf] at hs
        exact ⟨own', Option.some.inj hs ▸ h'⟩
    · cases hs
  | growproc p n =>
    rw [step] at hs
    split at hs
    · next sp hp =>
      split_ifs at hs with hn
      obtain ⟨ret, sz, own', m', hgrow, hadj, hb, _⟩ :=
        growproc_adjusted hend h.spaces.exact (h.spaces.dir hp) (h.spaces.bounded p sp hp) hn
      rw [hgrow] at hs
      exact ⟨own', Option.some.inj hs ▸ h.adjust hp hadj hb⟩
    · cases hs
  | exec p im =>
    rw [step] at hs
    split at hs
    · next sp hp =>
      rcases exec_inv hend h hp im with ⟨m', hexec, h'⟩ | ⟨d, sz, own', m', hexec, h'⟩
      · rw [hexec] at hs
        exact ⟨own, Option.some.inj hs ▸ h'⟩
      · rw [hexec] at hs
        exact ⟨own', Option.some.inj hs ▸ h'⟩
    · cases hs
  | wait q =>
    rw [step] at hs
    split at hs
    · next sp r hp hr =>
      obtain ⟨own', m', hreap, h'⟩ := reap_inv hend h hp hr
      rw [hreap] at hs
      exact ⟨own', Option.some.inj hs ▸ h'⟩
    · cases hs
  | pipealloc =>
    rcases kalloc_cases s.mem with ⟨_, hk⟩ | ⟨r, rest, hf, hk⟩
    · rw [step, hk] at hs
      exact ⟨own, Option.some.inj hs ▸ h⟩
    · have hne := (h.spaces.exact.take hf).2.1.ne_zero
      rw [step, hk] at hs
      replace hs := (if_neg hne).symm.trans hs
      exact ⟨_, Option.some.inj hs ▸ h.takePipe hf⟩
  | pipeclose v =>
    rw [step] at hs
    split_ifs at hs with hv
    obtain ⟨m', hk, h'⟩ := h.givePipe hv
    rw [hk] at hs
    exact ⟨_, Option.some.inj hs ▸ h'⟩

end

theorem inv_boot (h : Boot lay pool s) : ∃ own, Inv lay pool own s := by
  obtain ⟨own, d, sz, v, hexact, hdirs, hd, hsz, hs, hspace, hv, hvalid, hstack, hpipes, hpool⟩ := h
  have hone : ∀ {p : ℕ} {sp : Space}, s.space p = some sp → p = 0 ∧ sp = ⟨d, sz⟩ := fun {p sp} hp => by
    rw [hspace] at hp
    obtain ⟨h0, hp⟩ | ⟨h0, hp⟩ := update_cases hp
    · exact ⟨h0, (Option.some.inj hp).symm⟩
    · cases hp
  have hstack' : ∀ {p w : ℕ}, s.kstack p = some w → p = 0 ∧ w = v := fun {p w} hp => by
    rw [hstack] at hp
    obtain ⟨h0, hp⟩ | ⟨h0, hp⟩ := update_cases hp
    · exact ⟨h0, (Option.some.inj hp).symm⟩
    · cases hp
  have hheld : ∀ w, Held s w ↔ w = v := fun w => by
    constructor
    · rintro (⟨p, hp⟩ | hw)
      · exact (hstack' hp).2
      · rw [hpipes] at hw
        cases hw
    · rintro rfl
      exact Or.inl ⟨0, by rw [hstack, update_self]⟩
  refine ⟨own, ⟨hexact, fun e => ?_, fun p sp hp => ?_, fun p q a b ha hb _ => ?_, fun p sp hp => ?_⟩,
    ⟨fun w hw => ?_, fun p q w hp hq => ?_, fun p w _ => ?_, ?_⟩, fun w => ?_⟩
  · rw [hdirs]
    refine or_congr Iff.rfl ⟨fun he => ⟨0, ⟨d, sz⟩, by rw [hspace, update_self], he.symm⟩, ?_⟩
    rintro ⟨p, sp, hp, he⟩
    rw [← he, (hone hp).2]
  · rw [(hone hp).2]
    exact hd
  · rw [(hone ha).1, (hone hb).1]
  · rw [(hone hp).2]
    exact ⟨hsz, fun va hva hge => hs.absent hva hge⟩
  · rw [(hheld w).mp hw]
    exact ⟨hv, hvalid⟩
  · rw [(hstack' hp).1, (hstack' hq).1]
  · rw [hpipes]
    exact List.not_mem_nil
  · rw [hpipes]
    exact List.nodup_nil
  · rw [hpool, hheld]

theorem inv_run (hend : KERNBASE < lay.kernelEnd) {es : List Event} (hr : Reach (system lay pool) es s) :
    ∃ own, Inv lay pool own s := by
  refine RunIf.induct (I := fun _ s => ∃ own, Inv lay pool own s) (fun _ h0 => inv_boot h0) ?_ hr
  rintro es s e t ⟨own, h⟩ _ hs
  exact inv_step hend h hs

/-! ### Calls that fail, and `freevm` -/

/-- What has been taken are page tables of page directory `d`. -/
def LeavesTables (d : ℕ) (m m' : Mem) : Prop :=
  (∀ v ∈ m'.freelist, v ∈ m.freelist)
  ∧ ∀ v ∈ m.freelist, v ∈ m'.freelist ∨ ∃ i < NPDENTRIES, Present (m'.word d i)
  ∧ P2V (PTE_ADDR (m'.word d i)) = v

/-- The pages of a page directory: itself, its page tables and its user pages. -/
def Belongs (s : State) (d v : ℕ) : Prop := v = d ∨ (∃ i, Uses s v (.table d i)) ∨ ∃ n, Uses s v (.user d n)

theorem leavesTables (h : Exact lay own kpgdir m) (h' : Exact lay own' kpgdir m')
    (ht : TablesOnly d own own') :
    LeavesTables d m m' := by
  refine ⟨fun v hv => ?_, fun v hv => ?_⟩
  · rw [mem_free h'] at hv
    rw [mem_free h]
    rcases ht v with hsame | ⟨hf, _⟩
    · rw [← hsame, hv]
    · exact hf
  · rw [mem_free h] at hv
    rw [mem_free h']
    rcases ht v with hsame | ⟨_, i, hi⟩
    · exact Or.inl (hsame.trans hv)
    · obtain ⟨_, hlt, hw⟩ := h'.linked v d i hi
      refine Or.inr ⟨i, hlt, ?_, ?_⟩
      · rw [hw]
        exact present_tableEntry v
      · rw [hw]
        exact frame_tableEntry (h'.valid v (by simp [hi]))

theorem allocuvm_fails (hend : KERNBASE < lay.kernelEnd) (h : Exact lay own kpgdir m)
    (hd : own sp.pgdir = .dir) (hb : Bounded m sp) (newsz : ℕ) :
    ∃ r m', allocuvm lay m sp.pgdir sp.sz newsz = .ok (r, m') ∧ (r = 0 → LeavesTables sp.pgdir m m') := by
  have hsame : LeavesTables sp.pgdir m m := leavesTables h h fun v => Or.inl rfl
  by_cases hbig : KERNBASE ≤ newsz
  · exact ⟨0, m, by rw [allocuvm, if_pos hbig], fun _ => hsame⟩
  by_cases hlt : newsz < sp.sz
  · exact ⟨sp.sz, m, by rw [allocuvm, if_neg hbig, if_pos hlt], fun _ => hsame⟩
  obtain ⟨r, own', m', halloc, hg, hres⟩ := allocuvm_exact hend (not_lt.mp hlt) (not_le.mp hbig) h hd hb.2
  refine ⟨r, m', halloc, fun hr => ?_⟩
  rcases hres with ⟨hnew, _⟩ | ⟨_, _, htables⟩
  · -- the size was 0 and stays 0
    have hsz : sp.sz = 0 := by omega
    have hm : allocuvm lay m sp.pgdir sp.sz newsz = .ok (newsz, m) := by
      obtain ⟨n, hn⟩ : ∃ n, PAGES = n + 1 := ⟨PAGES - 1, by decide⟩
      rw [allocuvm, if_neg hbig, if_neg hlt, hn, allocLoop, if_pos]
      omega
    rw [hm] at halloc
    obtain ⟨_, rfl⟩ := Prod.mk.inj (Except.ok.inj halloc)
    exact hsame
  · exact leavesTables h hg.exact htables

/-- **`freevm`** gives back the pages of its page directory, each once. -/
theorem freevm_gives (hend : KERNBASE < lay.kernelEnd) (h : Inv lay pool own s) (hp : s.space p = some sp) :
    ∃ m', freevm lay s.mem sp.pgdir = .ok m' ∧ m'.freelist.Nodup
      ∧ ∀ v, v ∈ m'.freelist ↔ v ∈ s.mem.freelist ∨ Belongs s sp.pgdir v := by
  obtain ⟨m', hfree, hexact, _⟩ := freevm_exact hend h.spaces.exact (h.spaces.dir hp)
  refine ⟨m', hfree, hexact.nodup, fun v => ?_⟩
  have hdir : IsDir s sp.pgdir := Or.inr ⟨p, sp, hp, rfl⟩
  rw [mem_free hexact, mem_free h.spaces.exact]
  constructor
  · intro hv
    by_cases hc : v = sp.pgdir ∨ dirOf (own v) = some sp.pgdir
    · right
      rcases hc with hvd | hof
      · exact Or.inl hvd
      · have hpool : pool v := (h.pool v).mpr (Or.inl (pooled_of_dirOf hof))
        obtain ⟨u, hu⟩ := exists_uses h hpool
        have hown := owner_of_uses h hu
        rw [hown] at hof
        cases u with
        | table e i =>
          obtain rfl : e = sp.pgdir := Option.some.inj hof
          exact Or.inr (Or.inl ⟨i, hu⟩)
        | user e n =>
          obtain rfl : e = sp.pgdir := Option.some.inj hof
          exact Or.inr (Or.inr ⟨n, hu⟩)
        | _ => cases hof
    · exact Or.inl ((if_neg hc).symm.trans hv)
  · rintro (hv | hvd | ⟨i, hu⟩ | ⟨n, hu⟩)
    · rw [handOver, hv, ite_self]
    · exact if_pos (Or.inl hvd)
    · exact if_pos (Or.inr (by rw [owner_of_uses h hu]; rfl))
    · exact if_pos (Or.inr (by rw [owner_of_uses h hu]; rfl))

/-- **Physical pages are conserved.**  After every run each page of the pool has exactly one use, and no other
page has one.  When `setupkvm`, `copyuvm`, `fork` or `exec` fail, the same pages are free as before; when
`allocuvm` fails, it has taken page tables only, which its page directory keeps.  `freevm` gives back the page
directory, its page tables and its user pages, each once, and no other page.  None of the calls panics, except
`copyuvm` when a page below the size is missing. -/
theorem frames_conserved (hend : KERNBASE < lay.kernelEnd) {es : List Event}
    (hr : Reach (system lay pool) es s) :
    s.mem.freelist.Nodup ∧ s.pipes.Nodup ∧ (∀ v, pool v → ∃! u, Uses s v u) ∧ (∀ v u, Uses s v u → pool v)
    ∧ (∃ d m', setupkvm lay s.mem = .ok (d, m') ∧ (d = 0 → SameFree s.mem m'))
    ∧ ∀ p sp, s.space p = some sp →
      (∀ newsz, ∃ r m', allocuvm lay s.mem sp.pgdir sp.sz newsz = .ok (r, m')
        ∧ (r = 0 → LeavesTables sp.pgdir s.mem m'))
      ∧ ((∃ x, copyuvm lay s.mem sp.pgdir sp.sz = .error x ∧ Missing s.mem sp.pgdir sp.sz x)
        ∨ ∃ r m', copyuvm lay s.mem sp.pgdir sp.sz = .ok (r, m') ∧ (r = 0 → SameFree s.mem m'))
      ∧ (∀ q, s.space q = none → s.kstack q = none → ∀ m', fork lay s.mem sp = .ok (none, m')
        → SameFree s.mem m')
      ∧ (∀ im, ∃ r m', exec lay s.mem sp.pgdir im = .ok (r, m') ∧ (r = none → SameFree s.mem m'))
      ∧ ∃ m', freevm lay s.mem sp.pgdir = .ok m' ∧ m'.freelist.Nodup
        ∧ ∀ v, v ∈ m'.freelist ↔ v ∈ s.mem.freelist ∨ Belongs s sp.pgdir v := by
  obtain ⟨own, h⟩ := inv_run hend hr
  have hexact := h.spaces.exact
  have hk : own s.kpgdir ≠ .free := by
    rw [(h.spaces.dirs s.kpgdir).mpr (Or.inl rfl)]
    simp
  refine ⟨hexact.nodup, h.holders.pipes, fun v hv => ?_, fun v u => pool_of_uses h, ?_,
    fun p sp hp => ⟨?_, ?_, ?_, ?_, ?_⟩⟩
  · obtain ⟨u, hu⟩ := exists_uses h hv
    exact ⟨u, hu, fun u' hu' => uses_unique h hu' hu⟩
  · obtain ⟨d, m', hset, ⟨_, hun⟩ | ⟨hd, _⟩⟩ := setupkvm_exact hend hexact hk
    · exact ⟨d, m', hset, fun _ => sameFree hexact hun.exact⟩
    · exact ⟨d, m', hset, fun h0 => absurd h0 hd⟩
  · exact allocuvm_fails hend hexact (h.spaces.dir hp) (h.spaces.bounded p sp hp)
  · rcases copyuvm_exact hend (le_of_lt (h.spaces.bounded p sp hp).1) hexact hk (h.spaces.dir hp) with
      herr | ⟨r, m', hcopy, ⟨_, hun⟩ | ⟨hd, _⟩⟩
    · exact Or.inl herr
    · exact Or.inr ⟨r, m', hcopy, fun _ => sameFree hexact hun.exact⟩
    · exact Or.inr ⟨r, m', hcopy, fun h0 => absurd h0 hd⟩
  · intro q hq hkq m' hfork
    rcases fork_exact hend h hp hq hkq with ⟨x, hf⟩ | ⟨m₁, hf, h'⟩ | ⟨_, _, _, _, hf, _⟩
    · cases hf.symm.trans hfork
    · obtain ⟨_, rfl⟩ := Prod.mk.inj (Except.ok.inj (hf.symm.trans hfork))
      exact sameFree hexact h'.spaces.exact
    · cases hf.symm.trans hfork
  · intro im
    rcases exec_inv hend h hp im with ⟨m', hexec, h'⟩ | ⟨d, sz, _, m', hexec, _⟩
    · exact ⟨none, m', hexec, fun _ => sameFree hexact h'.spaces.exact⟩
    · exact ⟨some (d, sz), m', hexec, by simp⟩
  · exact freevm_gives hend h hp

/-- The small machine with a first process that has no memory yet. -/
def smallState : State where
  mem := smallBoot.mem
  kpgdir := smallBoot.kpgdir
  space := update (fun _ => none) 0 (some ⟨0x803FE000, 0⟩)
  kstack := update (fun _ => none) 0 (some 0x803FD000)
  pipes := []

def smallPool (v : ℕ) : Prop :=
  v ∈ smallBoot.mem.freelist ∨ v = smallBoot.kpgdir ∨ v = 0x803FE000 ∨ v = 0x803FD000

def twoDirs (v : ℕ) : Owner :=
  if v ∈ smallBoot.mem.freelist then .free else if v = smallBoot.kpgdir ∨ v = 0x803FE000 then .dir else .other

theorem boot_smallState : Boot smallLayout smallPool smallState := by
  have hvalid : ∀ v ∈ smallBoot.kpgdir :: 0x803FE000 :: smallBoot.mem.freelist,
      v % PGSIZE = 0 ∧ KERNBASE ≤ v ∧ v < KERNBASE + PHYSTOP ∧ smallLayout.kernelEnd ≤ v := by
    decide
  have hcases : ∀ v, v ∈ smallBoot.mem.freelist ∧ twoDirs v = .free
      ∨ v ∉ smallBoot.mem.freelist ∧ (v = smallBoot.kpgdir ∨ v = 0x803FE000) ∧ twoDirs v = .dir
      ∨ v ∉ smallBoot.mem.freelist ∧ ¬ (v = smallBoot.kpgdir ∨ v = 0x803FE000)
      ∧ twoDirs v = .other := fun v => by
    by_cases hf : v ∈ smallBoot.mem.freelist
    · exact Or.inl ⟨hf, if_pos hf⟩
    · by_cases hd : v = smallBoot.kpgdir ∨ v = 0x803FE000
      · exact Or.inr (Or.inl ⟨hf, hd, (if_neg hf).trans (if_pos hd)⟩)
      · exact Or.inr (Or.inr ⟨hf, hd, (if_neg hf).trans (if_neg hd)⟩)
  refine ⟨twoDirs, 0x803FE000, 0, 0x803FD000, ⟨owned_of_zero (fun _ _ => rfl) (fun v hv => if_pos hv)
    (by decide) fun v hv => ?_, ?_, ?_, ?_⟩, fun e => ?_, by decide, by decide, fun va _ => iff_of_false
      (by rw [pteAt_of_zero fun _ => rfl]; exact not_present_zero) (Nat.not_lt_zero va), rfl, by decide,
    ⟨by decide, by decide, by decide, by decide⟩, rfl, rfl, fun u => ?_⟩
  · refine hvalid v ?_
    rcases hcases v with ⟨hf, _⟩ | ⟨_, hd, _⟩ | ⟨_, _, ho⟩
    · exact List.mem_cons_of_mem _ (List.mem_cons_of_mem _ hf)
    · rcases hd with rfl | rfl <;> decide
    · exact absurd ho hv
  · intro v hv
    rcases hcases v with ⟨hf, _⟩ | ⟨_, _, ho⟩ | ⟨_, _, ho⟩
    · exact hf
    · cases hv.symm.trans ho
    · cases hv.symm.trans ho
  · intro v d i hv
    rcases hcases v with ⟨_, ho⟩ | ⟨_, _, ho⟩ | ⟨_, _, ho⟩ <;> cases hv.symm.trans ho
  · intro v d n hv
    rcases hcases v with ⟨_, ho⟩ | ⟨_, _, ho⟩ | ⟨_, _, ho⟩ <;> cases hv.symm.trans ho
  · rcases hcases e with ⟨hf, ho⟩ | ⟨_, hd, ho⟩ | ⟨_, hd, ho⟩
    · rw [ho]
      refine iff_of_false (by simp) ?_
      rintro (rfl | rfl) <;> revert hf <;> decide
    · exact iff_of_true ho hd
    · rw [ho]
      exact iff_of_false (by simp) hd
  · rw [smallPool]
    rcases hcases u with ⟨hf, ho⟩ | ⟨hf, hd, ho⟩ | ⟨hf, hd, ho⟩
    · rw [ho]
      exact iff_of_true (Or.inl hf) (Or.inl trivial)
    · rw [ho]
      refine iff_of_true (Or.inr ?_) (Or.inl trivial)
      rcases hd with hd | hd
      · exact Or.inl hd
      · exact Or.inr (Or.inl hd)
    · rw [ho, or_iff_right hf, ← or_assoc, or_iff_right hd]
      exact ⟨Or.inr, fun hc => hc.resolve_left id⟩

/-- A process that has grown by a page, and a pipe. -/
theorem frames_conserved_small : ∃ s, Reach (system smallLayout smallPool) [.growproc 0 4096, .pipealloc] s
    ∧ s.mem.freelist.length = 9 ∧ ∀ v, smallPool v → ∃! u, Uses s v u := by
  obtain ⟨s, hs, hlen⟩ := exists_runIf_of_map (S := system smallLayout smallPool) (C := fun _ _ _ => True)
    (f := fun s => s.mem.freelist.length) (y := 9) (s := smallState)
    ([.growproc 0 4096, .pipealloc] : List Event) boot_smallState (by decide +kernel)
  exact ⟨s, hs, hlen, (frames_conserved (by decide) hs).2.2.1⟩

end Xv6e.Memory.FrameRuns
