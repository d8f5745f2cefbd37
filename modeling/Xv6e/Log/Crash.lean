import Xv6e.Log.Commit

/-!
# Crash atomicity and durability of the redo log

A **group** is what one `commit()` makes durable: new contents for distinct home blocks outside the log area,
held dirty in the buffer cache and listed in `log.lh`.  The disk write order of `commit()` is

  slot writes · header with the group's entries · home writes · header with `n = 0`

and three conditions on a disk cover every crash point:

* `Before base` — the header is empty and the home blocks are those of `base`;
* `During base g` — the header lists `g`, the slots hold its contents, and the home blocks *outside* `g` are
  those of `base` (those of `g` may be old or new);
* `After base g` — the header is empty and the home blocks are those of `base` with `g` carried out.

A crash inside `commit()` leaves one of the three (`crash_during_commit`); `recover_from_log`, cut anywhere,
goes from each to itself or forward (`recover_prefix_before`, `recover_prefix_during`); and run to its end it
leaves `Before` or `After` (`recovered_before`, `recovered_during`).
-/

namespace Xv6e.Log.Crash

open Library.WriteTrace Disk.BlockData Commit
open Function (update update_self update_of_ne)

/-- A committed group.  `fits` and `room` are the two bounds `log_write` checks before it appends. -/
structure Group (log : LogArea) where
  blocks : List (ℕ × Block)
  nodup : (blocks.map Prod.fst).Nodup
  home : ∀ p ∈ blocks, ¬ log.Contains p.1
  fits : blocks.length ≤ log.size - 1
  room : blocks.length ≤ LOGSIZE
  isWord : ∀ p ∈ blocks, p.1 < 2 ^ 32

variable {log : LogArea}

/-- `log.lh` when the group is committed. -/
def Group.header (g : Group log) : Header := g.blocks.map Prod.fst

/-- The device when `commit()` is called: the group's contents sit dirty in the cache. -/
def Group.staged (g : Group log) (disk : ℕ → Block) : Dev :=
  ⟨disk, fun b => g.blocks.lookup b, []⟩

/-- `commit()` of the group on a disk. -/
def commitGroup (log : LogArea) (disk : ℕ → Block) (g : Group log) : Dev :=
  commit log g.header (g.staged disk)

/-- The disk after committing the groups one after the other. -/
def commitAll (log : LogArea) (disk : ℕ → Block) : List (Group log) → ℕ → Block
  | [] => disk
  | g :: gs => commitAll log (commitGroup log disk g).disk gs

/-- The disk after a crash `k` writes into `commit()`. -/
def crashCommit (log : LogArea) (disk : ℕ → Block) (g : Group log) (k : ℕ) : ℕ → Block :=
  replay ((commitGroup log disk g).issued.take k) disk

/-- The disk after a crash `k` writes into `recover_from_log()`. -/
def crashRecover (log : LogArea) (disk : ℕ → Block) (k : ℕ) : ℕ → Block :=
  replay ((recoverFromLog log (boot disk)).issued.take k) disk

/-- Recovery crashed any number of times, after any number of writes, and then run to its end. -/
inductive Recovered (log : LogArea) : (ℕ → Block) → (ℕ → Block) → Prop
  | done (disk : ℕ → Block) : Recovered log disk (recoverFromLog log (boot disk)).disk
  | crash (disk final : ℕ → Block) (k : ℕ) :
      Recovered log (crashRecover log disk k) final → Recovered log disk final

/-- The contents the groups promise: each carried out at once. -/
def promised (disk : ℕ → Block) : List (Group log) → ℕ → Block
  | [] => disk
  | g :: gs => promised (replay g.blocks disk) gs

/-- Two disks agree on the home blocks. -/
def HomeEq (log : LogArea) (d e : ℕ → Block) : Prop := ∀ b, ¬ log.Contains b → d b = e b

def Clean (log : LogArea) (d : ℕ → Block) : Prop := headN (d log.start) = 0

/-! ### The three conditions -/

def Before (log : LogArea) (base d : ℕ → Block) : Prop := Clean log d ∧ HomeEq log d base

structure During (base : ℕ → Block) (g : Group log) (d : ℕ → Block) : Prop where
  head : headEntries (d log.start) = g.header
  slots : slotContents log d 0 g.blocks.length = g.blocks.map Prod.snd
  homes : ∀ b, ¬ log.Contains b → b ∉ g.header → d b = base b

def After (base : ℕ → Block) (g : Group log) (d : ℕ → Block) : Prop :=
  Before log (replay g.blocks base) d

/-! ### Blocks of the log area and home blocks -/

theorem Group.header_out (g : Group log) :
    ∀ b ∈ g.header, b ≤ log.start + 0 ∨ log.start + 0 + g.header.length < b := by
  intro b hb
  obtain ⟨p, hp, rfl⟩ := List.mem_map.mp hb
  have hout := g.home p hp
  have hfit := g.fits
  have hpos := List.length_pos_of_mem hp
  unfold LogArea.Contains at hout
  simp only [Group.header, List.length_map]
  omega

variable {g : Group log}

theorem Group.notMem_header {b : ℕ} (h : log.Contains b) : b ∉ g.header := by
  intro hb
  obtain ⟨p, hp, rfl⟩ := List.mem_map.mp hb
  exact g.home p hp h

theorem contains_start (log : LogArea) : log.Contains log.start := by
  have hpos := log.pos
  unfold LogArea.Contains
  omega

theorem Group.contains_slot (g : Group log) {x : ℕ} (h1 : log.start + 0 < x)
    (h2 : x ≤ log.start + 0 + g.blocks.length) : log.Contains x := by
  have hfit := g.fits
  unfold LogArea.Contains
  omega

theorem Group.word_header (g : Group log) : ∀ b ∈ g.header, b < 2 ^ 32 := by
  intro b hb
  obtain ⟨p, hp, rfl⟩ := List.mem_map.mp hb
  exact g.isWord p hp

theorem lookup_of_mem {ws : List (ℕ × Block)} (hnd : (ws.map Prod.fst).Nodup) {p : ℕ × Block}
    (hp : p ∈ ws) : ws.lookup p.1 = some p.2 := by
  induction ws with
  | nil => simp at hp
  | cons w ws ih =>
    rw [List.map_cons, List.nodup_cons] at hnd
    rw [List.lookup_cons]
    rcases List.mem_cons.mp hp with rfl | hp
    · simp
    · have hne : (p.1 == w.1) = false := by
        rw [beq_eq_false_iff_ne]
        exact fun h => hnd.1 (h ▸ List.mem_map_of_mem hp)
      rw [hne]
      exact ih hnd.2 hp

theorem Group.map_bread_staged (g : Group log) (disk : ℕ → Block) :
    g.header.map (bread (g.staged disk)) = g.blocks.map Prod.snd := by
  rw [Group.header, List.map_map]
  refine List.map_congr_left fun p hp => ?_
  simp [bread, Group.staged, lookup_of_mem g.nodup hp]

theorem Group.zip_header (g : Group log) : g.header.zip (g.blocks.map Prod.snd) = g.blocks := by
  simp [Group.header, List.zip_map', List.map_id']

/-! ### The trace of `commit()` -/

def Group.slots (g : Group log) : List (ℕ × Block) := slotWrites log 0 (g.blocks.map Prod.snd)

theorem Group.slots_contains {x : ℕ} (h : x ∈ g.slots.map Prod.fst) :
    log.Contains x ∧ x ≠ log.start := by
  have hx := mem_slotWrites_fst h
  rw [List.length_map] at hx
  exact ⟨g.contains_slot hx.1 hx.2, by omega⟩

/-- **The trace of `commit()`.**  Slot writes, the header that lists the group, the home writes, the empty
header. -/
theorem commitGroup_eq (disk : ℕ → Block) (g : Group log) (hne : g.blocks ≠ []) :
    ∃ hb hb' : Block, commitGroup log disk g = issue (g.staged disk)
      (g.slots ++ ((log.start, putHead g.header hb) :: (g.blocks ++ [(log.start, putHead [] hb')]))) := by
  have hlen : g.header.length > 0 := by
    simpa [Group.header] using List.length_pos_iff.mpr hne
  have hlog := writeLog_eq log 0 g.header (g.staged disk) g.header_out
  rw [g.map_bread_staged] at hlog
  -- the device once the header is written
  set d₂ : Dev := writeHead log g.header (writeLog log 0 g.header (g.staged disk)) with hd₂
  have hd₂' : d₂ = issue (g.staged disk)
      (g.slots ++
        [(log.start, putHead g.header (bread (writeLog log 0 g.header (g.staged disk)) log.start))]) := by
    rw [issue_append, Group.slots, ← hlog]
    rfl
  have hslots : slotContents log (bread d₂) 0 g.header.length = g.blocks.map Prod.snd := by
    have hread := slotContents_slotWrites log (bread (g.staged disk)) 0 (g.blocks.map Prod.snd)
    rw [List.length_map] at hread
    rw [Group.header, List.length_map, ← hread]
    refine slotContents_congr fun x h1 _ => ?_
    rw [hd₂', bread_issue, replay_append, replay_of_notMem]
    · rfl
    · simp only [List.map_cons, List.map_nil, List.mem_singleton]
      omega
  have hinst := installTrans_eq log 0 g.header d₂ g.header_out
  rw [hslots, g.zip_header] at hinst
  refine ⟨bread (writeLog log 0 g.header (g.staged disk)) log.start,
    bread (installTrans log 0 g.header d₂) log.start, ?_⟩
  rw [commitGroup, commit, if_pos hlen, ← hd₂, writeHead, hinst, issue_append, ← List.singleton_append,
    issue_append, issue_append, ← issue_append (g.staged disk), ← hd₂']
  rfl

/-! ### Crash points of `commit()` -/

theorem headN_putHead_nil (hb : Block) : headN (putHead [] hb) = 0 := by
  rw [headN_putHead [] hb (by simp)]
  rfl

variable {base disk d final : ℕ → Block}

theorem before_slots (hd : Before log base disk)
    {ws : List (ℕ × Block)} (hws : ws <+: g.slots) : Before log base (replay ws disk) := by
  have hsub : ∀ x, x ∈ ws.map Prod.fst → x ∈ g.slots.map Prod.fst := fun x hx =>
    (hws.map Prod.fst).subset hx
  constructor
  · rw [Clean, replay_of_notMem fun hx => (Group.slots_contains (hsub _ hx)).2 rfl]
    exact hd.1
  · intro b hb
    rw [replay_of_notMem fun hx => hb (Group.slots_contains (hsub _ hx)).1]
    exact hd.2 b hb

/-- A disk whose header and slots hold the group is in `During`, whatever home blocks of the group were
written to it. -/
theorem during_homes (hd : During base g d)
    {ws : List (ℕ × Block)} (hws : ws <+: g.blocks) : During base g (replay ws d) := by
  have hsub : ∀ x, x ∈ ws.map Prod.fst → x ∈ g.header := fun x hx => (hws.map Prod.fst).subset hx
  refine ⟨?_, ?_, ?_⟩
  · rw [replay_of_notMem fun hx => Group.notMem_header (contains_start log) (hsub _ hx)]
    exact hd.head
  · rw [← hd.slots]
    refine slotContents_congr fun x h1 h2 => ?_
    exact replay_of_notMem (fun hx => Group.notMem_header (g.contains_slot h1 h2) (hsub _ hx)) d
  · intro b hb hbg
    rw [replay_of_notMem fun hx => hbg (hsub _ hx)]
    exact hd.homes b hb hbg

/-- Once every home block is written and the header cleared, the group is carried out. -/
theorem after_of_during (hd : During base g d) (hb : Block) :
    After base g (update (replay g.blocks d) log.start (putHead [] hb)) := by
  constructor
  · rw [Clean, update_self]
    exact headN_putHead_nil hb
  · intro b hbl
    have hne : b ≠ log.start := fun h => hbl (h ▸ contains_start log)
    rw [update_of_ne hne]
    exact replay_congr fun hbg => hd.homes b hbl hbg

/-- The commit point: the header write takes `Before`, with the slots filled, to `During`. -/
theorem during_of_head (hd : Before log base disk) (hb : Block) :
    During base g (update (replay g.slots disk) log.start (putHead g.header hb)) := by
  have hlen : g.header.length ≤ LOGSIZE := by simpa [Group.header] using g.room
  refine ⟨?_, ?_, ?_⟩
  · rw [update_self]
    exact headEntries_putHead g.header hb hlen g.word_header
  · have hread := slotContents_slotWrites log disk 0 (g.blocks.map Prod.snd)
    rw [List.length_map] at hread
    rw [← hread]
    refine slotContents_congr fun x h1 _ => ?_
    rw [update_of_ne (by omega)]
    rfl
  · intro b hbl _
    have hne : b ≠ log.start := fun h => hbl (h ▸ contains_start log)
    rw [update_of_ne hne]
    exact (before_slots hd (List.prefix_refl _)).2 b hbl

/-- **Crash points of `commit()`.**  After any number of its writes the group is not visible, or logged, or
carried out. -/
theorem crash_during_commit (g : Group log) (hd : Before log base disk) (k : ℕ) :
    Before log base (crashCommit log disk g k) ∨ During base g (crashCommit log disk g k)
      ∨ After base g (crashCommit log disk g k) := by
  by_cases hne : g.blocks = []
  · -- an empty group: `commit()` issues nothing
    have hnil : (commitGroup log disk g).issued = [] := by
      simp [commitGroup, commit, Group.header, hne, Group.staged]
    left
    rw [crashCommit, hnil, List.take_nil]
    exact hd
  · obtain ⟨hb, hb', htrace⟩ := commitGroup_eq disk g hne
    have hpre := List.take_prefix k (commitGroup log disk g).issued
    unfold crashCommit
    generalize List.take k (commitGroup log disk g).issued = ws at hpre
    rw [htrace, issue_issued, show (g.staged disk).issued = [] from rfl, List.nil_append] at hpre
    rcases crash_in_append hpre with hin | ⟨rest, hrest, rfl⟩
    · exact Or.inl (before_slots hd hin)
    · rw [replay_append]
      rw [List.prefix_cons_iff] at hrest
      rcases hrest with rfl | ⟨rest', rfl, hrest'⟩
      · exact Or.inl (before_slots hd (List.prefix_refl _))
      · -- past the commit point
        have hdur := during_of_head (g := g) hd hb
        rw [replay_cons]
        rcases crash_in_append hrest' with hin | ⟨last, hlast, rfl⟩
        · exact Or.inr (Or.inl (during_homes hdur hin))
        · rw [replay_append]
          rw [List.prefix_cons_iff] at hlast
          rcases hlast with rfl | ⟨last', rfl, hlast'⟩
          · exact Or.inr (Or.inl (during_homes hdur (List.prefix_refl _)))
          · rw [List.prefix_nil.mp hlast', replay_cons, replay_nil]
            exact Or.inr (Or.inr (after_of_during hdur hb'))

/-- `commit()` run to its end carries the group out. -/
theorem after_commitGroup (g : Group log) (hd : Before log base disk) :
    After base g (commitGroup log disk g).disk := by
  by_cases hne : g.blocks = []
  · have hsame : (commitGroup log disk g).disk = disk := by
      simp [commitGroup, commit, Group.header, hne, Group.staged]
    rw [hsame, After, hne]
    exact hd
  · obtain ⟨hb, hb', htrace⟩ := commitGroup_eq disk g hne
    rw [htrace, issue_disk, replay_append, replay_cons, replay_append]
    exact after_of_during (during_of_head hd hb) hb'

/-- A device's disk is the replay of what it issued. -/
theorem commitGroup_disk (disk : ℕ → Block) (g : Group log) :
    (commitGroup log disk g).disk = replay (commitGroup log disk g).issued disk := by
  by_cases hne : g.blocks = []
  · simp [commitGroup, commit, Group.header, hne, Group.staged]
  · obtain ⟨hb, hb', htrace⟩ := commitGroup_eq disk g hne
    rw [htrace, issue_disk, issue_issued]
    rfl

/-! ### Crash points of `recover_from_log()` -/

/-- Recovery of a clean disk only rewrites the header. -/
theorem recover_clean (h : Clean log d) :
    recoverFromLog log (boot d) = issue (boot d) [(log.start, putHead [] (d log.start))] := by
  have hnil : readHead log (boot d) = [] := headEntries_of_headN h
  rw [recoverFromLog, hnil]
  rfl

/-- Recovery of a logged group writes its home blocks, then the empty header. -/
theorem recover_during (hd : During base g d) :
    ∃ hb : Block, recoverFromLog log (boot d)
      = issue (boot d) (g.blocks ++ [(log.start, putHead [] hb)]) := by
  have hhead : readHead log (boot d) = g.header := hd.head
  have hinst := installTrans_eq log 0 g.header (boot d) g.header_out
  have hslots : slotContents log (bread (boot d)) 0 g.header.length = g.blocks.map Prod.snd := by
    rw [Group.header, List.length_map]
    exact hd.slots
  rw [hslots, g.zip_header] at hinst
  refine ⟨bread (installTrans log 0 g.header (boot d)) log.start, ?_⟩
  rw [recoverFromLog, hhead, issue_append, ← hinst]
  rfl

theorem before_of_header (hd : Before log base d) (hb : Block) :
    Before log base (update d log.start (putHead [] hb)) := by
  constructor
  · rw [Clean, update_self]
    exact headN_putHead_nil hb
  · intro b hbl
    have hne : b ≠ log.start := fun h => hbl (h ▸ contains_start log)
    rw [update_of_ne hne]
    exact hd.2 b hbl

/-- Recovery of a disk with an empty header, cut anywhere, keeps the home blocks and the empty header. -/
theorem recover_prefix_before (hd : Before log base d) {ws : List (ℕ × Block)}
    (hws : ws <+: (recoverFromLog log (boot d)).issued) : Before log base (replay ws d) := by
  rw [recover_clean hd.1, issue_issued, show (boot d).issued = [] from rfl, List.nil_append,
    List.prefix_cons_iff] at hws
  rcases hws with rfl | ⟨rest, rfl, hrest⟩
  · exact hd
  · rw [List.prefix_nil.mp hrest]
    exact before_of_header hd _

/-- Recovery of a logged group, cut anywhere, leaves it logged or carried out. -/
theorem recover_prefix_during (hd : During base g d)
    {ws : List (ℕ × Block)} (hws : ws <+: (recoverFromLog log (boot d)).issued) :
    During base g (replay ws d) ∨ After base g (replay ws d) := by
  obtain ⟨hb, htrace⟩ := recover_during hd
  rw [htrace, issue_issued, show (boot d).issued = [] from rfl, List.nil_append] at hws
  rcases crash_in_append hws with hin | ⟨rest, hrest, rfl⟩
  · exact Or.inl (during_homes hd hin)
  · rw [replay_append]
    rw [List.prefix_cons_iff] at hrest
    rcases hrest with rfl | ⟨rest', rfl, hrest'⟩
    · exact Or.inl (during_homes hd (List.prefix_refl _))
    · rw [List.prefix_nil.mp hrest']
      exact Or.inr (after_of_during hd hb)

theorem recover_disk_before (hd : Before log base d) :
    Before log base (recoverFromLog log (boot d)).disk := by
  rw [recover_clean hd.1, issue_disk]
  exact before_of_header hd _

theorem recover_disk_during (hd : During base g d) :
    After base g (recoverFromLog log (boot d)).disk := by
  obtain ⟨hb, htrace⟩ := recover_during hd
  rw [htrace, issue_disk, replay_append]
  exact after_of_during hd hb

/-! ### Recovery, any number of times -/

/-- Recovery with any number of crashes keeps the home blocks of a clean disk. -/
theorem recovered_before (hrun : Recovered log d final)
    (hd : Before log base d) : Before log base final := by
  induction hrun with
  | done d => exact recover_disk_before hd
  | crash d final k _ ih => exact ih (recover_prefix_before hd (List.take_prefix _ _))

/-- Recovery with any number of crashes carries a logged group out. -/
theorem recovered_during (hrun : Recovered log d final)
    (hd : During base g d) : After base g final := by
  induction hrun with
  | done d => exact recover_disk_during hd
  | crash d final k hrest ih =>
    rcases recover_prefix_during hd (List.take_prefix _ _) with h | h
    · exact ih h
    · exact recovered_before hrest h

/-! ### Sequences of groups -/

/-- After committing the groups the home blocks are the promised ones and the header is empty. -/
theorem before_commitAll (gs : List (Group log)) (hd : Before log base disk) :
    Before log (promised base gs) (commitAll log disk gs) := by
  induction gs generalizing base disk with
  | nil => exact hd
  | cons g gs ih => exact ih (after_commitGroup g hd)

theorem promised_append (disk : ℕ → Block) (gs : List (Group log)) (g : Group log) :
    promised disk (gs ++ [g]) = replay g.blocks (promised disk gs) := by
  induction gs generalizing disk with
  | nil => rfl
  | cons g' gs ih => exact ih _

/-- **Crash atomicity and durability.**  From a disk with an empty header, commit any groups `gs`, crash
`commit()` of the next group `g` after any number `k` of its writes, and recover, with recovery itself
crashed and re-run any number of times.  The home blocks are then those after `gs`, or those after `gs` and
`g`; they are the latter if `commit()` had issued all its writes; and the header is empty. -/
theorem recovery_atomic (disk : ℕ → Block) (hclean : Clean log disk) (gs : List (Group log))
    (g : Group log) (k : ℕ) (final : ℕ → Block)
    (hrun : Recovered log (crashCommit log (commitAll log disk gs) g k) final) :
    (HomeEq log final (promised disk gs) ∨ HomeEq log final (promised disk (gs ++ [g])))
      ∧ ((commitGroup log (commitAll log disk gs) g).issued.length ≤ k →
          HomeEq log final (promised disk (gs ++ [g])))
      ∧ Clean log final := by
  have hbefore : Before log (promised disk gs) (commitAll log disk gs) :=
    before_commitAll gs ⟨hclean, fun _ _ => rfl⟩
  rw [promised_append]
  have hret : (commitGroup log (commitAll log disk gs) g).issued.length ≤ k →
      After (promised disk gs) g final := by
    intro hk
    rw [crashCommit, List.take_of_length_le hk, ← commitGroup_disk] at hrun
    exact recovered_before hrun (after_commitGroup g hbefore)
  rcases crash_during_commit g hbefore k with h | h | h
  · have hfin := recovered_before hrun h
    exact ⟨Or.inl hfin.2, fun hk => (hret hk).2, hfin.1⟩
  · have hfin := recovered_during hrun h
    exact ⟨Or.inr hfin.2, fun hk => (hret hk).2, hfin.1⟩
  · have hfin := recovered_before hrun h
    exact ⟨Or.inr hfin.2, fun hk => (hret hk).2, hfin.1⟩

/-- Two data blocks to be filled with ones. -/
def sampleGroup : Group mkfsLog where
  blocks := [(60, Vector.replicate BSIZE 1), (59, Vector.replicate BSIZE 1)]
  nodup := by decide
  home := by simp [mkfsLog, LogArea.Contains, LOGSIZE]
  fits := by decide
  room := by decide
  isWord := by simp

/-- A crash right after the commit point, one more in recovery after the first home write, and recovery run
to its end: nothing of the sample group is lost. -/
theorem recovery_atomic_sample :
    Clean mkfsLog (fun _ => zeroBlock) ∧
    ∃ final, Recovered mkfsLog
    (crashCommit mkfsLog (commitAll mkfsLog (fun _ => zeroBlock) []) sampleGroup 3) final
      ∧ (HomeEq mkfsLog final (promised (fun _ => zeroBlock) ([] : List (Group mkfsLog)))
          ∨ HomeEq mkfsLog final (promised (fun _ => zeroBlock) [sampleGroup]))
      ∧ Clean mkfsLog final := by
  have hclean : Clean mkfsLog (fun _ => zeroBlock) := by simp [Clean, headN, toInt]
  have hrun : Recovered mkfsLog _ _ :=
    Recovered.crash (crashCommit mkfsLog (commitAll mkfsLog (fun _ => zeroBlock) []) sampleGroup 3) _ 1
      (Recovered.done _)
  have h := recovery_atomic (fun _ => zeroBlock) hclean [] sampleGroup 3 _ hrun
  exact ⟨hclean, _, hrun, h.1, h.2.2⟩

end Xv6e.Log.Crash
