import Xv6e.Library.WriteTrace
import Xv6e.Disk.BlockData

/-!
# The redo log on disk: `commit` and `recover_from_log`

The log area is `log.size` blocks from `log.start`: a header block (`struct logheader`: a count and the home
block numbers) and the log slots, slot `tail` being block `log.start + tail + 1`.

A device is the disk, the **dirty** buffers of the cache and the writes issued so far.  A clean buffer holds
what the disk holds, so `bread` returns the dirty contents of a block if there are any and the disk's
otherwise; `bwrite` puts the contents on the disk and leaves the buffer clean.  A crash keeps the disk and
loses the rest.

`installTrans`, `readHead`, `writeHead`, `writeLog`, `commit` and `recoverFromLog` follow `log.c` loop by
loop.  For each of the loops a lemma names the writes it issues (`writeLog_eq`, `installTrans_eq`), which
brings every crash point down to a prefix of a known trace.
-/

namespace Xv6e.Log.Commit

open Library.WriteTrace Disk.BlockData

/-- `LOGSIZE` of `param.h`, `MAXOPBLOCKS * 3`. -/
def LOGSIZE : ℕ := 30

/-- The log's place on the disk: `log.start` and `log.size`, read from the superblock by `initlog`.  The area
has at least its header block. -/
structure LogArea where
  start : ℕ
  size : ℕ
  pos : 0 < size

/-- The blocks `[log.start, log.start + log.size)`. -/
def LogArea.Contains (log : LogArea) (b : ℕ) : Prop := log.start ≤ b ∧ b < log.start + log.size

instance (log : LogArea) (b : ℕ) : Decidable (log.Contains b) := by
  unfold LogArea.Contains; infer_instance

/-- The log area of an `mkfs` image: `nlog = LOGSIZE` blocks from block 2, the first being the header. -/
def mkfsLog : LogArea := ⟨2, LOGSIZE, by decide⟩

/-- The device: disk contents, dirty buffers and the writes issued so far. -/
structure Dev where
  disk : ℕ → Block
  dirty : ℕ → Option Block
  issued : List (ℕ × Block)

/-- The device at boot: an empty cache. -/
def boot (disk : ℕ → Block) : Dev := ⟨disk, fun _ => none, []⟩

def bread (d : Dev) (b : ℕ) : Block := (d.dirty b).getD (d.disk b)

def bwrite (d : Dev) (b : ℕ) (v : Block) : Dev :=
  ⟨Function.update d.disk b v, Function.update d.dirty b none, d.issued ++ [(b, v)]⟩

/-- The in-memory header `log.lh`: the live entries `block[0..n)`, so that `n` is the length. -/
abbrev Header : Type := List ℕ

/-- Copy modified blocks from cache to log. -/
def writeLog (log : LogArea) : ℕ → Header → Dev → Dev
  | _, [], d => d
  | tail, b :: bs, d => writeLog log (tail + 1) bs (bwrite d (log.start + tail + 1) (bread d b))

/-- Copy committed blocks from log to their home location. -/
def installTrans (log : LogArea) : ℕ → Header → Dev → Dev
  | _, [], d => d
  | tail, b :: bs, d => installTrans log (tail + 1) bs (bwrite d b (bread d (log.start + tail + 1)))

/-- `hb->block[i] = log.lh.block[i]` for the entries from `i` on. -/
def putEntries : ℕ → Header → Block → Block
  | _, [], hb => hb
  | i, b :: bs, hb => putEntries (i + 1) bs (setWord hb (i + 1) b)

/-- The header block after `write_head`'s stores: word `0` is `n`, word `i + 1` is `block[i]`. -/
def putHead (lh : Header) (hb : Block) : Block := putEntries 0 lh (setWord hb 0 lh.length)

/-- Write the in-memory log header to disk. -/
def writeHead (log : LogArea) (lh : Header) (d : Dev) : Dev :=
  bwrite d log.start (putHead lh (bread d log.start))

/-- `lh->n` of a header block, an `int`. -/
def headN (hb : Block) : ℤ := toInt (word hb 0)

/-- The entries `read_head` copies out of a header block. -/
def headEntries (hb : Block) : Header := (List.range (headN hb).toNat).map fun i => word hb (i + 1)

/-- Read the log header from disk into the in-memory log header. -/
def readHead (log : LogArea) (d : Dev) : Header := headEntries (bread d log.start)

def commit (log : LogArea) (lh : Header) (d : Dev) : Dev :=
  if lh.length > 0 then
    writeHead log [] (installTrans log 0 lh (writeHead log lh (writeLog log 0 lh d)))
  else d

def recoverFromLog (log : LogArea) (d : Dev) : Dev :=
  writeHead log [] (installTrans log 0 (readHead log d) d)

/-! ### Issuing a list of writes -/

/-- The device after issuing the writes `ws`. -/
def issue (d : Dev) : List (ℕ × Block) → Dev
  | [] => d
  | w :: ws => issue (bwrite d w.1 w.2) ws

theorem issue_append (d : Dev) (ws vs : List (ℕ × Block)) :
    issue d (ws ++ vs) = issue (issue d ws) vs := by
  induction ws generalizing d with
  | nil => rfl
  | cons w ws ih => exact ih _

@[simp] theorem issue_disk (d : Dev) (ws : List (ℕ × Block)) :
    (issue d ws).disk = replay ws d.disk := by
  induction ws generalizing d with
  | nil => rfl
  | cons w ws ih => rw [issue, ih]; rfl

@[simp] theorem issue_issued (d : Dev) (ws : List (ℕ × Block)) :
    (issue d ws).issued = d.issued ++ ws := by
  induction ws generalizing d with
  | nil => simp [issue]
  | cons w ws ih => rw [issue, ih]; simp [bwrite]

/-- What `bread` sees after some writes: the last one to the block, else what it saw before. -/
theorem bread_issue (d : Dev) (ws : List (ℕ × Block)) (b : ℕ) :
    bread (issue d ws) b = replay ws (bread d) b := by
  induction ws generalizing d with
  | nil => rfl
  | cons w ws ih =>
    rw [issue, ih, replay_cons]
    congr 1
    funext x
    by_cases hx : x = w.1
    · subst hx
      simp [bread, bwrite]
    · simp [bread, bwrite, hx]

/-! ### The writes of each loop -/

/-- The log-slot writes of `write_log`: contents `vs` into the slots from `tail` on. -/
def slotWrites (log : LogArea) : ℕ → List Block → List (ℕ × Block)
  | _, [] => []
  | tail, v :: vs => (log.start + tail + 1, v) :: slotWrites log (tail + 1) vs

theorem slotWrites_fst (log : LogArea) (tail : ℕ) (vs : List Block) :
    (slotWrites log tail vs).map Prod.fst = (List.range' tail vs.length).map (log.start + · + 1) := by
  induction vs generalizing tail with
  | nil => rfl
  | cons v vs ih => simp [slotWrites, ih, List.range'_succ]

theorem mem_slotWrites_fst {log : LogArea} {tail x : ℕ} {vs : List Block}
    (h : x ∈ (slotWrites log tail vs).map Prod.fst) :
    log.start + tail < x ∧ x ≤ log.start + tail + vs.length := by
  rw [slotWrites_fst, List.mem_map] at h
  obtain ⟨i, hi, rfl⟩ := h
  rw [List.mem_range'_1] at hi
  omega

/-- **The writes of `write_log`.**  Every slot gets the cached contents of its home block, as they were when
the loop started: the slots written on the way are no home blocks. -/
theorem writeLog_eq (log : LogArea) (tail : ℕ) (bs : Header) (d : Dev)
    (hout : ∀ b ∈ bs, b ≤ log.start + tail ∨ log.start + tail + bs.length < b) :
    writeLog log tail bs d = issue d (slotWrites log tail (bs.map (bread d))) := by
  induction bs generalizing tail d with
  | nil => rfl
  | cons b bs ih =>
    have hmap : bs.map (bread (bwrite d (log.start + tail + 1) (bread d b))) = bs.map (bread d) := by
      refine List.map_congr_left fun c hc => ?_
      have hne : c ≠ log.start + tail + 1 := by
        have := hout c (List.mem_cons_of_mem _ hc)
        simp only [List.length_cons] at this
        omega
      simp [bread, bwrite, hne]
    rw [writeLog, ih, hmap]
    · rfl
    · intro c hc
      have := hout c (List.mem_cons_of_mem _ hc)
      simp only [List.length_cons] at this
      omega

/-- The blocks `write_log` writes, whatever the header lists: one slot per entry. -/
theorem writeLog_issued (log : LogArea) (tail : ℕ) (bs : Header) (d : Dev) :
    (writeLog log tail bs d).issued.map Prod.fst
      = d.issued.map Prod.fst ++ (List.range' tail bs.length).map (log.start + · + 1) := by
  induction bs generalizing tail d with
  | nil => simp [writeLog]
  | cons b bs ih => rw [writeLog, ih]; simp [bwrite, List.range'_succ]

/-- The contents of `m` log slots from `tail` on. -/
def slotContents (log : LogArea) (view : ℕ → Block) : ℕ → ℕ → List Block
  | _, 0 => []
  | tail, m + 1 => view (log.start + tail + 1) :: slotContents log view (tail + 1) m

theorem slotContents_congr {log : LogArea} {v w : ℕ → Block} {tail m : ℕ}
    (h : ∀ x, log.start + tail < x → x ≤ log.start + tail + m → v x = w x) :
    slotContents log v tail m = slotContents log w tail m := by
  induction m generalizing tail with
  | zero => rfl
  | succ m ih =>
    rw [slotContents, slotContents, h _ (by omega) (by omega),
      ih (fun x h1 h2 => h x (by omega) (by omega))]

theorem slotContents_slotWrites (log : LogArea) (d : ℕ → Block) (tail : ℕ) (vs : List Block) :
    slotContents log (replay (slotWrites log tail vs) d) tail vs.length = vs := by
  induction vs generalizing tail d with
  | nil => rfl
  | cons v vs ih =>
    rw [List.length_cons, slotContents, slotWrites, replay_cons]
    congr 1
    · rw [replay_of_notMem, Function.update_self]
      intro hx
      have := mem_slotWrites_fst hx
      omega
    · exact ih _ _

/-- **The writes of `install_trans`.**  Every home block gets the contents of its slot. -/
theorem installTrans_eq (log : LogArea) (tail : ℕ) (bs : Header) (d : Dev)
    (hout : ∀ b ∈ bs, b ≤ log.start + tail ∨ log.start + tail + bs.length < b) :
    installTrans log tail bs d = issue d (bs.zip (slotContents log (bread d) tail bs.length)) := by
  induction bs generalizing tail d with
  | nil => rfl
  | cons b bs ih =>
    have hb := hout b List.mem_cons_self
    simp only [List.length_cons] at hb
    have hslots : slotContents log (bread (bwrite d b (bread d (log.start + tail + 1)))) (tail + 1) bs.length
        = slotContents log (bread d) (tail + 1) bs.length := by
      refine slotContents_congr fun x h1 h2 => ?_
      have hne : x ≠ b := by omega
      simp [bread, bwrite, hne]
    rw [installTrans, ih, hslots]
    · rfl
    · intro c hc
      have := hout c (List.mem_cons_of_mem _ hc)
      simp only [List.length_cons] at this
      omega

/-! ### The header block -/

theorem word_putEntries_of_le (i : ℕ) (lh : Header) (hb : Block) {j : ℕ} (hj : j ≤ i) :
    word (putEntries i lh hb) j = word hb j := by
  induction lh generalizing i hb with
  | nil => rfl
  | cons b bs ih => rw [putEntries, ih (i + 1) _ (by omega), word_setWord_of_ne _ _ (by omega)]

theorem word_putEntries (i : ℕ) (lh : Header) (hb : Block) (hfit : i + lh.length < BSIZE / 4)
    (hw : ∀ b ∈ lh, b < 2 ^ 32) (j : ℕ) (hj : j < lh.length) :
    word (putEntries i lh hb) (i + j + 1) = lh[j] := by
  induction lh generalizing i j hb with
  | nil => simp at hj
  | cons b bs ih =>
    rw [List.length_cons] at hfit
    cases j with
    | zero =>
      rw [putEntries, Nat.add_zero, word_putEntries_of_le _ _ _ (le_refl _),
        word_setWord_self _ (by omega) (hw b List.mem_cons_self)]
      rfl
    | succ j =>
      have := ih (i + 1) (setWord hb (i + 1) b) (by omega)
        (fun c hc => hw c (List.mem_cons_of_mem _ hc)) j (by simpa using hj)
      rw [putEntries, show i + (j + 1) + 1 = i + 1 + j + 1 from by omega, this]
      rfl

theorem headN_putHead (lh : Header) (hb : Block) (hlen : lh.length ≤ LOGSIZE) :
    headN (putHead lh hb) = lh.length := by
  unfold LOGSIZE at hlen
  rw [headN, putHead, word_putEntries_of_le _ _ _ (le_refl _),
    word_setWord_self _ (by decide) (by omega), toInt_of_lt (by omega)]

/-- **Header round trip.**  `read_head` gets back what `write_head` wrote. -/
theorem headEntries_putHead (lh : Header) (hb : Block) (hlen : lh.length ≤ LOGSIZE)
    (hw : ∀ b ∈ lh, b < 2 ^ 32) : headEntries (putHead lh hb) = lh := by
  rw [headEntries, headN_putHead lh hb hlen, Int.toNat_natCast]
  refine List.ext_getElem (by simp) fun i h1 h2 => ?_
  rw [List.getElem_map, List.getElem_range, putHead]
  have hfit : 0 + lh.length < BSIZE / 4 := by unfold LOGSIZE at hlen; unfold BSIZE; omega
  have := word_putEntries 0 lh (setWord hb 0 lh.length) hfit hw i h2
  rwa [Nat.zero_add] at this

theorem headEntries_of_headN {hb : Block} (h : headN hb = 0) : headEntries hb = [] := by
  simp [headEntries, h]

end Xv6e.Log.Commit
