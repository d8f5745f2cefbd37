import Xv6e.Params

/-!
# Disk blocks

A block is `BSIZE` bytes.  The kernel looks at one through a few lenses, and each has a read, a write and
the one lemma that says what a read sees after a write:

* **bytes** — `byte`, `setByte`;
* **little-endian words** — `word`, `setWord` (the log header `struct logheader`).

Machine words are natural numbers below `2 ^ 32`; `toInt` reads one as a C `int`.
-/

namespace Xv6e.Disk.BlockData

/-- One disk block, `uchar data[BSIZE]`. -/
abbrev Block : Type := Vector UInt8 BSIZE

/-- The all-zero block that `memset(data, 0, BSIZE)` leaves. -/
def zeroBlock : Block := Vector.replicate BSIZE 0

/-! ### Bytes -/

def byte (b : Block) (i : ℕ) : UInt8 := b[i]?.getD 0

def setByte (b : Block) (i : ℕ) (v : UInt8) : Block := b.setIfInBounds i v

theorem byte_setByte (b : Block) (i j : ℕ) (v : UInt8) :
    byte (setByte b i v) j = if i = j ∧ i < BSIZE then v else byte b j := by
  unfold byte setByte
  rw [Vector.getElem?_setIfInBounds]
  by_cases hij : i = j
  · subst hij
    by_cases hi : i < BSIZE
    · simp [hi]
    · simp [hi]
  · simp [hij]

theorem byte_setByte_of_ne (b : Block) {i j : ℕ} (v : UInt8) (h : i ≠ j) :
    byte (setByte b i v) j = byte b j := by
  rw [byte_setByte, if_neg fun hc => h hc.1]

theorem byte_setByte_self (b : Block) {i : ℕ} (v : UInt8) (h : i < BSIZE) :
    byte (setByte b i v) i = v := by
  rw [byte_setByte, if_pos ⟨rfl, h⟩]

@[simp] theorem byte_zeroBlock (i : ℕ) : byte zeroBlock i = 0 := by
  unfold byte zeroBlock
  by_cases hi : i < BSIZE
  · simp [hi]
  · simp [hi]

/-! ### Words -/

/-- `((uint*)data)[k]`, little-endian. -/
def word (b : Block) (k : ℕ) : ℕ :=
  (byte b (4 * k)).toNat + 2 ^ 8 * (byte b (4 * k + 1)).toNat
    + 2 ^ 16 * (byte b (4 * k + 2)).toNat + 2 ^ 24 * (byte b (4 * k + 3)).toNat

/-- `((uint*)data)[k] = v`, little-endian. -/
def setWord (b : Block) (k v : ℕ) : Block :=
  setByte (setByte (setByte (setByte b (4 * k) (UInt8.ofNat v))
    (4 * k + 1) (UInt8.ofNat (v / 2 ^ 8))) (4 * k + 2) (UInt8.ofNat (v / 2 ^ 16)))
    (4 * k + 3) (UInt8.ofNat (v / 2 ^ 24))

theorem word_setWord_of_ne (b : Block) {k j : ℕ} (v : ℕ) (h : k ≠ j) :
    word (setWord b k v) j = word b j := by
  unfold word setWord
  repeat rw [byte_setByte_of_ne _ _ (by omega)]

theorem word_setWord_self (b : Block) {k v : ℕ} (hk : k < BSIZE / 4) (hv : v < 2 ^ 32) :
    word (setWord b k v) k = v := by
  have hb : 4 * k + 3 < BSIZE := by unfold BSIZE at *; omega
  have e3 : byte (setWord b k v) (4 * k + 3) = UInt8.ofNat (v / 2 ^ 24) := by
    rw [setWord, byte_setByte_self _ _ hb]
  have e2 : byte (setWord b k v) (4 * k + 2) = UInt8.ofNat (v / 2 ^ 16) := by
    rw [setWord, byte_setByte_of_ne _ _ (by omega), byte_setByte_self _ _ (by omega)]
  have e1 : byte (setWord b k v) (4 * k + 1) = UInt8.ofNat (v / 2 ^ 8) := by
    rw [setWord, byte_setByte_of_ne _ _ (by omega), byte_setByte_of_ne _ _ (by omega),
      byte_setByte_self _ _ (by omega)]
  have e0 : byte (setWord b k v) (4 * k) = UInt8.ofNat v := by
    rw [setWord, byte_setByte_of_ne _ _ (by omega), byte_setByte_of_ne _ _ (by omega),
      byte_setByte_of_ne _ _ (by omega), byte_setByte_self _ _ (by omega)]
  unfold word
  rw [e0, e1, e2, e3]
  simp only [UInt8.toNat_ofNat']
  omega

@[simp] theorem word_zeroBlock (k : ℕ) : word zeroBlock k = 0 := by
  simp [word]

/-- A word read as a C `int` (two's complement). -/
def toInt (w : ℕ) : ℤ := if w < 2 ^ 31 then w else (w : ℤ) - 2 ^ 32

theorem toInt_of_lt {w : ℕ} (h : w < 2 ^ 31) : toInt w = w := if_pos h

end Xv6e.Disk.BlockData
