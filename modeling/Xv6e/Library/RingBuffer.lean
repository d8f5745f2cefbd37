import Mathlib

/-!
# Ring buffers

A ring of `n` cells with positions that are counted for ever, in a machine word that wraps.  As long as `n`
divides the number of words, the cell of a position is the cell of its word, and two positions closer than the
number of words have equal words only if they are equal.

* `Holds` — the ring holds a list from a position on; `Holds.push`, `Holds.pop`, `Holds.unpush`, `Holds.skip`;
* `window` — the cells between two words, `Holds.window` — they are what the ring holds;
* `cell_ofNat`, `sub_ofNat`, `ofNat_inj_of_lt` — positions and their words.
-/

namespace Xv6e.Library.RingBuffer

/-! ### Positions as words -/

theorem cell_ofNat {n : ℕ} (hn : n ∣ 2 ^ 32) (a : ℕ) : (BitVec.ofNat 32 a).toNat % n = a % n := by
  rw [BitVec.toNat_ofNat]
  exact Nat.mod_mod_of_dvd a hn

/-- The distance of two words is that of their positions. -/
theorem sub_ofNat {a b : ℕ} (hle : a ≤ b) (hlt : b - a < 2 ^ 32) :
    (BitVec.ofNat 32 b - BitVec.ofNat 32 a).toNat = b - a := by
  rw [BitVec.toNat_sub, BitVec.toNat_ofNat, BitVec.toNat_ofNat]
  omega

theorem ofNat_inj_of_lt {a b : ℕ} (hle : a ≤ b) (hlt : b - a < 2 ^ 32) :
    BitVec.ofNat 32 b = BitVec.ofNat 32 a ↔ b = a := by
  refine ⟨fun h => ?_, fun h => by rw [h]⟩
  have hsub := sub_ofNat hle hlt
  rw [h, BitVec.sub_self, BitVec.toNat_zero] at hsub
  omega

theorem ofNat_add_one (a : ℕ) : BitVec.ofNat 32 a + 1 = BitVec.ofNat 32 (a + 1) := (BitVec.ofNat_add a 1).symm

theorem ofNat_sub_one {a : ℕ} (h : 0 < a) : BitVec.ofNat 32 a - 1 = BitVec.ofNat 32 (a - 1) := by
  obtain ⟨b, rfl⟩ : ∃ b, a = b + 1 := ⟨a - 1, by omega⟩
  rw [← ofNat_add_one, BitVec.add_sub_cancel]
  rfl

/-! ### Contents -/

variable {α : Type} {n base : ℕ} {buf : ℕ → α} {xs ys : List α} {x : α}

/-- The ring `buf` of `n` cells holds `xs` from position `base` on. -/
structure Holds (n : ℕ) (buf : ℕ → α) (base : ℕ) (xs : List α) : Prop where
  fits : xs.length ≤ n
  cells : ∀ i x, xs[i]? = some x → buf ((base + i) % n) = x

theorem Holds.nil (n : ℕ) (buf : ℕ → α) (base : ℕ) : Holds n buf base [] where
  fits := Nat.zero_le n
  cells := fun i x h => by cases h

/-- Different positions of the contents have different cells. -/
theorem cell_ne {i j : ℕ} (hij : i < j) (hj : j < n) : (base + i) % n ≠ (base + j) % n := by
  intro h
  have hdvd : n ∣ (base + j) - (base + i) := Nat.dvd_of_mod_eq_zero (Nat.sub_mod_eq_zero_of_mod_eq h.symm)
  have := Nat.le_of_dvd (by omega) hdvd
  omega

/-- Write one more at the end. -/
theorem Holds.push (h : Holds n buf base xs) (hroom : xs.length < n) (x : α) :
    Holds n (Function.update buf ((base + xs.length) % n) x) base (xs ++ [x]) where
  fits := by
    rw [List.length_append]
    exact hroom
  cells := fun i y hy => by
    rcases Nat.lt_or_ge i xs.length with hi | hi
    · rw [List.getElem?_append_left hi] at hy
      rw [Function.update_of_ne (cell_ne hi hroom)]
      exact h.cells i y hy
    · have hlt := (List.getElem?_eq_some_iff.mp hy).1
      rw [List.length_append] at hlt
      have hi' : i = xs.length := by
        have : i < xs.length + 1 := hlt
        omega
      rw [hi'] at hy ⊢
      rw [List.getElem?_append_right (Nat.le_refl _), Nat.sub_self] at hy
      rw [Function.update_self]
      exact Option.some.inj hy

theorem Holds.first (h : Holds n buf base (x :: xs)) : buf (base % n) = x := h.cells 0 x rfl

theorem Holds.pop (h : Holds n buf base (x :: xs)) : Holds n buf (base + 1) xs where
  fits := by
    have := h.fits
    rw [List.length_cons] at this
    omega
  cells := fun i y hy => by
    rw [show base + 1 + i = base + (i + 1) by omega]
    exact h.cells (i + 1) y hy

/-- Take the last away. -/
theorem Holds.unpush (h : Holds n buf base (xs ++ ys)) : Holds n buf base xs where
  fits := by
    have := h.fits
    rw [List.length_append] at this
    omega
  cells := fun i y hy => by
    refine h.cells i y ?_
    rw [List.getElem?_append_left (List.getElem?_eq_some_iff.mp hy).1]
    exact hy

/-- Leave the first ones away. -/
theorem Holds.skip (h : Holds n buf base (xs ++ ys)) : Holds n buf (base + xs.length) ys where
  fits := by
    have := h.fits
    rw [List.length_append] at this
    omega
  cells := fun i y hy => by
    rw [Nat.add_assoc]
    refine h.cells (xs.length + i) y ?_
    rw [List.getElem?_append_right (Nat.le_add_right _ _), Nat.add_sub_cancel_left]
    exact hy

/-- The cells from the word `a` up to the word `b`. -/
def window (n : ℕ) (buf : ℕ → α) (a b : BitVec 32) : List α :=
  (List.range (b - a).toNat).map fun i => buf ((a + BitVec.ofNat 32 i).toNat % n)

/-- **The cells between two words** are what the ring holds there. -/
theorem Holds.window (h : Holds n buf base xs) (hn : n ∣ 2 ^ 32) (hlt : n < 2 ^ 32) :
    RingBuffer.window n buf (BitVec.ofNat 32 base) (BitVec.ofNat 32 (base + xs.length)) = xs := by
  have hfits := h.fits
  have hlen : (BitVec.ofNat 32 (base + xs.length) - BitVec.ofNat 32 base).toNat = xs.length := by
    rw [sub_ofNat (by omega) (by omega)]
    omega
  refine List.ext_getElem? fun i => ?_
  rw [RingBuffer.window, hlen, List.getElem?_map]
  rcases Nat.lt_or_ge i xs.length with hi | hi
  · rw [List.getElem?_range hi, List.getElem?_eq_getElem hi, ← h.cells i _ (List.getElem?_eq_getElem hi)]
    show some (buf ((BitVec.ofNat 32 base + BitVec.ofNat 32 i).toNat % n)) = _
    rw [← BitVec.ofNat_add, cell_ofNat hn]
  · rw [List.getElem?_eq_none hi, List.getElem?_eq_none (by rw [List.length_range]; exact hi)]
    rfl

end Xv6e.Library.RingBuffer
