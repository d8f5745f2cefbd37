import Xv6e.Params
import Xv6e.Library.ByteMemory

/-!
# `memmove`

The kernel's `memmove` (`string.c`) chooses its direction; the user library's (`ulib.c`) always copies
upwards.

* `memmove_moves` — the kernel's leaves at `dst` the bytes that were at `src`, whatever the overlap;
* `ulibMemmove_eq_iff` — the user library's does the same unless `src < dst < src + n` and the source bytes do
  not repeat with period `dst - src`.

Pointers are 32-bit: `*d++` and `*--d` go round at `2 ^ 32`.
-/

namespace Xv6e.Memory.Memmove

open Library.ByteMemory

variable {β : Type*} {m : ℕ → β} {dst src n : ℕ}

/-- `while(n-- > 0) *d++ = *s++;` -/
def copyUp : ℕ → ℕ → ℕ → (ℕ → β) → ℕ → β
  | 0, _, _, m => m
  | n + 1, d, s, m => copyUp n ((d + 1) % ADDRESSES) ((s + 1) % ADDRESSES) (Function.update m d (m s))

/-- `while(n-- > 0) *--d = *--s;` -/
def copyDown : ℕ → ℕ → ℕ → (ℕ → β) → ℕ → β
  | 0, _, _, m => m
  | n + 1, d, s, m =>
    let d' := (d + (ADDRESSES - 1)) % ADDRESSES
    let s' := (s + (ADDRESSES - 1)) % ADDRESSES
    copyDown n d' s' (Function.update m d' (m s'))

/-- `memmove` of `string.c`, where `n` is a `uint`. -/
def memmove (dst src n : ℕ) (m : ℕ → β) : ℕ → β :=
  if src < dst ∧ (src + n) % ADDRESSES > dst then
    copyDown n ((dst + n) % ADDRESSES) ((src + n) % ADDRESSES) m
  else copyUp n dst src m

/-- `memmove` of `ulib.c`, where `n` is an `int`: a negative one copies nothing. -/
def ulibMemmove (dst src : ℕ) (n : ℤ) (m : ℕ → β) : ℕ → β := copyUp n.toNat dst src m

/-! ### Upwards -/

/-- The last byte copied is read in the memory that the others have left. -/
theorem copyUp_succ (hd : dst + n < ADDRESSES) (hs : src + n < ADDRESSES) :
    copyUp (n + 1) dst src m = Function.update (copyUp n dst src m) (dst + n)
    (copyUp n dst src m (src + n)) := by
  induction n generalizing dst src m with
  | zero => rfl
  | succ n ih =>
    rw [copyUp, Nat.mod_eq_of_lt (by omega), Nat.mod_eq_of_lt (by omega), ih (by omega) (by omega), copyUp,
      Nat.mod_eq_of_lt (by omega : dst + 1 < _), Nat.mod_eq_of_lt (by omega : src + 1 < _)]
    congr 1
    · omega
    · congr 1
      omega

/-- **Copying upwards** moves the bytes, if those read from the part that is already written are what they
were. -/
theorem copyUp_eq (hd : dst + n ≤ ADDRESSES) (hs : src + n ≤ ADDRESSES)
    (h : ∀ i < n, dst ≤ src + i → src < dst → m (src + (src + i - dst)) = m (src + i)) :
    copyUp n dst src m = overwrite m dst n fun i => m (src + i) := by
  induction n with
  | zero => rw [overwrite_zero, copyUp]
  | succ n ih =>
    rw [copyUp_succ hd hs, ih (by omega) (by omega) fun i hi => h i (by omega), overwrite_succ]
    congr 1
    by_cases hin : dst ≤ src + n ∧ src + n < dst + n
    · rw [overwrite, if_pos hin]
      exact h n (Nat.lt_succ_self n) hin.1 (by omega)
    · exact overwrite_outside hin

/-- What stands at `dst + i` is what step `i` read. -/
theorem copyUp_add (hd : dst + n ≤ ADDRESSES) (hs : src + n ≤ ADDRESSES) {i : ℕ} (hi : i < n) :
    copyUp n dst src m (dst + i) = copyUp i dst src m (src + i) := by
  induction n with
  | zero => omega
  | succ n ih =>
    rw [copyUp_succ hd hs]
    rcases Nat.lt_succ_iff_lt_or_eq.mp hi with hlt | rfl
    · rw [Function.update_of_ne (by omega), ih (by omega) (by omega) hlt]
    · rw [Function.update_self]

/-! ### Downwards -/

/-- **Copying downwards** to a higher address moves the bytes. -/
theorem copyDown_eq (hlt : src < dst) (hd : dst + n ≤ ADDRESSES) :
    copyDown n ((dst + n) % ADDRESSES) ((src + n) % ADDRESSES) m = overwrite m dst n fun i =>
    m (src + i) := by
  have hback : ∀ a k, a + (k + 1) ≤ ADDRESSES
      → ((a + (k + 1)) % ADDRESSES + (ADDRESSES - 1)) % ADDRESSES = a + k := by
    intro a k h
    rw [ADDRESSES] at *
    omega
  induction n generalizing m with
  | zero => rw [overwrite_zero, copyDown]
  | succ n ih =>
    have hn : ∀ a, a + (n + 1) ≤ ADDRESSES → (a + n) % ADDRESSES = a + n :=
      fun a h => Nat.mod_eq_of_lt (by omega)
    have hs : src + (n + 1) ≤ ADDRESSES := by omega
    rw [copyDown]
    simp only [hback dst n hd, hback src n hs]
    rw [hn dst hd, hn src hs] at ih
    rw [ih (by omega), ← overwrite_update]
    -- the source bytes still to be read lie below the byte just written
    exact overwrite_congr fun i hi => Function.update_of_ne (by omega) _ _

/-! ### The two functions -/

theorem memmove_eq (hd : dst + n ≤ ADDRESSES) (hs : src + n ≤ ADDRESSES) :
    memmove dst src n m = overwrite m dst n fun i => m (src + i) := by
  rw [memmove]
  split_ifs with h
  · exact copyDown_eq h.1 hd
  · refine copyUp_eq hd hs fun i hi hle hlt => absurd ⟨hlt, ?_⟩ h
    rw [Nat.mod_eq_of_lt (by omega)]
    omega

/-- **The kernel's `memmove` is right for every overlap.** -/
theorem memmove_moves (dst src n : ℕ) (m : ℕ → UInt8) (hd : dst + n ≤ ADDRESSES) (hs : src + n ≤ ADDRESSES) :
    (∀ i < n, memmove dst src n m (dst + i) = m (src + i))
      ∧ ∀ x, ¬ (dst ≤ x ∧ x < dst + n) → memmove dst src n m x = m x := by
  rw [memmove_eq hd hs]
  exact ⟨fun i hi => overwrite_add hi, fun x hx => overwrite_outside hx⟩

/-- Two ranges that overlap, up to the last address. -/
theorem memmove_moves_top :
    (∀ i < 3, memmove (2 ^ 32 - 3) (2 ^ 32 - 4) 3 (fun x => UInt8.ofNat x) (2 ^ 32 - 3 + i)
        = UInt8.ofNat (2 ^ 32 - 4 + i))
      ∧ ∀ x, ¬ (2 ^ 32 - 3 ≤ x ∧ x < 2 ^ 32 - 3 + 3) →
        memmove (2 ^ 32 - 3) (2 ^ 32 - 4) 3 (fun x => UInt8.ofNat x) x = UInt8.ofNat x :=
  memmove_moves _ _ 3 _ (by decide) (by decide)

/-- **The user library's `memmove` agrees with the kernel's** exactly if the destination does not start inside
the source, or the source bytes repeat with the distance of the two. -/
theorem ulibMemmove_eq_iff (dst src n : ℕ) (m : ℕ → UInt8) (hd : dst + n ≤ ADDRESSES)
    (hs : src + n ≤ ADDRESSES) : ulibMemmove dst src n m = memmove dst src n m
      ↔ ¬ (src < dst ∧ dst < src + n) ∨ ∀ i, i + (dst - src) < n
      → m (src + i) = m (src + (i + (dst - src))) := by
  rw [memmove_eq hd hs, ulibMemmove, Int.toNat_natCast]
  constructor
  · intro heq
    by_cases hin : src < dst ∧ dst < src + n
    · refine Or.inr fun i hi => ?_
      have hrepeat : copyUp n dst src m (dst + (i + (dst - src))) = copyUp n dst src m (dst + i) := by
        rw [copyUp_add hd hs hi, show src + (i + (dst - src)) = dst + i by omega,
          copyUp_add (by omega) (by omega) (by omega : i < i + (dst - src)),
          copyUp_add hd hs (by omega : i < n)]
      rw [heq, overwrite_add hi, overwrite_add (by omega)] at hrepeat
      exact hrepeat.symm
    · exact Or.inl hin
  · intro h
    refine copyUp_eq hd hs fun i hi hle hlt => ?_
    rcases h with hout | hper
    · exact absurd ⟨hlt, by omega⟩ hout
    · have hi' := hper (src + i - dst) (by omega)
      rwa [show src + i - dst + (dst - src) = i by omega] at hi'

/-- A destination below the source. -/
theorem ulibMemmove_eq_below :
    ulibMemmove 0 1 (3 : ℕ) (fun x => UInt8.ofNat x) = memmove 0 1 3 fun x => UInt8.ofNat x :=
  (ulibMemmove_eq_iff 0 1 3 _ (by decide) (by decide)).mpr (Or.inl (by decide))

/-- The bytes 1, 2 at address 0, moved up by one, come out as 1, 1. -/
theorem ulibMemmove_repeats :
    ulibMemmove 1 0 2 (fun x => UInt8.ofNat (x + 1)) 2 = 1
      ∧ memmove 1 0 2 (fun x => UInt8.ofNat (x + 1)) 2 = 2 := by
  decide

end Xv6e.Memory.Memmove
