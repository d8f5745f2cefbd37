import Mathlib

/-!
# Printing integers

`printint` of the console (`console.c`) and of the user library (`printf.c`): digits are stored from the last
to the first in `char buf[16]`, then a sign, and the buffer is put out backwards.

* `fill_eq` — the loop stores the digits of the number, if the buffer has room for them;
* `printint_exact` — both print the canonical numeral of every 32-bit number, in base 10 with a sign and in
  base 16 without, and differ in the case of the hexadecimal letters only.
-/

namespace Xv6e.Device.Printint

def BUFSIZE : ℕ := 16

/-- `digits` of `console.c`. -/
def lower : List Char := ['0', '1', '2', '3', '4', '5', '6', '7', '8', '9', 'a', 'b', 'c', 'd', 'e', 'f']

/-- `digits` of `printf.c`. -/
def upper : List Char := ['0', '1', '2', '3', '4', '5', '6', '7', '8', '9', 'A', 'B', 'C', 'D', 'E', 'F']

/-- `digits[k]`; the string ends with a NUL. -/
def digit (digits : List Char) (k : ℕ) : Char := digits.getD k '\x00'

/-- `buf[i++] = c`, `none` past the end of the buffer; `buf` is what has been stored. -/
def store (buf : List Char) (c : Char) : Option (List Char) := if buf.length < BUFSIZE then
    some (buf ++ [c]) else none

/-- `do{ buf[i++] = digits[x % base]; }while((x /= base) != 0);` with `room` bytes of the buffer left. -/
def fill (digits : List Char) (base : ℕ) : ℕ → ℕ → List Char → Option (List Char)
  | 0, _, _ => none
  | room + 1, x, buf =>
    let buf := buf ++ [digit digits (x % base)]
    if x / base ≠ 0 then fill digits base room (x / base) buf else some buf

/-- The common end: the digits, the sign, and `while(--i >= 0)` over the buffer. -/
def emit (digits : List Char) (base : ℕ) (x : BitVec 32) (neg : Bool) : Option (List Char) :=
  (fill digits base BUFSIZE x.toNat []).bind fun buf =>
    (if neg then store buf '-' else some buf).map List.reverse

/-- `printint` of `console.c`: the flag `sign` is overwritten in the test. -/
def Kernel.printint (xx : BitVec 32) (base : ℕ) (sign : Bool) : Option (List Char) :=
  let sign := sign && decide (xx.toInt < 0)
  emit lower base (if sign then -xx else xx) sign

/-- `printint` of `printf.c`. -/
def User.printint (xx : BitVec 32) (base : ℕ) (sgn : Bool) : Option (List Char) :=
  if sgn = true ∧ xx.toInt < 0 then emit upper base (-xx) true else emit upper base xx false

/-- `text` is the canonical numeral of `n`: its digits from the first to the last, with no leading zero. -/
def IsNumeral (digits : List Char) (base n : ℕ) (text : List Char) : Prop :=
  ∃ ds : List ℕ, text = ds.map (digit digits) ∧ ds ≠ [] ∧ (∀ d ∈ ds, d < base)
    ∧ (ds.head? = some 0 → ds = [0]) ∧ Nat.ofDigits base ds.reverse = n

/-! ### The loop -/

variable {digits : List Char} {base : ℕ}

/-- The digits that the loop stores, the last one first: also for zero there is one. -/
def stored (base x : ℕ) : List ℕ := if x = 0 then [0] else Nat.digits base x

theorem stored_eq (hb : 1 < base) (x : ℕ) :
    stored base x = x % base :: if x / base = 0 then [] else stored base (x / base) := by
  rcases Nat.eq_zero_or_pos x with rfl | hx
  · simp [stored]
  · rw [stored, if_neg hx.ne', Nat.digits_def' hb hx, stored]
    split_ifs with h
    · rw [h, Nat.digits_zero]
    · rfl

theorem stored_length_le (hb : 1 < base) {x k : ℕ} (hk : 0 < k) (hx : x < base ^ k) :
    (stored base x).length ≤ k := by
  rw [stored]
  split_ifs with h
  · exact hk
  · exact (Nat.digits_length_le_iff hb x).mpr hx

/-- **The loop stores the digits.** -/
theorem fill_eq (hb : 1 < base) {room x : ℕ} (hx : x < base ^ (room + 1)) (buf : List Char) :
    fill digits base (room + 1) x buf = some (buf ++ (stored base x).map (digit digits)) := by
  induction room generalizing x buf with
  | zero =>
    have h0 : x / base = 0 := Nat.div_eq_of_lt (by simpa using hx)
    rw [fill, stored_eq hb, if_pos h0]
    exact if_neg (not_not.mpr h0)
  | succ room ih =>
    rw [fill, stored_eq hb]
    by_cases h0 : x / base = 0
    · rw [if_pos h0]
      exact if_neg (not_not.mpr h0)
    · have hdiv : x / base < base ^ (room + 1) := by
        rw [pow_succ] at hx
        exact Nat.div_lt_of_lt_mul (by rwa [mul_comm] at hx)
      rw [if_neg h0]
      refine (if_pos h0).trans ?_
      rw [ih hdiv, List.append_assoc]
      rfl

theorem stored_lt (hb : 1 < base) {n d : ℕ} (hd : d ∈ (stored base n).reverse) : d < base := by
  rw [List.mem_reverse, stored] at hd
  split_ifs at hd with hn
  · rw [List.mem_singleton.mp hd]
    omega
  · exact Nat.digits_lt_base hb hd

theorem isNumeral_stored (digits : List Char) (hb : 1 < base) (n : ℕ) :
    IsNumeral digits base n ((stored base n).reverse.map (digit digits)) := by
  refine ⟨_, rfl, ?_, fun d hd => stored_lt hb hd, ?_, ?_⟩ <;> rw [stored] <;> split_ifs with hn
  · simp
  · simpa [Nat.digits_eq_nil_iff_eq_zero] using hn
  · exact fun _ => rfl
  · intro hhead
    have hne : Nat.digits base n ≠ [] := Nat.digits_ne_nil_iff_ne_zero.mpr hn
    rw [List.head?_reverse, List.getLast?_eq_some_getLast hne] at hhead
    exact absurd (Option.some.inj hhead) (Nat.getLast_digit_ne_zero base hn)
  · simp [hn]
  · rw [List.reverse_reverse, Nat.ofDigits_digits]

/-- Ten digits and a sign fit in the buffer. -/
theorem emit_eq (hb : 10 ≤ base) (x : BitVec 32) (neg : Bool) :
    emit digits base x neg
      = some ((if neg then ['-'] else []) ++ (stored base x.toNat).reverse.map (digit digits)) := by
  have hb' : 1 < base := by omega
  have hten : x.toNat < base ^ 10 := calc
    x.toNat < 2 ^ 32 := x.isLt
    _ ≤ 10 ^ 10 := by decide
    _ ≤ base ^ 10 := Nat.pow_le_pow_left hb 10
  have hx : x.toNat < base ^ 16 := hten.trans_le (Nat.pow_le_pow_right (by omega) (by decide))
  have hlen : (stored base x.toNat).length < BUFSIZE :=
    lt_of_le_of_lt (stored_length_le hb' (by decide) hten) (by decide)
  rw [emit, BUFSIZE, fill_eq hb' hx]
  cases neg with
  | false => simp
  | true => simp [store, hlen]

/-! ### The two functions -/

/-- Negation modulo `2 ^ 32` gives the absolute value, also of the most negative number. -/
theorem toNat_neg_of_neg {xx : BitVec 32} (h : xx.toInt < 0) : (-xx).toNat = xx.toInt.natAbs := by
  rw [BitVec.toNat_neg]
  rw [BitVec.toInt_eq_toNat_cond] at *
  split_ifs at * <;> omega

theorem toNat_of_nonneg {xx : BitVec 32} (h : ¬ xx.toInt < 0) : xx.toNat = xx.toInt.natAbs := by
  rw [BitVec.toInt_eq_toNat_cond] at *
  split_ifs at * <;> omega

/-- **Signed numbers**: the sign and the numeral of the absolute value. -/
theorem emit_signed (digits : List Char) (xx : BitVec 32) :
    emit digits 10 (if xx.toInt < 0 then -xx else xx) (decide (xx.toInt < 0))
      = some ((if xx.toInt < 0 then ['-'] else [])
        ++ (stored 10 xx.toInt.natAbs).reverse.map (digit digits)) := by
  rw [emit_eq le_rfl]
  by_cases h : xx.toInt < 0
  · simp only [h, decide_true, if_true, toNat_neg_of_neg h]
  · simp only [h, decide_false, if_false, Bool.false_eq_true, toNat_of_nonneg h]

theorem Kernel.printint_signed (xx : BitVec 32) :
    Kernel.printint xx 10 true = some ((if xx.toInt < 0 then ['-'] else [])
      ++ (stored 10 xx.toInt.natAbs).reverse.map (digit lower)) := by
  rw [← emit_signed, Kernel.printint]
  simp only [Bool.true_and, decide_eq_true_eq]

theorem User.printint_signed (xx : BitVec 32) :
    User.printint xx 10 true = some ((if xx.toInt < 0 then ['-'] else [])
      ++ (stored 10 xx.toInt.natAbs).reverse.map (digit upper)) := by
  rw [← emit_signed, User.printint]
  by_cases h : xx.toInt < 0
  · simp only [h, and_self, if_true, decide_true]
  · simp only [h, and_false, if_false, decide_false]

theorem Kernel.printint_unsigned (xx : BitVec 32) :
    Kernel.printint xx 16 false = some ((stored 16 xx.toNat).reverse.map (digit lower)) :=
  emit_eq (by decide) xx false

theorem User.printint_unsigned (xx : BitVec 32) :
    User.printint xx 16 false = some ((stored 16 xx.toNat).reverse.map (digit upper)) := by
  rw [User.printint, if_neg fun h => Bool.false_ne_true h.1]
  exact emit_eq (by decide) xx false

/-- Up to case the two tables are one. -/
theorem digit_upper :
    ∀ k < 16, (digit upper k).toLower = digit lower k ∧ (k < 10 → digit upper k = digit lower k) := by
  decide

/-- **Integer printing is exact.** -/
theorem printint_exact (xx : BitVec 32) :
    (∃ text, IsNumeral lower 10 xx.toInt.natAbs text
      ∧ Kernel.printint xx 10 true = some ((if xx.toInt < 0 then ['-'] else []) ++ text)
      ∧ User.printint xx 10 true = Kernel.printint xx 10 true)
    ∧ ∃ text text', IsNumeral lower 16 xx.toNat text ∧ IsNumeral upper 16 xx.toNat text'
      ∧ Kernel.printint xx 16 false = some text ∧ User.printint xx 16 false = some text'
      ∧ text'.map Char.toLower = text := by
  refine ⟨⟨_, isNumeral_stored lower (by decide) _, Kernel.printint_signed xx, ?_⟩, _, _,
    isNumeral_stored lower (by decide) _, isNumeral_stored upper (by decide) _, Kernel.printint_unsigned xx,
    User.printint_unsigned xx, ?_⟩
  · rw [User.printint_signed, Kernel.printint_signed]
    congr 2
    refine List.map_congr_left fun d hd => (digit_upper d ?_).2 ?_
    all_goals have := stored_lt (by decide) hd; omega
  · rw [List.map_map]
    exact List.map_congr_left fun d hd => (digit_upper d (stored_lt (by decide) hd)).1

end Xv6e.Device.Printint
