import Mathlib.Algebra.Order.Ring.Nat
import Mathlib.Data.List.TakeDrop
import Mathlib.Data.Nat.Digits.Defs
import Mathlib.Tactic.Ring

/-!
# Formatted output of C

The conversions `%ld` (of numbers that are not negative) and `%.3f`, and what `snprintf` does with
the formatted text. A finite double is a sign, a mantissa and a power of two, so its value is a
quotient of natural numbers; `%.3f` rounds that value exactly, ties to even, which is what `printf`
does in the default rounding mode.

## Main results

- `length_decimal_le_iff`: the width of a decimal number.
- `length_fixed`, `Binary64.length_integerPart_le`: the width of a fixed-point number, and the bound
  on its integer part that holds for every finite double.
- `snprintf_stored_eq_iff`: when `snprintf` stores all the text.
-/

namespace Printf

/-- `%d` and `%ld` of a number that is not negative. -/
def decimal (n : ℕ) : List Char :=
  Nat.toDigits 10 n

/-- The integer nearest to `a / b`; of two that are equally near, the even one. -/
def roundHalfEven (a b : ℕ) : ℕ :=
  if 2 * (a % b) < b ∨ 2 * (a % b) = b ∧ a / b % 2 = 0 then a / b else a / b + 1

/-- The digits of `a / b` rounded to `d` decimal places, as one number. -/
def fixedDigits (d a b : ℕ) : ℕ :=
  roundHalfEven (a * 10 ^ d) b

/-- `%f` with `d > 0` decimal places, of the number `a / b` or `-(a / b)`. -/
def fixed (d : ℕ) (negative : Bool) (a b : ℕ) : List Char :=
  (if negative then ['-'] else []) ++ decimal (fixedDigits d a b / 10 ^ d) ++
    '.' :: (decimal (fixedDigits d a b % 10 ^ d)).leftpad d '0'

/-- A finite double. -/
structure Binary64 where
  /-- The sign bit. -/
  negative : Bool
  /-- The magnitude is `mantissa * 2 ^ exponent`. -/
  mantissa : ℕ
  /-- The exponent of the mantissa's last bit. -/
  exponent : ℤ
  mantissa_lt : mantissa < 2 ^ 53
  le_exponent : -1074 ≤ exponent
  exponent_le : exponent ≤ 971

namespace Binary64

/-- The numerator of the magnitude. -/
def num (v : Binary64) : ℕ :=
  v.mantissa * 2 ^ v.exponent.toNat

/-- The denominator of the magnitude. -/
def den (v : Binary64) : ℕ :=
  2 ^ (-v.exponent).toNat

/-- The integer that `%.3f` writes before the point. -/
def integerPart (v : Binary64) : ℕ :=
  fixedDigits 3 v.num v.den / 10 ^ 3

/-- `-DBL_MAX`. -/
def lowest : Binary64 where
  negative := true
  mantissa := 2 ^ 53 - 1
  exponent := 971
  mantissa_lt := by decide
  le_exponent := by decide
  exponent_le := by decide

end Binary64

/-- `%.3f`. -/
def fixed3 (v : Binary64) : List Char :=
  fixed 3 v.negative v.num v.den

/-- `snprintf` into a buffer of `size > 0` bytes, when the formatted text is `text`: the value it
returns, and the string it stores before the terminating NUL. -/
def snprintf {α : Type*} (size : ℕ) (text : List α) : ℕ × List α :=
  (text.length, text.take (size - 1))

/-- The string that begins a buffer: what `%s` prints of it, and what `strlen` counts. -/
def cString (buffer : List Char) : List Char :=
  buffer.takeWhile (· ≠ '\x00')

/-! ## Widths -/

/-- A number has at most `k` digits exactly when it is less than `10 ^ k`. -/
theorem length_decimal_le_iff {n k : ℕ} (hk : 0 < k) : (decimal n).length ≤ k ↔ n < 10 ^ k :=
  Nat.length_toDigits_le_iff (by decide) hk

/-- Different numbers are printed differently. -/
theorem decimal_injective : Function.Injective decimal := by
  intro m n h
  have hvalue := congrArg (fun digits => Nat.ofDigitChars 10 digits 0) h
  simpa only [decimal, Nat.ofDigitChars_toDigits (b := 10) (by decide) (by decide)] using hvalue

/-- A printed number consists of digits. -/
theorem isDigit_of_mem_decimal {n : ℕ} {c : Char} (h : c ∈ decimal n) : c.isDigit :=
  Nat.isDigit_of_mem_toDigits (by decide) (by decide) h

/-- The digits after the point fill their places exactly. -/
theorem length_fixed {d : ℕ} (hd : 0 < d) (negative : Bool) (a b : ℕ) :
    (fixed d negative a b).length =
      (if negative then 1 else 0) + (decimal (fixedDigits d a b / 10 ^ d)).length + 1 + d := by
  have hfrac : (decimal (fixedDigits d a b % 10 ^ d)).length ≤ d :=
    (length_decimal_le_iff hd).mpr (Nat.mod_lt _ (by positivity))
  rw [fixed, List.length_append, List.length_append, List.length_cons, List.length_leftpad,
    max_eq_left hfrac]
  cases negative <;> simp <;> omega

/-- Rounding does not pass an integer. -/
theorem roundHalfEven_le {a b k : ℕ} (hb : 0 < b) (h : a ≤ k * b) : roundHalfEven a b ≤ k := by
  have hquot : a / b ≤ k := Nat.div_le_of_le_mul (by rwa [Nat.mul_comm])
  rw [roundHalfEven]
  split_ifs with hdown
  · exact hquot
  · -- it rounds up, so there is a remainder, and the quotient is not yet `k`
    rcases Nat.lt_or_eq_of_le hquot with hlt | heq
    · exact hlt
    · have hdiv := Nat.div_add_mod a b
      rw [heq, Nat.mul_comm] at hdiv
      have hmod : a % b = 0 := by omega
      exact absurd (.inl (by omega)) hdown

theorem Binary64.den_pos (v : Binary64) : 0 < v.den := by
  rw [Binary64.den]
  positivity

/-- A double with a non-negative exponent is an integer, and is written as it is. -/
theorem Binary64.integerPart_of_nonneg (v : Binary64) (h : 0 ≤ v.exponent) :
    v.integerPart = v.num := by
  have hden : v.den = 1 := by
    rw [Binary64.den, Int.toNat_of_nonpos (by omega), pow_zero]
  rw [Binary64.integerPart, fixedDigits, hden, roundHalfEven, Nat.div_one, Nat.mod_one,
    if_pos (.inl (by decide)), Nat.mul_div_cancel _ (by decide)]

/-- The magnitude of a finite double is at most `2 ^ 1024`. -/
theorem Binary64.num_le (v : Binary64) : v.num ≤ 2 ^ 1024 := by
  have hexp : v.exponent.toNat ≤ 971 := by
    have := v.exponent_le
    omega
  calc v.num ≤ 2 ^ 53 * 2 ^ 971 :=
        Nat.mul_le_mul v.mantissa_lt.le (Nat.pow_le_pow_right (by decide) hexp)
    _ = 2 ^ 1024 := by simp only [← pow_add, Nat.reduceAdd]

/-- `2 ^ 93 < 10 ^ 28` is close enough to reach the width of the largest double. -/
theorem two_pow_1024_lt : 2 ^ 1024 < 10 ^ 309 := by
  have hpow : (2 ^ 93) ^ 11 < (10 ^ 28) ^ 11 := Nat.pow_lt_pow_left (by decide) (by decide)
  rw [← pow_mul, ← pow_mul] at hpow
  simp only [Nat.reduceMul] at hpow
  rw [pow_succ 2 1023, pow_succ 10 308]
  omega

/-- No finite double has more than 309 digits before the point, rounding included. -/
theorem Binary64.length_integerPart_le (v : Binary64) : (decimal v.integerPart).length ≤ 309 := by
  rw [length_decimal_le_iff (by decide), Binary64.integerPart]
  have hround : fixedDigits 3 v.num v.den ≤ 2 ^ 1024 * 10 ^ 3 := by
    apply roundHalfEven_le v.den_pos
    calc v.num * 10 ^ 3 ≤ 2 ^ 1024 * 10 ^ 3 := Nat.mul_le_mul_right _ v.num_le
      _ ≤ 2 ^ 1024 * 10 ^ 3 * v.den := Nat.le_mul_of_pos_right _ v.den_pos
  have hpart : fixedDigits 3 v.num v.den / 10 ^ 3 ≤ 2 ^ 1024 :=
    Nat.div_le_of_le_mul (by rwa [Nat.mul_comm])
  exact hpart.trans_lt two_pow_1024_lt

/-! ## Storing the text -/

/-- A text without a NUL is the string of the buffer in which a NUL follows it. -/
theorem cString_terminated {text : List Char} (h : '\x00' ∉ text) :
    cString (text ++ ['\x00']) = text := by
  have hne : ∀ c ∈ text, decide (c ≠ '\x00') = true := by
    intro c hc
    simpa using ne_of_mem_of_not_mem hc h
  rw [cString, List.takeWhile_append_of_pos hne]
  simp

section Snprintf

variable {α : Type*} {size : ℕ} {text : List α}

/-- `snprintf` stores the whole text exactly when the text and its NUL fit. -/
theorem snprintf_stored_eq_iff (hsize : 0 < size) :
    (snprintf size text).2 = text ↔ text.length < size := by
  change text.take (size - 1) = text ↔ _
  rw [List.take_eq_self_iff]
  omega

end Snprintf

end Printf
