import Marginalia.Text.Basic

/-!
# Decimal numbers

Line numbers, sequence indices and widths are written in decimal. A number that
is read from a text has to fit a 64-bit word: a longer run of digits is no
number but a word.

* `decimal`       : the digits of a number.
* `readDecimal?`  : the number that a run of digits below the limit stands for.
* `readDecimal?_decimal` : reading gives a written number back.
-/

namespace Marginalia

/-- Numbers that are read are below this bound, the first that needs more than
64 bits. -/
def sizeLimit : Nat := 18446744073709551616

def decimal (n : Nat) : Text :=
  Nat.toDigits 10 n

/-- The number that a text of ASCII digits stands for, if it is below the limit.
Leading zeros count for nothing; a sign or an empty text is no number. -/
def readDecimal? (t : Text) : Option Nat :=
  let n := Nat.ofDigitChars 10 t 0
  if t ≠ [] ∧ t.all Char.isDigit ∧ n < sizeLimit then some n else none

theorem decimal_ne_nil (n : Nat) : decimal n ≠ [] :=
  Nat.toDigits_ne_nil

theorem isDigit_of_mem_decimal {n : Nat} {c : Char} (h : c ∈ decimal n) : c.isDigit :=
  Nat.isDigit_of_mem_toDigits (by decide) (by decide) h

theorem readDecimal?_decimal {n : Nat} (h : n < sizeLimit) : readDecimal? (decimal n) = some n := by
  have hdigits : (decimal n).all Char.isDigit := List.all_eq_true.mpr fun _ hc => isDigit_of_mem_decimal hc
  have hvalue : Nat.ofDigitChars 10 (decimal n) 0 = n := Nat.ofDigitChars_ten_toDigits
  simp only [readDecimal?, hvalue]
  rw [if_pos ⟨decimal_ne_nil n, hdigits, h⟩]

theorem readDecimal?_lt {t : Text} {n : Nat} (h : readDecimal? t = some n) : n < sizeLimit := by
  simp only [readDecimal?] at h
  split at h
  · next hc => exact Option.some.inj h ▸ hc.2.2
  · exact absurd h (by simp)

end Marginalia
