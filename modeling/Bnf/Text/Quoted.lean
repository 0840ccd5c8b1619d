import Bnf.Text.Shown

/-!
# Quoted characters and numerals

How single characters and numbers are written in messages and dumps.

## Main definitions

- `quoted` — a character between single quotes, in visible form
- `hexDigit?` — the value of a hexadecimal digit
- `upperHex` — a number in capital hexadecimal digits
- `decimalValue` — the number that decimal digits stand for
-/

namespace Bnf

/-- The value of a hexadecimal digit, in capitals or not. -/
def hexDigit? (c : Char) : Option Nat :=
  if '0' ≤ c ∧ c ≤ '9' then some (c.toNat - '0'.toNat)
  else if 'a' ≤ c ∧ c ≤ 'f' then some (c.toNat - 'a'.toNat + 10)
  else if 'A' ≤ c ∧ c ≤ 'F' then some (c.toNat - 'A'.toNat + 10)
  else none

/-- A number in hexadecimal digits, `a` to `f` in lower case. -/
def lowerHex (n : Nat) : List Char :=
  Nat.toDigits 16 n

/-- A number in hexadecimal digits, `A` to `F` in capitals, with zeros in front up to `width`. -/
def upperHex (width n : Nat) : List Char :=
  let digits := (Nat.toDigits 16 n).map Char.toUpper
  List.replicate (width - digits.length) '0' ++ digits

def decimal (n : Nat) : List Char :=
  Nat.toDigits 10 n

def decimalValue (digits : List Char) : Nat :=
  digits.foldl (fun n c => 10 * n + (c.toNat - '0'.toNat)) 0

/-- **Decimal digits tell their number.** -/
theorem decimalValue_decimal (n : Nat) : decimalValue (decimal n) = n :=
  Nat.ofDigitChars_toDigits (by decide) (by decide)

theorem isDigit_of_mem_decimal {n : Nat} {c : Char} (h : c ∈ decimal n) : c.isDigit = true :=
  Nat.isDigit_of_mem_toDigits (by decide) (by decide) h

/-- A number has a digit at least. -/
theorem exists_digit_cons (n : Nat) : ∃ d digits, decimal n = d :: digits ∧ d.isDigit = true := by
  cases hdigits : decimal n with
  | nil => exact absurd hdigits Nat.toDigits_ne_nil
  | cons d digits => exact ⟨d, digits, rfl, isDigit_of_mem_decimal (n := n) (by simp [hdigits])⟩

/-- The inside of a quoted character: itself if it is visible, else an escape. -/
def quotedBody (c : Char) : List Char :=
  match c with
  | '\x00' => ['\\', '0']
  | '\t' => ['\\', 't']
  | '\n' => ['\\', 'n']
  | '\r' => ['\\', 'r']
  | '\'' => ['\\', '\'']
  | '\\' => ['\\', '\\']
  | c =>
    if isShown c then [c]
    else ['\\', 'u', '\x7b'] ++ lowerHex c.toNat ++ ['\x7d']

/-- A character between single quotes. Characters without a shape of their own are written by their
    code point. -/
def quoted (c : Char) : List Char :=
  '\'' :: quotedBody c ++ ['\'']

end Bnf
