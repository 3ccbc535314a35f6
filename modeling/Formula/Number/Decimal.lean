import Formula.Text.Fragment

/-!
# Decimal numerals

A numeral is read in two steps: the text gives a `Decimal`, the exact value `significand ×
10 ^ exponent`, and the number type rounds that value (`Numeral.ofDecimal`).

The written forms are `digits`, `digits.`, `digits.digits` and `.digits`, each of them with or
without an exponent `e`, sign, `digits`. No sign stands in front, and no blank inside.
-/

namespace Formula

/-- The value `significand × 10 ^ exponent`. -/
structure Decimal where
  significand : Nat
  exponent : Int
  deriving DecidableEq, Repr

/-- How the numbers of a type are read and written. -/
class Numeral (α : Type) where
  /-- The number nearest to a decimal. -/
  ofDecimal : Decimal → α
  /-- The text of a number. -/
  toText : α → String

namespace Decimal

/-- The digits at the front of a fragment, and the rest of it. -/
def spanDigits (s : Fragment) : Fragment × Fragment :=
  (s.takeWhile Char.isDigit, s.dropWhile Char.isDigit)

/-- The number written by a non-empty row of digits. -/
def natOfDigits? (s : Fragment) : Option Nat :=
  if s ≠ [] && s.all Char.isDigit then some (Nat.ofDigitChars 10 s 0) else none

/-- The number written by digits behind an optional sign. -/
def signedOfDigits? : Fragment → Option Int
  | '-' :: digits => (natOfDigits? digits).map fun n => -(n : Int)
  | '+' :: digits => (natOfDigits? digits).map Int.ofNat
  | digits => (natOfDigits? digits).map Int.ofNat

/-- The exponent written by the end of a numeral, where nothing means zero. -/
def exponent? : Fragment → Option Int
  | [] => some 0
  | 'e' :: rest => signedOfDigits? rest
  | 'E' :: rest => signedOfDigits? rest
  | _ => none

/-- The decimal that a whole fragment writes. -/
def ofFragment? (s : Fragment) : Option Decimal :=
  let (whole, afterWhole) := spanDigits s
  let (fraction, afterFraction) :=
    match afterWhole with
    | '.' :: rest => spanDigits rest
    | rest => ([], rest)
  if whole ++ fraction = [] then
    none
  else
    (exponent? afterFraction).map fun exponent =>
      { significand := Nat.ofDigitChars 10 (whole ++ fraction) 0
        exponent := exponent - fraction.length }

end Decimal

end Formula
