import Formula.Number.Arithmetic
import Formula.Number.Decimal
import Formula.Number.Rounding
import Formula.Number.Shortest

/-!
# Binary64 numbers

The instances that make `Float` a number type of this library, and the operations on it that the
core library leaves out. The latter are exact integer arithmetic on significand and exponent:
rounding to an integer in five directions (`roundTo`), the remainder of a division (`remainder`),
the text of a number (`toText`) and the number of a text (`ofText?`).
-/

namespace Formula.Binary64

open Float.Model (UnpackedFloat)
open Float.Model.UnpackedFloat (Sign)

/-! ### Parts of a number -/

/-- Sign, significand and exponent of a number. -/
def parts (x : Float) : UnpackedFloat := x.toModel.unpack

/-- The number nearest to `± m × 2 ^ e`, a zero having the sign too. -/
def ofParts (sign : Sign) (m : Nat) (e : Int) : Float :=
  .ofModel (.pack (.round .binary64 sign m e))

/-- The undefined number. -/
def undefined : Float := .ofModel (.pack .notANumber)

/-- The number above all others. -/
def infinity : Float := .ofModel (.pack (.infinity .positive))

/-! ### Integer parts -/

/-- The number rounded to an integer, which keeps the sign when it is zero. -/
def roundTo (direction : Rounding) (x : Float) : Float :=
  match parts x with
  | .finite sign m e _ =>
    if 0 ≤ e then x
    else ofParts sign (direction.magnitude (sign == .negative) m (-e).toNat) 0
  | _ => x

/-- The integer part of a positive number, where infinity counts as `2 ^ 1024`, the first power of
two that is not finite; zero for other numbers. -/
def wholePart (x : Float) : Nat :=
  match parts x with
  | .finite .positive m e _ =>
    if 0 ≤ e then m * Nat.pow 2 e.toNat else m / Nat.pow 2 (-e).toNat
  | .infinity .positive => Nat.pow 2 1024
  | _ => 0

/-! ### Comparison and division with remainder -/

/-- The larger of two numbers; the other one if one is undefined. -/
def larger (x y : Float) : Float :=
  if x.isNaN then y else if y.isNaN then x else if x < y then y else x

/-- The smaller of two numbers; the other one if one is undefined. -/
def smaller (x y : Float) : Float :=
  if x.isNaN then y else if y.isNaN then x else if y < x then y else x

/-- The remainder of `x` divided by `y` with the quotient rounded toward zero. It has the sign of
`x` and is exact: both numbers are multiples of one power of two, and so is the remainder. -/
def remainder (x y : Float) : Float :=
  match parts x, parts y with
  | .notANumber, _ => undefined
  | _, .notANumber => undefined
  | .infinity _, _ => undefined
  | _, .zero _ => undefined
  | .zero _, _ => x
  | _, .infinity _ => x
  | .finite sign m e _, .finite _ n f _ =>
    let unit := min e f
    ofParts sign ((m * Nat.pow 2 (e - unit).toNat) % (n * Nat.pow 2 (f - unit).toNat)) unit

instance : Arithmetic Float where
  zero := 0
  reciprocal x := 1 / x
  power := Float.pow
  remainder := remainder

instance : NumberOrder Float where
  decidableLE := inferInstance
  decidableLT := inferInstance
  isUndefined := Float.isNaN
  larger := larger
  smaller := smaller

instance : WholeParts Float where
  one := 1
  truncate := roundTo .towardZero
  nearest := roundTo .halfAway
  isFinite := Float.isFinite
  wholePart := wholePart

/-! ### Text -/

/-- The smallest exponent of a number. -/
def leastExponent : Int := -1074

/-- The digits of `m × 2 ^ e`: as few as tell it from other numbers, and no exponent. -/
def magnitudeText (m : Nat) (e : Int) : List Char :=
  let interval := Shortest.Interval.around m e (m == Nat.pow 2 52 && leastExponent < e)
  let (c, p) := interval.shortest
  Shortest.positional c p

/-- The sign as it is written. -/
def signText : Sign → List Char
  | .positive => []
  | .negative => ['-']

/-- The text of a number: `NaN`, `inf`, or its shortest digits, behind the sign. -/
def toText (x : Float) : String :=
  match parts x with
  | .notANumber => "NaN"
  | .infinity sign => String.ofList (signText sign ++ ['i', 'n', 'f'])
  | .zero sign => String.ofList (signText sign ++ ['0'])
  | .finite sign m e _ => String.ofList (signText sign ++ magnitudeText m e)

/-- The number nearest to a decimal. -/
def ofDecimal (d : Decimal) : Float :=
  Float.ofScientific d.significand (d.exponent < 0) d.exponent.natAbs

instance : Numeral Float where
  ofDecimal := ofDecimal
  toText := toText

/-- The number that a text without a sign writes: a decimal, or one of the words for infinity and
the undefined number in letters of any case. -/
def ofUnsigned? (s : Fragment) : Option Float :=
  let word := s.map Char.toLower
  if word = "inf".toList || word = "infinity".toList then some infinity
  else if word = "nan".toList then some undefined
  else (Decimal.ofFragment? s).map ofDecimal

/-- The number that a whole text writes, with or without a sign. -/
def ofText? : Fragment → Option Float
  | '-' :: rest => (ofUnsigned? rest).map Float.neg
  | '+' :: rest => ofUnsigned? rest
  | s => ofUnsigned? s

end Formula.Binary64
