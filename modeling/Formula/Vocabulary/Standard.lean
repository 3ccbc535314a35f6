import Formula.Number.Binary64
import Formula.Vocabulary
import Formula.Vocabulary.Counting

/-!
# The standard vocabulary

The constants and functions that expressions may use unless another vocabulary is given. A function
reads its arguments by position: a missing one is zero, and further ones are ignored, so that every
call has a value. No standard name is the beginning of another.

`rnd` is a function of one sample of the unit interval, which is drawn outside.
-/

namespace Formula.Vocabulary

/-- The argument at a position, zero if it is missing. -/
def argument {α : Type} [Zero α] (args : List α) (index : Nat) : α := args[index]?.getD 0

namespace Standard

open Binary64 (roundTo infinity)

/-- The circle constant. -/
def pi : Float := 3.141592653589793

/-- The base of the natural logarithm. -/
def e : Float := 2.718281828459045

/-- The standard constants in order. -/
def constants : List (String × Float) :=
  [("PI", pi), ("e", e), ("Infinity", infinity), ("NegInfinity", -infinity),
    ("Deg2Rad", pi / 180), ("Rad2Deg", 180 / pi)]

/-- A function of the first argument alone. -/
def unary (apply : Float → Float) (args : List Float) : Float := apply (argument args 0)

/-- The first argument rounded to as many decimals as the second says, at most fifteen. A half goes
to the even neighbour. -/
def round (args : List Float) : Float :=
  let x := argument args 0
  if args.length < 2 then
    roundTo .halfEven x
  else
    let digits := roundTo .towardZero (argument args 1)
    let digits := if digits < 0 then 0 else digits
    let digits := if 15 < digits then 15 else digits
    let scale := Float.pow 10 digits
    roundTo .halfEven (x * scale) / scale

/-- The logarithm of the first argument to the base of the second, or the natural one. -/
def log (args : List Float) : Float :=
  let x := argument args 0
  if args.length < 2 then x.log else x.log / (argument args 1).log

/-- One with the sign of a number; zero and the undefined number stay as they are. -/
def sign (x : Float) : Float :=
  if 0 < x then 1 else if x < 0 then -1 else x

/-- The smaller of two numbers, undefined if one of them is. -/
def least (x y : Float) : Float :=
  if x.isNaN then x else if y.isNaN then y else Binary64.smaller x y

/-- The larger of two numbers, undefined if one of them is. -/
def greatest (x y : Float) : Float :=
  if x.isNaN then x else if y.isNaN then y else Binary64.larger x y

/-- A sample of the unit interval moved to the interval from zero to the argument, or between the
two arguments. -/
def uniform (sample : Float) : List Float → Float
  | [] => sample
  | [scale] => sample * scale
  | low :: high :: _ => low + sample * (high - low)

/-- The standard functions in order. -/
def functions (sample : Float) : List (String × (List Float → Float)) :=
  [("sqrt", unary Float.sqrt),
    ("abs", unary Float.abs),
    ("ln", unary Float.log),
    ("floor", unary (roundTo .down)),
    ("ceil", unary (roundTo .up)),
    ("round", round),
    ("exp", unary Float.exp),
    ("log", log),
    ("sgn", unary sign),
    ("sin", unary Float.sin),
    ("cos", unary Float.cos),
    ("tan", unary Float.tan),
    ("asin", unary Float.asin),
    ("acos", unary Float.acos),
    ("atan", unary Float.atan),
    ("min", fun args => least (argument args 0) (argument args 1)),
    ("max", fun args => greatest (argument args 0) (argument args 1)),
    ("rnd", uniform sample),
    ("fact", unary Counting.factorial),
    ("binom", fun args => Counting.binomial (argument args 0) (argument args 1))]

end Standard

/-- The standard vocabulary, with a sample of the unit interval for `rnd`. -/
def standard (sample : Float) : Vocabulary Float where
  constants := .ofList Standard.constants
  functions := .ofList (Standard.functions sample)

end Formula.Vocabulary
