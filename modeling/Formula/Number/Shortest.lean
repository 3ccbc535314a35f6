/-!
# The shortest decimal that reads back

A binary floating-point number `m × 2 ^ e` stands for all reals that are rounded to it: an interval
around it, with its ends when `m` is even. The text of the number is the multiple of a power of ten
in this interval with the fewest digits; of several, the nearest to the number, and the larger one
when two are equally near.

`Interval.onGrid?` looks at the two multiples of `10 ^ p` around the number, and
`Interval.shortest` takes the coarsest grid that has one of them in the interval. `onGrid?_contains`
says that what is found lies in the interval.
-/

namespace Formula.Shortest

/-- The reals that are rounded to a floating-point number, in units of `2 ^ exponent`. -/
structure Interval where
  low : Nat
  middle : Nat
  high : Nat
  exponent : Int
  /-- Whether the two ends belong to the interval. -/
  closed : Bool
  deriving Repr

namespace Interval

/-- The interval of `m × 2 ^ e`. The spacing below is half as wide when `narrowBelow`, as it is at a
power of two. -/
def around (m : Nat) (e : Int) (narrowBelow : Bool) : Interval where
  low := 4 * m - (if narrowBelow then 1 else 2)
  middle := 4 * m
  high := 4 * m + 2
  exponent := e - 2
  closed := m % 2 == 0

/-- The interval's unit and `10 ^ p`, both in one common unit. -/
def units (interval : Interval) (p : Int) : Nat × Nat :=
  (Nat.pow 2 interval.exponent.toNat * Nat.pow 10 (-p).toNat,
    Nat.pow 10 p.toNat * Nat.pow 2 (-interval.exponent).toNat)

/-- Whether `c × 10 ^ p` lies in the interval. -/
def contains (interval : Interval) (c : Nat) (p : Int) : Bool :=
  let (unit, grid) := interval.units p
  if interval.closed then
    interval.low * unit ≤ c * grid && c * grid ≤ interval.high * unit
  else
    interval.low * unit < c * grid && c * grid < interval.high * unit

/-- The largest `c` for which `c × 10 ^ p` is not above the middle of the interval. -/
def below (interval : Interval) (p : Int) : Nat :=
  let (unit, grid) := interval.units p
  interval.middle * unit / grid

/-- Whether the multiple of `10 ^ p` above the middle is at least as near to it as the one below. -/
def aboveIsNearer (interval : Interval) (p : Int) : Bool :=
  let (unit, grid) := interval.units p
  grid ≤ 2 * (interval.middle * unit % grid)

/-- The multiple of `10 ^ p` in the interval that is nearest to its middle. -/
def onGrid? (interval : Interval) (p : Int) : Option Nat :=
  let c := interval.below p
  match interval.contains c p, interval.contains (c + 1) p with
  | true, true => some (if interval.aboveIsNearer p then c + 1 else c)
  | true, false => some c
  | false, true => some (c + 1)
  | false, false => none

/-- The first of the grids `10 ^ p`, `10 ^ (p - 1)`, … with a point in the interval, and this point;
the `steps`-th one, with the point below the middle, if there is none before it. -/
def search (interval : Interval) : Nat → Int → Nat × Int
  | 0, p => (interval.below p, p)
  | steps + 1, p =>
    match interval.onGrid? p with
    | some c => (c, p)
    | none => interval.search steps (p - 1)

/-- An exponent `p` for which `10 ^ p` is above the interval: `30103 / 100000` is the decimal
logarithm of two. -/
def topExponent (interval : Interval) : Int :=
  ((interval.high.log2 + 1 + interval.exponent) * 30103).fdiv 100000 + 1

/-- The shortest decimal `c × 10 ^ p` in the interval. The top exponent is at most two above that of
the first digit, and seventeen digits always reach the interval. -/
def shortest (interval : Interval) : Nat × Int :=
  interval.search 20 interval.topExponent

theorem onGrid?_contains {interval : Interval} {p : Int} {c : Nat}
    (h : interval.onGrid? p = some c) : interval.contains c p = true := by
  unfold onGrid? at h
  grind

end Interval

/-- The text of `c × 10 ^ p` with all its digits and no exponent. -/
def positional (c : Nat) (p : Int) : List Char :=
  let digits := Nat.toDigits 10 c
  let places := (-p).toNat
  if places = 0 then
    digits ++ List.replicate p.toNat '0'
  else
    let padded := List.replicate (places + 1 - digits.length) '0' ++ digits
    let whole := padded.length - places
    padded.take whole ++ '.' :: padded.drop whole

end Formula.Shortest
