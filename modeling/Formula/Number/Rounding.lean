/-!
# Rounding a binary fraction to an integer

A number `± m / 2 ^ k` is rounded by rounding the magnitude `m / 2 ^ k` down to its integer part `q`
and adding one to it when the direction asks for it. `magnitude_le` and `le_magnitude` say that the
result is one of the two integers around the number, and `magnitude_of_dvd` that an integer stays
as it is.
-/

namespace Formula

/-- A direction in which a number is rounded to an integer. -/
inductive Rounding where
  /-- To the largest integer that is not above. -/
  | down
  /-- To the smallest integer that is not below. -/
  | up
  /-- To the integer without the fraction. -/
  | towardZero
  /-- To the nearest integer, a half going to the even neighbour. -/
  | halfEven
  /-- To the nearest integer, a half going away from zero. -/
  | halfAway
  deriving DecidableEq, Repr

namespace Rounding

/-- Whether `± (q + r / unit)`, where `r < unit`, is rounded to `± (q + 1)` and not to `± q`. -/
def goesAway (direction : Rounding) (negative : Bool) (q r unit : Nat) : Bool :=
  match direction with
  | .down => negative && r != 0
  | .up => !negative && r != 0
  | .towardZero => false
  | .halfEven => unit < 2 * r || (2 * r == unit && q % 2 == 1)
  | .halfAway => unit ≤ 2 * r

/-- The magnitude of `± m / 2 ^ k` rounded to an integer. -/
def magnitude (direction : Rounding) (negative : Bool) (m k : Nat) : Nat :=
  let unit := Nat.pow 2 k
  let q := m / unit
  if direction.goesAway negative q (m % unit) unit then q + 1 else q

theorem le_magnitude (direction : Rounding) (negative : Bool) (m k : Nat) :
    m / Nat.pow 2 k ≤ direction.magnitude negative m k := by
  unfold magnitude
  grind

theorem magnitude_le (direction : Rounding) (negative : Bool) (m k : Nat) :
    direction.magnitude negative m k ≤ m / Nat.pow 2 k + 1 := by
  unfold magnitude
  grind

theorem magnitude_of_dvd (direction : Rounding) (negative : Bool) {m k : Nat}
    (h : Nat.pow 2 k ∣ m) :
    direction.magnitude negative m k = m / Nat.pow 2 k := by
  have hpos : 0 < Nat.pow 2 k := Nat.two_pow_pos k
  have hmod : m % Nat.pow 2 k = 0 := Nat.mod_eq_zero_of_dvd h
  unfold magnitude
  generalize Nat.pow 2 k = unit at hpos hmod ⊢
  cases direction <;> simp [goesAway, hmod, Nat.ne_of_lt hpos, Nat.ne_of_gt hpos]

end Rounding

end Formula
