/-!
# Number types

What an expression needs of the numbers it is evaluated in. Three classes keep apart what is used
apart:

* `Arithmetic`: the operations a tree is evaluated with;
* `NumberOrder`: comparison, where some numbers may be undefined, as bounds of variables need it;
* `WholeParts`: integer parts and finiteness, as the counting functions need them.

No law is part of a class: floating-point numbers satisfy few of them. A statement that needs laws
asks for them.
-/

namespace Formula

/-- The operations by which a tree is evaluated. -/
class Arithmetic (α : Type) extends Zero α, Add α, Mul α, Neg α where
  /-- One divided by a number. -/
  reciprocal : α → α
  /-- The first number to the power of the second. -/
  power : α → α → α
  /-- What is left of the first number after taking away the second as often as possible. -/
  remainder : α → α → α

/-- Comparison of numbers, of which some may be undefined. An undefined number is neither below nor
above any number. -/
class NumberOrder (α : Type) extends LE α, LT α where
  decidableLE : DecidableLE α
  decidableLT : DecidableLT α
  /-- Whether the number is undefined. -/
  isUndefined : α → Bool
  /-- The larger of two numbers; the defined one if only one of them is. -/
  larger : α → α → α
  /-- The smaller of two numbers; the defined one if only one of them is. -/
  smaller : α → α → α

attribute [reducible, instance] NumberOrder.decidableLE NumberOrder.decidableLT

/-- Numbers with integer parts. -/
class WholeParts (α : Type) extends Arithmetic α, NumberOrder α, One α, Sub α, Div α where
  /-- The number without its fraction, rounded toward zero. -/
  truncate : α → α
  /-- The nearest integer, a half going away from zero. -/
  nearest : α → α
  /-- Whether the number is finite; an undefined number is not. -/
  isFinite : α → Bool
  /-- The integer part of a positive number, and zero for any other. -/
  wholePart : α → Nat

end Formula
