import Formula.Number.Arithmetic

/-!
# Variables and their bounds

A variable is a named number that may be kept within bounds. Assignment clamps a number into the
bounds; an undefined number is stored as it is.
-/

namespace Formula

/-- An inclusive range of numbers. -/
structure Bounds (α : Type) where
  min : α
  max : α
  deriving DecidableEq, Repr

namespace Bounds

variable {α : Type} [NumberOrder α]

/-- The range between two numbers in either order. -/
def between (a b : α) : Bounds α :=
  if b < a then ⟨b, a⟩ else ⟨a, b⟩

/-- The number of the range that is nearest to `value`. -/
def clamp (bounds : Bounds α) (value : α) : α :=
  NumberOrder.smaller (NumberOrder.larger value bounds.min) bounds.max

end Bounds

/-- A named number with optional bounds. -/
structure Variable (α : Type) where
  name : String
  value : α
  bounds : Option (Bounds α)
  deriving Repr

namespace Variable

variable {α : Type}

/-- A variable starts at zero and unbounded. -/
def named [Zero α] (name : String) : Variable α := ⟨name, 0, none⟩

variable [NumberOrder α]

/-- The variable with a new value, which is clamped into the bounds unless it is undefined. -/
def assign (cell : Variable α) (value : α) : Variable α :=
  { cell with
    value :=
      match cell.bounds with
      | some bounds => if NumberOrder.isUndefined value then value else bounds.clamp value
      | none => value }

/-- The variable with the range between two numbers as its bounds, and its value clamped anew. -/
def restrict (cell : Variable α) (a b : α) : Variable α :=
  { cell with bounds := some (Bounds.between a b) }.assign cell.value

/-- The variable without bounds. -/
def release (cell : Variable α) : Variable α := { cell with bounds := none }

end Variable

end Formula
