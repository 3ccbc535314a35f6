/-!
# Expression trees

The tree of an expression. Variables are named by their numbers, and calls hold what they call, so
that a tree keeps its meaning when the vocabulary it was read with changes.
-/

namespace Formula

/-- The tree of an expression over numbers of type `α`. -/
inductive Tree (α : Type) where
  /-- A literal number. -/
  | scalar (value : α)
  /-- The variable with a number. -/
  | var (id : Nat)
  | sum (terms : List (Tree α))
  | product (factors : List (Tree α))
  | negate (operand : Tree α)
  | reciprocal (operand : Tree α)
  | power (base exponent : Tree α)
  | modulus (left right : Tree α)
  /-- A call of the function `apply`, known as `name`. -/
  | call (name : String) (apply : List α → α) (args : List (Tree α))
  /-- A constant known as `name`. -/
  | constant (name : String) (value : α)
  /-- The elements of a list of expressions. -/
  | tuple (items : List (Tree α))

namespace Tree

variable {α : Type}

instance : Inhabited (Tree α) := ⟨.tuple []⟩

/-- Whether the tree is a tuple. -/
def isTuple : Tree α → Bool
  | .tuple _ => true
  | _ => false

/-- The elements of a tuple, and any other tree as the only one. -/
def elements : Tree α → List (Tree α)
  | .tuple items => items
  | tree => [tree]

end Tree

end Formula
