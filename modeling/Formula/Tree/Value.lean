import Formula.Tree
import Formula.Variables

/-!
# The value of a tree

A tree is evaluated against the current values of its variables. Sums and products are taken from
left to right starting with their first operand, so that in a number type without associativity the
order of the operands counts. The value of a tuple is that of its first element.
-/

namespace Formula.Tree

variable {α : Type} [Arithmetic α]

/-- The operands joined from left to right by an operation; zero if there are none. -/
def joinLeft (operation : α → α → α) : List α → α
  | [] => 0
  | first :: rest => rest.foldl operation first

mutual

/-- The value of a tree. -/
def value (vars : Variables α) : Tree α → α
  | .scalar v => v
  | .var id => vars.valueOf id
  | .sum terms => joinLeft (· + ·) (valueAll vars terms)
  | .product factors => joinLeft (· * ·) (valueAll vars factors)
  | .negate operand => -value vars operand
  | .reciprocal operand => Arithmetic.reciprocal (value vars operand)
  | .power base exponent => Arithmetic.power (value vars base) (value vars exponent)
  | .modulus left right => Arithmetic.remainder (value vars left) (value vars right)
  | .call _ apply args => apply (valueAll vars args)
  | .constant _ v => v
  | .tuple [] => 0
  | .tuple (first :: _) => value vars first

/-- The values of a list of trees. -/
def valueAll (vars : Variables α) : List (Tree α) → List α
  | [] => []
  | tree :: rest => value vars tree :: valueAll vars rest

end

/-- The values of the elements of a tuple. -/
def values? (vars : Variables α) : Tree α → Option (List α)
  | .tuple items => some (valueAll vars items)
  | _ => none

theorem values?_eq_none_iff {vars : Variables α} {tree : Tree α} :
    tree.values? vars = none ↔ tree.isTuple = false := by
  cases tree <;> simp [values?, isTuple]

theorem valueAll_eq_map (vars : Variables α) (trees : List (Tree α)) :
    valueAll vars trees = trees.map (value vars) := by
  induction trees with
  | nil => rfl
  | cons tree rest ih => simp [valueAll, ih]

end Formula.Tree
