import Formula.Tree
import Formula.Variables
import Formula.Number.Decimal

/-!
# The text of a tree

Every operation is written with its own brackets, and a variable with its current value behind it,
as in `( x[2] + ( -3 ) )`.
-/

namespace Formula.Tree

variable {α : Type} [Numeral α]

/-- The text of a variable: its name and its value. -/
def renderVariable (vars : Variables α) (id : Nat) : String :=
  match vars.get? id with
  | some cell => cell.name ++ "[" ++ Numeral.toText cell.value ++ "]"
  | none => ""

mutual

/-- The text of a tree. -/
def render (vars : Variables α) : Tree α → String
  | .scalar v => Numeral.toText v
  | .var id => renderVariable vars id
  | .sum terms => "( " ++ " + ".intercalate (renderAll vars terms) ++ " )"
  | .product factors => "( " ++ " * ".intercalate (renderAll vars factors) ++ " )"
  | .negate operand => "( -" ++ render vars operand ++ " )"
  | .reciprocal operand => "( 1/" ++ render vars operand ++ " )"
  | .power base exponent => "( " ++ render vars base ++ "^" ++ render vars exponent ++ " )"
  | .modulus left right => "( " ++ render vars left ++ "%" ++ render vars right ++ " )"
  | .call name _ [] => name
  | .call name _ (first :: rest) =>
    name ++ "( " ++ ", ".intercalate (render vars first :: renderAll vars rest) ++ " )"
  | .constant name _ => name
  | .tuple items => ", ".intercalate (renderAll vars items)

/-- The texts of a list of trees. -/
def renderAll (vars : Variables α) : List (Tree α) → List String
  | [] => []
  | tree :: rest => render vars tree :: renderAll vars rest

end

theorem renderAll_eq_map (vars : Variables α) (trees : List (Tree α)) :
    renderAll vars trees = trees.map (render vars) := by
  induction trees with
  | nil => rfl
  | cons tree rest ih => simp [renderAll, ih]

end Formula.Tree
