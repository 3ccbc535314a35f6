import Formula.Text.Fragment
import Formula.Tree

/-!
# Operators

A fragment is split at the loosest operator in it. An operator says where it splits a fragment
(`operands`) and what tree it makes of the trees of its operands (`assemble?`).

`%` splits at its first occurrence and `^` at its last, so that `2^3^2` is `(2^3)^2`; the others
split at every occurrence. `,`, `+`, `-` and `/` pass over blank operands, which is what makes a
leading `-` a negation; `*` does not, and a blank operand of it is a syntax error later on.
-/

namespace Formula

/-- The operators of the language. -/
inductive Operator where
  /-- `,` between the elements of a tuple. -/
  | list
  /-- `+` between terms. -/
  | add
  /-- `-` in front of a term that is taken away. -/
  | subtract
  /-- `*` between factors. -/
  | multiply
  /-- `/` in front of a factor that divides. -/
  | divide
  /-- `%` between a number and what divides it, for the remainder. -/
  | modulo
  /-- `^` between a base and an exponent. -/
  | raise
  deriving DecidableEq, Repr

/-- A part of a fragment that an operator joins with others. -/
structure Operand where
  text : Fragment
  /-- Whether the operand is taken away or divides. -/
  inverted : Bool
  deriving DecidableEq, Repr

namespace Operator

/-- The character of an operator. -/
def symbol : Operator → Char
  | .list => ','
  | .add => '+'
  | .subtract => '-'
  | .multiply => '*'
  | .divide => '/'
  | .modulo => '%'
  | .raise => '^'

/-- The operators from the loosest to the tightest, the order in which they are looked for. -/
def loosestFirst : List Operator := [.list, .add, .subtract, .multiply, .divide, .modulo, .raise]

/-- The loosest operator that occurs in a fragment. -/
def loosestIn? (s : Fragment) : Option Operator :=
  loosestFirst.find? fun operator => operator.symbol ∈ s

/-- The pieces of a fragment between the occurrences of the operator, as operands. -/
def plainPieces (operator : Operator) (s : Fragment) : List Operand :=
  (s.splitOn operator.symbol).map fun text => ⟨text, false⟩

/-- The same pieces, all but the first inverted. -/
def invertedPieces (operator : Operator) (s : Fragment) : List Operand :=
  match s.splitOn operator.symbol with
  | [] => []
  | first :: rest => ⟨first, false⟩ :: rest.map fun text => ⟨text, true⟩

/-- The operands in which something stands. -/
def dropBlank (operands : List Operand) : List Operand :=
  operands.filter fun operand => !operand.text.allBlank

/-- The two sides of a cut, as operands. -/
def sides : Option (Fragment × Fragment) → List Operand
  | some (left, right) => [⟨left, false⟩, ⟨right, false⟩]
  | none => []

/-- The operands of an operator in a fragment, from left to right. -/
def operands (operator : Operator) (s : Fragment) : List Operand :=
  match operator with
  | .list | .add => dropBlank (operator.plainPieces s)
  | .subtract | .divide => dropBlank (operator.invertedPieces s)
  | .multiply => operator.plainPieces s
  | .modulo => sides (s.cutFirst? operator.symbol)
  | .raise => sides (s.cutLast? operator.symbol)

variable {α : Type}

/-- The tree of an operand for the tree of its text. -/
def orient (operator : Operator) (inverted : Bool) (tree : Tree α) : Tree α :=
  match operator, inverted with
  | .subtract, true => .negate tree
  | .divide, true => .reciprocal tree
  | _, _ => tree

/-- Several trees wrapped into one; a single tree stays as it is. -/
def wrapSeveral (wrap : List (Tree α) → Tree α) : List (Tree α) → Option (Tree α)
  | [] => none
  | [tree] => some tree
  | trees => some (wrap trees)

/-- The tree of an operator applied to the trees of its operands; nothing when there are too few. -/
def assemble? (operator : Operator) (trees : List (Tree α)) : Option (Tree α) :=
  match operator, trees with
  | .list, trees => wrapSeveral .tuple trees
  | .add, trees => wrapSeveral .sum trees
  | .subtract, trees => wrapSeveral .sum trees
  | .multiply, trees => some (.product trees)
  | .divide, [] => none
  | .divide, trees => some (.product trees)
  | .modulo, [left, right] => some (.modulus left right)
  | .raise, [base, exponent] => some (.power base exponent)
  | _, _ => none

end Operator

end Formula
