import Formula.Parser
import Formula.Tree.Render
import Formula.Tree.Value

/-!
# Expressions

An expression is a tree together with the current values of its variables. It is read once and
evaluated as often as its variables are assigned: by name (`set`), or by position through a
`Binding`, a selection of its variables in an order.

Assignments return the changed expression; the tree stays the same.
-/

namespace Formula

/-- A tree and its variables. -/
structure Expression (α : Type) where
  tree : Tree α
  vars : Variables α

/-- A choice of variables by position. A position without a variable takes an argument and drops
it. -/
structure Binding where
  slots : List (Option Nat)
  deriving DecidableEq, Repr

namespace Expression

variable {α : Type}

/-- The expression that a text writes. -/
def parse [Zero α] [Numeral α] (vocabulary : Vocabulary α) (text : String) :
    Except SyntaxError (Expression α) := do
  let (tree, vars) ← Parser.parse vocabulary text
  return ⟨tree, vars⟩

/-- The value of the expression; for a tuple, that of its first element. -/
def value [Arithmetic α] (expression : Expression α) : α :=
  expression.tree.value expression.vars

/-- The values of the elements when the expression is a tuple. -/
def values? [Arithmetic α] (expression : Expression α) : Option (List α) :=
  expression.tree.values? expression.vars

/-- The values of the elements of a tuple, and the value of any other expression as the only one. -/
def valueList [Arithmetic α] (expression : Expression α) : List α :=
  expression.values?.getD [expression.value]

/-- The text of the expression with the current values of its variables. -/
def render [Numeral α] (expression : Expression α) : String :=
  expression.tree.render expression.vars

/-- The names of the variables in the order of their first occurrence. -/
def variableNames (expression : Expression α) : List String := expression.vars.names

/-- The value of the variable called `name`. -/
def get? (expression : Expression α) (name : String) : Option α :=
  (expression.vars.named? name).map Variable.value

/-- Changes the variable called `name`, and tells whether there is one. -/
def updateNamed (expression : Expression α) (name : String)
    (change : Variable α → Variable α) : Bool × Expression α :=
  match expression.vars.find? name with
  | some id => (true, { expression with vars := expression.vars.update id change })
  | none => (false, expression)

/-- Assigns a value to the variable called `name`, and tells whether there is one. -/
def set [NumberOrder α] (expression : Expression α) (name : String) (value : α) :
    Bool × Expression α :=
  expression.updateNamed name fun cell => cell.assign value

/-- Chooses variables by name, in order. -/
def bind (expression : Expression α) (names : List String) : Binding :=
  ⟨names.map expression.vars.find?⟩

end Expression

namespace Binding

variable {α : Type}

/-- The number of positions. -/
def arity (binding : Binding) : Nat := binding.slots.length

variable [NumberOrder α]

/-- Assigns an argument to a position. -/
def assignSlot (vars : Variables α) (slot : Option Nat) (argument : α) : Variables α :=
  match slot with
  | some id => vars.assign id argument
  | none => vars

/-- Assigns arguments to the positions in order, up to the shorter of the two. -/
def assign (binding : Binding) (expression : Expression α) (args : List α) : Expression α :=
  { expression with
    vars := (binding.slots.zip args).foldl
      (fun vars pair => assignSlot vars pair.1 pair.2) expression.vars }

variable [Arithmetic α]

/-- Assigns arguments and evaluates the expression. -/
def invoke (binding : Binding) (expression : Expression α) (args : List α) : α × Expression α :=
  let assigned := binding.assign expression args
  (assigned.value, assigned)

/-- Assigns arguments and evaluates every element of the expression. -/
def invokeAll (binding : Binding) (expression : Expression α) (args : List α) :
    List α × Expression α :=
  let assigned := binding.assign expression args
  (assigned.valueList, assigned)

end Binding

end Formula
