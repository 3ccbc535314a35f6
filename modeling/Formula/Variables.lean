import Std.Data.HashMap
import Formula.Variable

/-!
# The variables of an expression

The variables of an expression are numbered in the order in which their names first occur. A tree
names a variable by its number, so that an assignment is seen wherever the variable stands.

`intern` gives the number of a name and creates the variable when the name is new; `update` is the
only operation that changes a variable.
-/

namespace Formula

/-- Variables with distinct names, numbered from zero. -/
structure Variables (α : Type) where
  cells : Array (Variable α)
  /-- The number of each name. -/
  numbers : Std.HashMap String Nat

namespace Variables

variable {α : Type}

/-- No variables. -/
def empty : Variables α := ⟨#[], ∅⟩

instance : EmptyCollection (Variables α) := ⟨empty⟩

/-- The number of variables. -/
def size (vars : Variables α) : Nat := vars.cells.size

/-- Whether there is no variable. -/
def isEmpty (vars : Variables α) : Bool := vars.cells.isEmpty

/-- The variables in order. -/
def toList (vars : Variables α) : List (Variable α) := vars.cells.toList

/-- The names in order. -/
def names (vars : Variables α) : List String := vars.toList.map Variable.name

/-- The number of the variable called `name`. -/
def find? (vars : Variables α) (name : String) : Option Nat := vars.numbers[name]?

/-- The variable with a number. -/
def get? (vars : Variables α) (id : Nat) : Option (Variable α) := vars.cells[id]?

/-- The variable called `name`. -/
def named? (vars : Variables α) (name : String) : Option (Variable α) :=
  (vars.find? name).bind vars.get?

/-- The number of `name`, and the variables with one of this name. -/
def intern [Zero α] (vars : Variables α) (name : String) : Nat × Variables α :=
  match vars.numbers[name]? with
  | some id => (id, vars)
  | none =>
    (vars.cells.size,
      { cells := vars.cells.push (Variable.named name)
        numbers := vars.numbers.insert name vars.cells.size })

/-- The variables with one of them changed. -/
def update (vars : Variables α) (id : Nat) (change : Variable α → Variable α) : Variables α :=
  { vars with cells := vars.cells.modify id change }

/-- The variables after an assignment to one of them. -/
def assign [NumberOrder α] (vars : Variables α) (id : Nat) (value : α) : Variables α :=
  vars.update id fun cell => cell.assign value

/-- The value of the variable with a number, zero if there is none. -/
def valueOf [Zero α] (vars : Variables α) (id : Nat) : α :=
  match vars.get? id with
  | some cell => cell.value
  | none => 0

end Variables

end Formula
