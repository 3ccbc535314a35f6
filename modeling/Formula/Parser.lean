import Formula.Groups
import Formula.Number.Decimal
import Formula.Operator
import Formula.Variables
import Formula.Vocabulary

/-!
# From text to tree

There are no tokens. A fragment is looked at as a whole and taken for one of a few things, its
`Reading`: an operation with operands, a call with an argument, a group, or a tree without parts.
The parts are fragments again and are read in turn, from left to right.

`interpret` says what a fragment is. With its groups set aside it is split at its loosest operator.
A fragment without operators is, by the first rule that fits (`interpretOperand`),

1. a function name and its argument,
2. a constant name, whatever follows it,
3. a placeholder, whatever stands around it: the group it stands for is read,
4. a number,
5. a variable.

`fragment` reads a fragment and all its parts, with a bound on their nesting. The bound is needed
only for texts in which placeholders are typed by hand, since those may lead into their own groups;
`parse` takes it from the text and the names (`depthBound`).
-/

namespace Formula.Parser

variable {α : Type}

/-- What reading gathers on its way: the groups set aside and the variables met. -/
structure State (α : Type) where
  groups : Groups
  vars : Variables α

/-- A step of reading, which may fail. -/
abbrev Reader (α : Type) := StateT (State α) (Except SyntaxError)

/-- Reading starts with no groups and no variables. -/
def State.initial : State α := ⟨.empty, .empty⟩

/-- The fragment with its groups set aside. -/
def setAside (s : Fragment) : Reader α Fragment := do
  let result ← modifyGet fun ⟨groups, vars⟩ =>
    let (result, groups) := groups.setAside s
    (result, ⟨groups, vars⟩)
  result

/-- The text of the group that a placeholder with this interior stands for. -/
def resolve (interior : Fragment) : Reader α Fragment := do
  (← get).groups.resolve interior

/-- The variable called by a fragment. -/
def internVariable [Zero α] (s : Fragment) : Reader α (Tree α) := do
  let id ← modifyGet fun ⟨groups, vars⟩ =>
    let (id, vars) := vars.intern (String.ofList s)
    (id, ⟨groups, vars⟩)
  return .var id

/-- Whether a fragment is nothing but a placeholder of a blank group: an empty list of arguments. -/
def isBlankGroup (groups : Groups) (s : Fragment) : Bool :=
  match placeholderInterior? s.trim with
  | some interior =>
    s.trim.length == interior.length + 2 &&
      match groups.resolve interior with
      | .ok text => text.allBlank
      | .error _ => false
  | none => false

/-- The number that a fragment writes; it starts with a digit or a point. -/
def number? [Numeral α] (s : Fragment) : Option α :=
  (Decimal.ofFragment? s).map Numeral.ofDecimal

/-- Whether a character may begin a variable name. -/
def beginsName (c : Char) : Bool := c.isAlpha || c == '§' || c == '$'

/-- Whether a fragment names a variable: it begins like one, holds no blank, and is not registered
in the vocabulary. -/
def isVariableName (vocabulary : Vocabulary α) (s : Fragment) : Bool :=
  match s with
  | [] => false
  | first :: rest =>
    beginsName first && rest.all (fun c => !Text.isBlank c) &&
      !vocabulary.isTaken (String.ofList s)

/-- What a fragment is. -/
inductive Reading (α : Type) where
  /-- Something without parts. -/
  | leaf (tree : Tree α)
  /-- A text to be split at an operator in it. -/
  | operation (operator : Operator) (text : Fragment)
  /-- A function and the text of its arguments. -/
  | call (name : String) (apply : List α → α) (argument : Fragment)
  /-- The text of a group. -/
  | group (text : Fragment)

/-- The fragments to be read for a reading, in order. -/
def Reading.parts : Reading α → List Fragment
  | .leaf _ => []
  | .operation operator text => (operator.operands text).map Operand.text
  | .call _ _ argument => [argument]
  | .group text => [text]

/-- The tree of a reading for the trees of its parts. -/
def Reading.assemble (reading : Reading α) (trees : List (Tree α)) : Except SyntaxError (Tree α) :=
  match reading, trees with
  | .leaf tree, _ => .ok tree
  | .operation operator text, trees =>
    let oriented := (operator.operands text).zipWith
      (fun operand tree => operator.orient operand.inverted tree) trees
    match operator.assemble? oriented with
    | some tree => .ok tree
    | none => .error (.unexpectedEnd (String.ofList text))
  | .call name apply _, trees => .ok (.call name apply (trees.flatMap Tree.elements))
  | .group text, trees =>
    match trees with
    | [tree] => .ok tree
    | _ => .error (.unexpectedEnd (String.ofList text))

variable [Zero α] [Numeral α]

/-- What a fragment without operators is. -/
def interpretOperand (vocabulary : Vocabulary α) (s : Fragment) : Reader α (Reading α) := do
  match vocabulary.functionAt? s with
  | some (name, apply) =>
    let argument := s.drop name.length
    if isBlankGroup (← get).groups argument then
      return .leaf (.call name apply [])
    else
      return .call name apply argument
  | none =>
  match vocabulary.constantAt? s with
  | some (name, value) => return .leaf (.constant name value)
  | none =>
  match placeholderInterior? s with
  | some interior => return .group (← resolve interior)
  | none =>
  match number? s with
  | some value => return .leaf (.scalar value)
  | none =>
  if isVariableName vocabulary s then
    return .leaf (← internVariable s)
  else
    throw (.unexpectedEnd (String.ofList s))

/-- What a fragment is. Its groups are set aside first. -/
def interpret (vocabulary : Vocabulary α) (s : Fragment) : Reader α (Reading α) := do
  let s := (← setAside s.trim).trim
  match Operator.loosestIn? s with
  | some operator => return .operation operator s
  | none => interpretOperand vocabulary s

/-- The tree of a fragment, with at most `depth` fragments inside each other. -/
def fragment (vocabulary : Vocabulary α) : Nat → Fragment → Reader α (Tree α)
  | 0, _ => throw .endlessExpansion
  | depth + 1, s => do
    let reading ← interpret vocabulary s
    let trees ← reading.parts.mapM (fragment vocabulary depth)
    reading.assemble trees

/-- How deeply fragments of a text may be nested.

Along a chain of nested fragments each is shorter than the one before, when a placeholder counts as
long as its group, except where a typed placeholder is expanded. While no name holds an `&`, the
numbers in placeholders decide nothing, so that a chain that expands one typed placeholder twice
has no end: a chain with an end has at most one such exception for each `&` of the text.

A name with an `&` may be recognised in a placeholder. Since groups are numbered anew each time
round, a chain then has an end as soon as a group gets a number that is recognised. Such a chain may
run through all numbers with as many digits as the longest name and the text have characters; one
that goes on is taken for endless. -/
def depthBound (vocabulary : Vocabulary α) (s : Fragment) : Nat :=
  let bound := (s.count '&' + 1) * (s.byteLength + 1)
  if vocabulary.namesPlaceholders then
    bound * Nat.pow 10 (vocabulary.longestName + s.byteLength)
  else
    bound

/-- The tree of a text and its variables. -/
def parse (vocabulary : Vocabulary α) (text : String) :
    Except SyntaxError (Tree α × Variables α) := do
  let s := text.toList
  let (tree, state) ← (fragment vocabulary (depthBound vocabulary s) s).run .initial
  return (tree, state.vars)

end Formula.Parser
