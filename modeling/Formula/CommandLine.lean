import Formula.Expression
import Formula.Number.Binary64

/-!
# The command line

`run?` evaluates the expression that is the first argument, with the variables given by the others
as `name=value`. What it writes goes to two channels: the value to the output, and warnings and
errors to the error channel. Arguments are taken in order, and the first one at fault ends the run
without a value. A run ends unless reading the expression does not.
-/

namespace Formula.CommandLine

/-- What a run writes, and the code it ends with. -/
structure Outcome where
  exitCode : UInt8
  output : String
  errors : String
  deriving DecidableEq, Repr

/-- How the program is called. -/
def usage : String :=
  "Usage: xpr <expression> [name=value ...]\n" ++
  "\n" ++
  "Evaluates an arithmetic expression. Unassigned variables are 0.\n" ++
  "\n" ++
  "Examples:\n" ++
  "  xpr '2 + 3 * 4'\n" ++
  "  xpr 'sqrt(x^2 + y^2)' x=3 y=4\n" ++
  "  xpr 'x, x*2' x=5\n" ++
  "\n" ++
  "Set RUST_LOG=debug (or trace) to see the parse.\n"

/-- Why an argument gives no variable a value. -/
inductive BindingError where
  /-- There is no equals sign in the argument. -/
  | noValue (argument : String)
  /-- The text behind the equals sign is no number. -/
  | notANumber (text : String)
  deriving DecidableEq, Repr

/-- The error in words. -/
def BindingError.message : BindingError → String
  | .noValue argument => "expected `name=value`, found `" ++ argument ++ "`"
  | .notANumber text => "`" ++ text ++ "` is not a number"

/-- The name and the value of an argument `name=value`; blanks around either do not count. -/
def readBinding (argument : String) : Except BindingError (String × Float) :=
  match Fragment.cutFirst? '=' argument.toList with
  | none => .error (.noValue argument)
  | some (name, text) =>
    match Binary64.ofText? text.trim with
    | none => .error (.notANumber (String.ofList text.trim))
    | some value => .ok (String.ofList name.trim, value)

/-- The line that warns of a name that is no variable. -/
def warning (name : String) : String :=
  "warning: expression has no variable `" ++ name ++ "`\n"

/-- The line that tells an error. -/
def errorLine (text : String) : String := "error" ++ text ++ "\n"

/-- The line with the value of an expression, or with the values of its elements. -/
def valueLine (expression : Expression Float) : String :=
  ", ".intercalate (expression.valueList.map Binary64.toText) ++ "\n"

/-- Gives the variables their values one after the other and evaluates the expression. `errors` is
what has been written to the error channel before. -/
def runBindings (expression : Expression Float) (errors : String) : List String → Outcome
  | [] => ⟨0, valueLine expression, errors⟩
  | argument :: rest =>
    match readBinding argument with
    | .error error => ⟨1, "", errors ++ errorLine (": " ++ error.message)⟩
    | .ok (name, value) =>
      match expression.set name value with
      | (true, expression) => runBindings expression errors rest
      | (false, expression) => runBindings expression (errors ++ warning name) rest

/-- The outcome of a run whose expression is not read. -/
def unread? (error : SyntaxError) : Option Outcome := do
  return ⟨1, "", errorLine ("[" ++ (← error.code?) ++ "]: " ++ (← error.message?))⟩

/-- What the program does with its arguments. There is no outcome if reading the expression does not
come to an end, since then the program does not come to one either. -/
def run? (vocabulary : Vocabulary Float) : List String → Option Outcome
  | [] => some ⟨1, usage, ""⟩
  | first :: bindings =>
    if first = "--help" || first = "-h" then
      some ⟨0, usage, ""⟩
    else
      match Expression.parse vocabulary first with
      | .error error => unread? error
      | .ok expression => some (runBindings expression "" bindings)

end Formula.CommandLine
