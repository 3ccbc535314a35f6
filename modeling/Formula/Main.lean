import Formula.CommandLine
import Formula.Vocabulary.Standard

/-!
# The program

Draws the sample for `rnd`, runs the command line and writes what it says. A run without an outcome
goes on for ever.
-/

/-- Runs the command line on the program's arguments. -/
def main (args : List String) : IO UInt32 := do
  let sample ← IO.rand 0 (Nat.pow 2 53 - 1)
  match Formula.CommandLine.run? (.standard (sample.toFloat / 2 ^ 53)) args with
  | some outcome =>
    (← IO.getStdout).putStr outcome.output
    (← IO.getStderr).putStr outcome.errors
    return outcome.exitCode.toUInt32
  | none =>
    repeat IO.sleep 1000
    return 1
