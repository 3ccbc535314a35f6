import Formula.Text.Fragment

/-!
# Syntax errors

Reading a text stops at the first fault. An error holds the fragment at fault as it stood when the
fault was seen, with groups replaced by placeholders. A reading that does not stop has a mark in
place of an error; it has neither a code nor words.
-/

namespace Formula

/-- Why a text is not read. -/
inductive SyntaxError where
  /-- A `(` at this byte offset of the fragment is never closed. -/
  | unmatchedBracket (fragment : String) (position : Nat)
  /-- No group belongs to this placeholder. -/
  | invalidPlaceholder (token : String)
  /-- The fragment has none of the forms of an operand; it may be empty. -/
  | unexpectedEnd (fragment : String)
  /-- Typed placeholders lead into their own groups, so that reading does not come to an end. This
  is a mark and no fault: nobody is ever told of it. -/
  | endlessExpansion
  deriving DecidableEq, Repr

namespace SyntaxError

/-- A stable short name to search for. -/
def code? : SyntaxError → Option String
  | .unmatchedBracket _ _ => some "E1001"
  | .invalidPlaceholder _ => some "E1002"
  | .unexpectedEnd _ => some "E1003"
  | .endlessExpansion => none

/-- The fault in words. -/
def message? : SyntaxError → Option String
  | .unmatchedBracket fragment position =>
    some ("unmatched bracket at offset " ++ toString position ++ " in `" ++ fragment ++ "`")
  | .invalidPlaceholder token => some ("invalid bracket placeholder `" ++ token ++ "`")
  | .unexpectedEnd fragment => some ("unexpected end of expression at `" ++ fragment ++ "`")
  | .endlessExpansion => none

end SyntaxError

end Formula
