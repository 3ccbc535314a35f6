import Formula.NameTable
import Formula.Text.Fragment

/-!
# Vocabularies

The constants and functions that an expression may name. A vocabulary is only read while a text is
read; a tree keeps the constants and functions it was made with.

Names are recognised at the beginning of a fragment. A function is recognised when exactly one
function name is a beginning of the fragment, so that of two names, one of which is a beginning of
the other, the longer is never recognised. Of several constants the first registered one counts.
-/

namespace Formula

/-- Constants and functions by name, each in the order of registration. -/
structure Vocabulary (α : Type) where
  constants : NameTable α
  functions : NameTable (List α → α)

namespace Vocabulary

variable {α : Type}

/-- The vocabulary without names. -/
def empty : Vocabulary α := ⟨∅, ∅⟩

/-- Registers a constant, in place of an older one of the same name. -/
def addConstant (vocabulary : Vocabulary α) (name : String) (value : α) : Vocabulary α :=
  { vocabulary with constants := (vocabulary.constants.insert name value).2 }

/-- Registers a function, in place of an older one of the same name. -/
def addFunction (vocabulary : Vocabulary α) (name : String) (apply : List α → α) : Vocabulary α :=
  { vocabulary with functions := (vocabulary.functions.insert name apply).2 }

/-- Takes a constant out. -/
def removeConstant (vocabulary : Vocabulary α) (name : String) : Vocabulary α :=
  { vocabulary with constants := (vocabulary.constants.erase name).2 }

/-- Takes a function out. -/
def removeFunction (vocabulary : Vocabulary α) (name : String) : Vocabulary α :=
  { vocabulary with functions := (vocabulary.functions.erase name).2 }

/-- Whether `name` is a constant or a function. -/
def isTaken (vocabulary : Vocabulary α) (name : String) : Bool :=
  vocabulary.constants.contains name || vocabulary.functions.contains name

/-- All names, constants first. -/
def names (vocabulary : Vocabulary α) : List String :=
  vocabulary.constants.names ++ vocabulary.functions.names

/-- Whether some name could be recognised at the beginning of a placeholder. -/
def namesPlaceholders (vocabulary : Vocabulary α) : Bool :=
  vocabulary.names.any fun name => name.toList.contains '&'

/-- The number of characters of the longest name. -/
def longestName (vocabulary : Vocabulary α) : Nat :=
  (vocabulary.names.map String.length).foldr max 0

/-- Whether a fragment begins with a name that is not empty. -/
def beginsWith (s : Fragment) (name : String) : Bool :=
  name != "" && name.toList.isPrefixOf s

/-- The only function whose name is at the beginning of a fragment. -/
def functionAt? (vocabulary : Vocabulary α) (s : Fragment) : Option (String × (List α → α)) :=
  match vocabulary.functions.toList.filter fun entry => beginsWith s entry.1 with
  | [entry] => some entry
  | _ => none

/-- The first constant whose name is at the beginning of a fragment. -/
def constantAt? (vocabulary : Vocabulary α) (s : Fragment) : Option (String × α) :=
  vocabulary.constants.toList.find? fun entry => beginsWith s entry.1

end Vocabulary

end Formula
