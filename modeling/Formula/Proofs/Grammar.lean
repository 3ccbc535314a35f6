import Formula.Parser
import Formula.Proofs.NameIndex
import Formula.Proofs.Outline.Meaning

/-!
# The grammar of arithmetic

The layered grammar by which people read expressions, with the conventional value of what it
derives: `+` and `-` join terms from left to right, `*` and `/` factors, `^` atoms; `%` goes on to
the right. Division by a number is multiplication by its reciprocal.

`Denotes vocabulary layer s f` says that the text `s` is derived at a layer and has the value `f`. A
vocabulary is `Distinct` when its names are words that can be told apart by how they begin.
-/

namespace Formula

/-! ### Names -/

/-- Whether a text is a row of ASCII letters and digits that begins with a letter. -/
def IsWord : Fragment → Prop
  | [] => False
  | first :: rest => first.isAlpha = true ∧ ∀ c ∈ rest, c.isAlphanum = true

instance : DecidablePred IsWord
  | [] => isFalse id
  | first :: rest =>
    decidable_of_iff (first.isAlpha = true ∧ rest.all Char.isAlphanum = true)
      (and_congr_right fun _ => List.all_eq_true)

/-- The names of a vocabulary are words. No function name is the beginning of another name, and no
constant name that of another constant name; a constant name may begin a function name. The tables
are sound, as they are after any registrations and removals (`sound_empty`, `sound_addConstant` and
the like). -/
structure Vocabulary.Distinct {α : Type} (vocabulary : Vocabulary α) : Prop where
  sound : vocabulary.Sound
  word : ∀ name ∈ vocabulary.names, IsWord name.toList
  functions : ∀ name ∈ vocabulary.functions.names, ∀ other ∈ vocabulary.functions.names,
    name.toList <+: other.toList → name = other
  constants : ∀ name ∈ vocabulary.constants.names, ∀ other ∈ vocabulary.constants.names,
    name.toList <+: other.toList → name = other
  functions_constants : ∀ name ∈ vocabulary.functions.names,
    ∀ other ∈ vocabulary.constants.names, ¬name.toList <+: other.toList

namespace Vocabulary

/-- A vocabulary that is made of lists keeps the names of the lists. -/
theorem distinct_ofList {α : Type} {constants : List (String × α)}
    {functions : List (String × (List α → α))} (constantNames functionNames : List String)
    (hconstants : constants.map Prod.fst = constantNames)
    (hfunctions : functions.map Prod.fst = functionNames) (hnodup : constantNames.Nodup)
    (hnodup' : functionNames.Nodup)
    (hword : ∀ name ∈ constantNames ++ functionNames, IsWord name.toList)
    (hapart : ∀ name ∈ functionNames, ∀ other ∈ functionNames,
      name.toList <+: other.toList → name = other)
    (hapart' : ∀ name ∈ constantNames, ∀ other ∈ constantNames,
      name.toList <+: other.toList → name = other)
    (hfunction : ∀ name ∈ functionNames, ∀ other ∈ constantNames,
      ¬name.toList <+: other.toList) :
    Distinct ⟨.ofList constants, .ofList functions⟩ := by
  subst hconstants hfunctions
  obtain ⟨hsound, hlist⟩ := NameTable.toList_ofList hnodup
  obtain ⟨hsound', hlist'⟩ := NameTable.toList_ofList hnodup'
  have hnames : (NameTable.ofList constants).names = constants.map Prod.fst :=
    congrArg (List.map Prod.fst) hlist
  have hnames' : (NameTable.ofList functions).names = functions.map Prod.fst :=
    congrArg (List.map Prod.fst) hlist'
  refine ⟨⟨hsound, hsound'⟩, ?_, ?_, ?_, ?_⟩
  · rw [names, hnames, hnames']
    exact hword
  · rw [hnames']
    exact hapart
  · rw [hnames]
    exact hapart'
  · rw [hnames, hnames']
    exact hfunction

/-- The standard names can be told apart by how they begin. -/
theorem distinct_standard (sample : Float) : (standard sample).Distinct :=
  distinct_ofList Standard.constantNames Standard.functionNames rfl rfl (by decide) (by decide)
    (by decide) (by decide) (by decide) (by decide)

end Vocabulary

/-! ### Derivations -/

/-- The layers of the grammar, from the loosest to the tightest. -/
inductive Layer where
  /-- Terms joined by `+` and `-`, where a `-` may stand in front. -/
  | expression
  /-- Remainders joined by `*` and `/`. -/
  | term
  /-- A power, or a power and what it is divided by for the remainder. -/
  | remainder
  /-- Atoms joined by `^`. -/
  | power
  /-- A number, a name, a group or a call. -/
  | atom
  deriving DecidableEq, Repr

variable {α : Type} [Arithmetic α] [Numeral α]

/-- Derivations of a text at a layer, with its value. Blanks stand around atoms. -/
inductive Denotes (vocabulary : Vocabulary α) : Layer → Fragment → Meaning α → Prop where
  | whole {b b' digits : Fragment} (hb : b.allBlank = true) (hb' : b'.allBlank = true)
    (hdigits : ∀ c ∈ digits, c.isDigit = true) (hne : digits ≠ []) :
    Denotes vocabulary .atom (b ++ digits ++ b') fun _ =>
      Numeral.ofDecimal ⟨Nat.ofDigitChars 10 digits 0, 0⟩
  | decimal {b b' whole fraction : Fragment} (hb : b.allBlank = true) (hb' : b'.allBlank = true)
    (hdigits : ∀ c ∈ whole ++ fraction, c.isDigit = true) (hne : whole ++ fraction ≠ []) :
    Denotes vocabulary .atom (b ++ (whole ++ '.' :: fraction) ++ b') fun _ =>
      Numeral.ofDecimal ⟨Nat.ofDigitChars 10 (whole ++ fraction) 0, -fraction.length⟩
  | constant {b b' : Fragment} {name : String} {value : α} (hb : b.allBlank = true)
    (hb' : b'.allBlank = true) (hname : (name, value) ∈ vocabulary.constants.toList) :
    Denotes vocabulary .atom (b ++ name.toList ++ b') fun _ => value
  | identifier {b b' name : Fragment} (hb : b.allBlank = true) (hb' : b'.allBlank = true)
    (hword : IsWord name) (hfree : ∀ other ∈ vocabulary.names, ¬other.toList <+: name) :
    Denotes vocabulary .atom (b ++ name ++ b') fun ρ => ρ (String.ofList name)
  | group {b b' s : Fragment} {f : Meaning α} (hb : b.allBlank = true) (hb' : b'.allBlank = true)
    (h : Denotes vocabulary .expression s f) :
    Denotes vocabulary .atom (b ++ '(' :: (s ++ [')']) ++ b') f
  | call {b b' b'' : Fragment} {name : String} {apply : List α → α} (hb : b.allBlank = true)
    (hb' : b'.allBlank = true) (hb'' : b''.allBlank = true)
    (hname : (name, apply) ∈ vocabulary.functions.toList) (args : List (Fragment × Meaning α))
    (hne : args ≠ []) (hargs : ∀ arg ∈ args, Denotes vocabulary .expression arg.1 arg.2) :
    Denotes vocabulary .atom
      (b ++ (name.toList ++ b' ++ '(' :: ([','].intercalate (args.map Prod.fst) ++ [')'])) ++ b'')
      fun ρ => apply (args.map fun arg => arg.2 ρ)
  | ofAtom {s : Fragment} {f : Meaning α} (h : Denotes vocabulary .atom s f) :
    Denotes vocabulary .power s f
  | raise {s t : Fragment} {f g : Meaning α} (hs : Denotes vocabulary .power s f)
    (ht : Denotes vocabulary .atom t g) :
    Denotes vocabulary .power (s ++ '^' :: t) fun ρ => Arithmetic.power (f ρ) (g ρ)
  | ofPower {s : Fragment} {f : Meaning α} (h : Denotes vocabulary .power s f) :
    Denotes vocabulary .remainder s f
  | modulo {s t : Fragment} {f g : Meaning α} (hs : Denotes vocabulary .power s f)
    (ht : Denotes vocabulary .remainder t g) :
    Denotes vocabulary .remainder (s ++ '%' :: t) fun ρ => Arithmetic.remainder (f ρ) (g ρ)
  | ofRemainder {s : Fragment} {f : Meaning α} (h : Denotes vocabulary .remainder s f) :
    Denotes vocabulary .term s f
  | multiply {s t : Fragment} {f g : Meaning α} (hs : Denotes vocabulary .term s f)
    (ht : Denotes vocabulary .remainder t g) :
    Denotes vocabulary .term (s ++ '*' :: t) fun ρ => f ρ * g ρ
  | divide {s t : Fragment} {f g : Meaning α} (hs : Denotes vocabulary .term s f)
    (ht : Denotes vocabulary .remainder t g) :
    Denotes vocabulary .term (s ++ '/' :: t) fun ρ => f ρ * Arithmetic.reciprocal (g ρ)
  | ofTerm {s : Fragment} {f : Meaning α} (h : Denotes vocabulary .term s f) :
    Denotes vocabulary .expression s f
  | negate {b s : Fragment} {f : Meaning α} (hb : b.allBlank = true)
    (h : Denotes vocabulary .term s f) :
    Denotes vocabulary .expression (b ++ '-' :: s) fun ρ => -f ρ
  | add {s t : Fragment} {f g : Meaning α} (hs : Denotes vocabulary .expression s f)
    (ht : Denotes vocabulary .term t g) :
    Denotes vocabulary .expression (s ++ '+' :: t) fun ρ => f ρ + g ρ
  | subtract {s t : Fragment} {f g : Meaning α} (hs : Denotes vocabulary .expression s f)
    (ht : Denotes vocabulary .term t g) :
    Denotes vocabulary .expression (s ++ '-' :: t) fun ρ => f ρ + -g ρ

end Formula
