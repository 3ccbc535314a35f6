import Formula.Proofs.NameTable.History
import Formula.Proofs.Parser.Steps
import Formula.Proofs.Recognition
import Formula.Vocabulary.Standard
import Mathlib.Data.List.Perm.Basic

/-!
# The order of registration

Functions are recognised by being the only one whose name begins a fragment, so that it does not
matter in which order they have been registered. Constants are recognised by being the first one;
their order does not matter when no name of a constant is the beginning of another.

A vocabulary enters into reading a text only through what it recognises and which names are taken.
Vocabularies that are `Alike` in this read every fragment alike (`Alike.fragment`).
`parse_ofHistory` concludes that vocabularies with the same functions in any two orders read every
text alike, however they have come about: a `Registration` is one change of a vocabulary.
-/

namespace Formula

/-- A change of a vocabulary. -/
inductive Registration (α : Type) where
  | addConstant (name : String) (value : α)
  | addFunction (name : String) (apply : List α → α)
  | removeConstant (name : String)
  | removeFunction (name : String)

namespace Registration

variable {α : Type}

/-- What a change does to the entries of constants. -/
def changeConstants (entries : Entries α) : Registration α → Entries α
  | .addConstant name value => entries.enter name value
  | .removeConstant name => entries.remove name
  | _ => entries

/-- What a change does to the entries of functions. -/
def changeFunctions (entries : Entries (List α → α)) : Registration α → Entries (List α → α)
  | .addFunction name apply => entries.enter name apply
  | .removeFunction name => entries.remove name
  | _ => entries

end Registration

namespace Vocabulary

variable {α : Type} {vocabulary vocabulary' : Vocabulary α}

/-! ### Histories -/

/-- The vocabulary after a change. -/
def register (vocabulary : Vocabulary α) : Registration α → Vocabulary α
  | .addConstant name value => vocabulary.addConstant name value
  | .addFunction name apply => vocabulary.addFunction name apply
  | .removeConstant name => vocabulary.removeConstant name
  | .removeFunction name => vocabulary.removeFunction name

/-- The vocabulary after changes one after another, from the one without names. -/
def ofHistory (history : List (Registration α)) : Vocabulary α := history.foldl register empty

theorem Sound.register (h : vocabulary.Sound) :
    ∀ registration : Registration α, (vocabulary.register registration).Sound
  | .addConstant name value => sound_addConstant h name value
  | .addFunction name apply => sound_addFunction h name apply
  | .removeConstant name => sound_removeConstant h name
  | .removeFunction name => sound_removeFunction h name

/-- Tables are sound after any history. -/
theorem sound_ofHistory (history : List (Registration α)) : (ofHistory history).Sound := by
  induction history using List.reverseRecOn with
  | nil => exact sound_empty
  | append_singleton history registration ih =>
    rw [ofHistory, List.foldl_append]
    exact ih.register registration

theorem toList_register (h : vocabulary.Sound) : ∀ registration : Registration α,
    (vocabulary.register registration).constants.toList =
        registration.changeConstants vocabulary.constants.toList ∧
      (vocabulary.register registration).functions.toList =
        registration.changeFunctions vocabulary.functions.toList
  | .addConstant name value => ⟨(NameTable.insert_eq h.constants name value).2, rfl⟩
  | .addFunction name apply => ⟨rfl, (NameTable.insert_eq h.functions name apply).2⟩
  | .removeConstant name => ⟨(NameTable.erase_eq h.constants name).2, rfl⟩
  | .removeFunction name => ⟨rfl, (NameTable.erase_eq h.functions name).2⟩

/-- The constants and the functions of a history are what its changes make of lists of entries. -/
theorem toList_ofHistory (history : List (Registration α)) :
    (ofHistory history).constants.toList =
        history.foldl (fun entries registration => registration.changeConstants entries) [] ∧
      (ofHistory history).functions.toList =
        history.foldl (fun entries registration => registration.changeFunctions entries) [] := by
  induction history using List.reverseRecOn with
  | nil => exact ⟨rfl, rfl⟩
  | append_singleton history registration ih =>
    have hsound := sound_ofHistory history
    rw [ofHistory, List.foldl_append, List.foldl_append, List.foldl_append, ← ih.1, ← ih.2]
    exact toList_register hsound registration

/-- The standard vocabulary has come about by registering its constants and functions in order. -/
theorem ofHistory_standard (sample : Float) :
    ofHistory ((Standard.constants.map fun entry => .addConstant entry.1 entry.2) ++
      (Standard.functions sample).map fun entry => .addFunction entry.1 entry.2) =
        standard sample := rfl

/-! ### Names in another order -/

/-- Whether no name of a list is the beginning of another. -/
def PrefixFree (names : List String) : Prop :=
  ∀ name ∈ names, ∀ other ∈ names, name.toList <+: other.toList → name = other

instance (names : List String) : Decidable (PrefixFree names) :=
  inferInstanceAs (Decidable (∀ name ∈ names, ∀ other ∈ names,
    name.toList <+: other.toList → name = other))

/-- The only function at the beginning of a fragment is the only one in any order. -/
theorem functionAt?_perm (h : vocabulary.functions.toList.Perm vocabulary'.functions.toList)
    (s : Fragment) : vocabulary.functionAt? s = vocabulary'.functionAt? s := by
  have hfilter := h.filter fun entry => beginsWith s entry.1
  rw [functionAt?, functionAt?]
  generalize vocabulary.functions.toList.filter (fun entry => beginsWith s entry.1) = l
    at hfilter ⊢
  generalize vocabulary'.functions.toList.filter (fun entry => beginsWith s entry.1) = l'
    at hfilter ⊢
  have hlength := hfilter.length_eq
  cases l with
  | nil => rw [List.nil_perm.mp hfilter]
  | cons entry l =>
    cases l with
    | nil => rw [List.perm_singleton.mp hfilter.symm]
    | cons other l =>
      -- the other list has several entries as well
      cases l' with
      | nil => exact absurd hlength (by simp)
      | cons entry' l' =>
        cases l' with
        | nil => exact absurd hlength (by simp)
        | cons other' l' => rfl

/-- Where one element at most passes, it is found in any order. -/
theorem find?_perm {β : Type} {l l' : List β} (h : l.Perm l') {p : β → Bool}
    (honly : ∀ x ∈ l, ∀ y ∈ l, p x = true → p y = true → x = y) : l.find? p = l'.find? p := by
  cases hfind : l.find? p with
  | none =>
    rw [List.find?_eq_none] at hfind
    exact (List.find?_eq_none.mpr fun x hx => hfind x (h.mem_iff.mpr hx)).symm
  | some x =>
    have hx := List.mem_of_find?_eq_some hfind
    have hpx := List.find?_some hfind
    obtain ⟨y, hfind'⟩ := Option.isSome_iff_exists.mp
      (List.find?_isSome.mpr ⟨x, h.mem_iff.mp hx, hpx⟩)
    have hy := h.mem_iff.mpr (List.mem_of_find?_eq_some hfind')
    rw [hfind', honly x hx y hy hpx (List.find?_some hfind')]

/-- Of two names at the beginning of a fragment one is the beginning of the other. -/
theorem PrefixFree.eq_of_beginsWith {names : List String} (h : PrefixFree names) {s : Fragment}
    {name other : String} (hname : name ∈ names) (hother : other ∈ names)
    (hs : beginsWith s name = true) (hs' : beginsWith s other = true) : name = other := by
  rcases List.prefix_or_prefix_of_prefix (beginsWith_iff.mp hs).2 (beginsWith_iff.mp hs').2
    with hpre | hpre
  · exact h name hname other hother hpre
  · exact (h other hother name hname hpre).symm

theorem constantAt?_perm (hsound : vocabulary.Sound)
    (hfree : PrefixFree vocabulary.constants.names)
    (h : vocabulary.constants.toList.Perm vocabulary'.constants.toList) (s : Fragment) :
    vocabulary.constantAt? s = vocabulary'.constantAt? s := by
  refine find?_perm h fun entry hentry other hother hs hs' => ?_
  have hname := hfree.eq_of_beginsWith (List.mem_map_of_mem hentry) (List.mem_map_of_mem hother)
    hs hs'
  exact List.inj_on_of_nodup_map hsound.constants.nodup hentry hother hname

theorem names_perm (hconstants : vocabulary.constants.toList.Perm vocabulary'.constants.toList)
    (hfunctions : vocabulary.functions.toList.Perm vocabulary'.functions.toList) :
    vocabulary.names.Perm vocabulary'.names :=
  (hconstants.map Prod.fst).append (hfunctions.map Prod.fst)

/-! ### Vocabularies that are alike -/

/-- Whether two vocabularies have the same names and recognise the same at the beginning of every
fragment. -/
structure Alike (vocabulary vocabulary' : Vocabulary α) : Prop where
  functionAt? : ∀ s, vocabulary.functionAt? s = vocabulary'.functionAt? s
  constantAt? : ∀ s, vocabulary.constantAt? s = vocabulary'.constantAt? s
  isTaken : ∀ name, vocabulary.isTaken name = vocabulary'.isTaken name
  names : vocabulary.names.Perm vocabulary'.names

/-- Vocabularies with the same entries in another order recognise the same, as far as the order does
not count. -/
theorem alike_of_perm (hsound : vocabulary.Sound) (hsound' : vocabulary'.Sound)
    (hfunctions : vocabulary.functions.toList.Perm vocabulary'.functions.toList)
    (hconstants : vocabulary.constants.toList = vocabulary'.constants.toList ∨
      vocabulary.constants.toList.Perm vocabulary'.constants.toList ∧
        PrefixFree vocabulary.constants.names) : Alike vocabulary vocabulary' := by
  have hnames : vocabulary.names.Perm vocabulary'.names := by
    refine names_perm ?_ hfunctions
    rcases hconstants with heq | ⟨hperm, -⟩
    · exact .of_eq heq
    · exact hperm
  refine ⟨functionAt?_perm hfunctions, fun s => ?_, fun name => ?_, hnames⟩
  · rcases hconstants with heq | ⟨hperm, hfree⟩
    · rw [constantAt?, constantAt?, heq]
    · exact constantAt?_perm hsound hfree hperm s
  · rw [Bool.eq_iff_iff, isTaken_iff hsound, isTaken_iff hsound', hnames.mem_iff]

namespace Alike

theorem depthBound (h : Alike vocabulary vocabulary') (s : Fragment) :
    Parser.depthBound vocabulary s = Parser.depthBound vocabulary' s := by
  have hnames : vocabulary.namesPlaceholders = vocabulary'.namesPlaceholders :=
    h.names.any_eq
  have hlongest : vocabulary.longestName = vocabulary'.longestName :=
    (h.names.map String.length).foldr_eq 0
  rw [Parser.depthBound, Parser.depthBound, hnames, hlongest]

variable [Zero α] [Numeral α]

theorem interpret (h : Alike vocabulary vocabulary') :
    Parser.interpret vocabulary = Parser.interpret vocabulary' := by
  have hname : ∀ s, Parser.isVariableName vocabulary s = Parser.isVariableName vocabulary' s := by
    intro s
    cases s with
    | nil => rfl
    | cons c s => rw [Parser.isVariableName, Parser.isVariableName, h.isTaken]
  have hoperand : Parser.interpretOperand vocabulary = Parser.interpretOperand vocabulary' := by
    funext s
    rw [Parser.interpretOperand, Parser.interpretOperand, h.functionAt?, h.constantAt?, hname]
  funext s
  rw [Parser.interpret, Parser.interpret, hoperand]

/-- Alike vocabularies read every fragment alike, with any bound on the nesting. -/
theorem fragment (h : Alike vocabulary vocabulary') (depth : Nat) :
    Parser.fragment vocabulary depth = Parser.fragment vocabulary' depth := by
  induction depth with
  | zero => rfl
  | succ depth ih =>
    funext s
    rw [Parser.fragment, Parser.fragment, h.interpret, ih]

theorem parse (h : Alike vocabulary vocabulary') (text : String) :
    Parser.parse vocabulary text = Parser.parse vocabulary' text := by
  rw [Parser.parse_eq_map, Parser.parse_eq_map, h.depthBound, h.fragment]

end Alike

/-- The order in which functions have been registered does not matter for any text, and neither does
that of constants of which none begins with the name of another. -/
theorem parse_ofHistory [Zero α] [Numeral α] {history history' : List (Registration α)}
    (hfunctions : (ofHistory history).functions.toList.Perm (ofHistory history').functions.toList)
    (hconstants : (ofHistory history).constants.toList = (ofHistory history').constants.toList ∨
      (ofHistory history).constants.toList.Perm (ofHistory history').constants.toList ∧
        PrefixFree (ofHistory history).constants.names) :
    (∀ text, Parser.parse (ofHistory history) text = Parser.parse (ofHistory history') text) ∧
      ∀ depth s st, (Parser.fragment (ofHistory history) depth s).run st =
        (Parser.fragment (ofHistory history') depth s).run st := by
  have h := alike_of_perm (sound_ofHistory history) (sound_ofHistory history') hfunctions
    hconstants
  refine ⟨h.parse, fun depth s st => ?_⟩
  rw [h.fragment]

/-- In the second history the functions and the constants come in the other order, one function is
replaced and another taken out. -/
theorem parse_ofHistory_logarithms :
    let history : List (Registration Float) :=
      [.addFunction "log" Standard.log, .addFunction "log10" (Standard.unary Float.log10),
        .addConstant "PI" Standard.pi, .addConstant "e" Standard.e]
    let history' : List (Registration Float) :=
      [.addConstant "e" Standard.e, .addFunction "log10" Standard.log,
        .addFunction "round" Standard.round, .addFunction "log" Standard.log,
        .removeFunction "round", .addFunction "log10" (Standard.unary Float.log10),
        .addConstant "PI" Standard.pi]
    (ofHistory history).functions.toList.Perm (ofHistory history').functions.toList ∧
      ((ofHistory history).constants.toList = (ofHistory history').constants.toList ∨
        (ofHistory history).constants.toList.Perm (ofHistory history').constants.toList ∧
          PrefixFree (ofHistory history).constants.names) ∧
      (∀ text, Parser.parse (ofHistory history) text = Parser.parse (ofHistory history') text) ∧
      ∀ depth s st, (Parser.fragment (ofHistory history) depth s).run st =
        (Parser.fragment (ofHistory history') depth s).run st := by
  intro history history'
  have hfunctions : (ofHistory history).functions.toList.Perm
      (ofHistory history').functions.toList := by
    rw [(toList_ofHistory history).2, (toList_ofHistory history').2]
    exact .swap ("log10", Standard.unary Float.log10) ("log", Standard.log) []
  have hconstants : (ofHistory history).constants.toList.Perm
        (ofHistory history').constants.toList ∧
      PrefixFree (ofHistory history).constants.names := by
    rw [NameTable.names, (toList_ofHistory history).1, (toList_ofHistory history').1]
    exact ⟨.swap ("e", Standard.e) ("PI", Standard.pi) [],
      show PrefixFree ["PI", "e"] by decide⟩
  exact ⟨hfunctions, Or.inr hconstants, parse_ofHistory hfunctions (Or.inr hconstants)⟩

end Vocabulary

end Formula
