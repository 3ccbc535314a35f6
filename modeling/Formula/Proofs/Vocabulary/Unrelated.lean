import Formula.Proofs.Parser.Origin
import Formula.Proofs.Vocabulary.Order

/-!
# Names that are not in the text

Reading a text asks the vocabulary about pieces of the text only: a name is looked for in a fragment
up to its first placeholder, and the name of a variable is a fragment without placeholders. So two
vocabularies that give the same answers about all pieces of a text read it alike (`AlikeIn.parse`).

A name that does not occur in a text is at the beginning of no piece of it and is no piece of it
itself. Whatever is registered for such a name does not change how the text is read
(`parse_register_of_absent`).
-/

namespace Formula

open Outline (Masked)

/-- Without a placeholder in a fragment there is no group in its outline. -/
theorem Outline.Masked.firstGroup?_eq_none {groups : Groups} {o : Outline} {s : Fragment}
    (h : Masked groups o s) (hinterior : placeholderInterior? s = none) : o.firstGroup? = none := by
  cases hgroup : o.firstGroup? with
  | none => rfl
  | some inner =>
    obtain ⟨index, rest, rfl, -⟩ := h.eq_front_append hgroup
    refine absurd ?_ (placeholderInterior?_eq_none_iff.mp hinterior o.front
      (Nat.toDigits 10 index) rest)
    simp [placeholder]

/-! ### Changes of one name -/

namespace Entries

variable {β : Type} {entries : Entries β} {name : String} {p : String × β → Bool}

section

variable (hp : ∀ value, p (name, value) = false)
include hp

theorem filter_map_replace (entries : Entries β) (value : β) :
    (entries.map fun entry => if entry.1 = name then (name, value) else entry).filter p =
      entries.filter p := by
  induction entries with
  | nil => rfl
  | cons entry entries ih =>
    obtain ⟨other, old⟩ := entry
    rw [List.map_cons, List.filter_cons, List.filter_cons, ih]
    by_cases hother : other = name
    · subst hother
      simp [hp]
    · rw [if_neg hother]

/-- A new value of a name does not count for a test that the name fails. -/
theorem filter_enter (value : β) : (entries.enter name value).filter p = entries.filter p := by
  unfold enter
  split
  · exact filter_map_replace hp entries value
  · rw [List.filter_append, List.filter_cons_of_neg (by simp [hp]), List.filter_nil,
      List.append_nil]

/-- Taking out a name leaves the entries that are not of this name. -/
theorem filter_remove : (entries.remove name).filter p = entries.filter p := by
  rw [remove, List.filter_filter]
  apply List.filter_congr
  rintro ⟨other, value⟩ -
  by_cases hother : other = name
  · simp [hother, hp]
  · simp [hother]

end

/-- Entries that differ in one name only have the same other names. -/
theorem mem_names_congr {entries' : Entries β} (hfilter : ∀ p : String × β → Bool,
      (∀ value, p (name, value) = false) → entries'.filter p = entries.filter p)
    {other : String} (hne : other ≠ name) : other ∈ entries'.names ↔ other ∈ entries.names := by
  have hiff : ∀ l : Entries β, other ∈ l.names ↔ l.filter (fun entry => entry.1 = other) ≠ [] := by
    intro l
    simp [names]
  rw [hiff, hiff, hfilter _ fun _ => decide_eq_false hne.symm]

end Entries

namespace Registration

variable {α : Type} {registration : Registration α}

/-- The name that a change is about. -/
def name : Registration α → String
  | .addConstant name _ | .addFunction name _ | .removeConstant name | .removeFunction name => name

theorem filter_changeConstants {p : String × α → Bool}
    (hp : ∀ value, p (registration.name, value) = false) (entries : Entries α) :
    (registration.changeConstants entries).filter p = entries.filter p :=
  match registration with
  | .addConstant _ value => Entries.filter_enter hp value
  | .removeConstant _ => Entries.filter_remove hp
  | .addFunction _ _ | .removeFunction _ => rfl

theorem filter_changeFunctions {p : String × (List α → α) → Bool}
    (hp : ∀ apply, p (registration.name, apply) = false) (entries : Entries (List α → α)) :
    (registration.changeFunctions entries).filter p = entries.filter p :=
  match registration with
  | .addFunction _ apply => Entries.filter_enter hp apply
  | .removeFunction _ => Entries.filter_remove hp
  | .addConstant _ _ | .removeConstant _ => rfl

end Registration

namespace Vocabulary

variable {α : Type} {vocabulary vocabulary' : Vocabulary α}

/-! ### Vocabularies that are alike in a text -/

/-- Whether two vocabularies without an `&` in their names recognise the same in every piece of a
text. -/
structure AlikeIn (text : Fragment) (vocabulary vocabulary' : Vocabulary α) : Prop where
  amp : ∀ name ∈ vocabulary.names, '&' ∉ name.toList
  amp' : ∀ name ∈ vocabulary'.names, '&' ∉ name.toList
  functionAt? : ∀ s, s <:+: text → vocabulary.functionAt? s = vocabulary'.functionAt? s
  constantAt? : ∀ s, s <:+: text → vocabulary.constantAt? s = vocabulary'.constantAt? s
  isTaken : ∀ s, s <:+: text →
    vocabulary.isTaken (String.ofList s) = vocabulary'.isTaken (String.ofList s)

theorem namesPlaceholders_eq_false (h : ∀ name ∈ vocabulary.names, '&' ∉ name.toList) :
    vocabulary.namesPlaceholders = false := by
  rw [namesPlaceholders, List.any_eq_false]
  intro name hname
  simpa using h name hname

namespace AlikeIn

variable {text : Fragment}

theorem depthBound (h : AlikeIn text vocabulary vocabulary') (s : Fragment) :
    Parser.depthBound vocabulary s = Parser.depthBound vocabulary' s := by
  rw [Parser.depthBound, Parser.depthBound, namesPlaceholders_eq_false h.amp,
    namesPlaceholders_eq_false h.amp']
  rfl

variable [Zero α] [Numeral α]

/-- A piece of the text is recognised as the same, also when its groups have been set aside. -/
theorem recognise (h : AlikeIn text vocabulary vocabulary') {groups : Groups} {o : Outline}
    {s : Fragment} (hmasked : Masked groups o s) (hsub : o.text <:+: text) :
    Parser.recognise vocabulary s = Parser.recognise vocabulary' s := by
  have hfront := o.front_isPrefix_text.isInfix.trans hsub
  have hfunction : vocabulary.functionAt? s = vocabulary'.functionAt? s := by
    rw [hmasked.functionAt?_eq h.amp, hmasked.functionAt?_eq h.amp', h.functionAt? _ hfront]
  have hconstant : vocabulary.constantAt? s = vocabulary'.constantAt? s := by
    rw [hmasked.constantAt?_eq h.amp, hmasked.constantAt?_eq h.amp', h.constantAt? _ hfront]
  have hoperand : Parser.interpretOperand vocabulary s = Parser.interpretOperand vocabulary' s := by
    unfold Parser.interpretOperand
    rw [hfunction, hconstant]
    cases hinterior : placeholderInterior? s with
    | some interior => rfl
    | none =>
      -- without a placeholder the fragment is the piece of the text itself
      have hs := hmasked.eq_text (hmasked.firstGroup?_eq_none hinterior)
      have hname : Parser.isVariableName vocabulary s = Parser.isVariableName vocabulary' s := by
        cases s with
        | nil => rfl
        | cons c s => rw [Parser.isVariableName, Parser.isVariableName, h.isTaken _ (hs ▸ hsub)]
      rw [hname]
  rw [Parser.recognise, Parser.recognise, hoperand]

theorem interpret (h : AlikeIn text vocabulary vocabulary') {s : Fragment} {st : Parser.State α}
    (hs : Parser.Sited text st s) :
    (Parser.interpret vocabulary s).run st = (Parser.interpret vocabulary' s).run st := by
  rw [Parser.interpret_run, Parser.interpret_run]
  cases hhidden : (st.groups.setAside s.trim).1 with
  | error e => rfl
  | ok hidden =>
    obtain ⟨piece, hpiece, hstands⟩ := hs.stands
    obtain ⟨o, hsub, hmasked⟩ := hstands.masked hhidden
    simp only [Except.bind, h.recognise hmasked (hsub.trans hpiece)]

/-- Vocabularies that are alike in a text read every piece of it alike, with any bound on the
nesting. -/
theorem fragment (h : AlikeIn text vocabulary vocabulary') (depth : Nat) {s : Fragment}
    {st : Parser.State α} (hs : Parser.Sited text st s) :
    (Parser.fragment vocabulary depth s).run st = (Parser.fragment vocabulary' depth s).run st := by
  induction depth generalizing s st with
  | zero => rw [Parser.fragment_zero, Parser.fragment_zero]
  | succ depth ih =>
    rw [Parser.fragment_run, Parser.fragment_run, ← h.interpret hs]
    rcases hstep : (Parser.interpret vocabulary s).run st with e | ⟨reading, st₁⟩
    · simp only [Except.bind]
    · have hparts := Parser.mapM_congr_of_keeps (I := Parser.Sited text) (fun s st => ih)
        (fun s st tree st' hs hrun => Parser.fragment_sited h.amp hs hrun)
        (Parser.interpret_sited h.amp hs hstep).1
      simp only [Except.bind, hparts]

/-- A vocabulary that recognises the same in all pieces of a text parses the text alike. -/
theorem parse {text : String} (h : AlikeIn text.toList vocabulary vocabulary') :
    Parser.parse vocabulary text = Parser.parse vocabulary' text := by
  rw [Parser.parse_eq_map, Parser.parse_eq_map, h.depthBound,
    h.fragment _ (Parser.sited_initial text.toList)]

end AlikeIn

/-! ### Changes that a text does not see -/

section Register

variable {registration : Registration α} (hsound : vocabulary.Sound)
include hsound

/-- A change leaves all other names as they are. -/
theorem mem_names_register {name : String} (hne : name ≠ registration.name) :
    name ∈ (vocabulary.register registration).names ↔ name ∈ vocabulary.names := by
  obtain ⟨hconstants, hfunctions⟩ := toList_register hsound registration
  have hconstant := Entries.mem_names_congr
    (fun _ hp => registration.filter_changeConstants hp vocabulary.constants.toList) hne
  have hfunction := Entries.mem_names_congr
    (fun _ hp => registration.filter_changeFunctions hp vocabulary.functions.toList) hne
  rw [← hconstants] at hconstant
  rw [← hfunctions] at hfunction
  rw [names, names, List.mem_append, List.mem_append]
  exact or_congr hconstant hfunction

/-- A change of a name that does not occur in a text is not seen in the text. -/
theorem alikeIn_register (hnames : ∀ name ∈ vocabulary.names, '&' ∉ name.toList)
    (hname : '&' ∉ registration.name.toList) {text : Fragment}
    (htext : ¬registration.name.toList <:+: text) :
    AlikeIn text vocabulary (vocabulary.register registration) := by
  obtain ⟨hconstants, hfunctions⟩ := toList_register hsound registration
  -- the entry that is changed begins no piece of the text, so that filtering leaves it out
  have hbegins : ∀ s, s <:+: text → beginsWith s registration.name = false := by
    intro s hs
    rw [Bool.eq_false_iff]
    intro hbegins
    exact htext ((beginsWith_iff.mp hbegins).2.isInfix.trans hs)
  constructor
  case amp => exact hnames
  case amp' =>
    intro name hmem
    by_cases hne : name = registration.name
    · exact hne ▸ hname
    · exact hnames name ((mem_names_register hsound hne).mp hmem)
  case functionAt? =>
    intro s hs
    rw [functionAt?, functionAt?, hfunctions,
      registration.filter_changeFunctions fun _ => hbegins s hs]
  case constantAt? =>
    intro s hs
    rw [constantAt?, constantAt?, hconstants, ← List.head?_filter, ← List.head?_filter,
      registration.filter_changeConstants fun _ => hbegins s hs]
  case isTaken =>
    intro s hs
    have hne : String.ofList s ≠ registration.name := by
      intro heq
      rw [← heq, String.toList_ofList] at htext
      exact htext hs
    rw [Bool.eq_iff_iff, isTaken_iff hsound, isTaken_iff (hsound.register registration),
      mem_names_register hsound hne]

end Register

/-- Adding, replacing or taking out a name that does not occur in a text changes nothing about how
the text is read: tree and variables are the same, or the error is, with any bound on the
nesting. -/
theorem parse_register_of_absent [Zero α] [Numeral α] {history : List (Registration α)}
    {registration : Registration α}
    (hnames : ∀ name ∈ (ofHistory history).names, '&' ∉ name.toList)
    (hname : '&' ∉ registration.name.toList) {text : String}
    (htext : ¬registration.name.toList <:+: text.toList) :
    Parser.parse ((ofHistory history).register registration) text =
        Parser.parse (ofHistory history) text ∧
      ∀ depth, (Parser.fragment ((ofHistory history).register registration) depth
          text.toList).run .initial =
        (Parser.fragment (ofHistory history) depth text.toList).run .initial := by
  have halike := alikeIn_register (sound_ofHistory history) hnames hname htext
  exact ⟨halike.parse.symm, fun depth => (halike.fragment depth (Parser.sited_initial _)).symm⟩

/-- A function whose name begins with that of another one, which is in the text. -/
theorem parse_register_of_absent_since :
    let history : List (Registration Float) :=
      (Standard.constants.map fun entry => .addConstant entry.1 entry.2) ++
        (Standard.functions 0.5).map fun entry => .addFunction entry.1 entry.2
    let registration : Registration Float := .addFunction "since" (Standard.unary Float.sin)
    (∀ name ∈ (ofHistory history).names, '&' ∉ name.toList) ∧
      '&' ∉ registration.name.toList ∧ ¬registration.name.toList <:+: "sin(x)+&1".toList ∧
      Parser.parse ((ofHistory history).register registration) "sin(x)+&1" =
        Parser.parse (ofHistory history) "sin(x)+&1" ∧
      ∀ depth, (Parser.fragment ((ofHistory history).register registration) depth
          "sin(x)+&1".toList).run .initial =
        (Parser.fragment (ofHistory history) depth "sin(x)+&1".toList).run .initial := by
  intro history registration
  have hhistory : ofHistory history = standard 0.5 := ofHistory_standard 0.5
  have hnames : ∀ name ∈ (ofHistory history).names, '&' ∉ name.toList :=
    hhistory ▸ amp_notMem_standard 0.5
  have hsince : registration.name = "since" := rfl
  have hname : '&' ∉ registration.name.toList := by
    rw [hsince]
    decide
  have htext : ¬registration.name.toList <:+: "sin(x)+&1".toList := by
    intro hsub
    rw [hsince] at hsub
    have hmem : 'e' ∈ "sin(x)+&1".toList := hsub.subset (by decide)
    exact absurd hmem (by decide)
  exact ⟨hnames, hname, htext, parse_register_of_absent hnames hname htext⟩

end Vocabulary

end Formula
