import Formula.Proofs.Grammar
import Formula.Proofs.Recognition
import Formula.Proofs.Text.Characters

/-!
# Recognising the words of the grammar

In a distinct vocabulary every name is recognised where it stands (`functionAt?_name`,
`constantAt?_name`) and nothing where no letter begins (`recognises_nothing_of_isAlpha_eq_false`). A
word without a name at its beginning may be a variable (`isVariableName_of_free`), and a numeral
without an exponent is read as the decimal that it writes (`ofFragment?_whole`,
`ofFragment?_decimal`).
-/

namespace Formula

namespace IsWord

variable {s : Fragment}

/-- All characters of a word are letters or digits. -/
theorem isAlphanum (h : IsWord s) {c : Char} (hc : c ∈ s) : c.isAlphanum = true := by
  cases s with
  | nil => exact h.elim
  | cons first rest =>
    rcases List.mem_cons.mp hc with rfl | hc
    · simp [Char.isAlphanum, h.1]
    · exact h.2 c hc

theorem ne_nil (h : IsWord s) : s ≠ [] := by
  rintro rfl
  exact h

/-- A text that begins with a word begins with a letter. -/
theorem isAlpha_of_prefix_cons (h : IsWord s) {c : Char} {t : Fragment} (hpre : s <+: c :: t) :
    c.isAlpha = true := by
  cases s with
  | nil => exact h.elim
  | cons first rest =>
    obtain ⟨rfl, -⟩ := List.cons_prefix_cons.mp hpre
    exact h.1

end IsWord

/-! ### Numerals -/

namespace Decimal

/-- Digits are taken up to the first character that is none. -/
theorem spanDigits_append {digits rest : Fragment} (h : ∀ c ∈ digits, c.isDigit = true)
    (hrest : ∀ c ∈ rest.head?, c.isDigit = false) :
    spanDigits (digits ++ rest) = (digits, rest) := by
  have htake : rest.takeWhile Char.isDigit = [] := by
    cases rest with
    | nil => rfl
    | cons c rest => simp [hrest c rfl]
  have hdrop : rest.dropWhile Char.isDigit = rest := by
    cases rest with
    | nil => rfl
    | cons c rest => simp [hrest c rfl]
  rw [spanDigits, List.takeWhile_append_of_pos h, List.dropWhile_append_of_pos h, htake, hdrop,
    List.append_nil]

theorem spanDigits_of_isDigit {digits : Fragment} (h : ∀ c ∈ digits, c.isDigit = true) :
    spanDigits digits = (digits, []) := by
  have hspan : spanDigits (digits ++ []) = (digits, []) := spanDigits_append h (by simp)
  rwa [List.append_nil] at hspan

theorem ofFragment?_whole {digits : Fragment} (h : ∀ c ∈ digits, c.isDigit = true)
    (hne : digits ≠ []) : ofFragment? digits = some ⟨Nat.ofDigitChars 10 digits 0, 0⟩ := by
  simp [ofFragment?, spanDigits_of_isDigit h, hne, exponent?]

/-- Digits with one point among them, in front or at the end too, are a number with as many decimals
as there are digits behind the point. -/
theorem ofFragment?_decimal {whole fraction : Fragment}
    (h : ∀ c ∈ whole ++ fraction, c.isDigit = true) (hne : whole ++ fraction ≠ []) :
    ofFragment? (whole ++ '.' :: fraction) =
      some ⟨Nat.ofDigitChars 10 (whole ++ fraction) 0, -fraction.length⟩ := by
  have hwhole : spanDigits (whole ++ '.' :: fraction) = (whole, '.' :: fraction) :=
    spanDigits_append (fun c hc => h c (List.mem_append_left _ hc)) (by simp)
  have hfraction : spanDigits fraction = (fraction, []) :=
    spanDigits_of_isDigit fun c hc => h c (List.mem_append_right _ hc)
  have hne' : ¬(whole = [] ∧ fraction = []) := by simpa using hne
  simp [ofFragment?, hwhole, hfraction, hne', exponent?]

/-- No numeral begins with a letter. -/
theorem ofFragment?_of_isAlpha {c : Char} {s : Fragment} (h : c.isAlpha = true) :
    ofFragment? (c :: s) = none := by
  have hdigit : c.isDigit = false := by
    by_contra hc
    rw [isAlpha_eq_false_of_isDigit (by simpa using hc)] at h
    exact nomatch h
  have hpoint : c ≠ '.' := by
    rintro rfl
    revert h
    decide
  have hspan : spanDigits (c :: s) = ([], c :: s) := by simp [spanDigits, hdigit]
  simp [ofFragment?, hspan, hpoint]

end Decimal

/-! ### Recognition -/

/-- One entry of a list with different names is kept when only its name passes. -/
theorem filter_eq_singleton {β : Type} {entries : List (String × β)} {p : String × β → Bool}
    {entry : String × β} (hnodup : (entries.map Prod.fst).Nodup) (hmem : entry ∈ entries)
    (hentry : p entry = true) (hp : ∀ other ∈ entries, p other = true → other.1 = entry.1) :
    entries.filter p = [entry] := by
  obtain ⟨l, r, rfl⟩ := List.append_of_mem hmem
  rw [List.map_append, List.map_cons, List.nodup_middle, List.nodup_cons] at hnodup
  -- no other entry has the name
  have hnot : ∀ other, other ∈ l ∨ other ∈ r → other.1 ≠ entry.1 := by
    intro other hother heq
    apply hnodup.1
    rw [← heq, ← List.map_append]
    exact List.mem_map_of_mem (List.mem_append.mpr hother)
  have hl : l.filter p = [] := by
    rw [List.filter_eq_nil_iff]
    intro other hother hpass
    exact hnot other (Or.inl hother) (hp other (List.mem_append_left _ hother) hpass)
  have hr : r.filter p = [] := by
    rw [List.filter_eq_nil_iff]
    intro other hother hpass
    exact hnot other (Or.inr hother)
      (hp other (List.mem_append_right _ (List.mem_cons_of_mem _ hother)) hpass)
  rw [List.filter_append, List.filter_cons_of_pos hentry, hl, hr, List.nil_append]

namespace Vocabulary.Distinct

variable {β : Type} {vocabulary : Vocabulary β}

theorem word_of_function (h : vocabulary.Distinct) {name : String}
    (hname : name ∈ vocabulary.functions.names) : IsWord name.toList :=
  h.word name (List.mem_append_right _ hname)

theorem word_of_constant (h : vocabulary.Distinct) {name : String}
    (hname : name ∈ vocabulary.constants.names) : IsWord name.toList :=
  h.word name (List.mem_append_left _ hname)

/-- A name is at the beginning of whatever follows it. -/
theorem beginsWith_self (h : vocabulary.Distinct) {name : String} (hname : name ∈ vocabulary.names)
    (s : Fragment) : beginsWith (name.toList ++ s) name = true := by
  rw [beginsWith_iff]
  refine ⟨?_, List.prefix_append _ _⟩
  rintro rfl
  exact (h.word _ hname).ne_nil rfl

/-- Blanks behind a text do not make a name out of it. -/
theorem prefix_of_blank (h : vocabulary.Distinct) {name : String} (hname : name ∈ vocabulary.names)
    {s b : Fragment} (hb : b.allBlank = true) (hbegins : beginsWith (s ++ b) name = true) :
    name.toList <+: s := by
  cases b with
  | nil => simpa using (beginsWith_iff.mp hbegins).2
  | cons c b =>
    have hc : Text.isBlank c = true := List.all_eq_true.mp hb c List.mem_cons_self
    have hnot : c ∉ name.toList := by
      intro hmem
      rw [isBlank_of_isAlphanum ((h.word name hname).isAlphanum hmem)] at hc
      exact nomatch hc
    rw [beginsWith_append_cons hnot] at hbegins
    exact (beginsWith_iff.mp hbegins).2

/-- A function is recognised by its name, since no other function name is at the beginning as well.
-/
theorem functionAt?_name (h : vocabulary.Distinct) {name : String} {apply : List β → β}
    (hname : (name, apply) ∈ vocabulary.functions.toList) {b : Fragment} (hb : b.allBlank = true) :
    vocabulary.functionAt? (name.toList ++ b) = some (name, apply) := by
  have hmem : name ∈ vocabulary.functions.names := List.mem_map_of_mem (f := Prod.fst) hname
  have hfilter : vocabulary.functions.toList.filter
      (fun entry => beginsWith (name.toList ++ b) entry.1) = [(name, apply)] := by
    refine filter_eq_singleton h.sound.functions.nodup hname
      (h.beginsWith_self (List.mem_append_right _ hmem) b) ?_
    intro other hother hbegins
    have hother' : other.1 ∈ vocabulary.functions.names := List.mem_map_of_mem hother
    have hpre := h.prefix_of_blank (List.mem_append_right _ hother') hb hbegins
    exact h.functions other.1 hother' name hmem hpre
  rw [functionAt?, hfilter]

/-- A constant is recognised by its name, since no function name and no other constant name is at
the beginning. -/
theorem constantAt?_name (h : vocabulary.Distinct) {name : String} {value : β}
    (hname : (name, value) ∈ vocabulary.constants.toList) :
    vocabulary.functionAt? name.toList = none ∧
      vocabulary.constantAt? name.toList = some (name, value) := by
  have hmem : name ∈ vocabulary.constants.names := List.mem_map_of_mem (f := Prod.fst) hname
  constructor
  · apply functionAt?_eq_none
    intro other hother
    rw [Bool.eq_false_iff]
    intro hbegins
    exact h.functions_constants other hother name hmem (beginsWith_iff.mp hbegins).2
  · have hself := h.beginsWith_self (List.mem_append_left _ hmem) []
    rw [List.append_nil] at hself
    rw [constantAt?, ← List.head?_filter, filter_eq_singleton h.sound.constants.nodup hname hself]
    · rfl
    · intro other hother hbegins
      have hother' : other.1 ∈ vocabulary.constants.names := List.mem_map_of_mem hother
      exact h.constants other.1 hother' name hmem (beginsWith_iff.mp hbegins).2

/-- No name is recognised where no letter begins. -/
theorem recognises_nothing_of_isAlpha_eq_false (h : vocabulary.Distinct) {c : Char} {s : Fragment}
    (hc : c.isAlpha = false) :
    vocabulary.functionAt? (c :: s) = none ∧ vocabulary.constantAt? (c :: s) = none := by
  apply recognises_nothing
  intro name hname
  rw [Bool.eq_false_iff]
  intro hbegins
  rw [(h.word name hname).isAlpha_of_prefix_cons (beginsWith_iff.mp hbegins).2] at hc
  exact nomatch hc

/-- Nothing is recognised in a name that begins with no registered one. -/
theorem recognises_nothing_of_free {name : Fragment}
    (hfree : ∀ other ∈ vocabulary.names, ¬other.toList <+: name) :
    vocabulary.functionAt? name = none ∧ vocabulary.constantAt? name = none := by
  apply recognises_nothing
  intro other hother
  rw [Bool.eq_false_iff]
  intro hbegins
  exact hfree other hother (beginsWith_iff.mp hbegins).2

/-- A word with no name at its beginning may be the name of a variable. -/
theorem isVariableName_of_free (h : vocabulary.Distinct) {name : Fragment} (hword : IsWord name)
    (hfree : ∀ other ∈ vocabulary.names, ¬other.toList <+: name) :
    Parser.isVariableName vocabulary name = true := by
  have htaken : vocabulary.isTaken (String.ofList name) = false := by
    rw [Bool.eq_false_iff]
    intro htaken
    have hmem := (isTaken_iff h.sound).mp htaken
    exact hfree _ hmem (by simp)
  cases name with
  | nil => exact hword.elim
  | cons first rest =>
    have hrest : ∀ c ∈ rest, Text.isBlank c = false := fun c hc =>
      isBlank_of_isAlphanum (hword.2 c hc)
    simp only [Parser.isVariableName, Parser.beginsName, hword.1, htaken]
    simpa using hrest

end Vocabulary.Distinct

end Formula
