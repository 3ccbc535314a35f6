import Formula.Vocabulary
import Mathlib.Data.List.Basic

/-!
# Recognising names

What it takes for a name to be recognised at the beginning of a fragment.

* `functionAt?_length`: a recognised function takes at least one character off the fragment.
* `functionAt?_append_cons` and `constantAt?_append_cons`: behind a character that is in no name,
  nothing matters.
-/

namespace Formula.Vocabulary

variable {α : Type} {vocabulary : Vocabulary α}

theorem beginsWith_iff {s : Fragment} {name : String} :
    beginsWith s name = true ↔ name ≠ "" ∧ name.toList <+: s := by
  simp [beginsWith]

/-- The function that is recognised is registered, and its name is at the beginning. -/
theorem mem_functions_of_functionAt? {s : Fragment} {entry : String × (List α → α)}
    (h : vocabulary.functionAt? s = some entry) :
    entry ∈ vocabulary.functions.toList ∧ beginsWith s entry.1 = true := by
  unfold functionAt? at h
  split at h
  · rename_i entry' hfilter
    obtain rfl := Option.some.inj h
    have hmem : entry' ∈ vocabulary.functions.toList.filter
        fun entry => beginsWith s entry.1 := by
      rw [hfilter]
      exact List.mem_cons_self
    exact List.mem_filter.mp hmem
  · simp at h

/-- The name that is recognised is not empty, so that what is left behind it is shorter. -/
theorem functionAt?_length {s : Fragment} {name : String} {apply : List α → α}
    (h : vocabulary.functionAt? s = some (name, apply)) :
    0 < name.length ∧ name.length ≤ s.length := by
  obtain ⟨hne, hpre⟩ := beginsWith_iff.mp (mem_functions_of_functionAt? h).2
  have hle := hpre.length_le
  rw [String.length_toList] at hle
  refine ⟨?_, hle⟩
  rw [Nat.pos_iff_ne_zero]
  intro hzero
  exact hne (String.length_eq_zero_iff.mp hzero)

/-- A name that lacks a character is recognised in front of the character or not at all. -/
theorem beginsWith_append_cons {c : Char} {name : String} (h : c ∉ name.toList)
    (s rest : Fragment) : beginsWith (s ++ c :: rest) name = beginsWith s name := by
  rw [Bool.eq_iff_iff, beginsWith_iff, beginsWith_iff, and_congr_right_iff]
  intro _
  constructor
  · rintro ⟨t, ht⟩
    rcases List.append_eq_append_iff.mp ht with ⟨a, hs, -⟩ | ⟨a, hname, hrest⟩
    · exact ⟨a, hs.symm⟩
    · cases a with
      | nil => exact ⟨[], by rw [hname, List.append_nil, List.append_nil]⟩
      | cons d a =>
        -- the name would reach over `c`
        obtain rfl : c = d := (List.cons.inj hrest).1
        exact absurd (by rw [hname]; simp) h
  · intro hpre
    exact hpre.trans (List.prefix_append _ _)

theorem mem_names_of_mem_functions {entry : String × (List α → α)}
    (h : entry ∈ vocabulary.functions.toList) : entry.1 ∈ vocabulary.names :=
  List.mem_append_right _ (List.mem_map_of_mem h)

theorem mem_names_of_mem_constants {entry : String × α}
    (h : entry ∈ vocabulary.constants.toList) : entry.1 ∈ vocabulary.names :=
  List.mem_append_left _ (List.mem_map_of_mem h)

theorem functionAt?_eq_none {s : Fragment}
    (h : ∀ name ∈ vocabulary.functions.names, beginsWith s name = false) :
    vocabulary.functionAt? s = none := by
  have hfilter : vocabulary.functions.toList.filter (fun entry => beginsWith s entry.1) = [] := by
    rw [List.filter_eq_nil_iff]
    intro entry hentry
    simpa using h entry.1 (List.mem_map_of_mem hentry)
  rw [functionAt?, hfilter]

theorem constantAt?_eq_none {s : Fragment}
    (h : ∀ name ∈ vocabulary.constants.names, beginsWith s name = false) :
    vocabulary.constantAt? s = none := by
  rw [constantAt?, List.find?_eq_none]
  intro entry hentry
  simpa using h entry.1 (List.mem_map_of_mem hentry)

theorem recognises_nothing {s : Fragment}
    (h : ∀ name ∈ vocabulary.names, beginsWith s name = false) :
    vocabulary.functionAt? s = none ∧ vocabulary.constantAt? s = none :=
  ⟨functionAt?_eq_none fun name hname => h name (List.mem_append_right _ hname),
    constantAt?_eq_none fun name hname => h name (List.mem_append_left _ hname)⟩

theorem beginsWith_nil (name : String) : beginsWith [] name = false := by
  rw [Bool.eq_false_iff]
  intro h
  obtain ⟨hne, hpre⟩ := beginsWith_iff.mp h
  exact hne (String.toList_eq_nil_iff.mp (List.prefix_nil.mp hpre))

theorem functionAt?_nil : vocabulary.functionAt? [] = none :=
  functionAt?_eq_none fun name _ => beginsWith_nil name

theorem constantAt?_nil : vocabulary.constantAt? [] = none :=
  constantAt?_eq_none fun name _ => beginsWith_nil name

variable {c : Char} (hnames : ∀ name ∈ vocabulary.names, c ∉ name.toList)
include hnames

/-- A character that is in no name ends what can be recognised: what is behind it does not count. -/
theorem functionAt?_append_cons (s rest : Fragment) :
    vocabulary.functionAt? (s ++ c :: rest) = vocabulary.functionAt? s := by
  have hfilter : vocabulary.functions.toList.filter
        (fun entry => beginsWith (s ++ c :: rest) entry.1) =
      vocabulary.functions.toList.filter fun entry => beginsWith s entry.1 := by
    apply List.filter_congr
    intro entry hentry
    exact beginsWith_append_cons (hnames _ (mem_names_of_mem_functions hentry)) s rest
  rw [functionAt?, functionAt?, hfilter]

/-- As for functions, what is behind a character that is in no name does not count. -/
theorem constantAt?_append_cons (s rest : Fragment) :
    vocabulary.constantAt? (s ++ c :: rest) = vocabulary.constantAt? s := by
  unfold constantAt?
  rw [← List.head?_filter, ← List.head?_filter]
  congr 1
  apply List.filter_congr
  intro entry hentry
  exact beginsWith_append_cons (hnames _ (mem_names_of_mem_constants hentry)) s rest

end Formula.Vocabulary
