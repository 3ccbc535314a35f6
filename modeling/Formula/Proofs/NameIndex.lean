import Formula.NameTable
import Formula.Variables
import Formula.Vocabulary
import Formula.Vocabulary.Standard
import Formula.Proofs.Text.Characters
import Mathlib.Data.List.Induction
import Mathlib.Data.List.InsertIdx
import Mathlib.Data.List.Nodup

/-!
# Names and their places

Tables of names and tables of variables both keep a list of names and a hash map that leads from a
name to its place in the list. `Indexes` says that the map is right; it then says of every name
whether it is in the list, and no name is there twice (`Indexes.nodup`).

The operations on both kinds of table keep their maps right: `NameTable.Sound` and
`Variables.Sound`.
-/

namespace Formula

/-- The map leads from every name to its place in the list, and from nothing else. -/
def Indexes (places : Std.HashMap String Nat) (names : List String) : Prop :=
  ∀ (name : String) (place : Nat), places[name]? = some place ↔ names[place]? = some name

namespace Indexes

variable {places : Std.HashMap String Nat} {names : List String} {name : String}

/-- An index leads every name to one place, so that no name comes twice. -/
theorem nodup (h : Indexes places names) : names.Nodup := by
  rw [List.nodup_iff_getElem?_ne_getElem?]
  intro i j hij hj heq
  have hname : names[j]? = some names[j] := List.getElem?_eq_getElem hj
  have hi := (h _ i).mpr (heq.trans hname)
  have hsame : i = j := Option.some.inj (hi.symm.trans ((h _ j).mpr hname))
  omega

theorem exists_place (h : Indexes places names) (hname : name ∈ names) :
    ∃ place, places[name]? = some place ∧ names[place]? = some name := by
  obtain ⟨place, hplace⟩ := List.mem_iff_getElem?.mp hname
  exact ⟨place, (h name place).mpr hplace, hplace⟩

/-- A name without a place is no name of the list, and the other way round. -/
theorem getElem?_eq_none_iff (h : Indexes places names) : places[name]? = none ↔ name ∉ names := by
  constructor
  · intro hnone hmem
    obtain ⟨place, hplace, -⟩ := h.exists_place hmem
    rw [hnone] at hplace
    exact absurd hplace (Option.some_ne_none place).symm
  · intro hname
    rw [Option.eq_none_iff_forall_ne_some]
    intro place hplace
    exact hname (List.mem_of_getElem? ((h name place).mp hplace))

theorem contains_iff (h : Indexes places names) : places.contains name = true ↔ name ∈ names := by
  rw [← not_iff_not, ← h.getElem?_eq_none_iff, Std.HashMap.contains_eq_isSome_getElem?]
  simp

theorem nil : Indexes ∅ [] := by
  intro name place
  simp

/-- A new name gets the place behind all others. -/
theorem concat (h : Indexes places names) (hname : name ∉ names) :
    Indexes (places.insert name names.length) (names ++ [name]) := by
  intro other place
  rw [Std.HashMap.getElem?_insert, List.getElem?_append]
  -- the new name has the place behind all others; for any other name nothing changes
  by_cases hsame : name = other
  · subst hsame
    rw [if_pos (beq_self_eq_true name)]
    by_cases hlt : place < names.length
    · have hother : names[place]? ≠ some name := fun heq => hname (List.mem_of_getElem? heq)
      rw [if_pos hlt]
      exact ⟨fun heq => absurd (Option.some.inj heq) (by omega), fun heq => absurd heq hother⟩
    · rw [if_neg hlt, List.getElem?_singleton]
      constructor
      · intro heq
        have hplace : names.length = place := Option.some.inj heq
        rw [if_pos (by omega)]
      · intro heq
        split at heq
        · exact congrArg some (by omega)
        · simp at heq
  · rw [if_neg (by simpa using hsame), h other place]
    by_cases hlt : place < names.length
    · rw [if_pos hlt]
    · rw [if_neg hlt, List.getElem?_singleton, List.getElem?_eq_none (by omega)]
      split <;> simp [hsame]

/-- Names behind one that is taken out move up. -/
theorem eraseIdx (h : Indexes places names) {place : Nat} (hplace : places[name]? = some place) :
    Indexes ((places.erase name).map fun _ other => if place < other then other - 1 else other)
      (names.eraseIdx place) := by
  have hname := (h name place).mp hplace
  intro other i
  rw [Std.HashMap.getElem?_map, Std.HashMap.getElem?_erase, List.getElem?_eraseIdx]
  by_cases hsame : name = other
  · subst hsame
    rw [if_pos (beq_self_eq_true name), Option.map_none]
    constructor
    · intro heq
      simp at heq
    · intro heq
      -- the name would be in the list twice
      split at heq
      · have hi := Option.some.inj (((h name i).mpr heq).symm.trans hplace)
        omega
      · have hi := Option.some.inj (((h name (i + 1)).mpr heq).symm.trans hplace)
        omega
  · rw [if_neg (by simpa using hsame), Option.map_eq_some_iff]
    have hne : names[place]? ≠ some other := by
      rw [hname]
      exact fun heq => hsame (Option.some.inj heq)
    constructor
    · rintro ⟨j, hj, rfl⟩
      have hj' := (h other j).mp hj
      have hjne : j ≠ place := by
        rintro rfl
        exact hne hj'
      split
      · rw [if_neg (by omega), Nat.sub_add_cancel (by omega), hj']
      · rw [if_pos (by omega), hj']
    · intro heq
      split at heq
      · exact ⟨i, (h other i).mpr heq, by rw [if_neg (by omega)]⟩
      · exact ⟨i + 1, (h other (i + 1)).mpr heq, by rw [if_pos (by omega)]; rfl⟩

end Indexes

/-! ### Tables of names -/

namespace NameTable

variable {α : Type} {table : NameTable α} {name : String} {value : α}

/-- The places of a table are those of its names. -/
def Sound (table : NameTable α) : Prop := Indexes table.places table.names

theorem names_getElem? (table : NameTable α) (place : Nat) :
    table.names[place]? = (table.entries[place]?).map Prod.fst := by
  simp [names, toList]

theorem length_names (table : NameTable α) : table.names.length = table.entries.size := by
  simp [names, toList]

theorem sound_empty : (empty : NameTable α).Sound := Indexes.nil

/-- A name that is there keeps its place. -/
theorem names_insert_of_some {place : Nat} (h : table.places[name]? = some place) :
    (table.insert name value).2.names = table.names := by
  apply List.ext_getElem?
  intro i
  rw [names_getElem?, names_getElem?]
  simp only [insert, h, Array.getElem?_modify]
  cases table.entries[i]? with
  | none => simp
  | some entry => split <;> simp

theorem toList_insert_of_none (h : table.places[name]? = none) :
    (table.insert name value).2.toList = table.toList ++ [(name, value)] := by
  simp [insert, h, toList]

/-- An insertion leaves the index right. A name that is there keeps its place, and a new one gets
the place at the end. -/
theorem sound_insert (h : table.Sound) (name : String) (value : α) :
    (table.insert name value).2.Sound := by
  cases hplace : table.places[name]? with
  | some place =>
    unfold Sound
    rw [names_insert_of_some hplace]
    simp only [insert, hplace]
    exact h
  | none =>
    unfold Sound
    rw [names, toList_insert_of_none hplace, List.map_append]
    simp only [insert, hplace]
    rw [← table.length_names]
    exact h.concat (h.getElem?_eq_none_iff.mp hplace)

/-- A removal leaves the index right: the places behind the one that is taken out move up. -/
theorem sound_erase (h : table.Sound) (name : String) : (table.erase name).2.Sound := by
  cases hplace : table.places[name]? with
  | some place =>
    have hnames : (table.erase name).2.names = table.names.eraseIdx place := by
      simp [erase, hplace, names, toList, List.eraseIdx_map]
    unfold Sound
    rw [hnames]
    simp only [erase, hplace]
    exact h.eraseIdx hplace
  | none => simpa only [erase, hplace] using h

/-- A list of entries with different names is kept as it is. -/
theorem toList_ofList {entries : List (String × α)} (h : (entries.map Prod.fst).Nodup) :
    (ofList entries).Sound ∧ (ofList entries).toList = entries := by
  induction entries using List.reverseRecOn with
  | nil => exact ⟨sound_empty, rfl⟩
  | append_singleton entries entry ih =>
    rw [List.map_append, List.nodup_append] at h
    obtain ⟨hsound, hlist⟩ := ih h.1
    have hnames : (ofList entries).names = entries.map Prod.fst :=
      congrArg (List.map Prod.fst) hlist
    -- the name is not there yet, and so it is put at the end
    have hnew : (ofList entries).places[entry.1]? = none := by
      rw [hsound.getElem?_eq_none_iff, hnames]
      intro hmem
      exact h.2.2 _ hmem _ (List.mem_singleton.mpr rfl) rfl
    have hfold : ofList (entries ++ [entry]) = ((ofList entries).insert entry.1 entry.2).2 := by
      simp [ofList]
    rw [hfold]
    exact ⟨sound_insert hsound _ _, by rw [toList_insert_of_none hnew, hlist]⟩

end NameTable

/-! ### Vocabularies -/

namespace Vocabulary

variable {α : Type} {vocabulary : Vocabulary α}

/-- Both tables of a vocabulary have their places right. -/
structure Sound (vocabulary : Vocabulary α) : Prop where
  constants : vocabulary.constants.Sound
  functions : vocabulary.functions.Sound

theorem sound_empty : (empty : Vocabulary α).Sound :=
  ⟨NameTable.sound_empty, NameTable.sound_empty⟩

theorem sound_addConstant (h : vocabulary.Sound) (name : String) (value : α) :
    (vocabulary.addConstant name value).Sound :=
  ⟨NameTable.sound_insert h.constants name value, h.functions⟩

theorem sound_addFunction (h : vocabulary.Sound) (name : String) (apply : List α → α) :
    (vocabulary.addFunction name apply).Sound :=
  ⟨h.constants, NameTable.sound_insert h.functions name apply⟩

theorem sound_removeConstant (h : vocabulary.Sound) (name : String) :
    (vocabulary.removeConstant name).Sound :=
  ⟨NameTable.sound_erase h.constants name, h.functions⟩

theorem sound_removeFunction (h : vocabulary.Sound) (name : String) :
    (vocabulary.removeFunction name).Sound :=
  ⟨h.constants, NameTable.sound_erase h.functions name⟩

theorem isTaken_iff (h : vocabulary.Sound) {name : String} :
    vocabulary.isTaken name = true ↔ name ∈ vocabulary.names := by
  rw [isTaken, Bool.or_eq_true, NameTable.contains, NameTable.contains, h.constants.contains_iff,
    h.functions.contains_iff, names, List.mem_append]

/-- The standard constants by name. -/
def Standard.constantNames : List String :=
  ["PI", "e", "Infinity", "NegInfinity", "Deg2Rad", "Rad2Deg"]

/-- The standard functions by name. -/
def Standard.functionNames : List String :=
  ["sqrt", "abs", "ln", "floor", "ceil", "round", "exp", "log", "sgn", "sin", "cos", "tan", "asin",
    "acos", "atan", "min", "max", "rnd", "fact", "binom"]

/-- The names of the standard vocabulary are in the order in which they are listed. -/
theorem names_standard (sample : Float) :
    (standard sample).names = Standard.constantNames ++ Standard.functionNames := by
  have hconstants : (Standard.constants.map Prod.fst).Nodup := by
    show Standard.constantNames.Nodup
    decide
  have hfunctions : ((Standard.functions sample).map Prod.fst).Nodup := by
    show Standard.functionNames.Nodup
    decide
  rw [names, NameTable.names, NameTable.names, standard, (NameTable.toList_ofList hconstants).2,
    (NameTable.toList_ofList hfunctions).2]
  rfl

/-- No standard name can be recognised in a placeholder. -/
theorem amp_notMem_standard (sample : Float) :
    ∀ name ∈ (standard sample).names, '&' ∉ name.toList := by
  rw [names_standard]
  decide

/-- No standard name has a blank in it. -/
theorem isBlank_standard (sample : Float) :
    ∀ name ∈ (standard sample).names, ∀ c ∈ name.toList, Text.isBlank c = false := by
  have halnum : ∀ name ∈ Standard.constantNames ++ Standard.functionNames,
      name.toList.all Char.isAlphanum = true := by
    decide
  rw [names_standard]
  exact fun name hname c hc => isBlank_of_isAlphanum (List.all_eq_true.mp (halnum name hname) c hc)

end Vocabulary

end Formula
