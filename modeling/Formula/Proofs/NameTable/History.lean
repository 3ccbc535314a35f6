import Formula.Proofs.NameIndex

/-!
# Tables of names as lists

A table of names keeps its entries in an array and their places in a hash map. Whatever has been
entered and erased, it stands for one list of entries with different names (`Represents`): a name
that is there keeps its place, a new one goes behind the others, and one that is erased leaves the
order of the others as it was. `Edit` is a change of either, and `Edit.run` a history of changes
with the values they have told.

A sound table represents the list of its entries (`Sound.represents`), and an edit does to the
entries what it does to the list (`edit_eq`). `run_represents` says so of every history.
-/

namespace Formula

/-! ### Lists of entries -/

/-- Named values in order. -/
abbrev Entries (α : Type) := List (String × α)

/-- A change of a table of names. -/
inductive Edit (α : Type) where
  /-- Gives a name a value. -/
  | insert (name : String) (value : α)
  /-- Takes a name out. -/
  | erase (name : String)

namespace Entries

variable {α : Type}

/-- The names in order. -/
def names (entries : Entries α) : List String := entries.map Prod.fst

/-- The entries with `value` for `name`: in the place of its entry if it has one, and behind all
others if not. -/
def enter (entries : Entries α) (name : String) (value : α) : Entries α :=
  if name ∈ entries.names then
    entries.map fun entry => if entry.1 = name then (name, value) else entry
  else
    entries ++ [(name, value)]

/-- The entries of all other names. -/
def remove (entries : Entries α) (name : String) : Entries α :=
  entries.filter fun entry => entry.1 ≠ name

/-- The entries after an edit, and the value that the name had. -/
def edit (entries : Entries α) : Edit α → Option α × Entries α
  | .insert name value => (entries.lookup name, entries.enter name value)
  | .erase name => (entries.lookup name, entries.remove name)

variable {l r : Entries α} {name : String} {value old : α}

theorem lookup_of_notMem {entries : Entries α} (h : name ∉ entries.names) :
    entries.lookup name = none := by
  rw [List.lookup_eq_none_iff]
  intro entry hentry
  rw [bne_iff_ne]
  rintro rfl
  exact h (List.mem_map_of_mem hentry)

/-- The entry of a name is found where it stands, if the name is not in front of it. -/
theorem lookup_append_cons (hl : name ∉ l.names) :
    List.lookup name (l ++ (name, old) :: r) = some old := by
  refine List.lookup_eq_some_iff.mpr ⟨l, r, rfl, ?_⟩
  intro entry hentry
  rw [bne_iff_ne]
  rintro rfl
  exact hl (List.mem_map_of_mem hentry)

theorem enter_of_notMem {entries : Entries α} (h : name ∉ entries.names) :
    entries.enter name value = entries ++ [(name, value)] := if_neg h

theorem map_replace_of_notMem {entries : Entries α} (h : name ∉ entries.names) :
    (entries.map fun entry => if entry.1 = name then (name, value) else entry) = entries := by
  conv_rhs => rw [← List.map_id entries]
  apply List.map_congr_left
  intro entry hentry
  rw [if_neg, id_eq]
  rintro rfl
  exact h (List.mem_map_of_mem hentry)

/-- A value is replaced in its place. -/
theorem enter_append_cons (hl : name ∉ l.names) (hr : name ∉ r.names) :
    enter (l ++ (name, old) :: r) name value = l ++ (name, value) :: r := by
  have hmem : name ∈ names (l ++ (name, old) :: r) := by simp [names]
  rw [enter, if_pos hmem, List.map_append, List.map_cons, if_pos rfl, map_replace_of_notMem hl,
    map_replace_of_notMem hr]

theorem remove_of_notMem {entries : Entries α} (h : name ∉ entries.names) :
    entries.remove name = entries := by
  rw [remove, List.filter_eq_self]
  intro entry hentry
  rw [decide_eq_true_iff]
  rintro rfl
  exact h (List.mem_map_of_mem hentry)

/-- The entry of a name is taken out where it stands, and the others keep their order. -/
theorem remove_append_cons (hl : name ∉ l.names) (hr : name ∉ r.names) :
    remove (l ++ (name, old) :: r) name = l ++ r := by
  have happend : remove (l ++ (name, old) :: r) name =
      remove l name ++ remove ((name, old) :: r) name := List.filter_append _ _
  have hcons : remove ((name, old) :: r) name = remove r name :=
    List.filter_cons_of_neg (by simp)
  rw [happend, hcons, remove_of_notMem hl, remove_of_notMem hr]

/-- The entry of a name stands in its place, and there is no other. -/
theorem exists_of_getElem? {entries : Entries α} (hdistinct : entries.names.Nodup) {place : Nat}
    (h : entries.names[place]? = some name) :
    ∃ (l r : Entries α) (old : α), entries = l ++ (name, old) :: r ∧ l.length = place ∧
      name ∉ l.names ∧ name ∉ r.names := by
  induction entries generalizing place with
  | nil => exact nomatch h
  | cons entry entries ih =>
    obtain ⟨hentry, hdistinct⟩ : entry.1 ∉ names entries ∧ (names entries).Nodup :=
      List.nodup_cons.mp hdistinct
    cases place with
    | zero =>
      obtain rfl : entry.1 = name := Option.some.inj h
      exact ⟨[], entries, entry.2, rfl, rfl, List.not_mem_nil, hentry⟩
    | succ place =>
      have hname : name ∈ names entries := List.mem_of_getElem? h
      obtain ⟨l, r, old, rfl, hlength, hl, hr⟩ := ih hdistinct h
      refine ⟨entry :: l, r, old, rfl, by rw [List.length_cons, hlength], ?_, hr⟩
      -- the name is not in front of its place, since it does not come twice
      intro hmem
      rcases List.mem_cons.mp hmem with rfl | hmem
      · exact hentry hname
      · exact hl hmem

theorem modify_append_cons (l r : Entries α) (entry : String × α)
    (change : String × α → String × α) :
    (l ++ entry :: r).modify l.length change = l ++ change entry :: r := by
  induction l with
  | nil => rfl
  | cons first l ih => exact congrArg (first :: ·) ih

theorem eraseIdx_append_cons (l r : Entries α) (entry : String × α) :
    (l ++ entry :: r).eraseIdx l.length = l ++ r := by
  rw [List.eraseIdx_append_of_length_le (Nat.le_refl _), Nat.sub_self, List.eraseIdx_cons_zero]

end Entries

/-- The answers to edits one after another, and what is left behind. -/
def Edit.run {α σ : Type} (step : σ → Edit α → Option α × σ) :
    σ → List (Edit α) → List (Option α) × σ
  | state, [] => ([], state)
  | state, edit :: edits =>
    let (answer, state) := step state edit
    let (answers, state) := Edit.run step state edits
    (answer :: answers, state)

namespace NameTable

variable {α : Type} {table : NameTable α} {name : String} {value : α}

/-- The table after an edit, and the value that the name had. -/
def edit (table : NameTable α) : Edit α → Option α × NameTable α
  | .insert name value => table.insert name value
  | .erase name => table.erase name

/-- Whether a table stands for a list of entries: whatever it is asked, it answers as the list
does, and its map leads from each name to its place and has no others. -/
structure Represents (table : NameTable α) (entries : Entries α) : Prop where
  toList : table.toList = entries
  names : table.names = entries.names
  /-- No name is there twice. -/
  distinct : entries.names.Nodup
  /-- The map leads to a place just when the name stands there. -/
  places : ∀ (name : String) (place : Nat),
    table.places[name]? = some place ↔ entries.names[place]? = some name
  get? : ∀ name, table.get? name = entries.lookup name
  contains : ∀ name, table.contains name = true ↔ name ∈ entries.names
  size : table.size = entries.length
  isEmpty : table.isEmpty = entries.isEmpty

/-! ### One name -/

theorem valueAt?_eq (table : NameTable α) (place : Nat) :
    table.valueAt? place = (table.toList[place]?).map Prod.snd := by
  rw [valueAt?, NameTable.toList, Array.getElem?_toList]

/-- In a sound table the index leads to the entry that a search of the list would find. -/
theorem Sound.get?_eq (h : table.Sound) (name : String) :
    table.get? name = table.toList.lookup name := by
  rw [NameTable.get?]
  cases hplace : table.places[name]? with
  | none => rw [Entries.lookup_of_notMem (h.getElem?_eq_none_iff.mp hplace), Option.bind_none]
  | some place =>
    obtain ⟨l, r, old, htable, rfl, hl, -⟩ :=
      Entries.exists_of_getElem? h.nodup ((h name place).mp hplace)
    rw [Option.bind_some, valueAt?_eq, htable, Entries.lookup_append_cons hl]
    simp

/-- A sound table represents the list of its entries. -/
theorem Sound.represents (h : table.Sound) : Represents table table.toList where
  toList := rfl
  names := rfl
  distinct := h.nodup
  places := h
  get? := h.get?_eq
  contains _ := h.contains_iff
  size := Array.length_toList.symm
  isEmpty := Array.isEmpty_toList.symm

/-! ### One edit -/

/-- Every edit leaves a sound table sound. -/
theorem Sound.edit (h : table.Sound) : ∀ edit : Edit α, (table.edit edit).2.Sound
  | .insert name value => sound_insert h name value
  | .erase name => sound_erase h name

/-- To enter a name in a sound table is to enter it in the list, and the old value is returned. -/
theorem insert_eq (h : table.Sound) (name : String) (value : α) :
    (table.insert name value).1 = table.toList.lookup name ∧
      (table.insert name value).2.toList = Entries.enter table.toList name value := by
  rw [← h.get?_eq, NameTable.get?]
  cases hplace : table.places[name]? with
  | none =>
    rw [Entries.enter_of_notMem (h.getElem?_eq_none_iff.mp hplace)]
    exact ⟨by simp [insert, hplace], toList_insert_of_none hplace⟩
  | some place =>
    -- the index says where in the list the only entry of the name is
    obtain ⟨l, r, old, htable, rfl, hl, hr⟩ :=
      Entries.exists_of_getElem? h.nodup ((h name place).mp hplace)
    have hentries : (table.insert name value).2.toList =
        table.toList.modify l.length fun entry => (entry.1, value) := by
      simp [insert, hplace, NameTable.toList]
    refine ⟨by simp [insert, hplace], ?_⟩
    rw [hentries, htable, Entries.enter_append_cons hl hr, Entries.modify_append_cons]

/-- To take a name out of a sound table is to take it out of the list, and its value is returned. -/
theorem erase_eq (h : table.Sound) (name : String) :
    (table.erase name).1 = table.toList.lookup name ∧
      (table.erase name).2.toList = Entries.remove table.toList name := by
  rw [← h.get?_eq, NameTable.get?]
  cases hplace : table.places[name]? with
  | none =>
    rw [Entries.remove_of_notMem (h.getElem?_eq_none_iff.mp hplace)]
    exact ⟨by simp [erase, hplace], by simp [erase, hplace]⟩
  | some place =>
    obtain ⟨l, r, old, htable, rfl, hl, hr⟩ :=
      Entries.exists_of_getElem? h.nodup ((h name place).mp hplace)
    have hentries : (table.erase name).2.toList = table.toList.eraseIdx l.length := by
      simp [erase, hplace, NameTable.toList]
    refine ⟨by simp [erase, hplace], ?_⟩
    rw [hentries, htable, Entries.remove_append_cons hl hr, Entries.eraseIdx_append_cons]

/-- An edit tells the same of a table and of the list of its entries, and changes them alike. -/
theorem edit_eq (h : table.Sound) : ∀ edit : Edit α,
    (table.edit edit).1 = (Entries.edit table.toList edit).1 ∧
      (table.edit edit).2.toList = (Entries.edit table.toList edit).2
  | .insert name value => insert_eq h name value
  | .erase name => erase_eq h name

/-! ### Histories -/

/-- Edits of a sound table have the results that they have on the list, one after another. -/
theorem run_eq (h : table.Sound) (edits : List (Edit α)) :
    (Edit.run NameTable.edit table edits).1 = (Edit.run Entries.edit table.toList edits).1 ∧
      (Edit.run NameTable.edit table edits).2.Sound ∧
      (Edit.run NameTable.edit table edits).2.toList =
        (Edit.run Entries.edit table.toList edits).2 := by
  induction edits generalizing table with
  | nil => exact ⟨rfl, h, rfl⟩
  | cons edit edits ih =>
    obtain ⟨hanswer, hlist⟩ := edit_eq h edit
    obtain ⟨hanswers, hsound, hentries⟩ := ih (h.edit edit)
    rw [hlist] at hanswers hentries
    exact ⟨congrArg₂ List.cons hanswer hanswers, hsound, hentries⟩

/-- Whatever has been entered and erased, a table has given the answers of a list of entries and
stands for it. -/
theorem run_represents (edits : List (Edit α)) :
    (Edit.run NameTable.edit .empty edits).1 = (Edit.run Entries.edit [] edits).1 ∧
      Represents (Edit.run NameTable.edit .empty edits).2 (Edit.run Entries.edit [] edits).2 := by
  obtain ⟨hanswers, hsound, hentries⟩ := run_eq (sound_empty : (empty : NameTable α).Sound) edits
  have hrepresents := hsound.represents
  rw [hentries] at hrepresents
  exact ⟨hanswers, hrepresents⟩

example :
    Edit.run Entries.edit [] [.insert "x" 1, .insert "y" 2, .insert "z" 3, .insert "y" 4,
      .erase "x", .insert "x" 5] =
        ([none, none, none, some 2, some 1, none], [("y", 4), ("z", 3), ("x", 5)]) := by
  decide

end NameTable

end Formula
