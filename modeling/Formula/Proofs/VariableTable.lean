import Formula.Proofs.NameIndex

/-!
# Tables of variables

A table numbers its variables from zero in the order in which their names came. `Numbers vars ids
vars'` says that asking for the numbers `ids` one after another takes the table `vars` to `vars'`:
a number is either one that was there or the next one. `numbers_intern` is the step, and
`Numbers.append` puts steps together. `internAll` is the table that they lead to, and
`names_internAll_empty` says which names it has.
-/

namespace Formula

/-! ### First occurrences -/

section Occurrences

variable {β : Type} [BEq β] [LawfulBEq β]

theorem removeAll_congr {as bs cs : List β} (h : ∀ x, x ∈ bs ↔ x ∈ cs) :
    as.removeAll bs = as.removeAll cs := by
  unfold List.removeAll
  apply List.filter_congr
  intro x _
  rw [Bool.not_inj_iff, Bool.eq_iff_iff, List.elem_iff, List.elem_iff]
  exact h x

theorem eraseDups_append_of_mem {as : List β} {a : β} (h : a ∈ as) :
    (as ++ [a]).eraseDups = as.eraseDups := by
  have hremove : [a].removeAll as = [] := by simp [List.removeAll, h]
  rw [List.eraseDups_append, hremove, List.eraseDups_nil, List.append_nil]

theorem eraseDups_append_of_notMem {as : List β} {a : β} (h : a ∉ as) :
    (as ++ [a]).eraseDups = as.eraseDups ++ [a] := by
  have hremove : [a].removeAll as = [a] := by simp [List.removeAll, h]
  rw [List.eraseDups_append, hremove]
  rfl

/-- Members may be taken out before or after repetitions. -/
theorem eraseDups_filter (p : β → Bool) (as : List β) :
    (as.filter p).eraseDups = as.eraseDups.filter p := by
  -- from the right, as it is what stands in front of an element that tells whether it stays
  induction as using List.reverseRecOn with
  | nil => rfl
  | append_singleton as a ih =>
    cases hp : p a with
    | true =>
      have hmem : a ∈ as.filter p ↔ a ∈ as := by simp [hp]
      have hsingle : [a].filter p = [a] := by simp [hp]
      rw [List.filter_append, hsingle]
      by_cases ha : a ∈ as
      · rw [eraseDups_append_of_mem (hmem.mpr ha), eraseDups_append_of_mem ha, ih]
      · have ha' := fun h => ha (hmem.mp h)
        rw [eraseDups_append_of_notMem ha', eraseDups_append_of_notMem ha, List.filter_append,
          hsingle, ih]
    | false =>
      have hsingle : [a].filter p = [] := by simp [hp]
      rw [List.filter_append, hsingle, List.append_nil, ih]
      by_cases ha : a ∈ as
      · rw [eraseDups_append_of_mem ha]
      · rw [eraseDups_append_of_notMem ha, List.filter_append, hsingle, List.append_nil]

/-- Nothing comes twice once duplicates are erased. -/
theorem eraseDups_eraseDups (as : List β) : as.eraseDups.eraseDups = as.eraseDups := by
  induction as using List.reverseRecOn with
  | nil => rfl
  | append_singleton as a ih =>
    by_cases ha : a ∈ as
    · rw [eraseDups_append_of_mem ha, ih]
    · have ha' : a ∉ as.eraseDups := fun h => ha (List.mem_eraseDups.mp h)
      rw [eraseDups_append_of_notMem ha, eraseDups_append_of_notMem ha', ih]

/-- Repetitions inside one of several lists are repetitions in all of them together. -/
theorem eraseDups_flatMap (ass : List (List β)) :
    (ass.flatMap List.eraseDups).eraseDups = ass.flatten.eraseDups := by
  induction ass with
  | nil => rfl
  | cons as ass ih =>
    have hmem : ∀ x, x ∈ as.eraseDups ↔ x ∈ as := fun x => List.mem_eraseDups
    rw [List.flatMap_cons, List.flatten_cons, List.eraseDups_append, List.eraseDups_append,
      eraseDups_eraseDups, removeAll_congr hmem]
    unfold List.removeAll
    rw [eraseDups_filter, eraseDups_filter, ih]

end Occurrences

theorem eraseDups_range (n : Nat) : (List.range n).eraseDups = List.range n := by
  induction n with
  | zero => rfl
  | succ n ih =>
    have hremove : [n].removeAll (List.range n) = [n] := by
      simp [List.removeAll]
    rw [List.range_succ, List.eraseDups_append, ih, hremove]
    rfl

/-- What follows only has to be compared with the numbers that have occurred. -/
theorem eraseDups_append_of_eq_range {as : List Nat} {n : Nat} (h : as.eraseDups = List.range n)
    (bs : List Nat) : (as ++ bs).eraseDups = (List.range n ++ bs).eraseDups := by
  have hmem : ∀ x, x ∈ as ↔ x ∈ List.range n := by
    intro x
    rw [← h, List.mem_eraseDups]
  rw [List.eraseDups_append, List.eraseDups_append, eraseDups_range, h, removeAll_congr hmem]

/-- Different members stay different under a map that is injective on the list. -/
theorem eraseDups_map {β : Type} [BEq β] [LawfulBEq β] {f : Nat → β} {as : List Nat}
    (hf : ∀ x ∈ as, ∀ y ∈ as, f x = f y → x = y) :
    (as.map f).eraseDups = as.eraseDups.map f := by
  induction as using List.reverseRecOn with
  | nil => rfl
  | append_singleton as a ih =>
    have hih := ih fun x hx y hy =>
      hf x (List.mem_append_left _ hx) y (List.mem_append_left _ hy)
    have hmem : f a ∈ as.map f ↔ a ∈ as := by
      constructor
      · intro h
        obtain ⟨b, hb, hfb⟩ := List.mem_map.mp h
        obtain rfl := hf b (List.mem_append_left _ hb) a (by simp) hfb
        exact hb
      · exact List.mem_map_of_mem
    rw [List.map_append, List.map_singleton]
    by_cases ha : a ∈ as
    · rw [eraseDups_append_of_mem (hmem.mpr ha), eraseDups_append_of_mem ha, hih]
    · have hfa : f a ∉ as.map f := fun h => ha (hmem.mp h)
      rw [eraseDups_append_of_notMem hfa, eraseDups_append_of_notMem ha, hih, List.map_append,
        List.map_singleton]

namespace Variables

variable {α : Type} {vars vars' vars'' : Variables α} {name : String}

/-- The numbers of a table are the places of its names. -/
def Sound (vars : Variables α) : Prop := Indexes vars.numbers vars.names

theorem length_names (vars : Variables α) : vars.names.length = vars.size := by
  simp [names, toList, size]

theorem names_getElem? (vars : Variables α) (id : Nat) :
    vars.names[id]? = (vars.get? id).map Variable.name := by
  simp [names, toList, get?]

theorem exists_get?_iff {id : Nat} : (∃ cell, vars.get? id = some cell) ↔ id < vars.size := by
  simp [get?, size, ← Option.isSome_iff_exists]

/-- Different variables have different names. -/
theorem Sound.get?_inj (h : vars.Sound) {i j : Nat} (hi : i < vars.size)
    (heq : (vars.get? i).map Variable.name = (vars.get? j).map Variable.name) : i = j := by
  rw [← names_getElem?, ← names_getElem?] at heq
  exact (List.getElem?_inj (by rwa [length_names]) h.nodup).mp heq

/-- A name leads to a variable just when it is its name. -/
theorem Sound.find?_eq_some_iff (h : vars.Sound) {id : Nat} {cell : Variable α}
    (hcell : vars.get? id = some cell) {name : String} :
    vars.find? name = some id ↔ name = cell.name := by
  refine (h name id).trans ?_
  rw [names_getElem?, hcell, Option.map_some, Option.some_inj]
  exact eq_comm

/-- A name leads nowhere just when no variable has it. -/
theorem Sound.find?_eq_none_iff (h : vars.Sound) {name : String} :
    vars.find? name = none ↔ name ∉ vars.names := h.getElem?_eq_none_iff

/-- Tables with the same numbers for names and the same variables are the same. -/
theorem ext_get? (hnumbers : vars.numbers = vars'.numbers)
    (hget : ∀ id, vars.get? id = vars'.get? id) : vars = vars' := by
  obtain ⟨cells, numbers⟩ := vars
  obtain ⟨cells', numbers'⟩ := vars'
  obtain rfl : numbers = numbers' := hnumbers
  obtain rfl : cells = cells' := Array.ext_getElem? hget
  rfl

theorem map_get?_range (vars : Variables α) :
    (List.range vars.size).map (fun id => (vars.get? id).map Variable.name) =
      vars.names.map some := by
  apply List.ext_getElem?
  intro i
  rw [List.getElem?_map, List.getElem?_map, ← length_names]
  by_cases hi : i < vars.names.length
  · rw [List.getElem?_range hi, List.getElem?_eq_getElem hi, Option.map_some, ← names_getElem?,
      List.getElem?_eq_getElem hi, Option.map_some]
  · rw [List.getElem?_eq_none (by simpa using hi), List.getElem?_eq_none (by omega)]
    rfl

theorem sound_empty : (empty : Variables α).Sound := Indexes.nil

/-- Asking a table for numbers one after another. -/
structure Numbers (vars : Variables α) (ids : List Nat) (vars' : Variables α) : Prop where
  sound : vars'.Sound
  /-- A number is one that was there or the next one. -/
  order : (List.range vars.size ++ ids).eraseDups = List.range vars'.size

theorem Numbers.refl (h : vars.Sound) : Numbers vars [] vars :=
  ⟨h, by rw [List.append_nil, eraseDups_range]⟩

theorem Numbers.append {ids ids' : List Nat} (h : Numbers vars ids vars')
    (h' : Numbers vars' ids' vars'') : Numbers vars (ids ++ ids') vars'' := by
  refine ⟨h'.sound, ?_⟩
  rw [← List.append_assoc, eraseDups_append_of_eq_range h.order, h'.order]

theorem intern_of_some [Zero α] {id : Nat} (h : vars.numbers[name]? = some id) :
    vars.intern name = (id, vars) := by
  unfold intern
  rw [h]

theorem names_intern_of_none [Zero α] (h : vars.numbers[name]? = none) :
    (vars.intern name).2.names = vars.names ++ [name] := by
  simp [intern, h, names, toList, Variable.named]

/-- Asking for a name gives it the next number, or the one that it has. -/
theorem numbers_intern [Zero α] (h : vars.Sound) (name : String) :
    Numbers vars [(vars.intern name).1] (vars.intern name).2 := by
  -- a name that is there keeps its number; a new one gets the number behind the last
  cases hid : vars.numbers[name]? with
  | some id =>
    have hlt : id < vars.size := by
      rw [← length_names]
      exact (List.getElem?_eq_some_iff.mp ((h name id).mp hid)).1
    rw [intern_of_some hid]
    refine ⟨h, ?_⟩
    rw [eraseDups_append_of_mem (List.mem_range.mpr hlt), eraseDups_range]
  | none =>
    have hnames := names_intern_of_none hid
    have hsize : (vars.intern name).2.size = vars.size + 1 := by
      rw [← length_names, hnames, List.length_append, length_names]
      rfl
    have hfirst : (vars.intern name).1 = vars.size := by
      simp [intern, hid, size]
    refine ⟨?_, ?_⟩
    · have hconcat := h.concat (h.getElem?_eq_none_iff.mp hid)
      unfold Sound
      rw [hnames]
      rw [length_names] at hconcat
      simpa [intern, hid, size] using hconcat
    · rw [hfirst, hsize, ← List.range_succ, eraseDups_range]

/-! ### Tables that grow -/

/-- Whether every name of `vars` has its number in `vars'`. -/
def Grows (vars vars' : Variables α) : Prop :=
  ∀ name id, vars.find? name = some id → vars'.find? name = some id

theorem Grows.refl (vars : Variables α) : vars.Grows vars := fun _ _ h => h

theorem Grows.trans {a b c : Variables α} (hab : a.Grows b) (hbc : b.Grows c) : a.Grows c :=
  fun name id h => hbc name id (hab name id h)

variable [Zero α]

/-- A name has its number as soon as it has been asked for. -/
theorem find?_intern (vars : Variables α) (name : String) :
    (vars.intern name).2.find? name = some (vars.intern name).1 := by
  cases h : vars.numbers[name]? with
  | some id => simp [intern, find?, h]
  | none => simp [intern, find?, h]

/-- A name keeps its number when others are asked for. -/
theorem grows_intern (vars : Variables α) (name : String) : vars.Grows (vars.intern name).2 := by
  intro other id hother
  cases h : vars.numbers[name]? with
  | some id' => simpa [intern, h] using hother
  | none =>
    have hne : name ≠ other := by
      rintro rfl
      rw [find?, h] at hother
      exact nomatch hother
    have hother' : vars.numbers[other]? = some id := hother
    simp [intern, find?, h, Std.HashMap.getElem?_insert, hne, hother']

/-- Asking for a name leaves all variables as they are and adds at most one. -/
theorem get?_intern (vars : Variables α) (name : String) (id : Nat) :
    (vars.intern name).2.get? id = vars.get? id ∨
      id = vars.size ∧ (vars.intern name).2.get? id = some (Variable.named name) := by
  -- only a new name has a new cell, and it is the last
  cases hid : vars.numbers[name]? with
  | some id' =>
    rw [intern_of_some hid]
    exact Or.inl rfl
  | none =>
    have hget : (vars.intern name).2.get? id =
        if id = vars.cells.size then some (Variable.named name) else vars.get? id := by
      simp [get?, intern, hid, Array.getElem?_push]
    rw [hget]
    by_cases hlast : id = vars.cells.size
    · rw [if_pos hlast]
      exact Or.inr ⟨hlast, rfl⟩
    · rw [if_neg hlast]
      exact Or.inl rfl

/-- A table has the names it has been asked for, in the order of their first occurrence. -/
theorem Sound.names_intern (h : vars.Sound) {names : List String}
    (hnames : vars.names = names.eraseDups) (name : String) :
    (vars.intern name).2.names = (names ++ [name]).eraseDups := by
  cases hid : vars.numbers[name]? with
  | some id =>
    have hname : name ∈ names := by
      rw [← List.mem_eraseDups, ← hnames]
      exact List.mem_of_getElem? ((h name id).mp hid)
    rw [intern_of_some hid, hnames, eraseDups_append_of_mem hname]
  | none =>
    have hname : name ∉ names := by
      rw [← List.mem_eraseDups, ← hnames]
      exact h.getElem?_eq_none_iff.mp hid
    rw [names_intern_of_none hid, hnames, eraseDups_append_of_notMem hname]

/-! ### Tables that have been asked for several names -/

/-- The table after it has been asked for names one after another. -/
def internAll (vars : Variables α) (names : List String) : Variables α :=
  names.foldl (fun vars name => (vars.intern name).2) vars

theorem internAll_append (vars : Variables α) (names names' : List String) :
    vars.internAll (names ++ names') = (vars.internAll names).internAll names' := List.foldl_append

theorem grows_internAll (vars : Variables α) (names : List String) :
    vars.Grows (vars.internAll names) := by
  induction names generalizing vars with
  | nil => exact .refl vars
  | cons name names ih => exact (vars.grows_intern name).trans (ih _)

theorem Sound.internAll (h : vars.Sound) (names : List String) : (vars.internAll names).Sound := by
  induction names generalizing vars with
  | nil => exact h
  | cons name names ih => exact ih (numbers_intern h name).sound

/-- A table that was empty has the names it has been asked for, in the order of their first
occurrence. -/
theorem names_internAll_empty (names : List String) :
    ((empty : Variables α).internAll names).names = names.eraseDups := by
  induction names using List.reverseRecOn with
  | nil => rfl
  | append_singleton names name ih =>
    have hsound := (sound_empty : (empty : Variables α).Sound).internAll names
    rw [internAll_append]
    exact hsound.names_intern ih name

theorem valueOf_intern (h : ∀ id, vars.valueOf id = 0) (name : String) (id : Nat) :
    (vars.intern name).2.valueOf id = 0 := by
  rcases vars.get?_intern name id with hold | ⟨-, hnew⟩
  · unfold valueOf
    rw [hold]
    exact h id
  · unfold valueOf
    rw [hnew]
    rfl

/-- A variable that has only been asked for is zero. -/
theorem valueOf_internAll_empty (names : List String) (id : Nat) :
    ((empty : Variables α).internAll names).valueOf id = 0 := by
  induction names using List.reverseRecOn generalizing id with
  | nil => rfl
  | append_singleton names name ih =>
    rw [internAll_append]
    exact valueOf_intern ih name id

end Variables

end Formula
