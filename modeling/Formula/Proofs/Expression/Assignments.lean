import Formula.Proofs.Expression.Changes

/-!
# Rows of assignments

An assignment looks at the bounds of a variable but not at its value, so that of several assignments
to one variable only the last one counts (`Variable.assign?_assign?`). After a row of assignments
every variable has the value that is looked up from the end of the row:

* `Variables.get?_assignAll`, where the row gives variables by their numbers. So two rows that end
  alike for every variable have the same effect (`Variables.assignAll_congr`).
* `Expression.get?_setAll`, where it gives them by their names. Names that are no variables have no
  effect (`Expression.setAll_filter`).

A binding makes a row by numbers (`Binding.assign_eq`), and variables chosen by name are assigned as
if by name (`Binding.row_bind`).
-/

namespace Formula

variable {α : Type}

/-! ### Looking up from the end -/

section Lookup

variable {κ β : Type} [BEq κ] {k : κ}

theorem lookup_reverse_cons (pair : κ × α) (row : List (κ × α)) :
    (pair :: row).reverse.lookup k = (row.reverse.lookup k).or ([pair].lookup k) := by
  rw [List.reverse_cons, List.lookup_append]

theorem lookup_reverse_append (row row' : List (κ × α)) :
    (row ++ row').reverse.lookup k = (row'.reverse.lookup k).or (row.reverse.lookup k) := by
  rw [List.reverse_append, List.lookup_append]

variable [LawfulBEq κ]

/-- A row has a last entry for every name in it. -/
theorem lookup_reverse_eq_none_iff {row : List (κ × α)} :
    row.reverse.lookup k = none ↔ k ∉ row.map Prod.fst := by
  rw [List.lookup_eq_none_iff, List.mem_map]
  constructor
  · rintro h ⟨pair, hpair, rfl⟩
    exact bne_iff_ne.mp (h pair (List.mem_reverse.mpr hpair)) rfl
  · intro h pair hpair
    rw [bne_iff_ne]
    rintro rfl
    exact h ⟨pair, List.mem_reverse.mp hpair, rfl⟩

/-- Keys may be translated before or after one is looked up, if `b` alone is translated to it. -/
theorem lookup_filterMap [BEq β] [LawfulBEq β] {f : β → Option κ} {b : β}
    (hf : ∀ b', f b' = some k ↔ b' = b) (row : List (β × α)) :
    (row.filterMap fun pair => (f pair.1).map fun key => (key, pair.2)).lookup k =
      row.lookup b := by
  induction row with
  | nil => rfl
  | cons pair row ih =>
    obtain ⟨b', value⟩ := pair
    have hb : f b' = some k ↔ b' = b := hf b'
    rw [List.lookup_cons]
    cases hkey : f b' with
    | none =>
      have hne : b ≠ b' := fun h => nomatch hkey.symm.trans (hb.mpr h.symm)
      rw [List.filterMap_cons_none (by simp [hkey]), ih, beq_false_of_ne hne]
    | some key =>
      rw [List.filterMap_cons_some (b := (key, value)) (by simp [hkey]), List.lookup_cons, ih]
      -- `f` takes no two keys to `k`, so that both searches stop here or neither does
      by_cases h : b' = b
      · obtain rfl : key = k := Option.some.inj (hkey.symm.trans (hb.mpr h))
        rw [h, beq_self_eq_true, beq_self_eq_true]
      · have hne : k ≠ key := fun hk => h (hb.mp (hk ▸ hkey))
        rw [beq_false_of_ne hne, beq_false_of_ne (Ne.symm h)]

end Lookup

/-! ### Assignments by number -/

section ByNumber

variable [NumberOrder α]

/-- The variable after an assignment, if there is one. -/
def Variable.assign? (cell : Variable α) : Option α → Variable α
  | some value => cell.assign value
  | none => cell

/-- Only the later of two assignments counts. -/
theorem Variable.assign?_assign? (cell : Variable α) (first second : Option α) :
    (cell.assign? first).assign? second = cell.assign? (second.or first) := by
  cases second with
  | none => rfl
  | some value =>
    cases first with
    | none => rfl
    | some old => rfl

namespace Variables

/-- The table after assignments to variables given by their numbers, one after another. -/
def assignAll (vars : Variables α) (row : List (Nat × α)) : Variables α :=
  vars.write (row.map fun pair => (pair.1, .assign pair.2))

theorem numbers_assignAll (vars : Variables α) (row : List (Nat × α)) :
    (vars.assignAll row).numbers = vars.numbers := vars.numbers_write _

theorem names_assignAll (vars : Variables α) (row : List (Nat × α)) :
    (vars.assignAll row).names = vars.names := vars.names_write _

theorem assignAll_append (vars : Variables α) (row row' : List (Nat × α)) :
    vars.assignAll (row ++ row') = (vars.assignAll row).assignAll row' := by
  rw [assignAll, List.map_append]
  exact List.foldl_append

/-- An assignment changes the variable that it is for, and no other. -/
theorem get?_assign (vars : Variables α) (pair : Nat × α) (id : Nat) :
    (vars.assign pair.1 pair.2).get? id =
      (vars.get? id).map fun cell => cell.assign? ([pair].lookup id) := by
  rw [assign, get?_update, List.lookup_cons]
  by_cases h : id = pair.1
  · rw [if_pos h, h, beq_self_eq_true]
    rfl
  · rw [if_neg h, beq_false_of_ne h]
    exact Option.map_id'.symm

/-- After a row of assignments a variable has the last value that it has been given. -/
theorem get?_assignAll (vars : Variables α) (row : List (Nat × α)) (id : Nat) :
    (vars.assignAll row).get? id =
      (vars.get? id).map fun cell => cell.assign? (row.reverse.lookup id) := by
  induction row generalizing vars with
  | nil => exact Option.map_id'.symm
  | cons pair row ih =>
    have hstep : vars.assignAll (pair :: row) = (vars.assign pair.1 pair.2).assignAll row := rfl
    rw [hstep, ih, get?_assign, Option.map_map]
    congr 1
    funext cell
    rw [Function.comp_apply, Variable.assign?_assign?, ← lookup_reverse_cons]

theorem assignAll_congr {row row' : List (Nat × α)}
    (h : ∀ id, row.reverse.lookup id = row'.reverse.lookup id) (vars : Variables α) :
    vars.assignAll row = vars.assignAll row' := by
  refine ext_get? ((numbers_assignAll _ _).trans (numbers_assignAll _ _).symm) fun id => ?_
  rw [get?_assignAll, get?_assignAll, h]

/-- Nothing is left of a row when its variables are assigned again. -/
theorem assignAll_assignAll_of_subset {row row' : List (Nat × α)}
    (h : row.map Prod.fst ⊆ row'.map Prod.fst) (vars : Variables α) :
    (vars.assignAll row).assignAll row' = vars.assignAll row' := by
  rw [← assignAll_append]
  refine assignAll_congr (fun id => ?_) vars
  rw [lookup_reverse_append]
  cases hlast : row'.reverse.lookup id with
  | some value => rfl
  | none =>
    have hrow : row.reverse.lookup id = none :=
      lookup_reverse_eq_none_iff.mpr fun hid => lookup_reverse_eq_none_iff.mp hlast (h hid)
    rw [hrow]
    rfl

/-- Rows without a common variable may be exchanged. -/
theorem assignAll_comm {row row' : List (Nat × α)}
    (h : (row.map Prod.fst).Disjoint (row'.map Prod.fst)) (vars : Variables α) :
    (vars.assignAll row).assignAll row' = (vars.assignAll row').assignAll row := by
  rw [← assignAll_append, ← assignAll_append]
  refine assignAll_congr (fun id => ?_) vars
  rw [lookup_reverse_append, lookup_reverse_append]
  by_cases hid : id ∈ row.map Prod.fst
  · rw [lookup_reverse_eq_none_iff.mpr (h hid), Option.none_or, Option.or_none]
  · rw [lookup_reverse_eq_none_iff.mpr hid, Option.none_or, Option.or_none]

end Variables

end ByNumber

/-! ### Assignments by name -/

namespace Variables

/-- Assignments by name as assignments by number, without those to names that are no variables. -/
def numbered (vars : Variables α) (pairs : List (String × α)) : List (Nat × α) :=
  pairs.filterMap fun pair => (vars.find? pair.1).map fun id => (id, pair.2)

/-- In a sound table the last value for a number is the last one for the name of that variable. -/
theorem lookup_numbered {vars : Variables α} (h : vars.Sound) {id : Nat} {cell : Variable α}
    (hcell : vars.get? id = some cell) (pairs : List (String × α)) :
    (vars.numbered pairs).reverse.lookup id = pairs.reverse.lookup cell.name := by
  rw [numbered, ← List.filterMap_reverse, lookup_filterMap fun _ => h.find?_eq_some_iff hcell]

end Variables

section ByName

variable [NumberOrder α] {expression : Expression α}

namespace Expression

/-- The expression after assignments by name, one after another. -/
def setAll (expression : Expression α) (pairs : List (String × α)) : Expression α :=
  pairs.foldl (fun expression pair => (expression.set pair.1 pair.2).2) expression

/-- Assignments by name are assignments by number, once the names without a number are left out. -/
theorem setAll_eq (expression : Expression α) (pairs : List (String × α)) :
    expression.setAll pairs =
      { expression with vars := expression.vars.assignAll (expression.vars.numbered pairs) } := by
  induction pairs generalizing expression with
  | nil => rfl
  | cons pair pairs ih =>
    have hstep : expression.setAll (pair :: pairs) =
        (expression.set pair.1 pair.2).2.setAll pairs := rfl
    rw [hstep, ih, Variables.numbered, Variables.numbered, set, updateNamed]
    cases hid : expression.vars.find? pair.1 with
    | none => rw [List.filterMap_cons_none (by simp [hid])]
    | some id =>
      rw [List.filterMap_cons_some (b := (id, pair.2)) (by simp [hid])]
      -- the other names have the numbers that they had before
      rfl

theorem tree_setAll (expression : Expression α) (pairs : List (String × α)) :
    (expression.setAll pairs).tree = expression.tree := by
  rw [setAll_eq]

theorem names_setAll (expression : Expression α) (pairs : List (String × α)) :
    (expression.setAll pairs).vars.names = expression.vars.names := by
  rw [setAll_eq]
  exact Variables.names_assignAll _ _

theorem numbers_setAll (expression : Expression α) (pairs : List (String × α)) :
    (expression.setAll pairs).vars.numbers = expression.vars.numbers := by
  rw [setAll_eq]
  exact Variables.numbers_assignAll _ _

/-- After assignments by name a variable has the last value that its name has been given. -/
theorem get?_setAll (h : expression.vars.Sound) (pairs : List (String × α)) (id : Nat) :
    (expression.setAll pairs).vars.get? id =
      (expression.vars.get? id).map fun cell => cell.assign? (pairs.reverse.lookup cell.name) := by
  rw [setAll_eq]
  refine (Variables.get?_assignAll _ _ id).trans ?_
  cases hcell : expression.vars.get? id with
  | none => rfl
  | some cell => rw [Option.map_some, Option.map_some, Variables.lookup_numbered h hcell]

/-- Names that are no variables have no effect. -/
theorem setAll_filter (h : expression.vars.Sound) (pairs : List (String × α)) :
    expression.setAll (pairs.filter fun pair => pair.1 ∈ expression.variableNames) =
      expression.setAll pairs := by
  rw [setAll_eq, setAll_eq, Variables.numbered, Variables.numbered, List.filterMap_filter]
  congr 3
  funext pair
  split
  · rfl
  · rename_i hname
    rw [h.find?_eq_none_iff.mpr fun hmem => hname (decide_eq_true hmem)]
    rfl

end Expression

/-! ### Assignments by position -/

namespace Binding

/-- The assignments by number that a binding makes of arguments. -/
def row (binding : Binding) (args : List α) : List (Nat × α) :=
  (binding.slots.zip args).filterMap fun pair => pair.1.map fun id => (id, pair.2)

omit [NumberOrder α] in
/-- A binding assigns the variables at the positions that have an argument. -/
theorem mem_row_iff {binding : Binding} {args : List α} {id : Nat} :
    id ∈ (binding.row args).map Prod.fst ↔ some id ∈ binding.slots.take args.length := by
  have hslots : (binding.slots.zip args).map Prod.fst = binding.slots.take args.length := by
    rw [List.zip_eq_zip_take_min, List.map_fst_zip (by simp), min_comm, ← List.take_eq_take_min]
  rw [← hslots]
  simp [row]

omit [NumberOrder α] in
/-- Variables chosen by name are assigned as if by name. -/
theorem row_bind (expression : Expression α) (names : List String) (args : List α) :
    (expression.bind names).row args = expression.vars.numbered (names.zip args) := by
  rw [row, Expression.bind, Variables.numbered, List.zip_map_left, List.filterMap_map]
  rfl

/-- A binding assigns the arguments that it has a slot for. -/
theorem assign_eq [Arithmetic α] (binding : Binding) (expression : Expression α) (args : List α) :
    binding.assign expression args =
      { expression with vars := expression.vars.assignAll (binding.row args) } := by
  have hwrites : (Expression.Change.invoke binding args).writes expression =
      (binding.row args).map fun pair => (pair.1, .assign pair.2) := by
    rw [Expression.Change.writes, row, List.map_filterMap]
    simp [Function.comp_def]
  have happly := expression.apply_eq_write (.invoke binding args)
  rw [hwrites] at happly
  exact happly

end Binding

end ByName

end Formula
