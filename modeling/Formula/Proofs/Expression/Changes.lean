import Formula.Expression
import Formula.Proofs.Parser.Depth
import Formula.Proofs.VariableTable

/-!
# Changes of an expression

An expression is changed through its variables only, in one of three ways: by name, by position
through a binding, or at a variable itself. Each change comes down to a row of `Write`s, one
variable after another (`apply_eq_write`). So what a change does can be read off its writes: the
variables that it names are those of the writes, and all others, the tree and the names stay as they
are (`get?_apply_of_notMem`, `tree_apply`, `names_apply`).

`IsNew` says that an expression has its variables as they are after reading: zero and without
bounds (`isNew_of_parse`).
-/

namespace Formula

variable {α : Type}

/-! ### Writing variables -/

/-- What may be done to a variable. -/
inductive Write (α : Type) where
  | assign (value : α)
  /-- Sets bounds. -/
  | restrict (a b : α)
  /-- Takes the bounds away. -/
  | release

/-- The variable after a write. -/
def Variable.write [NumberOrder α] (cell : Variable α) : Write α → Variable α
  | .assign value => cell.assign value
  | .restrict a b => cell.restrict a b
  | .release => cell.release

theorem Variable.name_write [NumberOrder α] (cell : Variable α) (write : Write α) :
    (cell.write write).name = cell.name := by
  cases write <;> rfl

namespace Variables

variable {vars : Variables α}

/-- An update changes the variable with the number, and no other. -/
theorem get?_update (vars : Variables α) (id other : Nat) (change : Variable α → Variable α) :
    (vars.update id change).get? other =
      if other = id then (vars.get? other).map change else vars.get? other := by
  unfold update get?
  rw [Array.getElem?_modify]
  simp only [eq_comm]

theorem names_update {id : Nat} {change : Variable α → Variable α}
    (hname : ∀ cell, (change cell).name = cell.name) :
    (vars.update id change).names = vars.names := by
  apply List.ext_getElem?
  intro other
  rw [names_getElem?, names_getElem?, get?_update]
  split
  · rw [Option.map_map]
    congr 1
    exact funext hname
  · rfl

variable [NumberOrder α]

/-- The table after writes to variables given by their numbers, one after another. -/
def write (vars : Variables α) (writes : List (Nat × Write α)) : Variables α :=
  writes.foldl (fun vars write => vars.update write.1 fun cell => cell.write write.2) vars

/-- Writes are to variables that exist, so that no number is given. -/
theorem numbers_write (vars : Variables α) (writes : List (Nat × Write α)) :
    (vars.write writes).numbers = vars.numbers := by
  induction writes generalizing vars with
  | nil => rfl
  | cons write writes ih => exact ih _

theorem names_write (vars : Variables α) (writes : List (Nat × Write α)) :
    (vars.write writes).names = vars.names := by
  induction writes generalizing vars with
  | nil => rfl
  | cons write writes ih =>
    exact (ih _).trans (names_update fun cell => cell.name_write write.2)

/-- A variable that is not written stays as it is. -/
theorem get?_write_of_notMem {writes : List (Nat × Write α)} {id : Nat}
    (h : id ∉ writes.map Prod.fst) (vars : Variables α) :
    (vars.write writes).get? id = vars.get? id := by
  induction writes generalizing vars with
  | nil => rfl
  | cons write writes ih =>
    rw [List.map_cons, List.mem_cons, not_or] at h
    refine (ih h.2 _).trans ?_
    rw [get?_update, if_neg h.1]

end Variables

/-! ### Changing an expression -/

namespace Expression

/-- A change of an expression. -/
inductive Change (α : Type) where
  /-- Assigns a value to the variable called `name`. -/
  | set (name : String) (value : α)
  /-- Assigns arguments by position and evaluates the expression. -/
  | invoke (binding : Binding) (args : List α)
  /-- Assigns arguments by position and evaluates every element of the expression. -/
  | invokeAll (binding : Binding) (args : List α)
  /-- Writes the variable with a number by itself. -/
  | adjust (id : Nat) (write : Write α)

/-- The numbers of the variables that a change of an expression names: a position of a binding
counts when it has an argument. -/
def Change.targets (expression : Expression α) : Change α → List Nat
  | .set name _ => (expression.vars.find? name).toList
  | .invoke binding args | .invokeAll binding args =>
    (binding.slots.zip args).filterMap Prod.fst
  | .adjust id _ => [id]

/-- What a change of an expression writes. -/
def Change.writes (expression : Expression α) : Change α → List (Nat × Write α)
  | .set name value => (expression.vars.find? name).toList.map fun id => (id, .assign value)
  | .invoke binding args | .invokeAll binding args =>
    (binding.slots.zip args).filterMap fun pair => pair.1.map fun id => (id, .assign pair.2)
  | .adjust id write => [(id, write)]

/-- A change writes to its targets, in their order. -/
theorem Change.map_writes (expression : Expression α) (change : Change α) :
    (change.writes expression).map Prod.fst = change.targets expression := by
  have hbinding : ∀ (binding : Binding) (args : List α),
      ((binding.slots.zip args).filterMap fun pair =>
        pair.1.map fun id => (id, Write.assign pair.2)).map Prod.fst =
          (binding.slots.zip args).filterMap Prod.fst := by
    intro binding args
    rw [List.map_filterMap]
    simp [Function.comp_def]
  cases change with
  | set name value =>
    rw [writes, targets, List.map_map]
    exact List.map_id _
  | invoke binding args | invokeAll binding args => exact hbinding binding args
  | adjust id write => rfl

variable [Arithmetic α] [NumberOrder α]

/-- The expression after a change. -/
def apply (expression : Expression α) : Change α → Expression α
  | .set name value => (expression.set name value).2
  | .invoke binding args => (binding.invoke expression args).2
  | .invokeAll binding args => (binding.invokeAll expression args).2
  | .adjust id write =>
    { expression with vars := expression.vars.update id fun cell => cell.write write }

/-- The expression after changes one after another. -/
def applyAll (expression : Expression α) (changes : List (Change α)) : Expression α :=
  changes.foldl apply expression

/-- A change does its writes and nothing else. -/
theorem apply_eq_write (expression : Expression α) (change : Change α) :
    expression.apply change =
      { expression with vars := expression.vars.write (change.writes expression) } := by
  -- both kinds of invocation assign the arguments for which there is a slot
  have hbinding : ∀ (binding : Binding) (args : List α), binding.assign expression args =
      { expression with
        vars := expression.vars.write ((binding.slots.zip args).filterMap fun pair =>
          pair.1.map fun id => (id, Write.assign pair.2)) } := by
    intro binding args
    unfold Binding.assign Variables.write
    rw [List.foldl_filterMap]
    congr 2
    funext vars pair
    cases hslot : pair.1 with
    | none => rfl
    | some id => rfl
  cases change with
  | set name value =>
    rw [apply, set, updateNamed, Change.writes]
    cases hid : expression.vars.find? name with
    | none => rfl
    | some id => rfl
  | invoke binding args | invokeAll binding args => exact hbinding binding args
  | adjust id write => rfl

theorem tree_apply (expression : Expression α) (change : Change α) :
    (expression.apply change).tree = expression.tree := by
  rw [apply_eq_write]

theorem numbers_apply (expression : Expression α) (change : Change α) :
    (expression.apply change).vars.numbers = expression.vars.numbers := by
  rw [apply_eq_write]
  exact expression.vars.numbers_write _

theorem names_apply (expression : Expression α) (change : Change α) :
    (expression.apply change).vars.names = expression.vars.names := by
  rw [apply_eq_write]
  exact expression.vars.names_write _

/-- A variable that a change does not name stays as it is. -/
theorem get?_apply_of_notMem {expression : Expression α} {change : Change α} {id : Nat}
    (h : id ∉ change.targets expression) :
    (expression.apply change).vars.get? id = expression.vars.get? id := by
  rw [apply_eq_write]
  rw [← Change.map_writes] at h
  exact Variables.get?_write_of_notMem h _

end Expression

/-! ### New expressions -/

section New

variable [Zero α]

/-- Whether the variables of an expression have only been asked for. -/
def Expression.IsNew (expression : Expression α) : Prop :=
  ∃ names, expression.vars = Variables.empty.internAll names

/-- In a new table all variables are as they are made: at zero and without bounds. -/
theorem Variables.exists_named_of_mem_internAll {names : List String} {cell : Variable α}
    (h : cell ∈ ((empty : Variables α).internAll names).toList) :
    ∃ name, cell = Variable.named name := by
  induction names using List.reverseRecOn with
  | nil => exact absurd h List.not_mem_nil
  | append_singleton names name ih =>
    rw [internAll_append] at h
    generalize (empty : Variables α).internAll names = vars at h ih
    have hintern : (vars.internAll [name]).toList = (vars.intern name).2.toList := rfl
    rw [hintern] at h
    unfold intern at h
    split at h
    · exact ih h
    · simp only [toList, Array.toList_push, List.mem_append, List.mem_singleton] at h
      exact h.elim ih fun hnew => ⟨name, hnew⟩

/-- The variables of a new expression have not been set. -/
theorem Expression.IsNew.exists_named {expression : Expression α} (h : expression.IsNew) {id : Nat}
    {cell : Variable α} (hcell : expression.vars.get? id = some cell) :
    ∃ name, cell = Variable.named name := by
  obtain ⟨names, hnames⟩ := h
  rw [hnames, Variables.get?, ← Array.getElem?_toList] at hcell
  exact Variables.exists_named_of_mem_internAll (List.mem_of_getElem? hcell)

theorem Expression.IsNew.sound {expression : Expression α} (h : expression.IsNew) :
    expression.vars.Sound := by
  obtain ⟨names, hnames⟩ := h
  rw [hnames]
  exact Variables.sound_empty.internAll names

variable [Numeral α] {vocabulary : Vocabulary α}

/-- Reading a fragment only asks for variables. -/
theorem Parser.fragment_internAll {depth : Nat} {s : Fragment} {st st' : State α} {tree : Tree α}
    (h : (fragment vocabulary depth s).run st = .ok (tree, st')) :
    ∃ names, st'.vars = st.vars.internAll names := by
  induction depth generalizing s st st' tree with
  | zero => exact nomatch (fragment_zero s st).symm.trans h
  | succ depth ih =>
    obtain ⟨reading, st₁, trees, hstep, hparts, -⟩ := fragment_eq_ok.mp h
    obtain ⟨hidden, -, hrule⟩ := interpret_eq_ok hstep
    -- only an identifier asks for a name
    have hread : ∃ names, st₁.vars = st.vars.internAll names := by
      cases hrule with
      | operation | emptyCall | call | constant | group | number => exact ⟨[], rfl⟩
      | var => exact ⟨[_], rfl⟩
    obtain ⟨names, hnames⟩ := hread
    obtain ⟨names', hnames'⟩ := reaches_of_mapM
      (R := fun st st' => ∃ names, st'.vars = st.vars.internAll names) (fun _ => ⟨[], rfl⟩)
      (fun ⟨l, hl⟩ ⟨r, hr⟩ => ⟨l ++ r, by rw [hr, hl, Variables.internAll_append]⟩)
      (fun s st tree st' => ih) hparts
    exact ⟨names ++ names', by rw [hnames', hnames, Variables.internAll_append]⟩

/-- An expression that has just been read is new. -/
theorem Expression.isNew_of_parse {text : String} {expression : Expression α}
    (h : Expression.parse vocabulary text = .ok expression) : expression.IsNew := by
  unfold Expression.parse at h
  cases hparse : Parser.parse vocabulary text with
  | error e =>
    rw [hparse] at h
    exact nomatch h
  | ok result =>
    rw [hparse] at h
    obtain rfl := Except.ok.inj h
    obtain ⟨st, hrun, hvars⟩ := Parser.parse_eq_ok.mp hparse
    obtain ⟨names, hnames⟩ := Parser.fragment_internAll hrun
    exact ⟨names, hvars ▸ hnames⟩

end New

end Formula
