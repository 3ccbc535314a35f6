import Formula.Proofs.Expression.Assignments
import Formula.Proofs.Parser.Elements
import Formula.Proofs.Parser.Shape

/-!
# Invocations

An expression that has been read may be brought into other states, with other values and bounds for
its variables (`Expression.IsStateOf`). In every state

* an invocation of a binding assigns by name what the binding was made for, and evaluates
  (`invoke_bind`). Its two forms agree on the first value, since no tuple that has been read is
  empty (`Parser.fragment_ne_emptyTuple`);
* an invocation leaves each variable with the last of its arguments. Nothing is left of it after one
  with as many arguments, and invocations of bindings without a common variable may be exchanged
  (`invoke_invoke`).
-/

namespace Formula

variable {α : Type}

/-! ### Tuples that have been read -/

/-- An inverted tree is a negation or a reciprocal, and never a tuple. -/
theorem Operator.orient_ne_emptyTuple {operator : Operator} {inverted : Bool} {tree : Tree α}
    (h : tree ≠ .tuple []) : operator.orient inverted tree ≠ .tuple [] := by
  unfold orient
  split
  · exact nofun
  · exact nofun
  · exact h

/-- A single tree is left as it is, and only several are wrapped. -/
theorem Operator.wrapSeveral_ne_emptyTuple {wrap : List (Tree α) → Tree α} {trees : List (Tree α)}
    (hwrap : trees ≠ [] → wrap trees ≠ .tuple []) (htrees : .tuple [] ∉ trees) :
    wrapSeveral wrap trees ≠ some (.tuple []) := by
  match trees with
  | [] => exact nofun
  | [tree] => exact fun h => htrees (Option.some.inj h ▸ List.mem_singleton_self tree)
  | _ :: _ :: _ => exact fun h => hwrap (List.cons_ne_nil _ _) (Option.some.inj h)

/-- A tuple is made of at least two elements. -/
theorem Operator.assemble?_ne_emptyTuple {operator : Operator} {trees : List (Tree α)}
    (htrees : .tuple [] ∉ trees) : operator.assemble? trees ≠ some (.tuple []) := by
  unfold assemble?
  split
  · exact wrapSeveral_ne_emptyTuple (fun hne h => hne (Tree.tuple.inj h)) htrees
  · exact wrapSeveral_ne_emptyTuple (fun _ => nofun) htrees
  · exact wrapSeveral_ne_emptyTuple (fun _ => nofun) htrees
  all_goals exact nofun

namespace Parser

variable {vocabulary : Vocabulary α}

/-- No reading puts trees together to the empty tuple, unless one of them is it already. -/
theorem Reading.assemble_ne_emptyTuple {reading : Reading α} {trees : List (Tree α)}
    (hleaf : reading ≠ .leaf (.tuple [])) (htrees : .tuple [] ∉ trees) :
    reading.assemble trees ≠ .ok (.tuple []) := by
  intro h
  unfold assemble at h
  split at h
  · exact hleaf (congrArg Reading.leaf (Except.ok.inj h))
  · rename_i operator text trees
    dsimp only at h
    split at h
    · rename_i tree htree
      obtain rfl := Except.ok.inj h
      -- the operands, inverted or not, are among the trees
      refine Operator.assemble?_ne_emptyTuple ?_ htree
      rw [← List.map_uncurry_zip_eq_zipWith, List.mem_map]
      rintro ⟨pair, hpair, horient⟩
      refine Operator.orient_ne_emptyTuple (fun hempty => htrees ?_) horient
      exact hempty ▸ (List.of_mem_zip hpair).2
    · cases h
  · cases h
  · split at h
    · exact htrees (Except.ok.inj h ▸ List.mem_singleton_self _)
    · cases h

variable [Zero α] [Numeral α]

/-- No rule makes an empty tuple. -/
theorem fragment_ne_emptyTuple {depth : Nat} {s : Fragment} {st st' : State α} {tree : Tree α}
    (h : (fragment vocabulary depth s).run st = .ok (tree, st')) : tree ≠ .tuple [] := by
  induction depth generalizing s st st' tree with
  | zero => exact nomatch (fragment_zero s st).symm.trans h
  | succ depth ih =>
    obtain ⟨reading, st₁, trees, hstep, hparts, hassemble⟩ := fragment_eq_ok.mp h
    obtain ⟨_, -, hrule⟩ := interpret_eq_ok hstep
    have hleaf : reading ≠ .leaf (.tuple []) := by
      rintro rfl
      cases hrule
    have htrees := (forall_of_mapM (P := fun tree => tree ≠ .tuple []) (fun s st tree st' => ih)
      hparts).2
    rintro rfl
    exact Reading.assemble_ne_emptyTuple hleaf (fun hmem => htrees _ hmem rfl) hassemble

end Parser

namespace Expression

/-! ### States -/

/-- Whether an expression is another one in some state: its variables may have other values and
other bounds, and nothing else is different. -/
structure IsStateOf (expression new : Expression α) : Prop where
  tree : expression.tree = new.tree
  names : expression.vars.names = new.vars.names
  numbers : expression.vars.numbers = new.vars.numbers

theorem IsStateOf.refl (expression : Expression α) : expression.IsStateOf expression :=
  ⟨rfl, rfl, rfl⟩

/-- Soundness is a matter of names and numbers, which all states have in common. -/
theorem IsStateOf.sound {expression new : Expression α} (h : expression.IsStateOf new)
    (hsound : new.vars.Sound) : expression.vars.Sound := by
  unfold Variables.Sound at hsound ⊢
  rwa [h.names, h.numbers]

/-- Names are found at the same places in all states. -/
theorem IsStateOf.bind_eq {expression new : Expression α} (h : expression.IsStateOf new)
    (names : List String) : expression.bind names = new.bind names := by
  unfold bind Variables.find?
  rw [h.numbers]

/-- Whatever is done to an expression, it stays a state of the same one. -/
theorem IsStateOf.applyAll [Arithmetic α] [NumberOrder α] {expression new : Expression α}
    (h : expression.IsStateOf new) (changes : List (Change α)) :
    (expression.applyAll changes).IsStateOf new := by
  induction changes generalizing expression with
  | nil => exact h
  | cons change changes ih =>
    exact ih ⟨(expression.tree_apply change).trans h.tree,
      (expression.names_apply change).trans h.names,
      (expression.numbers_apply change).trans h.numbers⟩

theorem isStateOf_setAll [NumberOrder α] (expression : Expression α) (pairs : List (String × α)) :
    (expression.setAll pairs).IsStateOf expression :=
  ⟨tree_setAll expression pairs, names_setAll expression pairs, numbers_setAll expression pairs⟩

section Parse

variable [Zero α] [Numeral α] {vocabulary : Vocabulary α} {text : String} {new : Expression α}

/-- An expression is the tree and the table that are read. -/
theorem parse_eq_ok_iff : Expression.parse vocabulary text = .ok new ↔
    Parser.parse vocabulary text = .ok (new.tree, new.vars) := by
  unfold Expression.parse
  cases Parser.parse vocabulary text with
  | error e => exact ⟨nofun, nofun⟩
  | ok result => exact ⟨fun h => Except.ok.inj h ▸ rfl, fun h => Except.ok.inj h ▸ rfl⟩

/-- An expression is not read for the same reason as its text. -/
theorem parse_eq_error_iff {error : SyntaxError} : Expression.parse vocabulary text = .error error ↔
    Parser.parse vocabulary text = .error error := by
  unfold Expression.parse
  cases Parser.parse vocabulary text with
  | error e => exact ⟨fun h => Except.error.inj h ▸ rfl, fun h => Except.error.inj h ▸ rfl⟩
  | ok result => exact ⟨nofun, nofun⟩

/-- No expression that has been read is the empty tuple. -/
theorem tree_ne_emptyTuple_of_parse (h : Expression.parse vocabulary text = .ok new) :
    new.tree ≠ .tuple [] := by
  obtain ⟨st, hrun, -⟩ := Parser.parse_eq_ok.mp (parse_eq_ok_iff.mp h)
  exact Parser.fragment_ne_emptyTuple hrun

end Parse

variable [Arithmetic α]

/-! ### The values of an expression -/

/-- The value of an expression is the first of its values. -/
theorem head?_valueList {expression : Expression α} (h : expression.tree ≠ .tuple []) :
    expression.valueList.head? = some expression.value := by
  obtain ⟨tree, vars⟩ := expression
  unfold valueList values?
  cases tree with
  | tuple items =>
    cases items with
    | nil => exact absurd rfl h
    | cons first rest =>
      unfold value
      rw [Tree.value]
      rfl
  | _ => rfl

variable [NumberOrder α]

/-! ### One invocation -/

/-- Variables chosen by name are assigned as if by name. -/
theorem assign_bind (expression : Expression α) (names : List String) (args : List α) :
    (expression.bind names).assign expression args = expression.setAll (names.zip args) := by
  rw [Binding.assign_eq, Binding.row_bind, setAll_eq]

/-- In every state of an expression that has been read, and whenever the names have been bound, an
invocation does what assignments by name do, one after another up to the shorter of the two lists,
and evaluates the expression as it is then. The names that are no variables have no effect, and a
variable that is not named stays as it is. The invocation for all values does the same and gives the
values of the elements of a tuple, and the value of any other expression as the only one; the first
of them is the value that the invocation for one value gives. -/
theorem invoke_bind [Numeral α] {vocabulary : Vocabulary α} {text : String}
    {new earlier expression : Expression α} (hparse : Expression.parse vocabulary text = .ok new)
    (hearlier : earlier.IsStateOf new) (hstate : expression.IsStateOf new) (names : List String)
    (args : List α) :
    let binding := earlier.bind names
    let pairs := names.zip args
    let reached := expression.setAll pairs
    binding.invoke expression args = (reached.value, reached) ∧
      (binding.invokeAll expression args).2 = reached ∧
      (new.tree.isTuple = true →
        reached.values? = some (binding.invokeAll expression args).1) ∧
      (new.tree.isTuple = false →
        (binding.invokeAll expression args).1 = [reached.value]) ∧
      (binding.invokeAll expression args).1.head? = some (binding.invoke expression args).1 ∧
      reached = expression.setAll (pairs.filter fun pair => pair.1 ∈ expression.variableNames) ∧
      ∀ id cell, expression.vars.get? id = some cell → cell.name ∉ pairs.map Prod.fst →
        reached.vars.get? id = some cell := by
  intro binding pairs reached
  have hsound := hstate.sound (isNew_of_parse hparse).sound
  -- the names have been looked up in another state, where they had the same numbers
  have hbinding : binding = expression.bind names :=
    (hearlier.bind_eq names).trans (hstate.bind_eq names).symm
  have hassign : binding.assign expression args = reached := by
    rw [hbinding]
    exact assign_bind expression names args
  have hinvoke : binding.invoke expression args = (reached.value, reached) := by
    rw [Binding.invoke, hassign]
  have hinvokeAll : binding.invokeAll expression args = (reached.valueList, reached) := by
    rw [Binding.invokeAll, hassign]
  have htree : reached.tree = new.tree := (tree_setAll expression pairs).trans hstate.tree
  have hne : reached.tree ≠ .tuple [] := by
    rw [htree]
    exact tree_ne_emptyTuple_of_parse hparse
  rw [hinvoke, hinvokeAll, ← htree]
  refine ⟨rfl, rfl, fun htuple => ?_, fun htuple => ?_, head?_valueList hne,
    (setAll_filter hsound pairs).symm, fun id cell hcell hname => ?_⟩
  · cases hvalues : reached.values? with
    | none => exact nomatch htuple.symm.trans (Tree.values?_eq_none_iff.mp hvalues)
    | some values => rw [valueList, hvalues, Option.getD_some]
  · have hvalues : reached.values? = none := Tree.values?_eq_none_iff.mpr htuple
    rw [valueList, hvalues, Option.getD_none]
  · rw [get?_setAll hsound, hcell, Option.map_some, lookup_reverse_eq_none_iff.mpr hname,
      Variable.assign?]

/-- A tuple whose first variable is kept between zero and one. Its name is given twice, and a name
that is no variable stands between. -/
theorem invoke_bind_pair :
    ∃ new : Expression Float, Expression.parse (Vocabulary.standard 0.5) "x,y" = .ok new ∧
      let expression := new.applyAll [.adjust 0 (.restrict 0 1), .set "y" 3]
      let binding := new.bind ["x", "z", "x", "y"]
      let pairs := [("x", 2), ("z", 5), ("x", -1)]
      let reached := expression.setAll pairs
      new.IsStateOf new ∧ expression.IsStateOf new ∧
        binding.invoke expression [2, 5, -1] = (reached.value, reached) ∧
        (binding.invokeAll expression [2, 5, -1]).2 = reached ∧
        reached.values? = some (binding.invokeAll expression [2, 5, -1]).1 ∧
        (binding.invokeAll expression [2, 5, -1]).1.head? =
          some (binding.invoke expression [2, 5, -1]).1 ∧
        reached = expression.setAll (pairs.filter fun pair => pair.1 ∈ expression.variableNames) ∧
        ∀ id cell, expression.vars.get? id = some cell → cell.name ∉ ["x", "z", "x"] →
          reached.vars.get? id = some cell := by
  have hdistinct := Vocabulary.distinct_standard 0.5
  have hread : ∀ name ∈ ["x", "y"], ∃ result,
      Parser.parse (Vocabulary.standard 0.5) name = .ok result := by
    intro name hname
    have hword : IsWord name.toList := by revert name; decide
    have hfree : ∀ other ∈ (Vocabulary.standard (0.5 : Float)).names,
        ¬other.toList <+: name.toList := by
      rw [Vocabulary.names_standard]
      revert name
      decide
    exact ⟨_, parse_word hdistinct hword hfree⟩
  -- the tuple is read because both of its elements are
  obtain ⟨items, vars, hpair⟩ : ∃ items vars,
      Expression.parse (Vocabulary.standard 0.5) "x,y" = .ok ⟨.tuple items, vars⟩ := by
    have hnames := Vocabulary.amp_notMem_standard (0.5 : Float)
    rcases @Parser.parse_intercalate _ _ _ _ ["x", "y"] (by decide) (by decide) hnames
        (fun text htext => .of_notMem (Or.inr (by revert text; decide))) with
      ⟨⟨name, hname, e, he⟩, -⟩ | ⟨results, namess, -, -, hparse⟩
    · obtain ⟨result, hresult⟩ := hread name hname
      exact nomatch he.symm.trans hresult
    · exact ⟨_, _, parse_eq_ok_iff.mpr hparse⟩
  have hstate := (IsStateOf.refl ⟨.tuple items, vars⟩).applyAll
    [.adjust 0 (.restrict 0 1), .set "y" 3]
  obtain ⟨hinvoke, hreached, hvalues, -, hrest⟩ :=
    invoke_bind hpair (.refl _) hstate ["x", "z", "x", "y"] [2, 5, -1]
  exact ⟨_, hpair, .refl _, hstate, hinvoke, hreached, hvalues rfl, hrest⟩

/-! ### Several invocations -/

section Several

variable {binding other : Binding} {args args' : List α} (expression : Expression α)

/-- What is assigned through a binding is assigned again with arguments for as many positions. -/
theorem assign_assign_of_le
    (hcovers : min args.length binding.arity ≤ min args'.length binding.arity) :
    binding.assign (binding.assign expression args) args' = binding.assign expression args' := by
  have hsubset : (binding.row args).map Prod.fst ⊆ (binding.row args').map Prod.fst := by
    intro id
    rw [Binding.mem_row_iff, Binding.mem_row_iff, List.take_eq_take_min,
      List.take_eq_take_min (i := args'.length)]
    exact fun h => List.take_subset_take_left _ hcovers h
  rw [Binding.assign_eq, Binding.assign_eq, Binding.assign_eq,
    Variables.assignAll_assignAll_of_subset hsubset]

/-- Assignments through two bindings may be exchanged, if no variable has a position with an
argument in both. -/
theorem assign_comm_of_disjoint (hdisjoint : ∀ id, some id ∈ binding.slots.take args.length →
      some id ∉ other.slots.take args'.length) :
    other.assign (binding.assign expression args) args' =
      binding.assign (other.assign expression args') args := by
  have hrows : ((binding.row args).map Prod.fst).Disjoint ((other.row args').map Prod.fst) := by
    intro id hid hid'
    exact hdisjoint id (Binding.mem_row_iff.mp hid) (Binding.mem_row_iff.mp hid')
  rw [Binding.assign_eq, Binding.assign_eq, Binding.assign_eq, Binding.assign_eq,
    Variables.assignAll_comm hrows]

end Several

/-- Whatever the state, an invocation leaves each variable with the last of the arguments at its
positions, and a variable without an argument as it was. So nothing of it can be seen after another
invocation of the same binding that reaches as many of its positions. Invocations of two bindings
lead to the same state in either order, if no variable has a position with an argument in both. -/
theorem invoke_invoke (binding : Binding) (expression : Expression α) (args args' : List α) :
    (∀ id, (binding.invoke expression args).2.vars.get? id =
      (expression.vars.get? id).map fun cell =>
        cell.assign? ((binding.row args).reverse.lookup id)) ∧
    (min args.length binding.arity ≤ min args'.length binding.arity →
      binding.invoke (binding.invoke expression args).2 args' = binding.invoke expression args' ∧
      binding.invokeAll (binding.invokeAll expression args).2 args' =
        binding.invokeAll expression args') ∧
    ∀ other : Binding,
      (∀ id, some id ∈ binding.slots.take args.length →
        some id ∉ other.slots.take args'.length) →
      (other.invoke (binding.invoke expression args).2 args').2 =
        (binding.invoke (other.invoke expression args').2 args).2 ∧
      (other.invokeAll (binding.invokeAll expression args).2 args').2 =
        (binding.invokeAll (other.invokeAll expression args').2 args).2 := by
  refine ⟨fun id => ?_, ?_, ?_⟩
  · show (binding.assign expression args).vars.get? id = _
    rw [Binding.assign_eq]
    exact Variables.get?_assignAll _ _ id
  · intro hcovers
    unfold Binding.invoke Binding.invokeAll
    rw [assign_assign_of_le expression hcovers]
    exact ⟨rfl, rfl⟩
  · intro other hdisjoint
    have hassign := assign_comm_of_disjoint expression hdisjoint
    exact ⟨hassign, hassign⟩

/-- A binding with a repeated variable and a position without one, and a binding of another
variable. -/
theorem invoke_invoke_sum :
    let expression : Expression Float :=
      ⟨.sum [.var 0, .var 1], (Variables.empty.internAll ["x", "y"]).write [(0, .restrict 0 1)]⟩
    let binding : Binding := ⟨[some 0, none, some 0]⟩
    let other : Binding := ⟨[some 1, some 0]⟩
    (binding.invoke expression [1, 2]).2.vars.get? 0 =
        (expression.vars.get? 0).map (·.assign 1) ∧
      min [1, 2].length binding.arity ≤ min [3, 4, 5, 6].length binding.arity ∧
      (∀ id, some id ∈ binding.slots.take [1, 2].length → some id ∉ other.slots.take [3].length) ∧
      binding.invoke (binding.invoke expression [1, 2]).2 [3, 4, 5, 6] =
        binding.invoke expression [3, 4, 5, 6] ∧
      binding.invokeAll (binding.invokeAll expression [1, 2]).2 [3, 4, 5, 6] =
        binding.invokeAll expression [3, 4, 5, 6] ∧
      (other.invoke (binding.invoke expression [1, 2]).2 [3]).2 =
        (binding.invoke (other.invoke expression [3]).2 [1, 2]).2 ∧
      (other.invokeAll (binding.invokeAll expression [1, 2]).2 [3]).2 =
        (binding.invokeAll (other.invokeAll expression [3]).2 [1, 2]).2 := by
  intro expression binding other
  have hdisjoint : ∀ id, some id ∈ binding.slots.take [1, 2].length →
      some id ∉ other.slots.take [3].length := by
    simp [binding, other]
  have hcovers : min [1, 2].length binding.arity ≤ min [3, 4, 5, 6].length binding.arity := by
    decide
  obtain ⟨hstored, hlater, -⟩ := invoke_invoke binding expression [1, 2] [3, 4, 5, 6]
  obtain ⟨-, -, hother⟩ := invoke_invoke binding expression [1, 2] [3]
  obtain ⟨hinvoke, hinvokeAll⟩ := hlater hcovers
  exact ⟨hstored 0, hcovers, hdisjoint, hinvoke, hinvokeAll, hother other hdisjoint⟩

end Expression

end Formula
