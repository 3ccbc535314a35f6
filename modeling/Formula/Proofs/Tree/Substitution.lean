import Formula.Number.Binary64
import Formula.Proofs.Expression.Assignments
import Formula.Proofs.Parser.Numbering

/-!
# Putting trees in for variables

`Tree.instantiate f` has the tree `f id` in place of every variable `id`, however deep it stands. It
has the value that the tree has where each of its variables has the value of what is put in for it
(`Tree.value_instantiate`). Two facts follow:

* the value of a tree depends on no variable that does not occur in it (`Tree.value_congr`);
* an assignment has the same effect on the value of every tree as putting the stored number in for
  the variable (`Tree.value_assign`).
-/

namespace Formula

open NumberOrder (isUndefined)

variable {α : Type}

namespace Tree

mutual

/-- The tree with the tree `f id` in place of every variable `id`. -/
def instantiate (f : Nat → Tree α) : Tree α → Tree α
  | .scalar value => .scalar value
  | .var id => f id
  | .sum terms => .sum (instantiateAll f terms)
  | .product factors => .product (instantiateAll f factors)
  | .negate operand => .negate (instantiate f operand)
  | .reciprocal operand => .reciprocal (instantiate f operand)
  | .power base exponent => .power (instantiate f base) (instantiate f exponent)
  | .modulus left right => .modulus (instantiate f left) (instantiate f right)
  | .call name apply args => .call name apply (instantiateAll f args)
  | .constant name value => .constant name value
  | .tuple items => .tuple (instantiateAll f items)

/-- The trees with the tree `f id` in place of every variable `id`. -/
def instantiateAll (f : Nat → Tree α) : List (Tree α) → List (Tree α)
  | [] => []
  | tree :: rest => instantiate f tree :: instantiateAll f rest

end

/-- A number for the variable `id`, and all other variables for themselves. -/
def put (id : Nat) (value : α) (other : Nat) : Tree α :=
  if other = id then .scalar value else .var other

/-- The tree with a number in place of the variable `id`. -/
def substitute (id : Nat) (value : α) : Tree α → Tree α := instantiate (put id value)

theorem isTuple_put (id : Nat) (value : α) (other : Nat) :
    (put id value other).isTuple = false := by
  unfold put
  split <;> rfl

section Instantiate

variable (f : Nat → Tree α)

mutual

/-- The variables of what is put in stand where the variables of the tree have stood. -/
theorem ids_instantiate : ∀ tree : Tree α,
    (tree.instantiate f).ids = tree.ids.flatMap fun id => (f id).ids
  | .scalar _ | .constant _ _ => by simp only [instantiate, ids, List.flatMap_nil]
  | .var _ => by simp only [instantiate, ids, List.flatMap_cons, List.flatMap_nil, List.append_nil]
  | .sum trees | .product trees | .tuple trees | .call _ _ trees => by
    simp only [instantiate, ids, ids_instantiateAll trees]
  | .negate operand | .reciprocal operand => by
    simp only [instantiate, ids, ids_instantiate operand]
  | .power left right | .modulus left right => by
    simp only [instantiate, ids, ids_instantiate left, ids_instantiate right, List.flatMap_append]

theorem ids_instantiateAll : ∀ trees : List (Tree α),
    idsAll (instantiateAll f trees) = (idsAll trees).flatMap fun id => (f id).ids
  | [] => by simp only [instantiateAll, idsAll, List.flatMap_nil]
  | tree :: rest => by
    simp only [instantiateAll, idsAll, ids_instantiate tree, ids_instantiateAll rest,
      List.flatMap_append]

end

end Instantiate

/-- The occurrences of the variable are gone, and those of the others have stayed. -/
theorem ids_substitute (id : Nat) (value : α) (tree : Tree α) :
    (tree.substitute id value).ids = tree.ids.filter (· ≠ id) := by
  rw [substitute, ids_instantiate, ← List.filterMap_eq_filter, List.filterMap_eq_flatMap_toList]
  congr 1
  funext other
  unfold put
  by_cases h : other = id
  · simp [h, ids]
  · simp [h, ids]

mutual

/-- Nothing changes when every variable is put in for itself. -/
theorem instantiate_var : ∀ tree : Tree α, tree.instantiate .var = tree
  | .scalar _ | .constant _ _ | .var _ => by simp only [instantiate]
  | .sum trees | .product trees | .tuple trees | .call _ _ trees => by
    simp only [instantiate, instantiateAll_var trees]
  | .negate operand | .reciprocal operand => by simp only [instantiate, instantiate_var operand]
  | .power left right | .modulus left right => by
    simp only [instantiate, instantiate_var left, instantiate_var right]

theorem instantiateAll_var : ∀ trees : List (Tree α), instantiateAll .var trees = trees
  | [] => by simp only [instantiateAll]
  | tree :: rest => by simp only [instantiateAll, instantiate_var tree, instantiateAll_var rest]

end

section Values

variable [Arithmetic α] {f : Nat → Tree α} {vars vars' : Variables α}

mutual

/-- A tree has its value for the values of what is put in for its variables. -/
theorem value_instantiate : ∀ tree : Tree α,
    (∀ id ∈ tree.ids, (f id).value vars = vars'.valueOf id) →
      (tree.instantiate f).value vars = tree.value vars'
  | .scalar _, _ | .constant _ _, _ => by simp only [instantiate, value]
  | .var id, h => by simpa only [instantiate, value] using h id (by simp [ids])
  | .sum trees, h | .product trees, h | .call _ _ trees, h => by
    simp only [instantiate, value, valueAll_instantiate trees h]
  | .negate operand, h | .reciprocal operand, h => by
    simp only [instantiate, value, value_instantiate operand h]
  | .power left right, h | .modulus left right, h => by
    have hleft := value_instantiate left fun id hid => h id (List.mem_append_left _ hid)
    have hright := value_instantiate right fun id hid => h id (List.mem_append_right _ hid)
    simp only [instantiate, value, hleft, hright]
  | .tuple [], _ => by simp only [instantiate, instantiateAll, value]
  | .tuple (first :: rest), h => by
    have hfirst := value_instantiate first fun id hid => h id (List.mem_append_left _ hid)
    simp only [instantiate, instantiateAll, value, hfirst]

theorem valueAll_instantiate : ∀ trees : List (Tree α),
    (∀ id ∈ idsAll trees, (f id).value vars = vars'.valueOf id) →
      valueAll vars (instantiateAll f trees) = valueAll vars' trees
  | [], _ => by simp only [instantiateAll, valueAll]
  | tree :: rest, h => by
    have htree := value_instantiate tree fun id hid => h id (List.mem_append_left _ hid)
    have hrest := valueAll_instantiate rest fun id hid => h id (List.mem_append_right _ hid)
    simp only [instantiateAll, valueAll, htree, hrest]

end

/-- The tree that is a single variable may not become a tuple. -/
theorem values?_instantiate {tree : Tree α} (hf : ∀ id, (f id).isTuple = false)
    (h : ∀ id ∈ tree.ids, (f id).value vars = vars'.valueOf id) :
    (tree.instantiate f).values? vars = tree.values? vars' := by
  cases tree with
  | tuple items =>
    rw [instantiate]
    exact congrArg some (valueAll_instantiate items h)
  | var id =>
    rw [instantiate, values?_eq_none_iff.mpr (hf id)]
    rfl
  | _ => simp only [instantiate, values?]

end Values

end Tree

/-! ### What a value depends on -/

section Dependence

variable [Arithmetic α]

/-- Whether the variables with the given numbers have the same values in two tables. -/
def Variables.AgreeOn (ids : List Nat) (vars vars' : Variables α) : Prop :=
  ∀ id ∈ ids, vars.valueOf id = vars'.valueOf id

/-- The value of a tree depends on no other variables than those that occur in it. -/
theorem Tree.value_congr {tree : Tree α} {vars vars' : Variables α}
    (h : Variables.AgreeOn tree.ids vars vars') : tree.value vars = tree.value vars' := by
  have hvalue : (tree.instantiate .var).value vars = tree.value vars' :=
    value_instantiate tree fun id hid => by simpa only [value] using h id hid
  rwa [instantiate_var] at hvalue

/-- An element of a tuple depends on no other variables than those that occur in it. -/
theorem Tree.values?_congr {items : List (Tree α)} {item : Tree α} {i : Nat}
    (hitem : items[i]? = some item) {vars vars' : Variables α}
    (h : Variables.AgreeOn item.ids vars vars') :
    ∃ value, ((Tree.tuple items).values? vars).bind (·[i]?) = some value ∧
      ((Tree.tuple items).values? vars').bind (·[i]?) = some value := by
  refine ⟨item.value vars, ?_, ?_⟩
  · rw [Tree.values?, Tree.valueAll_eq_map, Option.bind_some, List.getElem?_map, hitem,
      Option.map_some]
  · rw [Tree.values?, Tree.valueAll_eq_map, Option.bind_some, List.getElem?_map, hitem,
      Option.map_some, Tree.value_congr h]

end Dependence

/-! ### Assignment as substitution -/

variable [Arithmetic α] [NumberOrder α]

/-- The assigned variable has the stored value, and all others have the values that they had. -/
theorem Variables.valueOf_assign {vars : Variables α} {id : Nat} {cell : Variable α}
    (hcell : vars.get? id = some cell) (value : α) (other : Nat) :
    (vars.assign id value).valueOf other =
      if other = id then (cell.assign value).value else vars.valueOf other := by
  rw [valueOf, assign, get?_update]
  by_cases h : other = id
  · rw [if_pos h, if_pos h, h, hcell]
    rfl
  · rw [if_neg h, if_neg h, valueOf]

/-- An assignment to one variable leaves the values of all others as they are. -/
theorem Variables.AgreeOn.assign {ids : List Nat} {id : Nat} (hid : id ∉ ids) (vars : Variables α)
    (value : α) : vars.AgreeOn ids (vars.assign id value) := by
  intro other hother
  have hne : other ≠ id := fun h => hid (h ▸ hother)
  rw [valueOf, valueOf, Variables.assign, get?_update, if_neg hne]

/-- After an assignment every tree has the value, and the values of its elements, that the tree with
the stored number in place of the variable has before it: the number that was assigned, clamped if
the variable has bounds and the number is defined. Nothing of the variable is left in that tree, and
all other variables stand in it as before. Consequently an element of a tuple depends on the
variables that occur in it and on no others, and the value of a tuple on those of its first element.

A number that is not that of a variable has the value zero on both sides. -/
theorem Tree.value_assign {vars : Variables α} {id : Nat} {cell : Variable α}
    (hcell : vars.get? id = some cell) (value : α) (tree : Tree α) :
    let stored := match cell.bounds with
      | some bounds => if isUndefined value then value else bounds.clamp value
      | none => value
    (vars.assign id value).valueOf id = stored ∧
      tree.value (vars.assign id value) = (tree.substitute id stored).value vars ∧
      tree.values? (vars.assign id value) = (tree.substitute id stored).values? vars ∧
      (tree.substitute id stored).ids = tree.ids.filter (· ≠ id) ∧
      (∀ (items : List (Tree α)) (i : Nat) (item : Tree α) (vars vars' : Variables α),
        items[i]? = some item → Variables.AgreeOn item.ids vars vars' →
          ∃ value, ((Tree.tuple items).values? vars).bind (·[i]?) = some value ∧
            ((Tree.tuple items).values? vars').bind (·[i]?) = some value) ∧
      ∀ (first : Tree α) (rest : List (Tree α)) (vars vars' : Variables α),
        Variables.AgreeOn first.ids vars vars' →
          (Tree.tuple (first :: rest)).value vars = (Tree.tuple (first :: rest)).value vars' := by
  intro stored
  have hvalueOf : ∀ other, (vars.assign id value).valueOf other =
      if other = id then stored else vars.valueOf other := Variables.valueOf_assign hcell value
  -- what is put in has the value that the variable has after the assignment
  have hput : ∀ other, (put id stored other).value vars = (vars.assign id value).valueOf other := by
    intro other
    rw [hvalueOf, put]
    split <;> rw [Tree.value]
  refine ⟨?_, (value_instantiate tree fun other _ => hput other).symm,
    (values?_instantiate (isTuple_put id stored) fun other _ => hput other).symm,
    ids_substitute id stored tree, fun _ _ _ _ _ hitem h => values?_congr hitem h, ?_⟩
  · rw [hvalueOf, if_pos rfl]
  · intro first rest vars vars' h
    rw [Tree.value, Tree.value, value_congr h]

/-- A variable between zero and one, of which the first element makes use twice, once in an
argument. The second element is another variable. -/
theorem Tree.value_assign_clamped :
    let vars : Variables Float :=
      ⟨#[⟨"x", 0, some ⟨0, 1⟩⟩, ⟨"y", 4, none⟩], .ofList [("x", 0), ("y", 1)]⟩
    let sum (x : Tree Float) : Tree Float :=
      .sum [x, .call "first" (·.headD 0) [.power x (.scalar 2)]]
    let pair (x : Tree Float) : Tree Float := .tuple [sum x, .var 1]
    vars.get? 0 = some ⟨"x", 0, some ⟨0, 1⟩⟩ ∧
      (vars.assign 0 7).valueOf 0 = 1 ∧
      (pair (.var 0)).value (vars.assign 0 7) = (pair (.scalar 1)).value vars ∧
      (pair (.var 0)).values? (vars.assign 0 7) = (pair (.scalar 1)).values? vars ∧
      (∃ value, ((pair (.var 0)).values? vars).bind (·[1]?) = some value ∧
        ((pair (.var 0)).values? (vars.assign 0 7)).bind (·[1]?) = some value) ∧
      (pair (.var 0)).value vars = (pair (.var 0)).value (vars.assign 1 7) := by
  intro vars sum pair
  have hcell : vars.get? 0 = some ⟨"x", 0, some ⟨0, 1⟩⟩ := rfl
  have hy : Variables.AgreeOn [1] vars (vars.assign 0 7) := .assign (by decide) vars 7
  have hx : Variables.AgreeOn [0, 0] vars (vars.assign 1 7) := .assign (by decide) vars 7
  -- the cell is bounded by 0 and 1, so that it is 1 that is stored
  have hclamp : (if isUndefined (7 : Float) then 7 else Bounds.clamp ⟨0, 1⟩ 7 : Float) = 1 := rfl
  have hpair : (pair (.var 0)).substitute 0 1 = pair (.scalar 1) := rfl
  have hassign := Tree.value_assign hcell 7 (pair (.var 0))
  dsimp only at hassign
  rw [hclamp, hpair] at hassign
  obtain ⟨hstored, hvalue, hvalues, -, hitem, hfirst⟩ := hassign
  exact ⟨hcell, hstored, hvalue, hvalues,
    hitem [sum (.var 0), .var 1] 1 (.var 1) vars (vars.assign 0 7) rfl hy,
    hfirst (sum (.var 0)) [.var 1] vars (vars.assign 1 7) hx⟩

end Formula
