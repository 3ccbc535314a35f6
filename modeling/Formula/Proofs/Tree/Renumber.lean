import Formula.Parser
import Formula.Proofs.VariableTable
import Formula.Tree.Value

/-!
# Other numbers for the same variables

Two tables may have the same name under different numbers. `Variables.Translates f vars vars'` says
that `f` takes the number of a name in `vars` to its number in `vars'`; for one table that has its
places right there is such a function, `Variables.numberIn`.

`Tree.renumber` applies a function to the numbers of the variables of a tree. It changes no value,
if the variables have the same values under their new numbers (`Tree.value_renumber`), and it can be
applied before or after a tree is put together from the trees of its parts
(`Operator.assemble?_renumber`).
-/

namespace Formula

variable {α : Type}

/-! ### Two tables -/

namespace Variables

variable {vars vars' later later' : Variables α}

/-- Whether `f` takes the number of every name in `vars` to its number in `vars'`, if both have the
name. -/
def Translates (f : Nat → Nat) (vars vars' : Variables α) : Prop :=
  ∀ name id id', vars.find? name = some id → vars'.find? name = some id' → f id = id'

/-- What translates later numbers translates the earlier ones. -/
theorem Translates.of_grows {f : Nat → Nat} (h : vars.Grows later) (h' : vars'.Grows later')
    (hf : Translates f later later') : Translates f vars vars' :=
  fun name id id' hid hid' => hf name id id' (h name id hid) (h' name id' hid')

/-- The number in `vars'` of the variable that has the number `id` in `vars`, found by its name. -/
def numberIn (vars vars' : Variables α) (id : Nat) : Nat :=
  ((vars.get? id).bind fun cell => vars'.find? cell.name).getD id

/-- By their names, the variables of one table are translated to another one that has the names. -/
theorem translates_numberIn (h : vars.Sound) (vars' : Variables α) :
    Translates (vars.numberIn vars') vars vars' := by
  intro name id id' hid hid'
  have hname := (h name id).mp hid
  rw [names_getElem?] at hname
  obtain ⟨cell, hcell, rfl⟩ := Option.map_eq_some_iff.mp hname
  rw [numberIn, hcell, Option.bind_some, hid', Option.getD_some]

/-- Every name that both tables have gets its number in the second one. -/
theorem find?_numberIn (h : vars.Sound) (h' : vars'.Sound) {name : String} {id : Nat}
    (hid : vars.find? name = some id) (hname : name ∈ vars'.names) :
    vars'.find? name = some (vars.numberIn vars' id) := by
  obtain ⟨id', hid', -⟩ := Indexes.exists_place h' hname
  rw [translates_numberIn h vars' name id id' hid hid']
  exact hid'

end Variables

/-! ### Trees -/

namespace Tree

mutual

/-- The tree with `f` applied to the numbers of its variables. -/
def renumber (f : Nat → Nat) : Tree α → Tree α
  | .scalar value => .scalar value
  | .var id => .var (f id)
  | .sum terms => .sum (renumberAll f terms)
  | .product factors => .product (renumberAll f factors)
  | .negate operand => .negate (renumber f operand)
  | .reciprocal operand => .reciprocal (renumber f operand)
  | .power base exponent => .power (renumber f base) (renumber f exponent)
  | .modulus left right => .modulus (renumber f left) (renumber f right)
  | .call name apply args => .call name apply (renumberAll f args)
  | .constant name value => .constant name value
  | .tuple items => .tuple (renumberAll f items)

/-- The trees with `f` applied to the numbers of their variables. -/
def renumberAll (f : Nat → Nat) : List (Tree α) → List (Tree α)
  | [] => []
  | tree :: rest => renumber f tree :: renumberAll f rest

end

variable (f : Nat → Nat)

theorem renumberAll_eq_map (trees : List (Tree α)) :
    renumberAll f trees = trees.map (renumber f) := by
  induction trees with
  | nil => rfl
  | cons tree rest ih => simp [renumberAll, ih]

theorem elements_renumber (tree : Tree α) :
    (tree.renumber f).elements = tree.elements.map (renumber f) := by
  cases tree with
  | tuple items =>
    rw [renumber, renumberAll_eq_map]
    rfl
  | _ => simp [renumber, elements]

section Values

variable [Arithmetic α] {f : Nat → Nat} {vars vars' : Variables α}

mutual

/-- New numbers change no value, if the variables keep their values. -/
theorem value_renumber (h : ∀ id, vars'.valueOf (f id) = vars.valueOf id) :
    ∀ tree : Tree α, (tree.renumber f).value vars' = tree.value vars
  | .scalar _ => by simp only [renumber, value]
  | .var id => by simp only [renumber, value, h id]
  | .sum terms => by simp only [renumber, value, valueAll_renumber h terms]
  | .product factors => by simp only [renumber, value, valueAll_renumber h factors]
  | .negate operand => by simp only [renumber, value, value_renumber h operand]
  | .reciprocal operand => by simp only [renumber, value, value_renumber h operand]
  | .power base exponent => by
    simp only [renumber, value, value_renumber h base, value_renumber h exponent]
  | .modulus left right => by
    simp only [renumber, value, value_renumber h left, value_renumber h right]
  | .call _ _ args => by simp only [renumber, value, valueAll_renumber h args]
  | .constant _ _ => by simp only [renumber, value]
  | .tuple [] => by simp only [renumber, renumberAll, value]
  | .tuple (first :: rest) => by simp only [renumber, renumberAll, value, value_renumber h first]

theorem valueAll_renumber (h : ∀ id, vars'.valueOf (f id) = vars.valueOf id) :
    ∀ trees : List (Tree α), valueAll vars' (renumberAll f trees) = valueAll vars trees
  | [] => by simp only [renumberAll, valueAll]
  | tree :: rest => by
    simp only [renumberAll, valueAll, value_renumber h tree, valueAll_renumber h rest]

end

end Values

end Tree

/-! ### Assembling trees -/

open Formula.Tree (renumber renumberAll_eq_map)

namespace Operator

variable (f : Nat → Nat)

theorem orient_renumber (operator : Operator) (inverted : Bool) (tree : Tree α) :
    operator.orient inverted (tree.renumber f) = (operator.orient inverted tree).renumber f := by
  unfold orient
  split <;> simp only [renumber]

theorem wrapSeveral_renumber {wrap : List (Tree α) → Tree α}
    (hwrap : ∀ trees, (wrap trees).renumber f = wrap (trees.map (renumber f)))
    (trees : List (Tree α)) :
    wrapSeveral wrap (trees.map (renumber f)) = (wrapSeveral wrap trees).map (renumber f) := by
  match trees with
  | [] => rfl
  | [tree] => rfl
  | tree :: tree' :: trees => exact congrArg some (hwrap (tree :: tree' :: trees)).symm

/-- Renumbered trees are put together to the renumbered tree. -/
theorem assemble?_renumber (operator : Operator) (trees : List (Tree α)) :
    operator.assemble? (trees.map (renumber f)) = (operator.assemble? trees).map (renumber f) := by
  have hsum : ∀ trees : List (Tree α),
      (Tree.sum trees).renumber f = .sum (trees.map (renumber f)) := by
    simp only [renumber, renumberAll_eq_map, implies_true]
  have htuple : ∀ trees : List (Tree α),
      (Tree.tuple trees).renumber f = .tuple (trees.map (renumber f)) := by
    simp only [renumber, renumberAll_eq_map, implies_true]
  have hproduct : ∀ trees : List (Tree α),
      (Tree.product trees).renumber f = .product (trees.map (renumber f)) := by
    simp only [renumber, renumberAll_eq_map, implies_true]
  cases operator with
  | list => exact wrapSeveral_renumber f htuple trees
  | add | subtract => exact wrapSeveral_renumber f hsum trees
  | multiply => exact congrArg some (hproduct trees).symm
  | divide =>
    cases trees with
    | nil => rfl
    | cons tree trees => exact congrArg some (hproduct (tree :: trees)).symm
  | modulo | raise =>
    match trees with
    | [] | [_] | _ :: _ :: _ :: _ => rfl
    | [left, right] => simp only [List.map_cons, List.map_nil, assemble?, Option.map_some, renumber]

end Operator

end Formula
