import Formula.Proofs.Outline.Blanks
import Formula.Proofs.Parser.Steps
import Formula.Proofs.VariableTable
import Formula.Tree.Value
import Mathlib.Data.List.Forall2

/-!
# The meaning of outlines

The meaning of a text is its value as a function of the values of variables by name. `Means` says
that an outline is read to a tree with this value: whatever variables there were before, and
whatever variables and values there may be later. An outline that is split at an operator means what
the operator makes of the meanings of its operands (`means_of_operands`).
-/

namespace Formula

variable {α : Type} [Arithmetic α]

/-- The value of a text for the values of variables by name. -/
abbrev Meaning (α : Type) := (String → α) → α

namespace Variables

/-- The value of the variable called `name`, zero if there is none. -/
def valueNamed (vars : Variables α) (name : String) : α :=
  match vars.find? name with
  | some id => vars.valueOf id
  | none => 0

theorem valueNamed_of_find? {vars : Variables α} {name : String} {id : Nat}
    (h : vars.find? name = some id) : vars.valueNamed name = vars.valueOf id := by
  rw [valueNamed, h]

end Variables

/-! ### Operators on values -/

namespace Operator

/-- The value of an operand for the value of its text. -/
def orientValue (operator : Operator) (inverted : Bool) (x : α) : α :=
  match operator, inverted with
  | .subtract, true => -x
  | .divide, true => Arithmetic.reciprocal x
  | _, _ => x

/-- The operation by which the values of two operands are joined. -/
def combine : Operator → α → α → α
  | .list => fun x _ => x
  | .add | .subtract => fun x y => x + y
  | .multiply | .divide => fun x y => x * y
  | .modulo => Arithmetic.remainder
  | .raise => Arithmetic.power

@[simp]
theorem orientValue_false (operator : Operator) (x : α) : operator.orientValue false x = x := by
  cases operator <;> rfl

theorem value_orient (operator : Operator) (inverted : Bool) (tree : Tree α) (vars : Variables α) :
    (operator.orient inverted tree).value vars =
      operator.orientValue inverted (tree.value vars) := by
  unfold orient orientValue
  split <;> simp [Tree.value]

omit [Arithmetic α] in
theorem isTuple_orient {operator : Operator} {inverted : Bool} {tree : Tree α}
    (h : tree.isTuple = false) : (operator.orient inverted tree).isTuple = false := by
  unfold orient
  split
  · rfl
  · rfl
  · exact h

/-- Whether an operator makes a tree of so many operands. -/
def Takes (operator : Operator) (count : Nat) : Prop :=
  match operator with
  | .list => False
  | .add | .subtract | .multiply | .divide => 0 < count
  | .modulo | .raise => count = 2

/-- The tree of an operator has the values of its operands joined from left to right. -/
theorem exists_assemble? {operator : Operator} {trees : List (Tree α)}
    (hcount : operator.Takes trees.length) (htuple : ∀ tree ∈ trees, tree.isTuple = false) :
    ∃ tree, operator.assemble? trees = some tree ∧ tree.isTuple = false ∧
      ∀ vars, tree.value vars = Tree.joinLeft operator.combine (trees.map (Tree.value vars)) := by
  have hsum : ∀ trees : List (Tree α), trees ≠ [] → (∀ tree ∈ trees, tree.isTuple = false) →
      ∃ tree, wrapSeveral Tree.sum trees = some tree ∧ tree.isTuple = false ∧
        ∀ vars, tree.value vars = Tree.joinLeft (· + ·) (trees.map (Tree.value vars)) := by
    intro trees hne htuple
    match trees with
    | [tree] => exact ⟨tree, rfl, htuple tree (by simp), fun vars => rfl⟩
    | tree :: tree' :: trees =>
      exact ⟨_, rfl, rfl, fun vars => by rw [Tree.value, Tree.valueAll_eq_map]⟩
  have hproduct : ∀ vars : Variables α, (Tree.product trees).value vars =
      Tree.joinLeft (· * ·) (trees.map (Tree.value vars)) := by
    intro vars
    rw [Tree.value, Tree.valueAll_eq_map]
  cases operator with
  | list => exact hcount.elim
  | add | subtract => exact hsum trees (List.ne_nil_of_length_pos hcount) htuple
  | multiply => exact ⟨_, rfl, rfl, hproduct⟩
  | divide =>
    obtain ⟨tree, trees, rfl⟩ :=
      List.exists_cons_of_ne_nil (List.ne_nil_of_length_pos hcount)
    exact ⟨_, rfl, rfl, hproduct⟩
  | modulo | raise =>
    obtain ⟨left, right, rfl⟩ := List.length_eq_two.mp hcount
    exact ⟨_, rfl, rfl, fun vars => by rw [Tree.value]; rfl⟩

end Operator

namespace Outline

variable [Numeral α] {vocabulary : Vocabulary α}

/-- Whether an outline is read, after any variables, to a tree that is no tuple and that has the
given value for all variables that may come later. -/
def Means (vocabulary : Vocabulary α) (o : Outline) (f : Meaning α) : Prop :=
  ∀ vars, ∃ tree vars', (read vocabulary o).run vars = .ok (tree, vars') ∧
    tree.isTuple = false ∧ vars.Grows vars' ∧
    ∀ later, vars'.Grows later → tree.value later = f later.valueNamed

theorem Means.congr {o p : Outline} {f : Meaning α} (htrim : o.trim = p.trim)
    (h : Means vocabulary o f) : Means vocabulary p f := by
  unfold Means at h ⊢
  rwa [← read_congr htrim]

/-- The operands of an operator are read one after another. -/
theorem mapM_means (operator : Operator) {ops : List Operand} {fs : List (Meaning α)}
    (h : List.Forall₂ (fun operand f => Means vocabulary operand.outline f) ops fs)
    (vars : Variables α) :
    ∃ trees vars', (ops.mapM fun operand : Operand => do
        let tree ← read vocabulary operand.outline
        return operator.orient operand.inverted tree).run vars = .ok (trees, vars') ∧
      trees.length = fs.length ∧ (∀ tree ∈ trees, tree.isTuple = false) ∧ vars.Grows vars' ∧
      ∀ later, vars'.Grows later → trees.map (Tree.value later) =
        ops.zipWith (fun operand f => operator.orientValue operand.inverted (f later.valueNamed))
          fs := by
  induction h generalizing vars with
  | nil => exact ⟨[], vars, rfl, rfl, by simp, .refl vars, fun _ _ => rfl⟩
  | @cons operand f ops fs hhead htail ih =>
    obtain ⟨tree, vars₁, hread, htuple, hgrows, hvalue⟩ := hhead vars
    obtain ⟨trees, vars₂, hreads, hlen, htuples, hgrows', hvalues⟩ := ih vars₁
    refine ⟨operator.orient operand.inverted tree :: trees, vars₂, ?_, by simp [hlen], ?_,
      hgrows.trans hgrows', ?_⟩
    · rw [List.mapM_cons]
      refine Parser.bind_eq_ok.mpr ⟨operator.orient operand.inverted tree, vars₁, ?_, ?_⟩
      · exact Parser.bind_eq_ok.mpr ⟨tree, vars₁, hread, rfl⟩
      · exact Parser.bind_eq_ok.mpr ⟨trees, vars₂, hreads, rfl⟩
    · intro tree' htree'
      rcases List.mem_cons.mp htree' with rfl | htree'
      · exact Operator.isTuple_orient htuple
      · exact htuples tree' htree'
    · intro later hlater
      rw [List.map_cons, List.zipWith_cons_cons, Operator.value_orient,
        hvalue later (hgrows'.trans hlater), hvalues later hlater]

/-- An outline means what its loosest operator makes of the meanings of its operands. -/
theorem means_of_operands {o : Outline} {operator : Operator} {fs : List (Meaning α)}
    (hop : o.loosestIn? = some operator)
    (hops : List.Forall₂ (fun operand f => Means vocabulary operand.outline f)
      (operands operator o) fs) (hcount : operator.Takes fs.length) :
    Means vocabulary o fun ρ => Tree.joinLeft operator.combine
      ((operands operator o).zipWith
        (fun operand f => operator.orientValue operand.inverted (f ρ)) fs) := by
  intro vars
  obtain ⟨trees, vars', hreads, hlen, htuples, hgrows, hvalues⟩ := mapM_means operator hops vars
  obtain ⟨tree, htree, htuple, hvalue⟩ := Operator.exists_assemble? (hlen ▸ hcount) htuples
  refine ⟨tree, vars', ?_, htuple, hgrows, ?_⟩
  · rw [read_of_loosestIn? hop]
    refine Parser.bind_eq_ok.mpr ⟨trees, vars', hreads, ?_⟩
    rw [htree]
    rfl
  · intro later hlater
    rw [hvalue, hvalues later hlater]

end Outline

end Formula
