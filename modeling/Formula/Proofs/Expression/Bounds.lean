import Formula.Proofs.Expression.Changes
import Formula.Proofs.Number.Binary64

/-!
# Variables stay in their bounds

A variable with bounds has them in order, and its value is between them (`Variable.InBounds`),
whatever is done to it: bounds are put in order when they are set, and a value is clamped whenever
it is stored (`Variable.InBounds.write`). All changes of an expression are writes to its variables,
so that the variables of an expression stay in their bounds through any row of changes
(`applyAll_inBounds`).

Comparison has to be lawful for this. The undefined number is in every range, and an undefined end
of a range bounds nothing.
-/

namespace Formula

open NumberOrder (isUndefined)

variable {α : Type} [NumberOrder α]

/-! ### One variable -/

namespace Variable

/-- Whether a variable is in its bounds, if it has any: the bounds are in order and hold its
value. -/
def InBounds (cell : Variable α) : Prop :=
  ∀ bounds, cell.bounds = some bounds → bounds.Ordered ∧ bounds.Holds cell.value

theorem inBounds_of_bounds_eq_none {cell : Variable α} (h : cell.bounds = none) : cell.InBounds :=
  fun _ hbounds => nomatch h.symm.trans hbounds

variable [LawfulNumberOrder α]

/-- It takes bounds in order, and no more, for an assigned value to be in them. -/
theorem inBounds_assign {cell : Variable α}
    (h : ∀ bounds, cell.bounds = some bounds → bounds.Ordered) (value : α) :
    (cell.assign value).InBounds := by
  intro bounds hbounds
  have hcell : cell.bounds = some bounds := hbounds
  refine ⟨h bounds hcell, ?_⟩
  rw [assign, hcell]
  dsimp only
  split
  · rename_i hundefined
    exact Bounds.holds_of_undefined hundefined
  · rename_i hdefined
    exact ((h bounds hcell).holds_clamp (Bool.eq_false_iff.mpr hdefined)).2

/-- Whatever is done to a variable, it stays in its bounds: its value is clamped when it is stored,
and again when new bounds are set. -/
theorem InBounds.write {cell : Variable α} (h : cell.InBounds) (write : Write α) :
    (cell.write write).InBounds := by
  cases write with
  | assign value => exact inBounds_assign (fun bounds hbounds => (h bounds hbounds).1) value
  | restrict a b =>
    refine inBounds_assign (fun bounds hbounds => ?_) cell.value
    obtain rfl := Option.some.inj hbounds
    exact Bounds.ordered_between a b
  | release => exact inBounds_of_bounds_eq_none rfl

end Variable

/-! ### All variables -/

namespace Variables

/-- Whether all variables are in their bounds. -/
def InBounds (vars : Variables α) : Prop := ∀ id cell, vars.get? id = some cell → cell.InBounds

variable [LawfulNumberOrder α]

/-- One write keeps one variable in its bounds, and so several writes keep them all, in whatever
order. -/
theorem InBounds.write {vars : Variables α} (h : vars.InBounds) (writes : List (Nat × Write α)) :
    (vars.write writes).InBounds := by
  induction writes generalizing vars with
  | nil => exact h
  | cons write writes ih =>
    refine ih fun id cell hcell => ?_
    rw [get?_update] at hcell
    split at hcell
    · obtain ⟨old, hold, rfl⟩ := Option.map_eq_some_iff.mp hcell
      exact (h id old hold).write write.2
    · exact h id cell hcell

end Variables

namespace Expression

variable [Arithmetic α] {expression : Expression α}

/-- The variables of a new expression have no bounds. -/
theorem IsNew.inBounds (h : expression.IsNew) : expression.vars.InBounds := by
  intro id cell hcell
  obtain ⟨name, rfl⟩ := h.exists_named hcell
  exact Variable.inBounds_of_bounds_eq_none rfl

variable [LawfulNumberOrder α]

/-- A change is a row of writes, whichever it is. -/
theorem inBounds_apply (h : expression.vars.InBounds) (change : Change α) :
    (expression.apply change).vars.InBounds := by
  rw [apply_eq_write]
  exact h.write _

theorem inBounds_applyAll (h : expression.vars.InBounds) (changes : List (Change α)) :
    (expression.applyAll changes).vars.InBounds := by
  induction changes generalizing expression with
  | nil => exact h
  | cons change changes ih => exact ih (inBounds_apply h change)

/-- Whatever changes are made to a new expression, with any numbers, every variable with bounds has
them in order and its value between them, as far as the three numbers are defined; and a further
change leaves the tree, the names and all variables as they are that it does not name. -/
theorem applyAll_inBounds (hnew : expression.IsNew) (changes : List (Change α)) :
    let reached := expression.applyAll changes
    (∀ id cell bounds, reached.vars.get? id = some cell → cell.bounds = some bounds →
      (isUndefined bounds.min = false → isUndefined bounds.max = false →
        bounds.min ≤ bounds.max) ∧
      (isUndefined cell.value = false → (isUndefined bounds.min = false → bounds.min ≤ cell.value) ∧
        (isUndefined bounds.max = false → cell.value ≤ bounds.max))) ∧
    ∀ change : Change α, (reached.apply change).tree = reached.tree ∧
      (reached.apply change).vars.names = reached.vars.names ∧
      (reached.apply change).vars.numbers = reached.vars.numbers ∧
      ∀ id, id ∉ change.targets reached →
        (reached.apply change).vars.get? id = reached.vars.get? id := by
  intro reached
  exact ⟨fun id cell bounds hcell => inBounds_applyAll hnew.inBounds changes id cell hcell bounds,
    fun change => ⟨reached.tree_apply change, reached.names_apply change,
      reached.numbers_apply change, fun _ => get?_apply_of_notMem⟩⟩

/-- The bounds of `x` are given in the wrong order and then with the undefined number. -/
theorem applyAll_inBounds_sum :
    let expression : Expression Float :=
      ⟨.sum [.var 0, .var 1], Variables.empty.internAll ["x", "y"]⟩
    let changes : List (Change Float) :=
      [.adjust 0 (.restrict 3 1), .set "x" 5, .invoke ⟨[some 1, none, some 0]⟩ [2, 0, 0 / 0],
        .adjust 0 (.restrict (0 / 0) (-1)), .invokeAll ⟨[some 0]⟩ [1 / 0], .adjust 1 .release]
    let reached := expression.applyAll changes
    expression.IsNew ∧
    (∀ id cell bounds, reached.vars.get? id = some cell → cell.bounds = some bounds →
      (isUndefined bounds.min = false → isUndefined bounds.max = false →
        bounds.min ≤ bounds.max) ∧
      (isUndefined cell.value = false → (isUndefined bounds.min = false → bounds.min ≤ cell.value) ∧
        (isUndefined bounds.max = false → cell.value ≤ bounds.max))) ∧
    ∀ change : Change Float, (reached.apply change).tree = reached.tree ∧
      (reached.apply change).vars.names = reached.vars.names ∧
      (reached.apply change).vars.numbers = reached.vars.numbers ∧
      ∀ id, id ∉ change.targets reached →
        (reached.apply change).vars.get? id = reached.vars.get? id := by
  intro expression changes reached
  have hnew : expression.IsNew := ⟨["x", "y"], rfl⟩
  exact ⟨hnew, applyAll_inBounds hnew changes⟩

end Expression

end Formula
