import Formula.Variable

/-!
# Laws of comparison

`NumberOrder` has no laws. Those that bounds need are gathered in `LawfulNumberOrder`: the defined
numbers are totally preordered, and the larger and the smaller of two numbers are what their names
say, where an undefined number yields to a defined one. Nothing is said about comparison with an
undefined number.

From them: the range between two numbers has its ends in order (`Bounds.ordered_between`), and what
is clamped into such a range stands in it (`Bounds.holds_clamp`).
-/

namespace Formula

open NumberOrder (isUndefined larger smaller)

/-- The defined numbers are totally preordered. Of two numbers the larger one is one of them and not
below the other, and the defined one if only one of them is; and so for the smaller one. -/
class LawfulNumberOrder (α : Type) [NumberOrder α] : Prop where
  le_total {x y : α} (hx : isUndefined x = false) (hy : isUndefined y = false) : x ≤ y ∨ y ≤ x
  le_trans {x y z : α} (hx : isUndefined x = false) (hy : isUndefined y = false)
    (hz : isUndefined z = false) (hxy : x ≤ y) (hyz : y ≤ z) : x ≤ z
  lt_iff {x y : α} (hx : isUndefined x = false) (hy : isUndefined y = false) : x < y ↔ ¬y ≤ x
  larger_eq {x y : α} (hx : isUndefined x = false) (hy : isUndefined y = false) :
    larger x y = x ∧ y ≤ x ∨ larger x y = y ∧ x ≤ y
  smaller_eq {x y : α} (hx : isUndefined x = false) (hy : isUndefined y = false) :
    smaller x y = x ∧ x ≤ y ∨ smaller x y = y ∧ y ≤ x
  larger_undefined {x y : α} (hx : isUndefined x = false) (hy : isUndefined y = true) :
    larger x y = x ∧ larger y x = x
  smaller_undefined {x y : α} (hx : isUndefined x = false) (hy : isUndefined y = true) :
    smaller x y = x ∧ smaller y x = x

namespace LawfulNumberOrder

variable {α : Type} [NumberOrder α] [LawfulNumberOrder α] {x y : α}

theorem le_refl (hx : isUndefined x = false) : x ≤ x := (le_total hx hx).elim id id

theorem le_of_lt (hx : isUndefined x = false) (hy : isUndefined y = false) (h : x < y) : x ≤ y :=
  (le_total hx hy).resolve_right ((lt_iff hx hy).mp h)

theorem le_of_not_lt (hx : isUndefined x = false) (hy : isUndefined y = false) (h : ¬y < x) :
    x ≤ y :=
  Decidable.byContradiction fun hle => h ((lt_iff hy hx).mpr hle)

end LawfulNumberOrder

namespace Bounds

open LawfulNumberOrder

variable {α : Type} [NumberOrder α] {bounds : Bounds α} {value : α}

/-- Whether the ends of a range are in order, as far as they are defined. -/
def Ordered (bounds : Bounds α) : Prop :=
  isUndefined bounds.min = false → isUndefined bounds.max = false → bounds.min ≤ bounds.max

/-- Whether a number is in a range; an undefined number is in any, and an undefined end is no
bound. -/
def Holds (bounds : Bounds α) (value : α) : Prop :=
  isUndefined value = false →
    (isUndefined bounds.min = false → bounds.min ≤ value) ∧
      (isUndefined bounds.max = false → value ≤ bounds.max)

/-- The undefined number is in all bounds, since it is not compared. -/
theorem holds_of_undefined (h : isUndefined value = true) : bounds.Holds value :=
  fun hdefined => nomatch h.symm.trans hdefined

variable [LawfulNumberOrder α]

/-- The ends are exchanged if they are not in order. -/
theorem ordered_between (a b : α) : (between a b).Ordered := by
  unfold between
  split
  · rename_i hlt
    exact fun hb ha => le_of_lt hb ha hlt
  · rename_i hlt
    exact fun ha hb => le_of_not_lt ha hb hlt

/-- A defined number is raised to the lower end, if there is one. -/
theorem le_larger_min (bounds : Bounds α) (hvalue : isUndefined value = false) :
    isUndefined (larger value bounds.min) = false ∧
      (isUndefined bounds.min = false → bounds.min ≤ larger value bounds.min) := by
  cases hmin : isUndefined bounds.min with
  | true =>
    rw [(larger_undefined hvalue hmin).1]
    exact ⟨hvalue, nofun⟩
  | false =>
    rcases larger_eq hvalue hmin with ⟨heq, hle⟩ | ⟨heq, -⟩
    · rw [heq]
      exact ⟨hvalue, fun _ => hle⟩
    · rw [heq]
      exact ⟨hmin, fun _ => le_refl hmin⟩

/-- A defined number that is clamped into a range stays defined and stands in it. -/
theorem Ordered.holds_clamp (h : bounds.Ordered) (hvalue : isUndefined value = false) :
    isUndefined (bounds.clamp value) = false ∧ bounds.Holds (bounds.clamp value) := by
  obtain ⟨hraised, hmin⟩ := bounds.le_larger_min hvalue
  unfold clamp
  cases hmax : isUndefined bounds.max with
  | true =>
    rw [(smaller_undefined hraised hmax).1]
    exact ⟨hraised, fun _ => ⟨hmin, fun hdefined => nomatch hmax.symm.trans hdefined⟩⟩
  | false =>
    rcases smaller_eq hraised hmax with ⟨heq, hle⟩ | ⟨heq, -⟩
    · rw [heq]
      exact ⟨hraised, fun _ => ⟨hmin, fun _ => hle⟩⟩
    · rw [heq]
      exact ⟨hmax, fun _ => ⟨fun hdefined => h hdefined hmax, fun _ => le_refl hmax⟩⟩

end Bounds

end Formula
