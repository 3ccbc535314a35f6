import Formula.Proofs.Number.Binary64

/-!
# Clamping

What clamping a number into a range does, for any lawful comparison (`Retracts`,
`retracts_between`): the result stands in the range, a number of the range stays as it is, and so
does the order of numbers. A range is the same whichever end is named first.

The undefined number does not come through: the larger of it and the lower end is the lower end
(`Ordered.clamp_undefined`). A variable that is to keep an undefined number may not clamp it.

Comparison is a preorder only, since the two zeros are below each other and not equal. Numbers are
therefore compared by `SameNumber`.
-/

namespace Formula

open NumberOrder (isUndefined larger smaller)

variable {α : Type} [NumberOrder α]

/-- Whether neither of two numbers is above the other. -/
def SameNumber (x y : α) : Prop := x ≤ y ∧ y ≤ x

namespace LawfulNumberOrder

variable [LawfulNumberOrder α] {x y z : α}

theorem sameNumber_refl (hx : isUndefined x = false) : SameNumber x x := ⟨le_refl hx, le_refl hx⟩

/-! ### The larger and the smaller of two numbers -/

section Defined

variable (hx : isUndefined x = false) (hy : isUndefined y = false)
include hx hy

theorem defined_larger : isUndefined (larger x y) = false := by
  rcases larger_eq hx hy with ⟨heq, -⟩ | ⟨heq, -⟩
  · rwa [heq]
  · rwa [heq]

theorem defined_smaller : isUndefined (smaller x y) = false := by
  rcases smaller_eq hx hy with ⟨heq, -⟩ | ⟨heq, -⟩
  · rwa [heq]
  · rwa [heq]

/-- The larger of two numbers is not below the left one. -/
theorem left_le_larger : x ≤ larger x y := by
  rcases larger_eq hx hy with ⟨heq, -⟩ | ⟨heq, hle⟩
  · rw [heq]
    exact le_refl hx
  · rwa [heq]

theorem right_le_larger : y ≤ larger x y := by
  rcases larger_eq hx hy with ⟨heq, hle⟩ | ⟨heq, -⟩
  · rwa [heq]
  · rw [heq]
    exact le_refl hy

/-- The larger of two numbers is the least that neither of them exceeds. -/
theorem larger_le (hxz : x ≤ z) (hyz : y ≤ z) : larger x y ≤ z := by
  rcases larger_eq hx hy with ⟨heq, -⟩ | ⟨heq, -⟩
  · rwa [heq]
  · rwa [heq]

/-- The smaller of two numbers is not above the left one. -/
theorem smaller_le_left : smaller x y ≤ x := by
  rcases smaller_eq hx hy with ⟨heq, -⟩ | ⟨heq, hle⟩
  · rw [heq]
    exact le_refl hx
  · rwa [heq]

theorem smaller_le_right : smaller x y ≤ y := by
  rcases smaller_eq hx hy with ⟨heq, hle⟩ | ⟨heq, -⟩
  · rwa [heq]
  · rw [heq]
    exact le_refl hy

/-- The smaller of two numbers is the greatest that exceeds neither of them. -/
theorem le_smaller (hzx : z ≤ x) (hzy : z ≤ y) : z ≤ smaller x y := by
  rcases smaller_eq hx hy with ⟨heq, -⟩ | ⟨heq, -⟩
  · rwa [heq]
  · rwa [heq]

end Defined

end LawfulNumberOrder

namespace Bounds

open LawfulNumberOrder

/-- What clamping into a range does to defined numbers: it leads into the range, keeps the numbers
of the range and the order, and has no effect the second time. -/
structure Retracts (bounds : Bounds α) : Prop where
  defined {v : α} : isUndefined v = false → isUndefined (bounds.clamp v) = false
  min_le {v : α} : isUndefined v = false → bounds.min ≤ bounds.clamp v
  le_max {v : α} : isUndefined v = false → bounds.clamp v ≤ bounds.max
  same {v : α} : isUndefined v = false → bounds.min ≤ v → v ≤ bounds.max →
    SameNumber (bounds.clamp v) v
  again {v : α} : isUndefined v = false →
    SameNumber (bounds.clamp (bounds.clamp v)) (bounds.clamp v)
  /-- Where the ends differ, the two numbers are not only the same in the order. -/
  again_eq {v : α} : isUndefined v = false → bounds.min < bounds.max →
    bounds.clamp (bounds.clamp v) = bounds.clamp v
  mono {v w : α} : isUndefined v = false → isUndefined w = false → v ≤ w →
    bounds.clamp v ≤ bounds.clamp w

variable {bounds : Bounds α} {v w a b : α}

/-! ### The ends of a range -/

/-- Bounds between defined numbers are defined, whichever of the two is the lower one. -/
theorem defined_between (ha : isUndefined a = false) (hb : isUndefined b = false) :
    isUndefined (between a b).min = false ∧ isUndefined (between a b).max = false := by
  unfold between
  split
  · exact ⟨hb, ha⟩
  · exact ⟨ha, hb⟩

variable [LawfulNumberOrder α]

/-- The range does not depend on which end is named first. -/
theorem between_comm (ha : isUndefined a = false) (hb : isUndefined b = false) :
    SameNumber (between b a).min (between a b).min ∧
      SameNumber (between b a).max (between a b).max := by
  unfold between
  by_cases hba : b < a
  · have hab : ¬a < b := fun hab => (lt_iff ha hb).mp hab (le_of_lt hb ha hba)
    rw [if_pos hba, if_neg hab]
    exact ⟨sameNumber_refl hb, sameNumber_refl ha⟩
  by_cases hab : a < b
  · rw [if_neg hba, if_pos hab]
    exact ⟨sameNumber_refl ha, sameNumber_refl hb⟩
  · -- neither end is below the other
    have hsame : SameNumber a b := ⟨le_of_not_lt ha hb hba, le_of_not_lt hb ha hab⟩
    rw [if_neg hba, if_neg hab]
    exact ⟨hsame.symm, hsame⟩

/-! ### Clamping into a range with defined ends -/

section Ends

variable (hmin : isUndefined bounds.min = false) (hmax : isUndefined bounds.max = false)
include hmin hmax

/-- A number of the range is neither raised nor lowered. -/
theorem clamp_same (hv : isUndefined v = false) (hminv : bounds.min ≤ v) (hvmax : v ≤ bounds.max) :
    SameNumber (bounds.clamp v) v := by
  have hraised := defined_larger hv hmin
  constructor
  · have hle : larger v bounds.min ≤ v := larger_le hv hmin (le_refl hv) hminv
    exact le_trans (defined_smaller hraised hmax) hraised hv (smaller_le_left hraised hmax) hle
  · exact le_smaller hraised hmax (left_le_larger hv hmin) hvmax

/-- Clamping keeps the order of defined numbers. -/
theorem clamp_mono (hv : isUndefined v = false) (hw : isUndefined w = false) (hle : v ≤ w) :
    bounds.clamp v ≤ bounds.clamp w := by
  have hv' := defined_larger hv hmin
  have hw' := defined_larger hw hmin
  have hraised : larger v bounds.min ≤ larger w bounds.min :=
    larger_le hv hmin (le_trans hv hw hw' hle (left_le_larger hw hmin)) (right_le_larger hw hmin)
  have hlowered := smaller_le_left hv' hmax
  exact le_smaller hw' hmax (le_trans (defined_smaller hv' hmax) hv' hw' hlowered hraised)
    (smaller_le_right hv' hmax)

/-- Where the ends differ, clamping ends at one of three fixed points. -/
theorem clamp_clamp_eq (hv : isUndefined v = false) (hlt : bounds.min < bounds.max) :
    bounds.clamp (bounds.clamp v) = bounds.clamp v := by
  have hends : ¬bounds.max ≤ bounds.min := (lt_iff hmin hmax).mp hlt
  have hfixed_min : bounds.clamp bounds.min = bounds.min := by
    have hraised : larger bounds.min bounds.min = bounds.min :=
      (larger_eq hmin hmin).elim And.left And.left
    rw [clamp, hraised]
    exact ((smaller_eq hmin hmax).resolve_right fun h => hends h.2).1
  have hfixed_max : bounds.clamp bounds.max = bounds.max := by
    have hraised : larger bounds.max bounds.min = bounds.max :=
      ((larger_eq hmax hmin).resolve_right fun h => hends h.2).1
    rw [clamp, hraised]
    exact (smaller_eq hmax hmax).elim And.left And.left
  -- what is clamped is the value itself or one of the ends, and all of these stay
  have hraised := defined_larger hv hmin
  rcases smaller_eq hraised hmax with ⟨heq, -⟩ | ⟨heq, -⟩
  · have hclamp : bounds.clamp v = larger v bounds.min := heq
    rcases larger_eq hv hmin with ⟨hlarger, -⟩ | ⟨hlarger, -⟩
    · rw [hlarger] at hclamp
      rw [hclamp, hclamp]
    · rw [hclamp, hlarger, hfixed_min]
  · have hclamp : bounds.clamp v = bounds.max := heq
    rw [hclamp, hfixed_max]

/-- Clamping to ordered bounds is a retraction onto the numbers within them. -/
theorem Ordered.retracts (h : bounds.Ordered) : bounds.Retracts where
  defined hv := (h.holds_clamp hv).1
  min_le hv := ((h.holds_clamp hv).2 (h.holds_clamp hv).1).1 hmin
  le_max hv := ((h.holds_clamp hv).2 (h.holds_clamp hv).1).2 hmax
  same := clamp_same hmin hmax
  again hv :=
    have ⟨hdefined, hholds⟩ := h.holds_clamp hv
    clamp_same hmin hmax hdefined ((hholds hdefined).1 hmin) ((hholds hdefined).2 hmax)
  again_eq := clamp_clamp_eq hmin hmax
  mono := clamp_mono hmin hmax

/-- The undefined number is clamped to the lower end. -/
theorem Ordered.clamp_undefined (h : bounds.Ordered) (hv : isUndefined v = true) :
    isUndefined (bounds.clamp v) = false ∧ SameNumber (bounds.clamp v) bounds.min := by
  have hraised : larger v bounds.min = bounds.min := (larger_undefined hmin hv).2
  rw [clamp, hraised]
  exact ⟨defined_smaller hmin hmax, smaller_le_left hmin hmax,
    le_smaller hmin hmax (le_refl hmin) (h hmin hmax)⟩

end Ends

/-- A range between two defined numbers is the same in either order of them, and clamping into it is
a retraction of the defined numbers onto the range. The undefined number is clamped to the lower
end. -/
theorem retracts_between (ha : isUndefined a = false) (hb : isUndefined b = false) :
    (SameNumber (between b a).min (between a b).min ∧
      SameNumber (between b a).max (between a b).max) ∧
    (between a b).Retracts ∧
    ∀ v, isUndefined v = true → isUndefined ((between a b).clamp v) = false ∧
      SameNumber ((between a b).clamp v) (between a b).min := by
  obtain ⟨hmin, hmax⟩ := defined_between ha hb
  have hordered := ordered_between a b
  exact ⟨between_comm ha hb, hordered.retracts hmin hmax,
    fun v hv => hordered.clamp_undefined hmin hmax hv⟩

/-- The ends are given in the wrong order, and one of them is infinite. -/
theorem retracts_between_infinity :
    isUndefined Binary64.infinity = false ∧ isUndefined (2 : Float) = false ∧
    (between Binary64.infinity 2).Retracts ∧
    isUndefined ((between Binary64.infinity 2).clamp (0 / 0)) = false ∧
      SameNumber ((between Binary64.infinity 2).clamp (0 / 0)) 2 := by
  have hinfinity : isUndefined Binary64.infinity = false := by decide
  have htwo : isUndefined (2 : Float) = false := by decide
  obtain ⟨-, hretracts, hundefined⟩ := retracts_between hinfinity htwo
  have hmin : (between Binary64.infinity 2).min = 2 := by decide
  have hclamp := hundefined (0 / 0) (by decide)
  rw [hmin] at hclamp
  exact ⟨hinfinity, htwo, hretracts, hclamp⟩

/-- The undefined number is not passed through by the range from 1 to 3: it becomes 1. -/
theorem clamp_undefined_one :
    ¬∀ a b v : Float, isUndefined a = false → isUndefined b = false → isUndefined v = true →
      isUndefined ((between a b).clamp v) = true := by
  intro h
  have hclamp := h 1 3 (0 / 0) (by decide) (by decide) (by decide)
  revert hclamp
  decide

end Bounds

end Formula
