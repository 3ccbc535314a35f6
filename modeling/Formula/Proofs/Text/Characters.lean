import Formula.Operator

/-!
# Kinds of characters

Letters and digits are told apart by their code points. They are not blank, and neither are the
symbols of operators.
-/

namespace Formula

variable {c : Char}

/-- Letters are those of ASCII. -/
theorem isAlpha_iff_toNat : c.isAlpha = true ↔
    (65 ≤ c.toNat ∧ c.toNat ≤ 90) ∨ (97 ≤ c.toNat ∧ c.toNat ≤ 122) := by
  show (decide ('A'.val ≤ c.val ∧ c.val ≤ 'Z'.val) ||
    decide ('a'.val ≤ c.val) && decide (c.val ≤ 'z'.val)) = true ↔ _
  rw [Bool.or_eq_true, Bool.and_eq_true, decide_eq_true_iff, decide_eq_true_iff, decide_eq_true_iff]
  exact Iff.rfl

theorem isAlphanum_of_isDigit (h : c.isDigit = true) : c.isAlphanum = true :=
  Bool.or_eq_true_iff.mpr (Or.inr h)

theorem isAlpha_eq_false_of_isDigit (h : c.isDigit = true) : c.isAlpha = false := by
  have hrange : 48 ≤ c.toNat ∧ c.toNat ≤ 57 := Char.isDigit_iff_toNat.mp h
  rw [Bool.eq_false_iff, ne_eq, isAlpha_iff_toNat]
  omega

/-- No blank is a letter or a digit. -/
theorem isBlank_of_isAlphanum (h : c.isAlphanum = true) : Text.isBlank c = false := by
  have hrange : ((65 ≤ c.toNat ∧ c.toNat ≤ 90) ∨ (97 ≤ c.toNat ∧ c.toNat ≤ 122)) ∨
      (48 ≤ c.toNat ∧ c.toNat ≤ 57) := by
    rw [← isAlpha_iff_toNat]
    exact (Bool.or_eq_true_iff.mp h).imp_right Char.isDigit_iff_toNat.mp
  simp only [Text.isBlank, Text.blankRanges, List.any_cons, List.any_nil, Bool.or_false,
    Bool.or_eq_false_iff, Bool.and_eq_false_iff, decide_eq_false_iff_not]
  omega

theorem isBlank_amp : Text.isBlank '&' = false := by decide

/-- Operators are told apart by their symbols. -/
theorem Operator.symbol_injective {operator other : Operator}
    (h : operator.symbol = other.symbol) : operator = other := by
  revert h
  cases operator <;> cases other <;> decide

theorem isBlank_symbol (operator : Operator) : Text.isBlank operator.symbol = false := by
  cases operator <;> decide

end Formula
