import Mathlib
import Formula.Proofs.Grammar.Reading

/-!
# Expressions over the rational numbers

Sums and products of rational numbers are exact, so the trees of expressions have the conventional
value: the parser may regroup a chain such as `a-b+c-d` without changing what it comes to. The
reciprocal, powers and remainders are left open (`RationalOperations`), and so is what a numeral
stands for.
-/

namespace Formula

/-- The operations on rational numbers besides sums, products and negation. -/
class RationalOperations where
  reciprocal : ℚ → ℚ
  power : ℚ → ℚ → ℚ
  remainder : ℚ → ℚ → ℚ

instance [RationalOperations] : Arithmetic ℚ where
  reciprocal := RationalOperations.reciprocal
  power := RationalOperations.power
  remainder := RationalOperations.remainder

/-- Division as usual, powers to whole exponents, and remainders with the sign of the first
number. -/
instance : RationalOperations where
  reciprocal x := x⁻¹
  power x y := x ^ y.num
  remainder x y := x - y * ((x / y).num.tdiv (x / y).den : ℤ)

/-- A numeral stands for its exact value. -/
instance : Numeral ℚ where
  ofDecimal d := d.significand * (10 : ℚ) ^ d.exponent
  toText := toString

/-- A constant and a function of rational numbers. -/
def Vocabulary.rational : Vocabulary ℚ :=
  ⟨.ofList [("pi", 22 / 7)], .ofList [("max", List.foldr max 0)]⟩

theorem Vocabulary.distinct_rational : Vocabulary.rational.Distinct :=
  distinct_ofList ["pi"] ["max"] rfl rfl (by decide) (by decide) (by decide) (by decide)
    (by decide) (by decide)

/-- The standard names, with constants and functions of any numbers behind them. -/
def Vocabulary.standardNamed {α : Type} (constant : String → α) (function : String → List α → α) :
    Vocabulary α :=
  ⟨.ofList (Standard.constantNames.map fun name => (name, constant name)),
    .ofList (Standard.functionNames.map fun name => (name, function name))⟩

/-- It is the names alone by which a vocabulary is distinct. -/
theorem Vocabulary.distinct_standardNamed {α : Type} (constant : String → α)
    (function : String → List α → α) : (standardNamed constant function).Distinct :=
  distinct_ofList Standard.constantNames Standard.functionNames rfl rfl (by decide) (by decide)
    (by decide) (by decide) (by decide) (by decide)

/-! ### The value of an expression -/

/-- Every expression over the rational numbers is read to a tree with its conventional value,
whatever the reciprocal, powers, remainders and functions are. The standard names are distinct. -/
theorem parse_value_rational [RationalOperations] [Numeral ℚ] {vocabulary : Vocabulary ℚ}
    (hdistinct : vocabulary.Distinct) {text : String} {f : Meaning ℚ}
    (h : Denotes vocabulary .expression text.toList f) :
    (∃ tree vars, Parser.parse vocabulary text = .ok (tree, vars) ∧
      ∀ later, vars.Grows later → tree.value later = f later.valueNamed) ∧
    ∀ sample, (Vocabulary.standard sample).Distinct :=
  ⟨parse_value hdistinct add_assoc mul_assoc h, Vocabulary.distinct_standard⟩

/-- A chain of differences, a quotient that is multiplied, a call with a blank between its
arguments, and a constant. -/
theorem parse_value_rational_chain :
    Vocabulary.rational.Distinct ∧
      ∃ f : Meaning ℚ, Denotes Vocabulary.rational .expression "x-y/2*max(x, 1)-pi".toList f ∧
        (∀ ρ, f ρ = ρ "x" - ρ "y" / 2 * max (ρ "x") 1 - 22 / 7) ∧
        (∃ tree vars, Parser.parse Vocabulary.rational "x-y/2*max(x, 1)-pi" = .ok (tree, vars) ∧
          ∀ later, vars.Grows later → tree.value later = f later.valueNamed) ∧
        ∀ sample, (Vocabulary.standard sample).Distinct := by
  have hdistinct := Vocabulary.distinct_rational
  have hconstants : Vocabulary.rational.constants.toList = [("pi", 22 / 7)] :=
    (NameTable.toList_ofList (by decide)).2
  have hfunctions : Vocabulary.rational.functions.toList = [("max", List.foldr max 0)] :=
    (NameTable.toList_ofList (by decide)).2
  have hnames : Vocabulary.rational.names = ["pi", "max"] := by
    rw [Vocabulary.names, NameTable.names, NameTable.names, hconstants, hfunctions]
    rfl
  -- the atoms, with the blank in front of the second argument
  have hx : Denotes Vocabulary.rational .atom ['x'] fun ρ => ρ "x" :=
    @Denotes.identifier _ _ _ _ [] [] ['x'] rfl rfl (by decide) (by rw [hnames]; decide)
  have hy : Denotes Vocabulary.rational .atom ['y'] fun ρ => ρ "y" :=
    @Denotes.identifier _ _ _ _ [] [] ['y'] rfl rfl (by decide) (by rw [hnames]; decide)
  have htwo : Denotes Vocabulary.rational .atom ['2'] fun _ => Numeral.ofDecimal ⟨2, 0⟩ :=
    @Denotes.whole _ _ _ _ [] [] ['2'] rfl rfl (List.forall_mem_singleton.mpr rfl) (by decide)
  have hone : Denotes Vocabulary.rational .atom [' ', '1'] fun _ => Numeral.ofDecimal ⟨1, 0⟩ :=
    @Denotes.whole _ _ _ _ [' '] [] ['1'] (by decide) rfl (List.forall_mem_singleton.mpr rfl)
      (by decide)
  have hpi : Denotes Vocabulary.rational .atom ['p', 'i'] fun _ => 22 / 7 :=
    @Denotes.constant _ _ _ _ [] [] "pi" _ rfl rfl (by rw [hconstants]; simp)
  have hmax : Denotes Vocabulary.rational .atom "max(x, 1)".toList
      fun ρ => [ρ "x", Numeral.ofDecimal ⟨1, 0⟩].foldr max 0 := by
    refine @Denotes.call _ _ _ _ [] [] [] "max" (List.foldr max 0) rfl rfl rfl
      (by rw [hfunctions]; simp)
      [(['x'], fun ρ => ρ "x"), ([' ', '1'], fun _ => Numeral.ofDecimal ⟨1, 0⟩)] (by simp) ?_
    intro arg harg
    rcases List.mem_pair.mp harg with rfl | rfl
    · exact hx.ofAtom.ofPower.ofRemainder.ofTerm
    · exact hone.ofAtom.ofPower.ofRemainder.ofTerm
  -- the rows of atoms
  have hproduct := Denotes.multiply (.divide hy.ofAtom.ofPower.ofRemainder htwo.ofAtom.ofPower)
    hmax.ofAtom.ofPower
  have hdifference := Denotes.subtract hx.ofAtom.ofPower.ofRemainder.ofTerm hproduct
  have hchain : Denotes Vocabulary.rational .expression "x-y/2*max(x, 1)-pi".toList _ :=
    .subtract hdifference hpi.ofAtom.ofPower.ofRemainder
  refine ⟨hdistinct, _, hchain, ?_, parse_value_rational hdistinct hchain⟩
  intro ρ
  show ρ "x" + -(ρ "y" * (((2 : ℕ) : ℚ) * 10 ^ (0 : ℤ))⁻¹ *
    max (ρ "x") (max (((1 : ℕ) : ℚ) * 10 ^ (0 : ℤ)) 0)) + -(22 / 7) = _
  rw [zpow_zero, mul_one, mul_one, Nat.cast_one, Nat.cast_ofNat, max_eq_left zero_le_one]
  ring

end Formula
