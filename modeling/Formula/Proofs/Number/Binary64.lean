import Formula.Number.Binary64
import Formula.Proofs.Number.Order
import Mathlib

/-!
# The laws of binary64 numbers

The defined numbers of `Float` are compared as their ranks in a linear order are
(`compare_eq_rank`), so that the laws of comparison hold for them (`LawfulNumberOrder Float`).

The number that a numeral without a sign stands for is defined and not negative
(`zero_le_ofDecimal`): nothing that `ofDecimal` computes with makes a negative number or the
undefined one out of numbers without a sign (`Unsigned`).
-/

namespace Formula.Binary64

open Float.Model (UnpackedFloat Format)
open Float.Model.UnpackedFloat (Sign packComponents)

/-! ### The order -/

/-- The place of a defined number in the order. The exponents of two finite numbers are compared
first, since both numbers have as many digits as fit. -/
def rank : UnpackedFloat → ℤ ×ₗ ℤ ×ₗ ℤ
  | .infinity .negative => toLex (-2, toLex (0, 0))
  | .finite .negative m e _ => toLex (-1, toLex (-e, -m))
  | .zero _ => toLex (0, toLex (0, 0))
  | .finite .positive m e _ => toLex (1, toLex (e, m))
  | .infinity .positive => toLex (2, toLex (0, 0))
  | .notANumber => toLex (3, toLex (0, 0))

theorem compare_natCast (m n : ℕ) : compare (m : ℤ) (n : ℤ) = compare m n := by
  have hmono : StrictMono fun k : ℕ => (k : ℤ) := fun _ _ => Int.ofNat_lt.mpr
  rw [← cmp_eq_compare, ← cmp_eq_compare]
  exact hmono.cmp_map_eq m n

theorem compare_neg (a b : ℤ) : compare (-a) (-b) = (compare a b).swap := by
  have hanti : StrictAnti fun k : ℤ => -k := fun _ _ => Int.neg_lt_neg
  rw [← cmp_eq_compare, ← cmp_eq_compare, cmp_swap]
  exact hanti.cmp_map_eq a b

/-- Defined numbers are compared by their ranks. -/
theorem compare_eq_rank {x y : UnpackedFloat} (hx : x.isNaN = false) (hy : y.isNaN = false) :
    x.compare y = some (compare (rank x) (rank y)) := by
  rcases x with (_ | _) | _ | _ | ⟨_ | _, m, e, hm⟩ <;>
    rcases y with (_ | _) | _ | _ | ⟨_ | _, n, f, hn⟩ <;>
    try first | rfl | exact absurd hx (by decide) | exact absurd hy (by decide)
  -- two finite numbers of one sign are left
  · show some ((compare e f).then (compare m n)).swap =
      some ((compare (-e) (-f)).then (compare (-(m : ℤ)) (-n)))
    rw [compare_neg, compare_neg, compare_natCast, Ordering.swap_then]
  · show some ((compare e f).then (compare m n)) = some ((compare e f).then (compare (m : ℤ) n))
    rw [compare_natCast]

section Comparison

variable {x y : Float} (hx : x.isNaN = false) (hy : y.isNaN = false)
include hx hy

/-- Defined numbers are in the order of their ranks. -/
theorem le_iff_rank_le : x ≤ y ↔ rank (parts x) ≤ rank (parts y) := by
  have hcompare : (parts x).compare (parts y) = _ := compare_eq_rank hx hy
  show decide (((parts x).compare (parts y)).any (·.isLE) = true) = true ↔ _
  rw [decide_eq_true_iff, hcompare, Option.any_some, ← Ordering.ne_gt_iff_isLE]
  exact compare_le_iff_le

theorem lt_iff_rank_lt : x < y ↔ rank (parts x) < rank (parts y) := by
  have hcompare : (parts x).compare (parts y) = _ := compare_eq_rank hx hy
  show decide (((parts x).compare (parts y) == some .lt) = true) = true ↔ _
  rw [decide_eq_true_iff, hcompare, beq_iff_eq, Option.some_inj, compare_lt_iff_lt]

theorem lt_iff_not_le : x < y ↔ ¬y ≤ x := by
  rw [lt_iff_rank_lt hx hy, le_iff_rank_le hy hx, not_le]

theorem larger_of_defined : larger x y = if x < y then y else x := by
  rw [larger, if_neg (Bool.eq_false_iff.mp hx), if_neg (Bool.eq_false_iff.mp hy)]

theorem smaller_of_defined : smaller x y = if y < x then y else x := by
  rw [smaller, if_neg (Bool.eq_false_iff.mp hx), if_neg (Bool.eq_false_iff.mp hy)]

end Comparison

/-- The laws are those of the linear order of ranks. Where one number is undefined, `larger` and
`smaller` are the other one. -/
instance : LawfulNumberOrder Float where
  le_total hx hy := by
    rw [le_iff_rank_le hx hy, le_iff_rank_le hy hx]
    exact le_total _ _
  le_trans hx hy hz := by
    rw [le_iff_rank_le hx hy, le_iff_rank_le hy hz, le_iff_rank_le hx hz]
    exact le_trans
  lt_iff := lt_iff_not_le
  larger_eq {x y} hx hy := by
    have heq : NumberOrder.larger x y = if x < y then y else x := larger_of_defined hx hy
    rw [heq]
    split
    · rename_i hlt
      rw [lt_iff_rank_lt hx hy] at hlt
      exact Or.inr ⟨rfl, (le_iff_rank_le hx hy).mpr hlt.le⟩
    · rename_i hlt
      rw [lt_iff_rank_lt hx hy, not_lt] at hlt
      exact Or.inl ⟨rfl, (le_iff_rank_le hy hx).mpr hlt⟩
  smaller_eq {x y} hx hy := by
    have heq : NumberOrder.smaller x y = if y < x then y else x := smaller_of_defined hx hy
    rw [heq]
    split
    · rename_i hlt
      rw [lt_iff_rank_lt hy hx] at hlt
      exact Or.inr ⟨rfl, (le_iff_rank_le hy hx).mpr hlt.le⟩
    · rename_i hlt
      rw [lt_iff_rank_lt hy hx, not_lt] at hlt
      exact Or.inl ⟨rfl, (le_iff_rank_le hx hy).mpr hlt⟩
  larger_undefined {x y} hx hy := by
    have hx' : ¬x.isNaN = true := Bool.eq_false_iff.mp hx
    have hy' : y.isNaN = true := hy
    show larger x y = x ∧ larger y x = x
    rw [larger, larger, if_neg hx', if_pos hy', if_pos hy']
    exact ⟨rfl, rfl⟩
  smaller_undefined {x y} hx hy := by
    have hx' : ¬x.isNaN = true := Bool.eq_false_iff.mp hx
    have hy' : y.isNaN = true := hy
    show smaller x y = x ∧ smaller y x = x
    rw [smaller, smaller, if_neg hx', if_pos hy', if_pos hy']
    exact ⟨rfl, rfl⟩

/-! ### Numerals -/

/-- A defined number without a negative sign. -/
inductive Unsigned : UnpackedFloat → Prop where
  | infinity : Unsigned (.infinity .positive)
  | zero : Unsigned (.zero .positive)
  | finite {m : Nat} {e : Int} (hm : 0 < m) : Unsigned (.finite .positive m e hm)

/-- Rounding does not change the sign. -/
theorem unsigned_roundWithAccuracy (spec : Format) (m : Nat) (e : Int)
    (acc : UnpackedFloat.Accuracy) : Unsigned (.roundWithAccuracy spec .positive m e acc) := by
  unfold UnpackedFloat.roundWithAccuracy
  dsimp only
  split
  · exact .zero
  · exact .finite _

/-- A natural number has no sign. -/
theorem unsigned_ofNat (spec : Format) (n : Nat) : Unsigned (.ofNat spec n) := by
  unfold UnpackedFloat.ofNat UnpackedFloat.ofInt UnpackedFloat.normalize
  split
  · rename_i h
    have hlt : (n : Int) < 0 := compare_lt_iff_lt.mp h
    omega
  · exact .zero
  · exact unsigned_roundWithAccuracy spec _ _ _

/-- A product with a positive number keeps the sign, zero and infinity included. -/
theorem Unsigned.mul (spec : Format) {x : UnpackedFloat} (hx : Unsigned x) {m : Nat} {e : Int}
    (hm : 0 < m) : Unsigned (.mul spec x (.finite .positive m e hm)) := by
  cases hx with
  | infinity => exact .infinity
  | zero => exact .zero
  | finite => exact unsigned_roundWithAccuracy spec _ _ _

/-- A quotient by a positive number keeps the sign, zero and infinity included. -/
theorem Unsigned.div (spec : Format) {x : UnpackedFloat} (hx : Unsigned x) {m : Nat} {e : Int}
    (hm : 0 < m) : Unsigned (.div spec x (.finite .positive m e hm)) := by
  cases hx with
  | infinity => exact .infinity
  | zero => exact .zero
  | finite => exact unsigned_roundWithAccuracy spec _ _ _

theorem unsigned_ofScientific (spec : Format) (m : Nat) (e : Int) :
    Unsigned (.ofScientific spec m e) := by
  unfold UnpackedFloat.ofScientific
  split_ifs
  · exact .zero
  · exact .infinity
  · exact .zero
  · exact Unsigned.mul spec (.finite _) _
  · exact Unsigned.div spec (.finite _) _

theorem unsigned_unpack {spec : Format} {exponent : BitVec spec.exponentBits}
    {mantissa : BitVec spec.mantissaBitsWithoutImplicit}
    (h : exponent = -1#_ → mantissa = 0#_) :
    Unsigned (.unpack spec (packComponents spec .positive exponent mantissa)) := by
  unfold UnpackedFloat.unpack
  simp only [UnpackedFloat.unpackExponent_packComponents, UnpackedFloat.unpackSign_packComponents,
    UnpackedFloat.unpackMantissa_packComponents, UnpackedFloat.Sign.ofBitVec_toBitVec]
  split_ifs with hexponent hmantissa
  · exact .infinity
  · exact absurd (h hexponent) hmantissa
  · exact .zero
  · exact .finite _
  · exact .finite _

/-- A number without a sign has none either when it is written to bits and read from them again. -/
theorem Unsigned.unpack_pack (spec : Format) {x : UnpackedFloat} (hx : Unsigned x) :
    Unsigned (.unpack spec (UnpackedFloat.pack spec x)) := by
  cases hx with
  | infinity => exact unsigned_unpack fun _ => rfl
  | zero => exact unsigned_unpack fun _ => rfl
  | @finite m e hm =>
    unfold UnpackedFloat.pack
    dsimp only
    split_ifs with hlarge
    · exact unsigned_unpack fun _ => rfl
    · -- the exponent is too small for the one of infinity
      refine unsigned_unpack fun hexponent => ?_
      have htoNat := congrArg BitVec.toNat hexponent
      rw [BitVec.neg_one_eq_allOnes, BitVec.toNat_allOnes, BitVec.toNat_ofNat,
        Nat.mod_eq_of_lt (by omega)] at htoNat
      omega
    · refine unsigned_unpack fun hexponent => ?_
      have htoNat := congrArg BitVec.toNat hexponent
      have hpow := Nat.pow_le_pow_right Nat.two_pos spec.he
      rw [BitVec.neg_one_eq_allOnes, BitVec.toNat_allOnes, BitVec.toNat_ofNat, Nat.zero_mod]
        at htoNat
      omega

/-- Whether a number is finite and positive. -/
def isPositive : UnpackedFloat → Bool
  | .finite .positive _ _ _ => true
  | _ => false

theorem exists_of_isPositive : ∀ {x : UnpackedFloat}, isPositive x = true →
    ∃ (m : ℕ) (e : ℤ) (hm : 0 < m), x = .finite .positive m e hm
  | .finite .positive m e hm, _ => ⟨m, e, hm, rfl⟩

/-- The table of the powers of ten has positive numbers only. -/
theorem isPositive_power : ∀ e : Fin 23,
    isPositive (parts Float.exactlyRepresentablePowersOfTen[e]) = true := by
  decide

/-- No numeral has a sign of its own, however it is rounded. -/
theorem unsigned_ofDecimal (d : Decimal) : Unsigned (parts (ofDecimal d)) := by
  unfold ofDecimal Float.ofScientific
  split
  · rename_i hsmall
    -- a small exponent is one of the powers of the table
    obtain ⟨m, e, hm, hpower⟩ :=
      exists_of_isPositive (isPositive_power ⟨d.exponent.natAbs, by omega⟩)
    have hwhole : Unsigned (parts d.significand.toUInt64.toFloat) :=
      (unsigned_ofNat .binary64 _).unpack_pack _
    dsimp only
    split
    · have hquotient := (hwhole.div .binary64 hm (e := e)).unpack_pack .binary64
      rw [← hpower] at hquotient
      exact hquotient
    · have hproduct := (hwhole.mul .binary64 hm (e := e)).unpack_pack .binary64
      rw [← hpower] at hproduct
      exact hproduct
  -- all others are rounded at once
  · exact (unsigned_ofScientific _ _ _).unpack_pack _

/-- A number without a sign is defined and not below zero. -/
theorem Unsigned.zero_le {x : Float} (h : Unsigned (parts x)) :
    x.isNaN = false ∧ 0 ≤ x := by
  have hx : x.isNaN = false := by
    show (parts x).isNaN = false
    generalize parts x = p at h
    cases h <;> rfl
  have hzero : (0 : Float).isNaN = false := by decide
  refine ⟨hx, (le_iff_rank_le hzero hx).mpr ?_⟩
  have hrank : rank (parts 0) = toLex (0, toLex (0, 0)) := by decide
  rw [hrank]
  generalize parts x = p at h
  cases h <;> simp [rank, Prod.Lex.toLex_le_toLex]

/-- A numeral is read to a defined number that is not negative. -/
theorem zero_le_ofDecimal (d : Decimal) : (0 : Float) ≤ Numeral.ofDecimal d :=
  (unsigned_ofDecimal d).zero_le.2

end Formula.Binary64
