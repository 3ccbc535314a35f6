import Formula.Proofs.Grammar.Rational
import Formula.Vocabulary.Counting

/-!
# Factorials and binomial coefficients of rational numbers

Over the rational numbers the counting functions are exact, so that what their loops compute can be
named.

* `FactorialLoop.eq`, `BinomialLoop.eq`: the product in the making is `(i + 1)!` after `i`
  iterations, and a binomial coefficient, so that every division on the way is exact.
* `binomial_eq_choose`: where every number is finite, `binomial` is the binomial coefficient of the
  integer parts.
* `counting_stops`: where the numbers below `2 ^ 1024` are finite, both loops end early, whatever
  the arguments are.

`Repeats` says which states a loop goes through, without a bound on the number of its iterations.
`exists_repeats` finds such a loop in `repeatWhile`, which has a bound.
-/

namespace Formula

/-! ### Rational numbers -/

/-- Which rational numbers count as finite. -/
class RationalRange where
  isFinite : ℚ → Bool

namespace RationalRange

/-- Every rational number is finite. -/
@[reducible]
def unlimited : RationalRange := ⟨fun _ => true⟩

/-- A rational number is finite if it is below the first power of two that is too large for
binary64 numbers. -/
@[reducible]
def binary64 : RationalRange := ⟨fun x => x < 2 ^ 1024⟩

end RationalRange

/-- Every rational number is defined. -/
instance : NumberOrder ℚ where
  decidableLE := inferInstance
  decidableLT := inferInstance
  isUndefined _ := false
  larger := max
  smaller := min

instance [RationalOperations] [RationalRange] : WholeParts ℚ where
  truncate x := if 0 ≤ x then (⌊x⌋ : ℤ) else (⌈x⌉ : ℤ)
  nearest x := if 0 ≤ x then (⌊x + 1 / 2⌋ : ℤ) else (⌈x - 1 / 2⌉ : ℤ)
  isFinite := RationalRange.isFinite
  wholePart x := ⌊x⌋₊

namespace Counting

open NumberOrder (larger smaller)
open WholeParts (truncate nearest wholePart)

/-! ### Loops -/

/-- `Repeats test step s count t` says that a loop that repeats `step` while `test` holds, begun in
the state `s`, is in the state `t` after `count` iterations. -/
inductive Repeats {σ : Type} (test : σ → Bool) (step : σ → σ) (s : σ) : ℕ → σ → Prop where
  | start : Repeats test step s 0 s
  | next {count : ℕ} {t : σ} (h : Repeats test step s count t) (htest : test t = true) :
    Repeats test step s (count + 1) (step t)

section Loops

variable {σ : Type} {test : σ → Bool} {step : σ → σ} {s t : σ} {count bound : ℕ}

theorem repeatWhile_of_test_eq_false (htest : test t = false) (bound : ℕ) :
    repeatWhile test step bound t = t := by
  cases bound with
  | zero => rfl
  | succ bound => rw [repeatWhile, htest, if_neg Bool.false_ne_true]

theorem Repeats.repeatWhile_add (h : Repeats test step s count t) (bound : ℕ) :
    repeatWhile test step (count + bound) s = repeatWhile test step bound t := by
  induction h generalizing bound with
  | start => rw [Nat.zero_add]
  | next _ htest ih => rw [Nat.add_right_comm, Nat.add_assoc, ih, repeatWhile, if_pos htest]

/-- A loop that makes at most `bound` iterations comes to an end, where its test fails, and
`repeatWhile` finds that end when it is given the bound. -/
theorem exists_repeats (h : ∀ count t, Repeats test step s count t → count ≤ bound) :
    ∃ count t, Repeats test step s count t ∧ test t = false ∧
      repeatWhile test step bound s = t := by
  -- up to any number of iterations the loop has either ended or goes on
  have hends : ∀ n, (∃ count ≤ n, ∃ t, Repeats test step s count t ∧ test t = false) ∨
      ∃ t, Repeats test step s n t := by
    intro n
    induction n with
    | zero => exact Or.inr ⟨s, .start⟩
    | succ n ih =>
      rcases ih with ⟨count, hle, hend⟩ | ⟨t, ht⟩
      · exact Or.inl ⟨count, Nat.le_succ_of_le hle, hend⟩
      · cases htest : test t with
        | true => exact Or.inr ⟨_, ht.next htest⟩
        | false => exact Or.inl ⟨n, Nat.le_succ n, t, ht, htest⟩
  rcases hends (bound + 1) with ⟨count, -, t, ht, htest⟩ | ⟨t, ht⟩
  · have hrun := ht.repeatWhile_add (bound - count)
    rw [Nat.add_sub_cancel' (h count t ht), repeatWhile_of_test_eq_false htest] at hrun
    exact ⟨count, t, ht, htest, hrun⟩
  · exact absurd (h _ t ht) (Nat.not_succ_le_self bound)

end Loops

/-! ### Binomial coefficients by factors -/

/-- Binomial coefficients grow at least by doubling on the way to the middle. -/
theorem two_pow_le_choose {m i : ℕ} (h : i ≤ m) : 2 ^ i ≤ (m + i).choose i := by
  induction i with
  | zero => rw [Nat.choose_zero_right, Nat.pow_zero]
  | succ i ih =>
    have hchoose := Nat.add_one_mul_choose_eq (m + i) i
    have ih := ih (by omega)
    rw [← Nat.add_assoc]
    refine Nat.le_of_mul_le_mul_right ?_ (Nat.succ_pos i)
    calc 2 ^ (i + 1) * (i + 1) = 2 * (i + 1) * 2 ^ i := by ring
      _ ≤ (m + i + 1) * (m + i).choose i := Nat.mul_le_mul (by omega) ih
      _ = (m + i + 1).choose (i + 1) * (i + 1) := hchoose

/-- The factor that is divided by is a divisor. -/
theorem dvd_choose_mul (m i : ℕ) : i + 1 ∣ (m + i).choose i * (m + (i + 1)) :=
  Dvd.intro_left ((m + i + 1).choose (i + 1)) <| by
    rw [← Nat.add_one_mul_choose_eq, Nat.mul_comm, Nat.add_assoc]

theorem choose_min {n k : ℕ} (h : k ≤ n) : n.choose (min k (n - k)) = n.choose k := by
  rcases Nat.le_total k (n - k) with hk | hk
  · rw [min_eq_left hk]
  · rw [min_eq_right hk, Nat.choose_symm h]

/-! ### The two loops -/

theorem isUndefined_eq_false (x : ℚ) : NumberOrder.isUndefined x = false := rfl

theorem smaller_natCast {n k : ℕ} (h : k ≤ n) :
    smaller (k : ℚ) (n - k) = (min k (n - k) : ℕ) := by
  rw [Nat.cast_min, Nat.cast_sub h]
  rfl

section Rational

variable [RationalOperations] [RationalRange]

/-- `FactorialLoop n i t` says that the loop for the factorial of `n` is in the state `t` after `i`
iterations. -/
abbrev FactorialLoop (n : ℚ) : ℕ → Progress ℚ → Prop :=
  Repeats (Progress.continues n) Progress.multiply ⟨1 + 1, 1⟩

/-- `BinomialLoop n k i t` says that the loop for `n` over `k` is in the state `t` after `i`
iterations. -/
abbrev BinomialLoop (n k : ℚ) : ℕ → Progress ℚ → Prop :=
  Repeats (Progress.continues k) (Progress.multiplyRatio n k) ⟨1, 1⟩

variable {n k i : ℕ} {t : Progress ℚ}

theorem continues_iff {last : ℚ} :
    t.continues last = true ↔ t.next ≤ last ∧ RationalRange.isFinite t.product = true := by
  rw [Progress.continues, Bool.and_eq_true, decide_eq_true_iff]
  rfl

/-! ### Whole parts -/

/-- Above minus one, truncating is rounding down to a natural number. -/
theorem truncate_of_neg_one_lt {x : ℚ} (hx : -1 < x) : truncate x = (⌊x⌋₊ : ℚ) := by
  show (if 0 ≤ x then ((⌊x⌋ : ℤ) : ℚ) else (⌈x⌉ : ℤ)) = ⌊x⌋₊
  split
  · rename_i h
    exact (natCast_floor_eq_intCast_floor h).symm
  · rename_i h
    rw [not_le] at h
    rw [Nat.floor_of_nonpos h.le, Int.ceil_eq_zero_iff.mpr ⟨hx, h.le⟩]
    rfl

theorem truncate_neg {x : ℚ} (hx : x ≤ -1) : truncate x < 0 := by
  show (if 0 ≤ x then ((⌊x⌋ : ℤ) : ℚ) else (⌈x⌉ : ℤ)) < 0
  rw [if_neg (by linarith)]
  have hceil : ⌈x⌉ ≤ -1 := Int.ceil_le.mpr (by simpa using hx)
  have hcast : ((⌈x⌉ : ℤ) : ℚ) ≤ ((-1 : ℤ) : ℚ) := Int.cast_le.mpr hceil
  push_cast at hcast
  linarith

theorem larger_truncate (x : ℚ) : NumberOrder.larger (truncate x) 0 = (⌊x⌋₊ : ℚ) := by
  show max (truncate x) 0 = (⌊x⌋₊ : ℚ)
  rcases lt_or_ge (-1) x with hx | hx
  · rw [truncate_of_neg_one_lt hx, max_eq_left (Nat.cast_nonneg _)]
  · rw [max_eq_right (truncate_neg hx).le, Nat.floor_of_nonpos (by linarith), Nat.cast_zero]

theorem nearest_natCast (m : ℕ) : nearest (m : ℚ) = m := by
  show (if 0 ≤ (m : ℚ) then ((⌊(m : ℚ) + 1 / 2⌋ : ℤ) : ℚ) else _) = m
  have hfloor : ⌊(m : ℚ) + 1 / 2⌋ = m := by
    rw [Int.floor_eq_iff]
    norm_num
  rw [if_pos (Nat.cast_nonneg m), hfloor, Int.cast_natCast]

theorem wholePart_natCast (m : ℕ) : wholePart (m : ℚ) = m := Nat.floor_natCast m

/-! ### Factorials -/

theorem FactorialLoop.eq {x : ℚ} (h : FactorialLoop x i t) : t = ⟨i + 2, (i + 1).factorial⟩ := by
  induction h with
  | start =>
    rw [Progress.mk.injEq]
    constructor
    · norm_num
    · norm_num
  | next _ _ ih =>
    rw [ih, Progress.multiply, Progress.mk.injEq]
    constructor
    · push_cast
      ring
    · rw [Nat.factorial_succ (_ + 1)]
      push_cast
      ring

theorem FactorialLoop.le {m : ℕ} (h : FactorialLoop (m : ℚ) i t) : i ≤ m - 1 := by
  cases h with
  | start => exact Nat.zero_le _
  | @next i t h htest =>
    rw [FactorialLoop.eq h] at htest
    have hle : ((i : ℚ) + 2) ≤ m := (continues_iff.mp htest).1
    have hle' : i + 2 ≤ m := by exact_mod_cast hle
    omega

/-- When the loop ends because all factors are taken, the product is the factorial. -/
theorem FactorialLoop.product_eq {m : ℕ} (h : FactorialLoop (m : ℚ) i t)
    (hlast : (m : ℚ) < t.next) : t.product = m.factorial := by
  have hle := FactorialLoop.le h
  rw [FactorialLoop.eq h] at hlast ⊢
  have hlast' : (m : ℚ) < i + 2 := hlast
  have hlast'' : m < i + 2 := by exact_mod_cast hlast'
  rcases Nat.eq_zero_or_pos m with rfl | hpos
  · obtain rfl : i = 0 := by omega
    rfl
  · obtain rfl : m = i + 1 := by omega
    rfl

theorem factorial_of_neg {x : ℚ} (hx : truncate x < 0) : factorial x = 0 := by
  show (if truncate x < 0 then (0 : ℚ) else _) = 0
  rw [if_pos hx]

theorem factorial_eq {x : ℚ} (hx : -1 < x) : factorial x =
    (repeatWhile (Progress.continues (⌊x⌋₊ : ℚ)) Progress.multiply ⌊x⌋₊ ⟨1 + 1, 1⟩).product := by
  unfold factorial
  rw [isUndefined_eq_false, if_neg Bool.false_ne_true]
  dsimp only
  rw [truncate_of_neg_one_lt hx, wholePart_natCast, if_neg (Nat.cast_nonneg _).not_gt]

/-- The loop ends, with a whole factorial or when the product is no longer finite. -/
theorem FactorialLoop.exists_end (m : ℕ) :
    ∃ i t, FactorialLoop (m : ℚ) i t ∧ t.continues (m : ℚ) = false ∧
      repeatWhile (Progress.continues (m : ℚ)) Progress.multiply m ⟨1 + 1, 1⟩ = t :=
  exists_repeats fun _ _ h => (FactorialLoop.le h).trans (m.sub_le 1)

/-! ### Binomial coefficients -/

/-- Each iteration makes one binomial coefficient out of another. -/
theorem BinomialLoop.eq (hk : k ≤ n) (h : BinomialLoop (n : ℚ) k i t) :
    t = ⟨i + 1, (n - k + i).choose i⟩ := by
  induction h with
  | start =>
    rw [Progress.mk.injEq]
    constructor
    · norm_num
    · rw [Nat.choose_zero_right, Nat.cast_one]
  | @next i _ _ _ ih =>
    rw [ih, Progress.multiplyRatio, Progress.mk.injEq]
    constructor
    · push_cast
      ring
    -- the quotient is whole: `(i + 1) * C(m + 1, i + 1) = (m + 1) * C(m, i)` for `m = n - k + i`
    · have hne : ((i : ℚ) + 1) ≠ 0 := by positivity
      have hchoose := congrArg (Nat.cast (R := ℚ)) (Nat.add_one_mul_choose_eq (n - k + i) i)
      push_cast [Nat.cast_sub hk] at hchoose
      rw [← Nat.add_assoc]
      show _ / ((i : ℚ) + 1) = _
      rw [div_eq_iff hne, ← hchoose]
      ring

theorem BinomialLoop.le (hk : k ≤ n) (h : BinomialLoop (n : ℚ) k i t) : i ≤ k := by
  cases h with
  | start => exact Nat.zero_le _
  | @next i t h htest =>
    rw [BinomialLoop.eq hk h] at htest
    have hle : ((i : ℚ) + 1) ≤ k := (continues_iff.mp htest).1
    exact_mod_cast hle

/-- Before the loop the cases are told apart that need none, and the shorter of two loops is chosen.
-/
theorem binomial_eq (x y : ℚ) : binomial x y =
    if ⌊x⌋₊ = 0 ∨ ⌊y⌋₊ = 0 ∨ ⌊x⌋₊ = ⌊y⌋₊ then 1
    else if ⌊x⌋₊ < ⌊y⌋₊ then 0
    else
      let k := min ⌊y⌋₊ (⌊x⌋₊ - ⌊y⌋₊)
      nearest (repeatWhile (Progress.continues (k : ℚ)) (Progress.multiplyRatio (⌊x⌋₊ : ℚ) k) k
        ⟨1, 1⟩).product := by
  unfold binomial
  rw [isUndefined_eq_false, isUndefined_eq_false, if_neg Bool.false_ne_true,
    if_neg Bool.false_ne_true, larger_truncate, larger_truncate]
  generalize ⌊x⌋₊ = n, ⌊y⌋₊ = k
  have htrivial : (decide ((n : ℚ) ≤ 0) || decide ((k : ℚ) ≤ 0) ||
      decide ((k : ℚ) ≤ n) && decide ((n : ℚ) ≤ k)) = true ↔ n = 0 ∨ k = 0 ∨ n = k := by
    simp only [Bool.or_eq_true, Bool.and_eq_true, decide_eq_true_eq, Nat.cast_le, Nat.cast_nonpos]
    omega
  have hlt : (n : ℚ) < k ↔ n < k := Nat.cast_lt
  dsimp only
  simp only [htrivial, hlt]
  split
  · rfl
  split
  · rfl
  · rename_i hle
    rw [smaller_natCast (not_lt.mp hle), wholePart_natCast]

theorem BinomialLoop.exists_end (hk : k ≤ n) :
    ∃ i t, BinomialLoop (n : ℚ) k i t ∧ t.continues (k : ℚ) = false ∧
      repeatWhile (Progress.continues (k : ℚ)) (Progress.multiplyRatio (n : ℚ) k) k ⟨1, 1⟩ = t :=
  exists_repeats fun _ _ h => BinomialLoop.le hk h

/-- Where the product is always finite, the loop ends when all factors are taken. -/
theorem BinomialLoop.exists_full (hfinite : ∀ x, RationalRange.isFinite x = true) (hk : k ≤ n) :
    ∃ t, BinomialLoop (n : ℚ) k k t ∧ t.continues (k : ℚ) = false ∧
      repeatWhile (Progress.continues (k : ℚ)) (Progress.multiplyRatio (n : ℚ) k) k ⟨1, 1⟩ = t := by
  obtain ⟨i, t, h, hend, hrun⟩ := BinomialLoop.exists_end hk
  have hlast : i = k := by
    have hle := BinomialLoop.le hk h
    have htest : ¬t.next ≤ (k : ℚ) := fun hnext =>
      Bool.false_ne_true (hend.symm.trans (continues_iff.mpr ⟨hnext, hfinite _⟩))
    rw [BinomialLoop.eq hk h] at htest
    have hlt : ¬(i : ℚ) + 1 ≤ k := htest
    have hlt' : ¬i + 1 ≤ k := by exact_mod_cast hlt
    omega
  exact ⟨t, hlast ▸ h, hend, hrun⟩

/-- As long as nothing is too large the result is the binomial coefficient of the truncated numbers.
-/
theorem binomial_of_finite (hfinite : ∀ x, RationalRange.isFinite x = true) (x y : ℚ) :
    binomial x y = if ⌊x⌋₊ = 0 then 1 else (⌊x⌋₊.choose ⌊y⌋₊ : ℚ) := by
  rw [binomial_eq]
  generalize ⌊x⌋₊ = n, ⌊y⌋₊ = k
  by_cases hn : n = 0
  · rw [if_pos (Or.inl hn), if_pos hn]
  rw [if_neg hn]
  by_cases htrivial : k = 0 ∨ n = k
  · rw [if_pos (Or.inr htrivial)]
    rcases htrivial with rfl | rfl
    · rw [Nat.choose_zero_right, Nat.cast_one]
    · rw [Nat.choose_self, Nat.cast_one]
  rw [if_neg (not_or.mpr ⟨hn, htrivial⟩)]
  by_cases hlt : n < k
  · rw [if_pos hlt, Nat.choose_eq_zero_of_lt hlt, Nat.cast_zero]
  rw [if_neg hlt]
  dsimp only
  have hle : min k (n - k) ≤ n := by omega
  obtain ⟨t, h, -, hrun⟩ := BinomialLoop.exists_full hfinite hle
  rw [hrun, BinomialLoop.eq hle h, nearest_natCast, Nat.sub_add_cancel hle,
    choose_min (not_lt.mp hlt)]

theorem binomial_natCast (hfinite : ∀ x, RationalRange.isFinite x = true) (h : 1 ≤ n ∨ k ≤ n) :
    binomial (n : ℚ) k = n.choose k := by
  rw [binomial_of_finite hfinite, Nat.floor_natCast, Nat.floor_natCast]
  by_cases hn : n = 0
  · obtain rfl : k = 0 := by omega
    rw [if_pos hn, Nat.choose_zero_right, Nat.cast_one]
  · rw [if_neg hn]

end Rational

/-- Where every number is finite, `binomial` is the binomial coefficient, and so symmetric and ruled
by Pascal's rule. After `i` iterations of its loop the product is a binomial coefficient too, every
division on the way is exact, and rounding at the end changes nothing. Other arguments count as
their integer parts, and as zero if these are negative. -/
theorem binomial_eq_choose [RationalOperations] :
    letI := RationalRange.unlimited
    (∀ n k : ℕ, 1 ≤ n → binomial (n : ℚ) k = n.choose k) ∧
    (∀ n k : ℕ, k ≤ n →
      let least := min k (n - k)
      (∀ i t, BinomialLoop (n : ℚ) least i t → t = ⟨i + 1, (n - least + i).choose i⟩ ∧
        i + 1 ∣ (n - least + i).choose i * (n - least + (i + 1))) ∧
      ∃ t, BinomialLoop (n : ℚ) least least t ∧ t.continues (least : ℚ) = false ∧
        nearest t.product = t.product ∧ binomial (n : ℚ) k = t.product) ∧
    (∀ n k : ℕ, k ≤ n → binomial (n : ℚ) k = binomial (n : ℚ) (n - k)) ∧
    (∀ n k : ℕ, 1 ≤ n →
      binomial ((n : ℚ) + 1) (k + 1) = binomial (n : ℚ) k + binomial (n : ℚ) (k + 1)) ∧
    ∀ x y : ℚ,
      binomial x y = binomial (larger (truncate x) 0) (larger (truncate y) 0) ∧
        (larger (truncate x) 0 = 0 → binomial x y = 1) := by
  let _ := RationalRange.unlimited
  have hfinite : ∀ x, RationalRange.isFinite x = true := fun _ => rfl
  refine ⟨fun n k hn => binomial_natCast hfinite (Or.inl hn), ?_, ?_, ?_, ?_⟩
  · intro n k hk least
    have hleast : least ≤ n := (min_le_left k (n - k)).trans hk
    obtain ⟨t, h, hend, -⟩ := BinomialLoop.exists_full hfinite hleast
    refine ⟨fun i t h => ⟨BinomialLoop.eq hleast h, dvd_choose_mul (n - least) i⟩, t, h, hend, ?_⟩
    rw [BinomialLoop.eq hleast h, nearest_natCast, binomial_natCast hfinite (Or.inr hk),
      Nat.sub_add_cancel hleast, choose_min hk]
    exact ⟨rfl, rfl⟩
  · intro n k hk
    rw [← Nat.cast_sub hk, binomial_natCast hfinite (Or.inr hk),
      binomial_natCast hfinite (Or.inr (n.sub_le k)), Nat.choose_symm hk]
  · intro n k hn
    have hpascal := congrArg (Nat.cast (R := ℚ)) (Nat.choose_succ_succ n k)
    rw [Nat.cast_add] at hpascal
    rw [← Nat.cast_succ, ← Nat.cast_succ, binomial_natCast hfinite (Or.inl (Nat.succ_pos n)),
      binomial_natCast hfinite (Or.inl hn), binomial_natCast hfinite (Or.inl hn), hpascal]
  · intro x y
    rw [larger_truncate, larger_truncate, binomial_of_finite hfinite, binomial_of_finite hfinite,
      Nat.floor_natCast, Nat.floor_natCast]
    refine ⟨rfl, fun hx => ?_⟩
    rw [if_pos (Nat.cast_eq_zero.mp hx)]

theorem binomial_eq_choose_seven :
    letI := RationalRange.unlimited
    binomial (7 : ℚ) 5 = 21 ∧ binomial (7 : ℚ) 5 = binomial (7 : ℚ) (7 - 5) ∧
    (∃ t, BinomialLoop 7 2 2 t ∧ t.product = 21) ∧
    binomial (7 + 1 : ℚ) (5 + 1) = binomial (7 : ℚ) 5 + binomial (7 : ℚ) (5 + 1) ∧
    binomial (-3 / 2 : ℚ) 5 = 1 := by
  let _ := RationalRange.unlimited
  obtain ⟨hchoose, hloop, hsymm, hpascal, hparts⟩ := binomial_eq_choose
  have hseven : binomial (7 : ℚ) 5 = 21 := hchoose 7 5 (by decide)
  obtain ⟨-, t, ht, -, -, hproduct⟩ := hloop 7 5 (by decide)
  refine ⟨hseven, hsymm 7 5 (by decide), ⟨t, ht, hproduct.symm.trans hseven⟩,
    hpascal 7 5 (by decide), (hparts (-3 / 2) 5).2 ?_⟩
  rw [larger_truncate, Nat.floor_of_nonpos (by norm_num), Nat.cast_zero]

/-! ### Early ends -/

section Binary64

variable [RationalOperations]

/-- After 169 iterations the product is `170!`, which is finite; `171!` is not. -/
theorem factorialLoop_le {x : ℚ} {i : ℕ} {t : Progress ℚ} :
    letI := RationalRange.binary64
    FactorialLoop x i t → i ≤ 170 := by
  let _ := RationalRange.binary64
  intro h
  cases h with
  | start => exact Nat.zero_le _
  | @next i t h htest =>
    rw [FactorialLoop.eq h] at htest
    have hfinite : (((i + 1).factorial : ℕ) : ℚ) < 2 ^ 1024 :=
      of_decide_eq_true (continues_iff.mp htest).2
    have hfinite' : (i + 1).factorial < 2 ^ 1024 := by exact_mod_cast hfinite
    by_contra hi
    have hle : Nat.factorial 171 ≤ (i + 1).factorial := Nat.factorial_le (by omega)
    have hlarge : 2 ^ 1024 ≤ Nat.factorial 171 := by decide +kernel
    omega

/-- Every iteration at least doubles the product, since no more factors are taken than are left
out. -/
theorem binomialLoop_le {n k i : ℕ} {t : Progress ℚ} (hk : k ≤ n - k) :
    letI := RationalRange.binary64
    BinomialLoop (n : ℚ) k i t → i ≤ 1024 ∧ 2 ^ i ≤ t.product := by
  let _ := RationalRange.binary64
  intro h
  -- the product doubles at least with every step, and it stays below the largest number
  have hgrows : ∀ {i t}, BinomialLoop (n : ℚ) k i t → (2 : ℚ) ^ i ≤ t.product := by
    intro i t h
    have hle := BinomialLoop.le (by omega) h
    rw [BinomialLoop.eq (by omega) h]
    show (2 : ℚ) ^ i ≤ ((n - k + i).choose i : ℕ)
    exact_mod_cast two_pow_le_choose (hle.trans hk)
  refine ⟨?_, hgrows h⟩
  cases h with
  | start => exact Nat.zero_le _
  | @next i t h htest =>
    have hfinite : t.product < 2 ^ 1024 := of_decide_eq_true (continues_iff.mp htest).2
    have hpow : (2 : ℚ) ^ i < 2 ^ 1024 := (hgrows h).trans_lt hfinite
    exact (pow_lt_pow_iff_right₀ one_lt_two).mp hpow

end Binary64

/-- Where the numbers below `2 ^ 1024` are finite, the loop of `factorial` makes at most 170
iterations and that of `binomial` at most 1024, in which each doubles the product at least. Both
come to an end, and the result is what they have reached; if it is all factors of a factorial, it
is the factorial. -/
theorem counting_stops [RationalOperations] :
    letI := RationalRange.binary64
    (∀ x : ℚ,
      (∀ i t, FactorialLoop (truncate x) i t → i ≤ 170) ∧
      (truncate x < 0 → factorial x = 0) ∧
      (0 ≤ truncate x → ∃ i t, FactorialLoop (truncate x) i t ∧
        t.continues (truncate x) = false ∧ factorial x = t.product ∧
        (truncate x < t.next → factorial x = ⌊x⌋₊.factorial))) ∧
    ∀ x y : ℚ,
      let n := larger (truncate x) 0
      let k := larger (truncate y) 0
      0 < k → k < n →
        (∀ i t, BinomialLoop n (smaller k (n - k)) i t → i ≤ 1024 ∧ 2 ^ i ≤ t.product) ∧
        ∃ i t, BinomialLoop n (smaller k (n - k)) i t ∧
          t.continues (smaller k (n - k)) = false ∧ binomial x y = nearest t.product := by
  let _ := RationalRange.binary64
  constructor
  · intro x
    refine ⟨fun i t h => factorialLoop_le h, factorial_of_neg, fun hx => ?_⟩
    have hlt : -1 < x := not_le.mp fun hle => hx.not_gt (truncate_neg hle)
    rw [truncate_of_neg_one_lt hlt, factorial_eq hlt]
    obtain ⟨i, t, h, hend, hrun⟩ := FactorialLoop.exists_end ⌊x⌋₊
    rw [hrun]
    exact ⟨i, t, h, hend, rfl, FactorialLoop.product_eq h⟩
  · intro x y n k hk hkn
    have hbinomial := binomial_eq x y
    have hn : n = (⌊x⌋₊ : ℚ) := larger_truncate x
    have hk' : k = (⌊y⌋₊ : ℚ) := larger_truncate y
    clear_value n k
    subst hn hk'
    have hpos : 0 < ⌊y⌋₊ := Nat.cast_pos.mp hk
    have hlt : ⌊y⌋₊ < ⌊x⌋₊ := Nat.cast_lt.mp hkn
    rw [if_neg (by omega), if_neg (by omega)] at hbinomial
    rw [smaller_natCast hlt.le]
    have hle : min ⌊y⌋₊ (⌊x⌋₊ - ⌊y⌋₊) ≤ ⌊x⌋₊ - min ⌊y⌋₊ (⌊x⌋₊ - ⌊y⌋₊) := by omega
    obtain ⟨i, t, h, hend, hrun⟩ := BinomialLoop.exists_end (hle.trans (Nat.sub_le _ _))
    exact ⟨fun i t h => binomialLoop_le hle h, i, t, h, hend, hrun ▸ hbinomial⟩

/-- For a trillion both loops stop long before. -/
theorem counting_stops_trillion :
    letI := RationalRange.binary64
    (∃ i t, i ≤ 170 ∧ FactorialLoop (truncate (10 ^ 12)) i t ∧
      factorial (10 ^ 12 : ℚ) = t.product) ∧
    factorial (59 / 10 : ℚ) = 120 ∧
    ∃ (i : ℕ) (t : Progress ℚ), i ≤ 1024 ∧ 2 ^ i ≤ t.product ∧
      binomial (10 ^ 12 : ℚ) (5 * 10 ^ 11) = nearest t.product := by
  let _ := RationalRange.binary64
  obtain ⟨hfactorial, hbinomial⟩ := counting_stops
  refine ⟨?_, ?_, ?_⟩
  · obtain ⟨hle, -, hloop⟩ := hfactorial (10 ^ 12)
    have htruncate : truncate (10 ^ 12 : ℚ) = (⌊(10 ^ 12 : ℚ)⌋₊ : ℚ) :=
      truncate_of_neg_one_lt (by norm_num)
    obtain ⟨i, t, h, -, hproduct, -⟩ := hloop (htruncate ▸ Nat.cast_nonneg _)
    exact ⟨i, t, hle i t h, h, hproduct⟩
  · obtain ⟨-, -, hloop⟩ := hfactorial (59 / 10)
    have hfloor : ⌊(59 / 10 : ℚ)⌋₊ = 5 := by norm_num
    have htruncate : truncate (59 / 10 : ℚ) = (5 : ℕ) :=
      (truncate_of_neg_one_lt (by norm_num)).trans (congrArg Nat.cast hfloor)
    rw [htruncate, hfloor] at hloop
    obtain ⟨i, t, h, hend, -, hlast⟩ := hloop (Nat.cast_nonneg 5)
    refine (hlast ?_).trans (by norm_num [Nat.factorial])
    -- the product is finite until five is taken
    rw [FactorialLoop.eq h] at hend ⊢
    by_contra hnext
    have hle : ((i : ℚ) + 2) ≤ (5 : ℕ) := not_lt.mp hnext
    have hle' : i + 2 ≤ 5 := by exact_mod_cast hle
    have hfinite : (((i + 1).factorial : ℕ) : ℚ) < 2 ^ 1024 := by
      have hsmall : (i + 1).factorial ≤ Nat.factorial 4 := Nat.factorial_le (by omega)
      have hlarge : Nat.factorial 4 < 2 ^ 1024 := by decide +kernel
      exact_mod_cast hsmall.trans_lt hlarge
    exact Bool.false_ne_true (hend.symm.trans (continues_iff.mpr ⟨hle, decide_eq_true hfinite⟩))
  · have hn : larger (truncate (10 ^ 12 : ℚ)) 0 = 10 ^ 12 :=
      (larger_truncate _).trans (by norm_num)
    have hk : larger (truncate (5 * 10 ^ 11 : ℚ)) 0 = 5 * 10 ^ 11 :=
      (larger_truncate _).trans (by norm_num)
    obtain ⟨hle, i, t, h, -, hproduct⟩ := hbinomial (10 ^ 12) (5 * 10 ^ 11)
      (by rw [hk]; norm_num) (by rw [hk, hn]; norm_num)
    exact ⟨i, t, (hle i t h).1, (hle i t h).2, hproduct⟩

end Counting

end Formula
