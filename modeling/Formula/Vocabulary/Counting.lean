import Formula.Number.Arithmetic

/-!
# Factorials and binomial coefficients

Both are products taken factor by factor in the number type itself, for as long as the product is
finite. A product of floating-point numbers is soon infinite, so that the number of factors taken
stays small however large the arguments are.

A product in the making is a `Progress`, and each function repeats its step while its test holds.
The integer part of the last factor's number bounds the number of steps, which is what makes the
repetition total; it ends earlier or at that bound.
-/

namespace Formula.Counting

/-- Repeats a step while a test holds, at most `bound` times. -/
def repeatWhile {σ : Type} (test : σ → Bool) (step : σ → σ) : Nat → σ → σ
  | 0, state => state
  | bound + 1, state => if test state then repeatWhile test step bound (step state) else state

/-- A product in the making: the number of its next factor, and the product of those before. -/
structure Progress (α : Type) where
  next : α
  product : α
  deriving DecidableEq, Repr

namespace Progress

variable {α : Type} [WholeParts α]

/-- Whether there is a factor up to number `last` to take, and the product is still finite. -/
def continues (last : α) (progress : Progress α) : Bool :=
  progress.next ≤ last && WholeParts.isFinite progress.product

/-- Takes the next number itself as a factor. -/
def multiply (progress : Progress α) : Progress α :=
  ⟨progress.next + 1, progress.product * progress.next⟩

/-- Takes the factor `(n - k + i) / i`, where `i` is the next number. -/
def multiplyRatio (n k : α) (progress : Progress α) : Progress α :=
  ⟨progress.next + 1, progress.product * (n - k + progress.next) / progress.next⟩

end Progress

variable {α : Type} [WholeParts α]

/-- The factorial of the integer part of a number. It is zero if that part is negative. -/
def factorial (n : α) : α :=
  if NumberOrder.isUndefined n then
    n
  else
    let n := WholeParts.truncate n
    if n < 0 then
      0
    else
      (repeatWhile (Progress.continues n) Progress.multiply (WholeParts.wholePart n)
        ⟨1 + 1, 1⟩).product

/-- The number of ways to choose `k` of `n`, each the integer part of a number and zero if that is
negative. There is one way to choose from nothing. -/
def binomial (n k : α) : α :=
  if NumberOrder.isUndefined n then
    n
  else if NumberOrder.isUndefined k then
    k
  else
    let n := NumberOrder.larger (WholeParts.truncate n) 0
    let k := NumberOrder.larger (WholeParts.truncate k) 0
    if n ≤ 0 || k ≤ 0 || (k ≤ n && n ≤ k) then
      1
    else if n < k then
      0
    else
      let k := NumberOrder.smaller k (n - k)
      WholeParts.nearest
        (repeatWhile (Progress.continues k) (Progress.multiplyRatio n k) (WholeParts.wholePart k)
          ⟨1, 1⟩).product

end Formula.Counting
