/-!
# Rounding a quotient and counting its digits

The two integer questions behind every decimal text of this library: which whole number is
nearest to a quotient, and between which powers of ten a positive quotient lies.

* `roundHalfEven num den` is the whole number nearest to `num / den`; a half goes to the even
  neighbour.
* `decimalExponent q` is the `k` with `10 ^ k ≤ q < 10 ^ (k + 1)`, for a positive `q`.
-/

namespace AlgebraicForm.Decimal

/-- The whole number nearest to `num / den`; a quotient halfway between two whole numbers goes
to the even one. -/
def roundHalfEven (num den : Nat) : Nat :=
  let quotient := num / den
  let twice := 2 * (num % den)
  if twice < den then quotient
  else if den < twice then quotient + 1
  else quotient + quotient % 2

/-- The decimal digits of `n`, most significant first. -/
def digits (n : Nat) : List Char :=
  Nat.toDigits 10 n

/-- The exponent of the leading digit of a positive `q`: the quotient of an `a`-digit by a
`b`-digit number lies strictly between `10 ^ (a - b - 1)` and `10 ^ (a - b + 1)`. -/
def decimalExponent (q : Rat) : Int :=
  let k : Int := (digits q.num.toNat).length - (digits q.den).length
  if (10 : Rat) ^ k ≤ q then k else k - 1

/-- `text` with zeros in front, at least `width` characters long. -/
def padZeros (width : Nat) (text : List Char) : List Char :=
  List.replicate (width - text.length) '0' ++ text

end AlgebraicForm.Decimal
