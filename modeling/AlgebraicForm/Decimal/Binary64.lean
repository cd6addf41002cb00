import AlgebraicForm.Decimal.Rounding

/-!
# Doubles as exact fractions

A finite double is a dyadic fraction. `Parts.ofDouble?` takes it apart, `exactValue?` gives the
fraction, and `nearest?` goes back: it is the double nearest to a fraction, and there is none
when the fraction is beyond the largest finite double.
-/

namespace AlgebraicForm.Decimal

/-- A finite double as `(-1) ^ negative * significand * 2 ^ exponent`. A significand below
`2 ^ 52` occurs at the least exponent only. -/
structure Parts where
  negative : Bool
  significand : Nat
  exponent : Int
  deriving DecidableEq, Repr

namespace Parts

/-- The least exponent of a double. -/
def leastExponent : Int := -1074

/-- The weight of the lowest exponent bit in the 64-bit pattern of a double, and the significand
bit that the pattern leaves out. -/
def hiddenBit : Nat := 0x10000000000000

/-- The weight of the sign bit in the 64-bit pattern of a double. -/
def signBit : Nat := 0x8000000000000000

/-- The exponent field of infinities and not-a-number. -/
def specialExponent : Nat := 0x7ff

/-- Takes a double apart; infinities and not-a-number have no parts. -/
def ofDouble? (x : Float) : Option Parts :=
  let bits := x.toBits.toNat
  let negative := bits / signBit % 2 == 1
  let biased := bits / hiddenBit % (specialExponent + 1)
  let fraction := bits % hiddenBit
  if biased = specialExponent then none
  else if biased = 0 then some ⟨negative, fraction, leastExponent⟩
  else some ⟨negative, hiddenBit + fraction, leastExponent + (biased - 1 : Nat)⟩

/-- The distance from zero. -/
def magnitude (p : Parts) : Rat :=
  (p.significand : Rat) * (2 : Rat) ^ p.exponent

/-- The fraction that the double stands for. -/
def value (p : Parts) : Rat :=
  if p.negative then -p.magnitude else p.magnitude

end Parts

/-- The fraction that a finite double stands for. -/
def exactValue? (x : Float) : Option Rat :=
  (Parts.ofDouble? x).map Parts.value

/-- The exponent `e` for which a positive `q` is a significand of at most 53 bits times `2 ^ e`,
as far down as doubles go. -/
def binaryExponent (q : Rat) : Int :=
  let k : Int := q.num.toNat.log2 - q.den.log2
  let e := if (2 : Rat) ^ k ≤ q then k - 52 else k - 53
  max e Parts.leastExponent

/-- The bit pattern of the double nearest to a positive `q`, ties to even. Significands run on
from one exponent into the next, so a significand rounded up to `2 ^ 53` needs no special case. -/
def nearestBits (q : Rat) : Nat :=
  let e := binaryExponent q
  let scaled := q / (2 : Rat) ^ e
  (e - Parts.leastExponent).toNat * Parts.hiddenBit
    + roundHalfEven scaled.num.toNat scaled.den

/-- The double nearest to a fraction, ties to even; none where that would be an infinity. -/
def nearest? (q : Rat) : Option Float :=
  if q = 0 then some 0.0
  else
    let bits := nearestBits (if q < 0 then -q else q)
    if bits < Parts.specialExponent * Parts.hiddenBit then
      some (Float.ofBits (UInt64.ofNat (if q < 0 then Parts.signBit + bits else bits)))
    else none

end AlgebraicForm.Decimal
