import AlgebraicForm.Decimal.Shortest

/-!
# Decimals with a set number of places

The exact value of a double rounded to a set number of digits, ties to even: `fixedText` counts
the places after the point, `roundedText` the digits after the leading one. Both keep the sign of
a zero. `bitsText` writes the bit pattern instead.
-/

namespace AlgebraicForm.Decimal

/-- A sign in front of a magnitude. -/
def signed (negative : Bool) (text : List Char) : List Char :=
  if negative then '-' :: text else text

/-- A double with `places` digits after the point. -/
def fixedText (places : Nat) (p : Parts) : List Char :=
  let scaled := p.magnitude * (10 : Rat) ^ places
  let ds := padZeros (places + 1) (digits (roundHalfEven scaled.num.toNat scaled.den))
  let point := ds.length - places
  signed p.negative (ds.take point ++ (if places = 0 then [] else '.' :: ds.drop point))

/-- A positive fraction rounded to `places` digits after the leading one. Rounding up to the next
power of ten moves the leading digit. -/
def roundScaled (places : Nat) (q : Rat) : Scaled :=
  let place := decimalExponent q - places
  let cell := q / (10 : Rat) ^ place
  let n := roundHalfEven cell.num.toNat cell.den
  if places + 1 < (digits n).length then ⟨n / 10, place + 1⟩ else ⟨n, place⟩

/-- A double in scientific notation with `places` digits after the leading one. -/
def roundedText (places : Nat) (p : Parts) : List Char :=
  let d := if p.significand = 0 then ⟨0, -places⟩ else roundScaled places p.magnitude
  let ds := padZeros (places + 1) (digits d.significand)
  signed p.negative
    (ds.take 1 ++ (if places = 0 then [] else '.' :: ds.drop 1)
      ++ exponentText (d.exponent + places))

/-- The bit pattern of a double as sixteen hexadecimal digits. -/
def bitsText (x : Float) : List Char :=
  padZeros 16 (Nat.toDigits 16 x.toBits.toNat)

end AlgebraicForm.Decimal
