import AlgebraicForm.Decimal.Binary64

/-!
# The shortest decimal that reads back

`shortest p` is, among the decimals that round to the double `p`, the one with the fewest digits,
and of those the nearest to it. `Parts.shortestText` writes it: positionally while the exponent
of the leading digit is from -4 to 15, and in scientific notation beyond.
-/

namespace AlgebraicForm.Decimal

/-- The decimal `significand * 10 ^ exponent`. -/
structure Scaled where
  significand : Nat
  exponent : Int
  deriving DecidableEq, Repr

namespace Scaled

/-- The value of a decimal. -/
def value (d : Scaled) : Rat :=
  (d.significand : Rat) * (10 : Rat) ^ d.exponent

/-- The same decimal without trailing zeros. -/
def trim (d : Scaled) : Scaled :=
  if h : d.significand ≠ 0 ∧ d.significand % 10 = 0 then
    trim ⟨d.significand / 10, d.exponent + 1⟩
  else d
termination_by d.significand
decreasing_by
  have := h.1
  omega

end Scaled

/-- Half the gap to the next double above. -/
def gapAbove (p : Parts) : Rat :=
  (2 : Rat) ^ (p.exponent - 1)

/-- Half the gap to the next double below, which is narrower under a power of two. -/
def gapBelow (p : Parts) : Rat :=
  if p.significand = Parts.hiddenBit ∧ Parts.leastExponent < p.exponent then
    (2 : Rat) ^ (p.exponent - 2)
  else (2 : Rat) ^ (p.exponent - 1)

/-- Whether a fraction rounds to the double `p`. The ends of the interval round to `p` when its
significand is even. -/
def readsBack (p : Parts) (x : Rat) : Bool :=
  let low := p.magnitude - gapBelow p
  let high := p.magnitude + gapAbove p
  if p.significand % 2 = 0 then low ≤ x && x ≤ high else low < x && x < high

/-- The decimal with last digit at `10 ^ place` that reads back as `p`. Only the two neighbours
of `p` on that grid can; of two hits the nearer is taken, and the even one on a tie. -/
def onGrid? (p : Parts) (place : Int) : Option Scaled :=
  let cell := p.magnitude / (10 : Rat) ^ place
  let below := cell.floor.toNat
  let lower : Scaled := ⟨below, place⟩
  let upper : Scaled := ⟨below + 1, place⟩
  match readsBack p lower.value, readsBack p upper.value with
  | true, true => some ⟨roundHalfEven cell.num.toNat cell.den, place⟩
  | true, false => some lower
  | false, true => some upper
  | false, false => none

/-- The shortest decimal that reads back as a nonzero `p`. Seventeen digits always suffice. -/
def shortest (p : Parts) : Scaled :=
  let top := decimalExponent p.magnitude
  let found := (List.range 17).findSome? fun (count : Nat) => onGrid? p (top - count)
  (found.getD ⟨p.significand, p.exponent⟩).trim

/-- An exponent is written with its sign and at least two digits. -/
def exponentText (e : Int) : List Char :=
  'e' :: (if e < 0 then '-' else '+') :: padZeros 2 (digits e.natAbs)

/-- A decimal written without an exponent, with at least one digit on either side of the point. -/
def positionalText (d : Scaled) : List Char :=
  let ds := digits d.significand
  if 0 ≤ d.exponent then ds ++ List.replicate d.exponent.toNat '0' ++ ['.', '0']
  else
    let places := d.exponent.natAbs
    let padded := padZeros (places + 1) ds
    padded.take (padded.length - places) ++ '.' :: padded.drop (padded.length - places)

/-- A decimal written with one digit before the point and an exponent. -/
def scientificText (d : Scaled) : List Char :=
  let ds := digits d.significand
  let fraction := ds.drop 1
  ds.take 1 ++ (if fraction.isEmpty then [] else '.' :: fraction)
    ++ exponentText (d.exponent + (ds.length - 1 : Nat))

/-- Positional notation is used while the leading digit's exponent lies in this range. -/
def isPositional (leading : Int) : Bool :=
  -4 ≤ leading && leading < 16

/-- The shortest text that reads back as a finite double, with the sign of a zero kept. -/
def Parts.shortestText (p : Parts) : List Char :=
  let unsigned :=
    if p.significand = 0 then ['0', '.', '0']
    else
      let d := shortest p
      let leading := d.exponent + ((digits d.significand).length - 1 : Nat)
      if isPositional leading then positionalText d else scientificText d
  if p.negative then '-' :: unsigned else unsigned

/-- The shortest text that reads back as a double; `inf`, `-inf` and `nan` for the others. -/
def doubleText (x : Float) : List Char :=
  match Parts.ofDouble? x with
  | some p => p.shortestText
  | none => if x.isNaN then "nan".toList else if x < 0 then "-inf".toList else "inf".toList

end AlgebraicForm.Decimal
