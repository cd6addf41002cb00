import AlgebraicForm.Decimal.Shortest
import AlgebraicForm.DigitLimit

/-!
# Numbers

A number of an expression is an exact fraction or an approximation by a double. Comparison is
exact across the two kinds. Arithmetic stays exact between fractions; a fraction that meets a
double is first rounded to the nearest double.
-/

namespace AlgebraicForm

/-- A number of an expression. -/
inductive Number where
  | exact (value : Rat)
  | approx (value : Float)

namespace Number

/-- The whole number `n`. -/
def ofInt (n : Int) : Number :=
  exact n

/-- One half. -/
def half : Number :=
  exact (mkRat 1 2)

/-! ## Comparison -/

/-- Whether two numbers have the same value. Not-a-number equals nothing, itself included. -/
def equals : Number → Number → Bool
  | exact p, exact q => p == q
  | approx x, approx y => x == y
  | exact q, approx x | approx x, exact q => Decimal.exactValue? x == some q

/-- Whether the first number is less than the second; an infinity compares with any fraction as
with zero. -/
def less : Number → Number → Bool
  | exact p, exact q => p < q
  | approx x, approx y => x < y
  | exact q, approx x =>
    match Decimal.exactValue? x with
    | some r => q < r
    | none => 0 < x
  | approx x, exact q =>
    match Decimal.exactValue? x with
    | some r => r < q
    | none => x < 0

/-- Whether a number is zero. -/
def isZero (a : Number) : Bool :=
  a.equals (ofInt 0)

/-- Whether a number is one. -/
def isOne (a : Number) : Bool :=
  a.equals (ofInt 1)

/-- Whether a number is minus one. -/
def isMinusOne (a : Number) : Bool :=
  a.equals (ofInt (-1))

/-- Whether a number is one half. -/
def isHalf (a : Number) : Bool :=
  a.equals half

/-- Whether a number is below zero. -/
def isNegative : Number → Bool
  | exact q => q < 0
  | approx x => x < 0

/-- Whether a number is above zero. -/
def isPositive : Number → Bool
  | exact q => 0 < q
  | approx x => 0 < x

/-- The value of a number as a fraction; infinities and not-a-number have none. -/
def toRat? : Number → Option Rat
  | exact q => some q
  | approx x => Decimal.exactValue? x

/-- The value of a number that is whole. -/
def toInt? (a : Number) : Option Int :=
  match a.toRat? with
  | some q => if q.den = 1 then some q.num else none
  | none => none

/-- Whether a number is whole. -/
def isInteger (a : Number) : Bool :=
  a.toInt?.isSome

/-! ## Arithmetic -/

/-- The opposite of a number. -/
def neg : Number → Number
  | exact q => exact (-q)
  | approx x => approx (-x)

/-- The double nearest to a number. -/
def toDouble : Number → Except Fault Float
  | exact q =>
    match Decimal.nearest? q with
    | some x => .ok x
    | none => .error .tooLarge
  | approx x => .ok x

/-- Applies an operation to two fractions exactly, and to any other two numbers as doubles. -/
def combine (onRat : Rat → Rat → Rat) (onDouble : Float → Float → Float) :
    Number → Number → Except Fault Number
  | exact p, exact q => .ok (exact (onRat p q))
  | a, b => do
    let x ← a.toDouble
    let y ← b.toDouble
    return approx (onDouble x y)

/-- The sum of two numbers. -/
def add : Number → Number → Except Fault Number :=
  combine (· + ·) (· + ·)

/-- The product of two numbers. -/
def mul : Number → Number → Except Fault Number :=
  combine (· * ·) (· * ·)

/-- Replaces a double by the fraction it stands for where that is whole or has a denominator of
at most sixteen. -/
def canonical : Number → Number
  | exact q => exact q
  | approx x =>
    match Decimal.exactValue? x with
    | some q => if q.den ≤ 16 then exact q else approx x
    | none => approx x

/-! ## Text -/

/-- A whole number in decimal. -/
def intText (n : Int) : List Char :=
  if n < 0 then '-' :: Decimal.digits n.natAbs else Decimal.digits n.natAbs

/-- A fraction as a quotient of whole numbers; a denominator of one is left out. -/
def ratText (q : Rat) : List Char :=
  if q.den = 1 then intText q.num else intText q.num ++ '/' :: Decimal.digits q.den

/-- Writes a whole number, if it has no more digits than are allowed. -/
def writeInt (limit : DigitLimit) (n : Int) : Except Fault (List Char) := do
  limit.check (Decimal.digits n.natAbs).length none
  return intText n

/-- Writes a fraction, its numerator first. -/
def writeRat (limit : DigitLimit) (q : Rat) : Except Fault (List Char) :=
  if q.den = 1 then writeInt limit q.num
  else do
    let top ← writeInt limit q.num
    let bottom ← writeInt limit q.den
    return top ++ '/' :: bottom

/-- The text of a number. A double is written as a whole number if it is one, else by its
shortest decimal, and as an exact quotient where that decimal would need an exponent. -/
def text (limit : DigitLimit) : Number → Except Fault (List Char)
  | exact q => writeRat limit q
  | approx x =>
    match Decimal.Parts.ofDouble? x with
    | none => .error (if x.isNaN then .notANumber else .tooLarge)
    | some p =>
      let q := p.value
      let short := p.shortestText
      if q.den = 1 || short.contains 'e' then writeRat limit q else .ok short

end Number

end AlgebraicForm
