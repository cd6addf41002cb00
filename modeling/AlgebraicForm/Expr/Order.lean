import AlgebraicForm.Expr.Printer
import AlgebraicForm.Sorting

/-!
# The order of terms and factors

Operands are sorted by their text, so that the order depends on nothing but the operands:

* terms by the text of their body (the term without its coefficient), then by coefficient;
* factors by the text of their base, then by the text of their exponent;
* between a sum and its negation, the one with fewer negative terms comes first, then the one
  with the smaller text.

Texts compare by code points.
-/

namespace AlgebraicForm

/-! ## Splitting operands -/

namespace Expr

/-- The numeric coefficient of a term and what it multiplies; a constant has no body. -/
def splitCoefficient : Expr → Number × Option Expr
  | number v => (v, none)
  | product (number v :: rest) => (v, some (ofFactors rest))
  | e => (.ofInt 1, some e)

/-- The base and the exponent of a factor. -/
def splitPower : Expr → Expr × Expr
  | power b e => (b, e)
  | e => (e, one)

/-! ## Keys -/

/-- The texts of the base and the exponent of a factor. -/
def factorKey (e : Expr) (limit : DigitLimit := .standard) :
    Except Fault (List Char × List Char) := do
  let base ← e.splitPower.1.text limit
  let exponent ← e.splitPower.2.text limit
  return (base, exponent)

/-- The number of terms of a sum that have a minus sign. -/
def negativeTerms : Expr → Nat
  | sum ts => ts.countP fun t => t.splitSign.1
  | _ => 0

/-- The number of negative terms and the text. -/
def orientationKey (e : Expr) (limit : DigitLimit := .standard) :
    Except Fault (Nat × List Char) := do
  let text ← e.text limit
  return (e.negativeTerms, text)

end Expr

/-! ## Comparing keys -/

/-- Whether the first text is not after the second. -/
def textLe (a b : List Char) : Bool :=
  !(b < a)

/-- Whether a term comes no later than another, by the texts of their bodies and then by their
coefficients. -/
def termLe (a b : List Char × Number) : Bool :=
  if a.1 = b.1 then !b.2.less a.2 else textLe a.1 b.1

/-- Whether a factor comes no later than another, by the texts of their bases and then of their
exponents. -/
def factorLe (a b : List Char × List Char) : Bool :=
  if a.1 = b.1 then textLe a.2 b.2 else textLe a.1 b.1

/-- Whether one orientation of a sum comes strictly before another. -/
def orientationLt (a b : Nat × List Char) : Bool :=
  if a.1 = b.1 then a.2 < b.2 else a.1 < b.1

end AlgebraicForm
