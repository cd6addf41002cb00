import AlgebraicForm.Decimal.Shortest
import AlgebraicForm.Symbolic.Polynomial
import AlgebraicForm.Symbolic.Term

/-!
# Symbolic certificates

Two terms are certified equal when their difference is zero as a rational function with rational
coefficients. Its unknowns are the symbols, the constants `pi` and `e`, and every function
application or power that is not a whole power; of these, sines and cosines of one argument are
related by the sum of their squares. A term that divides by zero has no certificate.
-/

namespace AlgebraicForm.Symbolic

namespace Term

/-- The whole number that a fraction is. -/
def whole? (q : Rat) : Option Int :=
  if q.den = 1 then some q.num else none

/-- The fraction that a double stands for in a symbolic comparison: its shortest decimal. -/
def decimalValue? (x : Float) : Option Rat :=
  (Decimal.Parts.ofDouble? x).map fun p =>
    let d := if p.significand = 0 then 0 else (Decimal.shortest p).value
    if p.negative then -d else d

end Term

/-- A quotient of polynomials, with a denominator that is not zero. -/
structure Quotient where
  numerator : Polynomial
  denominator : Polynomial

namespace Quotient

/-- A polynomial as a quotient. -/
def ofPolynomial (p : Polynomial) : Quotient :=
  ⟨p, .const 1⟩

/-- The sum of two quotients. -/
def add (a b : Quotient) : Quotient :=
  if a.denominator == b.denominator then ⟨a.numerator.add b.numerator, a.denominator⟩
  else ⟨(a.numerator.mul b.denominator).add (b.numerator.mul a.denominator),
    a.denominator.mul b.denominator⟩

/-- The product of two quotients. -/
def mul (a b : Quotient) : Quotient :=
  ⟨a.numerator.mul b.numerator, a.denominator.mul b.denominator⟩

/-- The opposite of a quotient. -/
def neg (a : Quotient) : Quotient :=
  ⟨a.numerator.neg, a.denominator⟩

/-- The value of a quotient of constants. -/
def const? (a : Quotient) : Option Rat := do
  let n ← a.numerator.const?
  let d ← a.denominator.const?
  return n / d

end Quotient

/-- The unknowns of a comparison, and which of them are a sine and a cosine of one argument. -/
structure Unknowns where
  terms : List Term
  circles : List (Nat × Nat)

namespace Unknowns

/-- The polynomial that a term is as an unknown. -/
def polynomial? (u : Unknowns) (t : Term) : Option Polynomial :=
  (u.terms.findIdx? (· == t)).map Polynomial.unknown

/-- A polynomial with squares of sines replaced. -/
def reduce (u : Unknowns) (p : Polynomial) : Polynomial :=
  u.circles.foldl (fun p c => p.lowerSquares c.1 c.2) p

/-- A whole power of a quotient; there is no negative power of zero. -/
def pow? (u : Unknowns) (a : Quotient) (k : Int) : Option Quotient :=
  let n := a.numerator.pow k.natAbs
  let d := a.denominator.pow k.natAbs
  if 0 ≤ k then some ⟨n, d⟩
  else if (u.reduce a.numerator).isEmpty then none
  else some ⟨d, n⟩

mutual

/-- The rational function that a term is. -/
def quotient? (u : Unknowns) : Term → Option Quotient
  | .rational q => some (.ofPolynomial (.const q))
  | .float x => (Term.decimalValue? x).map fun q => .ofPolynomial (.const q)
  | .sum ts => do
    let qs ← quotients? u ts
    return qs.foldl Quotient.add (.ofPolynomial (.const 0))
  | .product ts => do
    let qs ← quotients? u ts
    return qs.foldl Quotient.mul (.ofPolynomial (.const 1))
  | .power b p =>
    match quotient? u p with
    | none => none
    | some exponent =>
      match exponent.const?.bind Term.whole? with
      | some k => (quotient? u b).bind fun base => u.pow? base k
      | none => (u.polynomial? (.power b p)).map .ofPolynomial
  | t => (u.polynomial? t).map .ofPolynomial

/-- The rational functions that several terms are. -/
def quotients? (u : Unknowns) : List Term → Option (List Quotient)
  | [] => some []
  | t :: ts => do
    let first ← quotient? u t
    let later ← quotients? u ts
    return first :: later

end

/-- Whether the difference of two terms is zero as a rational function. -/
def isZeroDifference (u : Unknowns) (a b : Term) : Bool :=
  match quotient? u a, quotient? u b with
  | some x, some y => (u.reduce (x.add y.neg).numerator).isEmpty
  | _, _ => false

end Unknowns

/-! ## Finding the unknowns -/

mutual

/-- The terms that may have to count as unknowns. -/
def Term.unknowns : Term → List Term
  | .rational _ | .float _ => []
  | .sum ts | .product ts => unknownsAll ts
  | .power b p => .power b p :: (b.unknowns ++ p.unknowns)
  | t => [t]

/-- The unknowns of several terms. -/
def unknownsAll : List Term → List Term
  | [] => []
  | t :: ts => t.unknowns ++ unknownsAll ts

end

/-- The argument of a term that is this function of something. -/
def Term.argument? (f : Elementary) : Term → Option Term
  | .apply g x => if f = g then some x else none
  | _ => none

/-- The unknowns of two terms. A sine without its cosine gets it. -/
def Unknowns.ofTerms (a b : Term) : Unknowns :=
  let found := a.unknowns ++ b.unknowns
  let sines := found.filterMap (Term.argument? .sin)
  let terms := (found ++ sines.map (Term.apply .cos)).eraseDups
  let circles := sines.eraseDups.filterMap fun x =>
    match terms.findIdx? (· == .apply .sin x), terms.findIdx? (· == .apply .cos x) with
    | some s, some c => some (s, c)
    | _, _ => none
  ⟨terms, circles⟩

/-- Whether two terms are certified equal. -/
def certified (a b : Term) : Bool :=
  (Unknowns.ofTerms a b).isZeroDifference a b

/-- The term of one side of a comparison, which is no hole. -/
def sideTerm : Expr → Except Fault Term
  | .hole => .error .bareHole
  | e => Term.ofExpr e

/-- Whether two expressions are certified equal. -/
def certificate (a b : Expr) : Except Fault Bool := do
  let f ← sideTerm a
  let g ← sideTerm b
  return certified f g

end AlgebraicForm.Symbolic
