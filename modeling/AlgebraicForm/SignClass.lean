import AlgebraicForm.NormalForm

/-!
# Sign classes

Normal forms keep apart expressions that differ only in where their signs stand, such as
`(6x+1)(x-1)` and `(-6x-1)(1-x)`. `splitSigns` takes every sign out of an expression and gives it
as one flag and a body, so that the body stands for all of them:

* a literal gives its sign and keeps its magnitude;
* a product gives the product of the signs of its factors;
* of a sum and its negation, the one that is first in the order of orientations is the body;
* a power with a whole exponent drops an even sign of its base and passes on an odd one;
* arguments of functions get their own sign back.

`stripped` puts the one remaining sign back in front of the body, which keeps the value.
-/

namespace AlgebraicForm

/-- An expression as a body and the sign in front of it. -/
structure Signed where
  negative : Bool
  body : Expr

/-- Puts the sign back. -/
def Signed.rebuild (s : Settings) (p : Signed) : Except Fault Expr :=
  if p.negative then Expr.normalForm s (.product [.minusOne, p.body]) else .ok p.body

namespace Expr

/-- The whole literal that an expression is. -/
def integer? : Expr → Option Int
  | number v => v.toInt?
  | _ => none

/-- Takes the signs out of an expression, to a depth of `fuel`. A sum whose terms collapse to
something else is taken up again as what it has become. -/
def splitSigns (s : Settings) : Nat → Expr → Except Fault Signed
  | 0, _ => .error .outOfFuel
  | fuel + 1, e =>
    match e with
    | number v => .ok (if v.isNegative then ⟨true, number v.neg⟩ else ⟨false, number v⟩)
    | symbol n => .ok ⟨false, symbol n⟩
    | sum ts => do
      let parts ← ts.mapM fun t => do
        let p ← splitSigns s fuel t
        p.rebuild s
      let a ← normalForm s (sum parts)
      match a with
      | sum us => do
        let flipped ← normalForm s (product [minusOne, sum us])
        let flippedKey ← flipped.orientationKey s.digits
        let key ← (sum us).orientationKey s.digits
        return if orientationLt flippedKey key then ⟨true, flipped⟩ else ⟨false, sum us⟩
      | a => splitSigns s fuel a
    | product fs => do
      let parts ← fs.mapM (splitSigns s fuel)
      let body ← normalForm s (product (parts.map (·.body)))
      return ⟨parts.foldl (fun sign p => sign ^^ p.negative) false, body⟩
    | power b p => do
      let base ← splitSigns s fuel b
      let signedExponent ← splitSigns s fuel p
      let exponent ← signedExponent.rebuild s
      match base.negative, exponent.integer? with
      | true, some k => do
        let body ← normalForm s (power base.body exponent)
        return ⟨k % 2 ≠ 0, body⟩
      | _, _ => do
        let b ← base.rebuild s
        let body ← normalForm s (power b exponent)
        return ⟨false, body⟩
    | call name es => do
      let arguments ← es.mapM fun a => do
        let p ← splitSigns s fuel a
        p.rebuild s
      let body ← normalForm s (call name arguments)
      return ⟨false, body⟩
    | negation e => do
      let p ← splitSigns s fuel e
      return ⟨!p.negative, p.body⟩
    | hole => .error (.hole .strip)

/-- A depth for taking the signs out of an expression. -/
def signDepth (e : Expr) : Nat :=
  let n := (e.size + 8) * (e.size + 8)
  n * n

/-- The sign and the body of an expression in normal form. -/
def signed (s : Settings) (e : Expr) : Except Fault Signed :=
  splitSigns s e.signDepth e

/-- The representative of the sign class of an expression. -/
def stripped (s : Settings) (e : Expr) : Except Fault Expr := do
  let c ← normalForm s e
  let p ← signed s c
  let r ← p.rebuild s
  normalForm s r

end Expr

end AlgebraicForm
