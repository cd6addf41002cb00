import AlgebraicForm.Expr.Order
import AlgebraicForm.Root
import AlgebraicForm.Settings

/-!
# Building sums, products and powers

Three builders put operands together that are already in normal form, or nearly so:

* `buildSum` flattens sums, adds up the coefficients of equal bodies, drops zeros and sorts;
* `buildProduct` flattens products, multiplies the literals, adds up the exponents of equal bases,
  sorts, and pushes a lone minus sign into a lone sum;
* `buildPower` folds literal powers and exact square roots, and distributes a whole exponent over
  a power or a product.

Products and powers call each other on operands that they have just built. The recursion is cut
off at a depth computed from `weight`, which counts, for each operand, how often an exponent can
still be taken apart; `product` and `power` supply that depth.
-/

namespace AlgebraicForm

/-! ## Collecting equal operands -/

/-- Adds a coefficient to that of the same body, or to zero for a new body at the end. -/
def addCoefficient (body : Expr) (c : Number) :
    List (Expr × Number) → Except Fault (List (Expr × Number))
  | [] => do
    let sum ← (Number.ofInt 0).add c
    return [(body, sum)]
  | (other, d) :: rest =>
    if other.same body then do
      let sum ← d.add c
      return (other, sum) :: rest
    else do
      let rest ← addCoefficient body c rest
      return (other, d) :: rest

/-- Adds an exponent to those of the same base, or a new base at the end. -/
def addExponent (base exponent : Expr) : List (Expr × List Expr) → List (Expr × List Expr)
  | [] => [(base, [exponent])]
  | (other, es) :: rest =>
    if other.same base then (other, es ++ [exponent]) :: rest
    else (other, es) :: addExponent base exponent rest

/-! ## Sums -/

/-- The terms of an expression. -/
def Expr.terms : Expr → List Expr
  | .sum ts => ts
  | e => [e]

/-- The factors of an expression. -/
def Expr.factors : Expr → List Expr
  | .product fs => fs
  | e => [e]

/-- Adds terms to a constant and to the coefficients of bodies. -/
def collectTerms (const : Number) (groups : List (Expr × Number)) :
    List Expr → Except Fault (Number × List (Expr × Number))
  | [] => .ok (const, groups)
  | t :: ts =>
    match t.splitCoefficient with
    | (c, none) => do
      let const ← const.add c
      collectTerms const groups ts
    | (c, some body) => do
      let groups ← addCoefficient body c groups
      collectTerms const groups ts

/-- A term from its coefficient and its body. -/
def scale (c : Number) (body : Expr) : Expr :=
  if c.isOne then body else .product (.number c :: body.factors)

/-- The terms with a nonzero coefficient, each with the key it is sorted by. -/
def keyedTerms (s : Settings) :
    List (Expr × Number) → Except Fault (List ((List Char × Number) × Expr))
  | [] => .ok []
  | (body, c) :: rest =>
    if c.isZero then keyedTerms s rest
    else do
      let key ← body.text s.digits
      let later ← keyedTerms s rest
      return ((key, c), scale c body) :: later

/-- The sum of terms that are in order; an empty sum is zero. -/
def Expr.ofSortedTerms : List Expr → Expr
  | [] => .zero
  | [e] => e
  | es => .sum es

/-- The sum of expressions: like terms are combined, and the constant comes first. -/
def buildSum (s : Settings) (es : List Expr) : Except Fault Expr := do
  let (const, groups) ← collectTerms (.ofInt 0) [] (es.flatMap Expr.terms)
  let keyed ← keyedTerms s groups
  let sorted := (sortBy (fun a b => termLe a.1 b.1) keyed).map (·.2)
  return .ofSortedTerms (if const.isZero then sorted else .number const :: sorted)

/-! ## Products and powers -/

/-- Multiplies the literals among factors and collects the exponents of the other ones by base. -/
def collectFactors (coefficient : Number) (bases : List (Expr × List Expr)) :
    List Expr → Except Fault (Number × List (Expr × List Expr))
  | [] => .ok (coefficient, bases)
  | .number v :: fs => do
    let coefficient ← coefficient.mul v
    collectFactors coefficient bases fs
  | f :: fs => collectFactors coefficient (addExponent f.splitPower.1 f.splitPower.2 bases) fs

/-- Multiplies the literals among factors and appends the other ones. -/
def absorb (coefficient : Number) (factors : List Expr) :
    List Expr → Except Fault (Number × List Expr)
  | [] => .ok (coefficient, factors)
  | .number v :: fs => do
    let coefficient ← coefficient.mul v
    absorb coefficient factors fs
  | f :: fs => absorb coefficient (factors ++ [f]) fs

/-- The sum of the exponents of one base. -/
def mergeExponents (s : Settings) : List Expr → Except Fault Expr
  | [e] => .ok e
  | es => buildSum s es

/-- Factors sorted by their keys. -/
def sortFactors (s : Settings) (fs : List Expr) : Except Fault (List Expr) := do
  let keyed ← fs.mapM fun f => do
    let key ← f.factorKey s.digits
    return (key, f)
  return (sortBy (fun a b => factorLe a.1 b.1) keyed).map (·.2)

/-- The product of a coefficient and sorted factors, at least one. -/
def withCoefficient (c : Number) (fs : List Expr) : Expr :=
  if c.isOne then .ofFactors fs else .product (.number c :: fs)

/-- A power of two fractions that is itself a literal: a whole power within the bound, or an exact
square root. Zero has no negative power. -/
def foldPower? (s : Settings) (b p : Rat) : Option Rat :=
  if p.den = 1 ∧ p.num.natAbs ≤ s.maxFoldExponent ∧ ¬(b = 0 ∧ p.num < 0) then some (b ^ p.num)
  else if p = mkRat 1 2 then sqrt? b
  else none

/-- A power that is decided by its literals alone: by an exponent of zero or one, by a base of one
or zero, or by folding. Zero to the power zero is left as it is. -/
def literalPower? (s : Settings) (b p : Expr) : Option Expr :=
  match b, p with
  | .number v, .number w =>
    if w.isZero then some (if v.isZero then .power b p else .one)
    else if w.isOne then some b
    else if v.isOne then some .one
    else if v.isZero && w.isPositive then some .zero
    else match v, w with
      | .exact x, .exact y => (foldPower? s x y).map Expr.rat
      | _, _ => none
  | _, .number w =>
    if w.isZero then some .one
    else if w.isOne then some b
    else none
  | .number v, _ => if v.isOne then some .one else none
  | _, _ => none

/-- Whether an expression is a whole literal. -/
def Expr.isIntegerNumber : Expr → Bool
  | .number v => v.isInteger
  | _ => false

/-- The powers of collected bases, multiplied into a coefficient and further factors; `power`
builds one of them. -/
def buildBases (s : Settings) (power : Expr → Expr → Except Fault Expr) (coefficient : Number)
    (factors : List Expr) : List (Expr × List Expr) → Except Fault (Number × List Expr)
  | [] => .ok (coefficient, factors)
  | (base, exponents) :: rest => do
    let exponent ← mergeExponents s exponents
    let p ← power base exponent
    let (coefficient, factors) ← absorb coefficient factors p.factors
    buildBases s power coefficient factors rest

mutual

/-- The product of expressions, to a depth of `fuel`. -/
def buildProduct (s : Settings) (fuel : Nat) (es : List Expr) : Except Fault Expr :=
  match fuel with
  | 0 => .error .outOfFuel
  | fuel + 1 => do
    let (coefficient, bases) ← collectFactors (.ofInt 1) [] (es.flatMap Expr.factors)
    if coefficient.isZero then return .zero
    let (coefficient, factors) ← buildBases s (buildPower s fuel) coefficient [] bases
    if coefficient.isZero then return .zero
    let factors ← sortFactors s factors
    match factors with
    | [] => return .number coefficient
    | [.sum ts] =>
      if coefficient.isMinusOne then do
        let negated ← ts.mapM fun t => buildProduct s fuel [.minusOne, t]
        buildSum s negated
      else return withCoefficient coefficient [.sum ts]
    | fs => return withCoefficient coefficient fs

/-- The power of two expressions, to a depth of `fuel`. -/
def buildPower (s : Settings) (fuel : Nat) (b p : Expr) : Except Fault Expr :=
  match fuel with
  | 0 => .error .outOfFuel
  | fuel + 1 =>
    match literalPower? s b p with
    | some e => .ok e
    | none =>
      if p.isIntegerNumber then
        match b with
        | .power base exponent => do
          let exponent ← buildProduct s fuel [exponent, p]
          buildPower s fuel base exponent
        | .product fs => do
          let powers ← fs.mapM fun f => buildPower s fuel f p
          buildProduct s fuel powers
        | b => .ok (.power b p)
      else .ok (.power b p)

end

/-! ## The depth of the recursion -/

mutual

/-- How deep the builders can go into an expression. Literals take no step, a power takes one for
itself and those of its exponent, a product one more for each factor. -/
def Expr.weight : Expr → Nat
  | .number _ => 0
  | .symbol _ | .hole | .negation _ | .call _ _ => 1
  | .sum ts => 1 + flatWeightAll ts
  | .product fs => 1 + weightAll fs
  | .power b e => 1 + b.weight + flatWeight e

/-- The weights of factors, and one step for each. -/
def weightAll : List Expr → Nat
  | [] => 0
  | e :: es => e.weight + 1 + weightAll es

/-- The weight of an expression whose factors are taken apart anyway. -/
def flatWeight : Expr → Nat
  | .number _ => 0
  | .symbol _ | .hole | .negation _ | .call _ _ => 1
  | .sum ts => 1 + flatWeightAll ts
  | .product fs => weightAll fs
  | .power b e => 1 + b.weight + flatWeight e

/-- The weights of terms. -/
def flatWeightAll : List Expr → Nat
  | [] => 0
  | e :: es => flatWeight e + flatWeightAll es

end

/-- A depth that the builders stay below on operands of this weight. -/
def depthBound (weight : Nat) : Nat :=
  (weight + 4) * (weight + 4)

/-- The product of expressions. -/
def Settings.product (s : Settings) (es : List Expr) : Except Fault Expr :=
  buildProduct s (depthBound (weightAll es)) es

/-- The power of two expressions. -/
def Settings.power (s : Settings) (b p : Expr) : Except Fault Expr :=
  buildPower s (depthBound (b.weight + p.weight)) b p

end AlgebraicForm
