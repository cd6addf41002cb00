import AlgebraicForm.NormalForm.Builder

/-!
# The normal form

`normalPass` rebuilds an expression from its leaves up: negations become products with minus one,
one-argument square roots become powers one half, and sums, products and powers go through their
builders. A pass can enable another one, so `normalForm` repeats it until nothing changes.
-/

namespace AlgebraicForm

namespace Expr

/-! ## One pass -/

mutual

/-- Rebuilds an expression once. -/
def normalPass (s : Settings) : Expr → Except Fault Expr
  | number v => .ok (number v.canonical)
  | symbol n => .ok (symbol n)
  | negation e => do
    let c ← normalPass s e
    match c with
    | number v => return number v.neg
    | c => s.product [minusOne, c]
  | sum ts => do
    let cs ← normalPassAll s ts
    buildSum s cs
  | product fs => do
    let cs ← normalPassAll s fs
    s.product cs
  | power b e => do
    let base ← normalPass s b
    let exponent ← normalPass s e
    s.power base exponent
  | call name es => do
    let cs ← normalPassAll s es
    match cs with
    | [c] => if name = "sqrt" then s.power c (number .half) else return call name [c]
    | cs => return call name cs
  | hole => .error (.hole .normalize)

/-- Rebuilds several expressions once, in order. -/
def normalPassAll (s : Settings) : List Expr → Except Fault (List Expr)
  | [] => .ok []
  | e :: es => do
    let first ← normalPass s e
    let later ← normalPassAll s es
    return first :: later

end

/-! ## When nothing changes -/

/-- Whether a literal has kept its value. A pass carries not-a-number over as it is, but recomputes
it where it is an operand of a sum or a product, and then it is never the one it was. -/
def keptNumber (recomputed : Bool) (a b : Number) : Bool :=
  match a, b with
  | .approx x, .approx y => x == y || (!recomputed && x.isNaN && y.isNaN)
  | a, b => a.equals b

mutual

/-- Whether a pass has given back the tree it was given; `recomputed` says that the tree is an
operand of a sum or a product. -/
def unchanged (recomputed : Bool) : Expr → Expr → Bool
  | number a, number b => keptNumber recomputed a b
  | symbol m, symbol n => m == n
  | sum es, sum fs => unchangedAll true es fs
  | product es, product fs => unchangedAll true es fs
  | power b e, power c f => unchanged false b c && unchanged false e f
  | negation e, negation f => unchanged false e f
  | call m es, call n fs => m == n && unchangedAll false es fs
  | _, _ => false

/-- The same for several trees, one by one. -/
def unchangedAll (recomputed : Bool) : List Expr → List Expr → Bool
  | [], [] => true
  | e :: es, f :: fs => unchanged recomputed e f && unchangedAll recomputed es fs
  | _, _ => false

end

/-! ## The normal form -/

/-- Repeats passes until one changes nothing, at most `passes` of them. -/
def settle (s : Settings) (e : Expr) : Nat → Except Fault Expr
  | 0 => .error (.unsettled s.maxPasses)
  | passes + 1 => do
    let next ← normalPass s e
    if unchanged false next e then return next else settle s next passes

/-- The normal form of an expression. -/
def normalForm (s : Settings) (e : Expr) : Except Fault Expr :=
  settle s e s.maxPasses.toNat

end Expr

end AlgebraicForm
