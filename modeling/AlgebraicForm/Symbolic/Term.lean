import AlgebraicForm.Elementary
import AlgebraicForm.Expr

/-!
# Symbolic terms

The form in which expressions go to a symbolic comparison: pi and Euler's number are constants, a
negation is a product with minus one, a square root is a power one half, and a logarithm is a
quotient of natural ones. Nothing is evaluated.
-/

namespace AlgebraicForm.Symbolic

/-- A symbolic term. -/
inductive Term where
  | pi
  | euler
  | symbol (name : String)
  | rational (value : Rat)
  | float (value : Float)
  | sum (terms : List Term)
  | product (factors : List Term)
  | power (base exponent : Term)
  | apply (function : Elementary) (argument : Term)
  deriving BEq

namespace Term

/-- The sum of terms; an empty sum is zero, and one term is its own sum. -/
def sumOf : List Term → Term
  | [] => rational 0
  | [t] => t
  | ts => sum ts

/-- The product of factors; an empty product is one, and one factor is its own product. -/
def productOf : List Term → Term
  | [] => rational 1
  | [t] => t
  | ts => product ts

/-- The logarithm of `x` to the base `b`. -/
def logarithm (x b : Term) : Term :=
  product [power (apply .ln b) (rational (-1)), apply .ln x]

/-- A function of arguments. -/
def call? (f : Elementary) : List Term → Option Term
  | [x] =>
    match f with
    | .sqrt => some (power x (rational (mkRat 1 2)))
    | .log10 => some (logarithm x (rational 10))
    | f => some (apply f x)
  | [x, b] => if f = .log10 then some (logarithm x b) else none
  | _ => none

/-- The term of a number. A zero has no sign. -/
def ofNumber : Number → Term
  | .exact q => rational q
  | .approx x => float (if x == 0.0 then 0.0 else x)

/-- The term of a symbol. -/
def ofSymbol (name : String) : Term :=
  if name = "pi" then pi else if name = "e" then euler else symbol name

mutual

/-- The term of an expression. -/
def ofExpr : Expr → Except Fault Term
  | .number v => .ok (ofNumber v)
  | .symbol name => .ok (ofSymbol name)
  | .negation x => do
    let t ← ofExpr x
    return product [rational (-1), t]
  | .sum ts => do
    let us ← ofExprs ts
    return sumOf us
  | .product fs => do
    let us ← ofExprs fs
    return productOf us
  | .power b p => do
    let base ← ofExpr b
    let exponent ← ofExpr p
    return power base exponent
  | .call name xs =>
    match Elementary.ofName? name with
    | none => .error (.functionNotAllowed name)
    | some f => do
      let ts ← ofExprs xs
      match call? f ts with
      | some t => return t
      | none => .error (.wrongArity name xs.length)
  | .hole => .error (.hole .symbolic)

/-- The terms of several expressions, in order. -/
def ofExprs : List Expr → Except Fault (List Term)
  | [] => .ok []
  | x :: xs => do
    let first ← ofExpr x
    let later ← ofExprs xs
    return first :: later

end

end Term

end AlgebraicForm.Symbolic
