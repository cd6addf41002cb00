import AlgebraicForm.Elementary
import AlgebraicForm.Expr
import AlgebraicForm.Settings

/-!
# Values of expressions

An expression has a value in any `Arithmetic`, given values for its symbols. Operands are taken
from left to right, sums start from zero and products from one. `Arithmetic.double` computes with
doubles, where division by zero and arguments outside a domain give infinities or not-a-number.
-/

namespace AlgebraicForm

/-- The operations that evaluation needs. -/
structure Arithmetic (α : Type) where
  ofNumber : Number → Except Fault α
  ofDouble : Float → α
  zero : α
  one : α
  add : α → α → α
  mul : α → α → α
  pow : α → α → α
  neg : α → α
  apply : Elementary → α → α
  /-- The logarithm of the first to the base of the second. -/
  log : α → α → α

namespace Arithmetic

/-- An elementary function of a double. -/
def applyDouble : Elementary → Float → Float
  | .sin, x => x.sin
  | .cos, x => x.cos
  | .tan, x => x.tan
  | .sec, x => 1.0 / x.cos
  | .csc, x => 1.0 / x.sin
  | .cot, x => 1.0 / x.tan
  | .sinh, x => x.sinh
  | .cosh, x => x.cosh
  | .tanh, x => x.tanh
  | .arcsin, x => x.asin
  | .arccos, x => x.acos
  | .arctan, x => x.atan
  | .ln, x => x.log
  | .log10, x => x.log10
  | .sqrt, x => x.sqrt
  | .abs, x => x.abs
  | .exp, x => x.exp

/-- A power of a double. Reciprocals, square roots and squares are computed as such, so the square
root of a negative zero keeps its sign and that of negative infinity is not a number. -/
def powDouble (x y : Float) : Float :=
  if y == -1.0 then 1.0 / x
  else if y == 0.5 then x.sqrt
  else if y == 2.0 then x * x
  else x.pow y

/-- Arithmetic on doubles. -/
def double : Arithmetic Float where
  ofNumber := Number.toDouble
  ofDouble := id
  zero := 0.0
  one := 1.0
  add := (· + ·)
  mul := (· * ·)
  pow := powDouble
  neg := (- ·)
  apply := applyDouble
  log x b := x.log / b.log

end Arithmetic

/-- Values of symbols; the last one given for a name counts. -/
abbrev Bindings (α : Type) := List (String × α)

/-- The value bound to a name. -/
def Bindings.value? {α : Type} (env : Bindings α) (name : String) : Option α :=
  env.reverse.lookup name

namespace Expr

/-- The value of a symbol: bound by the caller, or else a constant. -/
def lookup {α : Type} (a : Arithmetic α) (s : Settings) (env : Bindings α) (name : String) :
    Except Fault α :=
  match env.value? name with
  | some x => .ok x
  | none =>
    match s.constant? name with
    | some x => .ok (a.ofDouble x)
    | none => .error (.unboundVariable name)

/-- The function with a name, if it may take this many arguments. -/
def elementary (name : String) (count : Nat) : Except Fault Elementary :=
  match Elementary.ofName? name with
  | none => .error (.unknownFunction name)
  | some f => if f.takes count then .ok f else .error (.wrongArity name count)

mutual

/-- The value of an expression. -/
def value {α : Type} (a : Arithmetic α) (s : Settings) (env : Bindings α) : Expr → Except Fault α
  | number v => a.ofNumber v
  | symbol name => lookup a s env name
  | negation e => do
    let x ← value a s env e
    return a.neg x
  | sum ts => do
    let xs ← values a s env ts
    return xs.foldl a.add a.zero
  | product fs => do
    let xs ← values a s env fs
    return xs.foldl a.mul a.one
  | power b e => do
    let x ← value a s env b
    let y ← value a s env e
    return a.pow x y
  | call name es => do
    let f ← elementary name es.length
    let xs ← values a s env es
    match xs with
    | [x] => return a.apply f x
    | [x, b] => return a.log x b
    | _ => .error (.wrongArity name es.length)
  | hole => .error (.hole .evaluate)

/-- The values of several expressions, in order. -/
def values {α : Type} (a : Arithmetic α) (s : Settings) (env : Bindings α) :
    List Expr → Except Fault (List α)
  | [] => .ok []
  | e :: es => do
    let first ← value a s env e
    let later ← values a s env es
    return first :: later

end

/-- The value of an expression as a double. -/
def evaluate (s : Settings) (env : Bindings Float) (e : Expr) : Except Fault Float :=
  value .double s env e

end Expr

end AlgebraicForm
