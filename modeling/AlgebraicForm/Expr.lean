import AlgebraicForm.Number

/-!
# Expressions

The tree of an answer, as it was read or built: sums and products of any number of operands,
powers, negations and function applications over numbers and symbols. Nothing here is in normal
form. A `hole` is a place that holds no expression; operations that look into one refuse it.
-/

namespace AlgebraicForm

/-- An algebraic expression. -/
inductive Expr where
  | number (value : Number)
  | symbol (name : String)
  | sum (terms : List Expr)
  | product (factors : List Expr)
  | power (base exponent : Expr)
  | negation (operand : Expr)
  | call (name : String) (arguments : List Expr)
  | hole

namespace Expr

/-- A literal fraction. -/
abbrev rat (q : Rat) : Expr :=
  .number (.exact q)

/-- The literals zero, one and minus one. -/
def zero : Expr := rat 0

@[inherit_doc zero]
def one : Expr := rat 1

@[inherit_doc zero]
def minusOne : Expr := rat (-1)

/-! ## Traversal -/

/-- The direct parts of an expression. -/
def children : Expr → List Expr
  | number _ | symbol _ | hole => []
  | sum es | product es | call _ es => es
  | power b e => [b, e]
  | negation e => [e]

mutual

/-- An expression and all its parts, each before its own parts. -/
def walk : Expr → List Expr
  | number v => [number v]
  | symbol n => [symbol n]
  | sum es => sum es :: walkAll es
  | product es => product es :: walkAll es
  | power b e => power b e :: (walk b ++ walk e)
  | negation e => negation e :: walk e
  | call n es => call n es :: walkAll es
  | hole => [hole]

/-- The traversal of several expressions, one after the other. -/
def walkAll : List Expr → List Expr
  | [] => []
  | e :: es => walk e ++ walkAll es

end

/-- Whether an expression is a hole. -/
def isHole : Expr → Bool
  | hole => true
  | _ => false

/-- An expression and all its parts, if there is no hole among them. -/
def parts (e : Expr) : Except Fault (List Expr) :=
  if e.walk.any isHole then .error .bareHole else .ok e.walk

/-- The name of a symbol. -/
def symbolName? : Expr → Option String
  | symbol n => some n
  | _ => none

/-- Inserts a name into names in code point order, unless it is there. -/
def insertName (name : String) : List String → List String
  | [] => [name]
  | other :: rest =>
    if name = other then other :: rest
    else if name < other then name :: other :: rest
    else other :: insertName name rest

/-- Names without repetition, in code point order. -/
def sortNames (names : List String) : List String :=
  names.foldr insertName []

/-- The names of the symbols of an expression, without repetition, in code point order. -/
def symbols (e : Expr) : List String :=
  sortNames (e.walk.filterMap symbolName?)

mutual

/-- The number of nodes. -/
def size : Expr → Nat
  | number _ | symbol _ | hole => 1
  | sum es | product es | call _ es => 1 + sizeAll es
  | power b e => 1 + size b + size e
  | negation e => 1 + size e

/-- The number of nodes of several expressions. -/
def sizeAll : List Expr → Nat
  | [] => 0
  | e :: es => size e + sizeAll es

end

/-- The numeric factor in front of a product, as a literal. -/
def coefficient? : Expr → Option Expr
  | product (number v :: _) => some (number v)
  | _ => none

/-! ## Equality -/

mutual

/-- Whether two expressions are the same tree, with numbers compared by value. A hole is the same
as nothing, and neither is not-a-number. -/
def same : Expr → Expr → Bool
  | number a, number b => a.equals b
  | symbol m, symbol n => m == n
  | sum es, sum fs => sameAll es fs
  | product es, product fs => sameAll es fs
  | power b e, power c f => same b c && same e f
  | negation e, negation f => same e f
  | call m es, call n fs => m == n && sameAll es fs
  | _, _ => false

/-- Whether two lists of expressions are the same, one by one. -/
def sameAll : List Expr → List Expr → Bool
  | [], [] => true
  | e :: es, f :: fs => same e f && sameAll es fs
  | _, _ => false

end

end Expr

end AlgebraicForm
