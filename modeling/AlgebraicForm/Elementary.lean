/-!
# Elementary functions

The functions that have a value. Some have two names.
-/

namespace AlgebraicForm

/-- A function of one argument; `log10` also takes a base as its second one. -/
inductive Elementary where
  | sin
  | cos
  | tan
  | sec
  | csc
  | cot
  | sinh
  | cosh
  | tanh
  | arcsin
  | arccos
  | arctan
  | ln
  | log10
  | sqrt
  | abs
  | exp
  deriving DecidableEq, Repr

/-- The names of the functions. -/
def Elementary.names : List (String × Elementary) :=
  [("sin", sin), ("cos", cos), ("tan", tan), ("sec", sec), ("csc", csc), ("cot", cot),
    ("sinh", sinh), ("cosh", cosh), ("tanh", tanh), ("arcsin", arcsin), ("arccos", arccos),
    ("arctan", arctan), ("asin", arcsin), ("acos", arccos), ("atan", arctan), ("ln", ln),
    ("log", log10), ("sqrt", sqrt), ("abs", abs), ("exp", exp)]

/-- The function with a name. -/
def Elementary.ofName? (name : String) : Option Elementary :=
  names.lookup name

/-- Whether a function may take this many arguments. -/
def Elementary.takes (f : Elementary) (count : Nat) : Bool :=
  count = 1 || (f = log10 && count = 2)

end AlgebraicForm
