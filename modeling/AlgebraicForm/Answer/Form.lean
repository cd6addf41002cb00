import AlgebraicForm.Report
import AlgebraicForm.SignClass

/-!
# Forms of answers

An answer is a text, or an expression that has been read already. Its form is the text of its
normal form, or of its stripped normal form; an answer that does not read has none.
-/

namespace AlgebraicForm

/-- An answer as it is handed in. -/
inductive Answer where
  | text (value : String)
  | expression (value : Expr)

/-- Which representative of an expression a form shows. -/
inductive FormKind where
  | normal
  | stripped
  deriving DecidableEq, Repr

namespace Expr

/-- The representative of an expression. -/
def representative (s : Settings) : FormKind → Expr → Except Fault Expr
  | .normal, e => e.normalForm s
  | .stripped, e => e.stripped s

/-- The text of the representative of an expression. -/
def form (s : Settings) (kind : FormKind) (e : Expr) : Except Fault String := do
  let r ← e.representative s kind
  r.print s.digits

end Expr

/-- Reads a text. Malformed text is reported and handed back as its error; other faults stop. -/
def readText (s : Settings) (text : String) : Reporting (Except ParseError Expr) :=
  match Expr.ofString s text with
  | .ok e => return .ok e
  | .error (.malformed e) => do
    Reporting.report (.malformed e)
    return .error e
  | .error fault => throw fault

namespace Answer

/-- The expression that an answer stands for; malformed text is a fault and is not reported. -/
def toExpr (s : Settings) : Answer → Except Fault Expr
  | text t => Expr.ofString s t
  | expression e => .ok e

/-- The form of an answer, if it reads. -/
def form? (s : Settings) (kind : FormKind) : Answer → Reporting (Option String)
  | expression e => do
    let f ← Reporting.ofExcept (e.form s kind)
    return some f
  | text t => do
    let read ← readText s t
    match read with
    | .error _ => return none
    | .ok e =>
      let f ← Reporting.ofExcept (e.form s kind)
      return some f

/-- Whether two answers read and have the same form. -/
def sameForm (s : Settings) (kind : FormKind) (a b : Answer) : Reporting Bool := do
  let f ← a.form? s kind
  let g ← b.form? s kind
  match f, g with
  | some f, some g => return f = g
  | _, _ => return false

end Answer

end AlgebraicForm
