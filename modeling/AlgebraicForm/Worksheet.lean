import AlgebraicForm.Answer.Form

/-!
# Worksheets

A worksheet works on one expression step by step. Each step makes a new expression from the
current one and shows it; a step that fails leaves the current expression as it is.
-/

namespace AlgebraicForm

/-- A step of a worksheet. Operands are read when the step is taken. -/
inductive Step where
  | set (operand : Answer)
  | normalize
  | strip
  /-- Prints the expression and reads it back. -/
  | reparse
  | negate
  | add (operand : Answer)
  | multiply (operand : Answer)
  /-- Raises the expression to the operand. -/
  | raise (operand : Answer)
  /-- Raises the operand to the expression. -/
  | raiseFrom (operand : Answer)
  | call (name : String)
  | double
  | square

/-- What a step shows: the new expression, its text, and whether it is the one from before. -/
structure Entry where
  result : Expr
  form : String
  same : Bool

namespace Step

/-- The expression that a step makes from the current one. -/
def result (s : Settings) (current : Expr) : Step → Except Fault Expr
  | set x => x.toExpr s
  | normalize => current.normalForm s
  | strip => current.stripped s
  | reparse => do
    let form ← current.print s.digits
    Expr.ofString s form
  | negate => .ok (.negation current)
  | add x => do
    let e ← x.toExpr s
    return .sum [current, e]
  | multiply x => do
    let e ← x.toExpr s
    return .product [current, e]
  | raise x => do
    let e ← x.toExpr s
    return .power current e
  | raiseFrom x => do
    let e ← x.toExpr s
    return .power e current
  | call name => .ok (.call name [current])
  | double => .ok (.sum [current, current])
  | square => .ok (.product [current, current])

/-- Takes a step. -/
def take (s : Settings) (current : Expr) (step : Step) : Except Fault Entry := do
  let next ← step.result s current
  let form ← next.print s.digits
  return ⟨next, form, next.same current⟩

end Step

/-- Takes steps one after the other. A step may be faulty from the start. -/
def runSteps (s : Settings) (current : Expr) :
    List (Except Fault Step) → List (Except Fault Entry)
  | [] => []
  | step :: rest =>
    match step.bind (Step.take s current) with
    | .ok entry => .ok entry :: runSteps s entry.result rest
    | .error fault => .error fault :: runSteps s current rest

/-- The entries of a worksheet that starts from zero. -/
def worksheet (s : Settings) (steps : List (Except Fault Step)) : List (Except Fault Entry) :=
  runSteps s .zero steps

end AlgebraicForm
