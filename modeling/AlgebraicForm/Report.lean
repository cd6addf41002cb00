import AlgebraicForm.Fault

/-!
# Reports

Some operations report what they met along the way. A `Reporting` computation may stop at a
fault, and keeps the reports made up to there.
-/

namespace AlgebraicForm

/-- Something worth telling about a computation that goes on. -/
inductive Report where
  /-- A text was malformed. -/
  | malformed (error : ParseError)
  /-- What was given instead of a text, by the name of its type. -/
  | notText (type : String)
  /-- The value at a point of a sample is an infinity or not-a-number. -/
  | notFinite (point : Nat)
  deriving DecidableEq, Repr

/-- The wording of a report. -/
def Report.text : Report → String
  | malformed e => "parse: " ++ e.message ++ "; returning failed result"
  | notText type => "parse: input is not a string (type=" ++ type ++ ")"
  | notFinite point =>
    "numeric_fingerprint: non-finite value at point " ++ toString point ++ "; emitting 'nan'"

/-- A computation that may report and may stop at a fault. -/
abbrev Reporting (α : Type) := ExceptT Fault (StateM (List Report)) α

namespace Reporting

/-- Makes a report. -/
def report (r : Report) : Reporting Unit :=
  modify (· ++ [r])

/-- Goes on with a result, or stops at its fault. -/
def ofExcept {α : Type} (x : Except Fault α) : Reporting α :=
  ExceptT.mk (pure x)

/-- The result of a computation and its reports. -/
def result {α : Type} (x : Reporting α) : Except Fault α × List Report :=
  x.run.run []

end Reporting

end AlgebraicForm
