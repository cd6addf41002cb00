import AlgebraicForm.Answer.Form
import AlgebraicForm.Fingerprint
import AlgebraicForm.Symbolic.Certificate

/-!
# Comparing two answers

Two answers are compared in stages, and the first stage that can decide does: their forms, their
stripped forms, their numeric fingerprints, and at last a symbolic certificate. Equal forms and a
certificate accept, different fingerprints refuse, and so does a missing certificate.

The last two stages are a parameter, `Evidence`, with `Evidence.standard` for sampling with doubles
and certifying rational functions.
-/

namespace AlgebraicForm

/-- One of two answers. -/
inductive Side where
  | first
  | second
  deriving DecidableEq, Repr

/-- The outcome of a comparison. -/
inductive Verdict where
  | unreadable (side : Side) (error : ParseError)
  | sameForm
  | sameStrippedForm
  | differentValues
  | certified
  | uncertified
  deriving DecidableEq, Repr

namespace Verdict

/-- Whether the answers count as equal. -/
def isEqual : Verdict → Bool
  | sameForm | sameStrippedForm | certified => true
  | unreadable _ _ | differentValues | uncertified => false

/-- The name of the stage that decided. -/
def stage : Verdict → String
  | unreadable _ _ => "parse"
  | sameForm => "form"
  | sameStrippedForm => "strip"
  | differentValues => "fingerprint"
  | certified | uncertified => "symbolic"

/-- The wording of a verdict. -/
def message : Verdict → String
  | unreadable .first e => "first input: " ++ e.message
  | unreadable .second e => "second input: " ++ e.message
  | sameForm => "canonical forms match"
  | sameStrippedForm => "canonical forms match after stripping signs"
  | differentValues => "values differ on the sample grid"
  | certified => "simplify(f-g)==0"
  | uncertified => "no symbolic certificate"

end Verdict

/-- How answers are told apart or certified equal when their forms differ. -/
structure Evidence where
  /-- The fingerprint of an expression in these variables. -/
  fingerprint : List String → Expr → Reporting String
  /-- Whether two expressions are certainly equal. -/
  certificate : Expr → Expr → Except Fault Bool

/-- Fingerprints by sampling with doubles, and certificates for rational functions. -/
def Evidence.standard (s : Settings) : Evidence where
  fingerprint := Sampling.double.fingerprint s
  certificate := Symbolic.certificate

/-- The variables of two expressions together. -/
def sharedVariables (s : Settings) (a b : Expr) : List String :=
  Expr.sortNames (a.freeSymbols s ++ b.freeSymbols s)

/-- Whether two expressions have forms of one text. -/
def sameExprForm (s : Settings) (kind : FormKind) (a b : Expr) : Except Fault Bool := do
  let f ← a.form s kind
  let g ← b.form s kind
  return f = g

/-- Compares two expressions. -/
def compareExprs (s : Settings) (evidence : Evidence) (a b : Expr) : Reporting Verdict := do
  if ← Reporting.ofExcept (sameExprForm s .normal a b) then return .sameForm
  if ← Reporting.ofExcept (sameExprForm s .stripped a b) then return .sameStrippedForm
  let names := sharedVariables s a b
  let f ← evidence.fingerprint names a
  let g ← evidence.fingerprint names b
  if f ≠ g then return .differentValues
  if ← Reporting.ofExcept (evidence.certificate a b) then return .certified
  return .uncertified

/-- Compares two texts. The second one is not read if the first one is malformed. -/
def compareTextsWith (s : Settings) (evidence : Evidence) (a b : String) : Reporting Verdict := do
  match ← readText s a with
  | .error e => return .unreadable .first e
  | .ok f =>
    match ← readText s b with
    | .error e => return .unreadable .second e
    | .ok g => compareExprs s evidence f g

/-- Compares two texts with the standard evidence. -/
def compareTexts (s : Settings) (a b : String) : Reporting Verdict :=
  compareTextsWith s (.standard s) a b

end AlgebraicForm
