import AlgebraicForm.Decimal.Fixed
import AlgebraicForm.Digest.Blake2b
import AlgebraicForm.Evaluation
import AlgebraicForm.Report

/-!
# Numeric fingerprints

The fingerprint of an expression is the digest of its values at fixed sample points, each written
with a set number of places. At point `t` the variable number `k` has the grid value number
`2 * t + k`, counted around the grid. Values that are not finite are written `nan`.

The sample is taken in any `Sampling`, an arithmetic whose values can be written.
-/

namespace AlgebraicForm

/-- An arithmetic with a way to write values. -/
structure Sampling (α : Type) extends Arithmetic α where
  /-- A value with this many decimal places; none for a value that is not finite. -/
  write : Int → α → Except Fault (Option (List Char))

namespace Sampling

/-- The unit of the last of `places` decimal places. -/
def lastUnit (places : Int) : Float :=
  Float.pow 10.0 (Float.ofInt (-places))

/-- A double with a number of places; values below half a unit of the last place are zero. -/
def writeDouble (places : Int) (x : Float) : Except Fault (Option (List Char)) :=
  if !x.isFinite then .ok none
  else if (lastUnit places).isInf then .error .tooLarge
  else if places < 0 then .error .negativePlaces
  else
    let x := if x.abs < 0.5 * lastUnit places then 0.0 else x
    .ok ((Decimal.Parts.ofDouble? x).map (Decimal.fixedText places.toNat))

/-- Sampling with doubles. -/
def double : Sampling Float where
  toArithmetic := .double
  write := writeDouble

/-- The values of variables at a point of the sample. -/
def bindings {α : Type} (a : Sampling α) (grid : List Float) (names : List String)
    (point : Nat) : Except Fault (Bindings α) :=
  names.zipIdx.mapM fun (name, k) =>
    match grid[(2 * point + k) % grid.length]? with
    | some x => .ok (name, a.ofDouble x)
    | none => .error .emptyGrid

/-- The text of the value of an expression at a point of the sample. -/
def code {α : Type} (a : Sampling α) (s : Settings) (names : List String) (e : Expr)
    (point : Nat) : Reporting (List Char) := do
  let env ← Reporting.ofExcept (a.bindings s.sampleGrid names point)
  let x ← Reporting.ofExcept (e.value a.toArithmetic s env)
  let written ← Reporting.ofExcept (a.write s.samplePlaces x)
  match written with
  | some text => return text
  | none =>
    Reporting.report (.notFinite point)
    return "nan".toList

/-- The number of points of a sample. -/
def points (s : Settings) : Nat :=
  (max 1 s.samplePoints).toNat

/-- The texts of the values of an expression at all points of the sample. -/
def codes {α : Type} (a : Sampling α) (s : Settings) (names : List String) (e : Expr) :
    Reporting (List (List Char)) :=
  (List.range (points s)).mapM (a.code s names e)

/-- The fingerprint of an expression. -/
def fingerprint {α : Type} (a : Sampling α) (s : Settings) (names : List String) (e : Expr) :
    Reporting String := do
  let texts ← a.codes s names e
  let joined := String.ofList (['|'].intercalate texts)
  return Blake2b.hexText (Blake2b.digest joined.toUTF8.toList)

end Sampling

/-- The symbols of an expression that are not constants. -/
def Expr.freeSymbols (s : Settings) (e : Expr) : List String :=
  e.symbols.filter fun name => (s.constant? name).isNone

/-- The variables over which an expression is sampled when none are named. -/
def Expr.sampleVariables (s : Settings) (e : Expr) : Except Fault (List String) := do
  let _ ← e.parts
  return e.freeSymbols s

end AlgebraicForm
