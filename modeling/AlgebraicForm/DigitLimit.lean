import AlgebraicForm.Fault

/-!
# The digits of a whole number

Turning a whole number into text, or text into one, takes time that grows faster than the number of
digits. So both are refused to numbers with too many digits. What is computed without text has no
such limit.
-/

namespace AlgebraicForm

/-- How many digits a whole number may have in a text. A bound leaves room for 640 digits. -/
structure DigitLimit where
  /-- The bound, if there is one. -/
  max? : Option Nat
  room : ∀ n ∈ max?, 640 ≤ n

namespace DigitLimit

/-- The default limit. -/
def standard : DigitLimit :=
  ⟨some 4300, fun n hn => by rw [← Option.some.inj hn]; decide⟩

/-- No limit. -/
def unlimited : DigitLimit :=
  ⟨none, nofun⟩

/-- Stops at a number with more digits than are allowed; `found` is what is told of it. -/
def check (limit : DigitLimit) (count : Nat) (found : Option Nat) : Except Fault Unit :=
  match limit.max? with
  | none => .ok ()
  | some n => if count ≤ n then .ok () else .error (.tooManyDigits n found)

end DigitLimit

end AlgebraicForm
