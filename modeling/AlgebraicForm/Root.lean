/-!
# Exact square roots

`isqrt` is the square root of a whole number, rounded down (`isqrt_bounds`). `sqrt?` is the square
root of a fraction where that is a fraction again: a reduced fraction is a square exactly when its
numerator and its denominator are.
-/

namespace AlgebraicForm

/-- The largest whole number whose square is at most `n`. -/
def isqrt (n : Nat) : Nat :=
  if n < 2 then n
  else
    let root := 2 * isqrt (n / 4)
    if (root + 1) * (root + 1) ≤ n then root + 1 else root
termination_by n

/-- `isqrt n` squared does not exceed `n`, and the next square does. -/
theorem isqrt_bounds (n : Nat) :
    isqrt n * isqrt n ≤ n ∧ n < (isqrt n + 1) * (isqrt n + 1) := by
  induction n using isqrt.induct with
  | case1 n h =>
    rw [isqrt, if_pos h]
    obtain rfl | rfl : n = 0 ∨ n = 1 := by omega
    · decide
    · decide
  | case2 n h root fits ih =>
    rw [isqrt, if_neg h]
    have fits' : (2 * isqrt (n / 4) + 1) * (2 * isqrt (n / 4) + 1) ≤ n := fits
    rw [if_pos fits']
    refine ⟨fits', ?_⟩
    have next : (2 * isqrt (n / 4) + 1 + 1) * (2 * isqrt (n / 4) + 1 + 1)
        = 4 * ((isqrt (n / 4) + 1) * (isqrt (n / 4) + 1)) := by grind
    omega
  | case3 n h root fits ih =>
    rw [isqrt, if_neg h]
    have fits' : ¬(2 * isqrt (n / 4) + 1) * (2 * isqrt (n / 4) + 1) ≤ n := fits
    rw [if_neg fits']
    refine ⟨?_, by omega⟩
    have square : 2 * isqrt (n / 4) * (2 * isqrt (n / 4)) =
        4 * (isqrt (n / 4) * isqrt (n / 4)) := by
      grind
    omega

/-- The square root of a fraction that is the square of one. -/
def sqrt? (q : Rat) : Option Rat :=
  if q < 0 then none
  else
    let num := isqrt q.num.toNat
    let den := isqrt q.den
    if num * num = q.num.toNat ∧ den * den = q.den then some (mkRat num den) else none

end AlgebraicForm
