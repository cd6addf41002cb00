/-!
# Polynomials

Polynomials with fractions as coefficients, over unknowns that are numbered. A monomial lists the
unknowns that occur, in increasing order, with their positive exponents; a polynomial lists its
monomials in increasing order, with their nonzero coefficients. So the zero polynomial is the
empty one.
-/

namespace AlgebraicForm.Symbolic

/-- Unknowns with their exponents. -/
abbrev Monomial := List (Nat × Nat)

namespace Monomial

/-- The product of two monomials. -/
def mul : Monomial → Monomial → Monomial
  | [], n => n
  | m, [] => m
  | (i, a) :: m, (j, b) :: n =>
    if i < j then (i, a) :: mul m ((j, b) :: n)
    else if j < i then (j, b) :: mul ((i, a) :: m) n
    else (i, a + b) :: mul m n

/-- The order of monomials. -/
def compare : Monomial → Monomial → Ordering
  | [], [] => .eq
  | [], _ :: _ => .lt
  | _ :: _, [] => .gt
  | (i, a) :: m, (j, b) :: n =>
    (Ord.compare i j).then ((Ord.compare a b).then (compare m n))

/-- The exponent of an unknown. -/
def exponent (m : Monomial) (i : Nat) : Nat :=
  (m.lookup i).getD 0

/-- A monomial without an unknown. -/
def erase (m : Monomial) (i : Nat) : Monomial :=
  m.filter fun x => x.1 ≠ i

/-- A power of one unknown. -/
def ofUnknown (i a : Nat) : Monomial :=
  if a = 0 then [] else [(i, a)]

end Monomial

/-- Monomials with their coefficients. -/
abbrev Polynomial := List (Monomial × Rat)

namespace Polynomial

/-- A constant polynomial. -/
def const (c : Rat) : Polynomial :=
  if c = 0 then [] else [([], c)]

/-- An unknown. -/
def unknown (i : Nat) : Polynomial :=
  [([(i, 1)], 1)]

/-- The sum of two polynomials. -/
def add : Polynomial → Polynomial → Polynomial
  | [], q => q
  | p, [] => p
  | (m, c) :: p, (n, d) :: q =>
    match m.compare n with
    | .lt => (m, c) :: add p ((n, d) :: q)
    | .gt => (n, d) :: add ((m, c) :: p) q
    | .eq => if c + d = 0 then add p q else (m, c + d) :: add p q

/-- A polynomial times a monomial with a nonzero coefficient. -/
def scale (m : Monomial) (c : Rat) (p : Polynomial) : Polynomial :=
  (p.map fun x => [(m.mul x.1, c * x.2)]).foldr add []

/-- The product of two polynomials. -/
def mul (p q : Polynomial) : Polynomial :=
  (p.map fun x => scale x.1 x.2 q).foldr add []

/-- The opposite of a polynomial. -/
def neg (p : Polynomial) : Polynomial :=
  p.map fun x => (x.1, -x.2)

/-- A power of a polynomial, by repeated squaring. -/
def pow (p : Polynomial) (k : Nat) : Polynomial :=
  if k = 0 then const 1
  else
    let root := pow p (k / 2)
    let square := mul root root
    if k % 2 = 0 then square else mul p square
termination_by k

/-- The value of a constant polynomial. -/
def const? : Polynomial → Option Rat
  | [] => some 0
  | [([], c)] => some c
  | _ => none

/-- Lowers the powers of an unknown whose square is `1 - c ^ 2`, for another unknown `c`. -/
def lowerSquares (s c : Nat) (p : Polynomial) : Polynomial :=
  let square := add (const 1) [([(c, 2)], -1)]
  (p.map fun x =>
    let a := x.1.exponent s
    scale ((Monomial.ofUnknown s (a % 2)).mul (x.1.erase s)) x.2 (pow square (a / 2))).foldr add []

end Polynomial

end AlgebraicForm.Symbolic
