import AlgebraicForm.Expr.Parser

/-!
# The text of an expression

Expressions are written with as few brackets as their binding strengths allow:

* a subtracted term has a minus sign, and the sign of a product stands in front of it;
* the numeric coefficient of a product comes first, and factors with a negative numeric exponent
  make up a denominator, as in `x/(2y)`; a power one half is a `sqrt`;
* factors stand side by side wherever that reads as the same tokens, and have a `*` between them
  elsewhere (`joinsCleanly`).

Which factors may stand side by side depends on the vocabulary of the reader: `textIn` is the text
for any vocabulary, and `text` the one for the standard vocabulary. The recursion ends because
no step of the printer looks at an expression with more nodes than the one at hand; of the steps
that look at one of the same size, the later ones have a smaller constant in their measure.
-/

namespace AlgebraicForm

/-! ## Binding strength -/

/-- How strongly the outermost operator of a text binds, from the weakest up. -/
inductive Binding where
  | sum
  | product
  | negation
  | power
  | atom
  deriving DecidableEq, Repr

/-- The position of a binding strength, from 1 for sums to 5 for atoms. -/
def Binding.rank : Binding → Nat
  | sum => 1
  | product => 2
  | negation => 3
  | power => 4
  | atom => 5

/-- Weaker or equally strong. -/
instance : LE Binding := ⟨fun a b => a.rank ≤ b.rank⟩

/-- Strictly weaker. -/
instance : LT Binding := ⟨fun a b => a.rank < b.rank⟩

instance (a b : Binding) : Decidable (a ≤ b) :=
  inferInstanceAs (Decidable (a.rank ≤ b.rank))

instance (a b : Binding) : Decidable (a < b) :=
  inferInstanceAs (Decidable (a.rank < b.rank))

namespace Expr

/-- Whether an expression is the literal one half. -/
def isHalf : Expr → Bool
  | number v => v.isHalf
  | _ => false

/-- Whether an expression is a literal below zero. -/
def isNegativeNumber : Expr → Bool
  | number v => v.isNegative
  | _ => false

/-- Whether an expression is the literal zero. -/
def isZeroNumber : Expr → Bool
  | number v => v.isZero
  | _ => false

/-- Whether an expression is a sum. -/
def isSum : Expr → Bool
  | sum _ => true
  | _ => false

/-- Whether an expression is a product. -/
def isProduct : Expr → Bool
  | product _ => true
  | _ => false

/-- The binding strength of the text of a number. A double is an atom however it is written. -/
def numberBinding (v : Number) : Binding :=
  if v.isNegative then .negation
  else match v with
  | .exact q => if q.den = 1 then .atom else .product
  | .approx _ => .atom

/-- The binding strength of the text of a power. Zero to a negative power is written as a power,
because a quotient by zero would read back as another expression. -/
def powerBinding (b e : Expr) : Binding :=
  if e.isHalf then .atom
  else if e.isNegativeNumber && !b.isZeroNumber then .product
  else .power

/-- The binding strength of the text of an expression. -/
def binding : Expr → Except Fault Binding
  | number v => .ok (numberBinding v)
  | symbol _ | call _ _ => .ok .atom
  | sum _ => .ok .sum
  | product _ => .ok .product
  | power b e => .ok (powerBinding b e)
  | negation _ => .ok .negation
  | hole => .error (.hole .precedence)

/-! ## Signs -/

/-- The product of the factors that are left when a sign has been taken out. -/
def ofRemaining : List Expr → Expr
  | [] => one
  | [e] => e
  | es => product es

/-- Takes a minus sign out of an expression: the value of the expression is the value of the
magnitude, negated if the flag is set. -/
def splitSign : Expr → Bool × Expr
  | number v => if v.isNegative then (true, number v.neg) else (false, number v)
  | negation e => (true, e)
  | product (number v :: rest) =>
    if v.isNegative then
      (true, ofRemaining (if v.isMinusOne then rest else number v.neg :: rest))
    else (false, product (number v :: rest))
  | product (negation e :: rest) => (true, ofRemaining (e :: rest))
  | e => (false, e)

end Expr

/-! ## Factors side by side -/

section

variable (voc : Vocabulary)

/-- What the tokens of a text mean, its end included. -/
def kinds (text : List Char) : Except Fault (List TokenKind) := do
  let ts ← tokenize voc text
  return ts.map (·.kind)

/-- Whether two texts set side by side read as the tokens of the one followed by the tokens of the
other. Malformed text never joins. -/
def joinsCleanly (left right : List Char) : Except Fault Bool :=
  let joins : Except Fault Bool := do
    let joined ← kinds voc (left ++ right)
    let first ← kinds voc left
    let second ← kinds voc right
    return joined = first.dropLast ++ second
  match joins with
  | .error (.malformed _) => .ok false
  | answer => answer

/-- Writes pieces one after the other, with a `*` before each that would not join cleanly. -/
def juxtapose (text : List Char) : List (List Char) → Except Fault (List Char)
  | [] => .ok text
  | piece :: rest => do
    let clean ← joinsCleanly voc text piece
    juxtapose (text ++ (if clean then piece else '*' :: piece)) rest

end

/-- A text in brackets, if they are needed. -/
def bracketed (needed : Bool) (text : List Char) : List Char :=
  if needed then '(' :: text ++ [')'] else text

/-- The pieces of a quotient, in the order of its factors. -/
structure Pieces where
  numerator : List (List Char)
  denominator : List (List Char)

namespace Pieces

/-- The piece of a whole number, unless that is one. -/
def pieceUnlessOne (limit : DigitLimit) (n : Int) : Except Fault (List (List Char)) :=
  if n = 1 then .ok []
  else do
    let text ← Number.writeInt limit n
    return [text]

/-- The pieces of the coefficient of a product. A numerator or denominator of one is not
written. -/
def ofCoefficient (limit : DigitLimit) : Number → Except Fault Pieces
  | .exact q => do
    let top ← pieceUnlessOne limit q.num
    let bottom ← pieceUnlessOne limit q.den
    return ⟨top, bottom⟩
  | v => do
    let text ← v.text limit
    return ⟨[text], []⟩

/-- The pieces of one product followed by those of another. -/
def append (a b : Pieces) : Pieces :=
  ⟨a.numerator ++ b.numerator, a.denominator ++ b.denominator⟩

/-- Writes a quotient. A denominator of several pieces needs brackets. -/
def text (voc : Vocabulary) (p : Pieces) : Except Fault (List Char) := do
  let top ← match p.numerator with
    | [] => pure ['1']
    | piece :: rest => juxtapose voc piece rest
  match p.denominator with
  | [] => return top
  | [piece] => return top ++ '/' :: piece
  | piece :: rest =>
    let bottom ← juxtapose voc piece rest
    return top ++ '/' :: bracketed true bottom

end Pieces

/-- A minus sign in front of the text of `magnitude`. A sum needs brackets, and so does a product
that starts with one, since the sign would bind to that first factor alone. -/
def minus (magnitude : Expr) (text : List Char) : Except Fault (List Char) := do
  let strength ← magnitude.binding
  return '-' :: bracketed
    (strength ≤ .sum || (magnitude.isProduct && text.head? == some '(')) text

/-! ## Expressions -/

namespace Expr

/-- No expression is empty. -/
theorem size_pos (e : Expr) : 0 < e.size := by
  cases e <;> simp only [size] <;> omega

/-- What is left after taking out a sign is no larger. -/
theorem size_ofRemaining_le (e : Expr) (es : List Expr) :
    (ofRemaining (e :: es)).size ≤ 1 + sizeAll (e :: es) := by
  cases es <;> simp only [ofRemaining, size, sizeAll] <;> omega

/-- The magnitude of an expression is no larger than the expression. -/
theorem size_splitSign_le (e : Expr) : e.splitSign.2.size ≤ e.size := by
  unfold splitSign
  split
  · split <;> simp [size]
  · simp only [size]; omega
  · split
    next v rest _ =>
      split
      · cases rest with
        | nil => simp [ofRemaining, one, size, sizeAll]
        | cons r rs =>
          have := size_ofRemaining_le r rs
          simp only [size, sizeAll] at *
          omega
      · have := size_ofRemaining_le (number v.neg) rest
        simp only [size, sizeAll] at *
        omega
    · simp
  · next e rest =>
    have := size_ofRemaining_le e rest
    simp only [size, sizeAll] at *
    omega
  · simp

section

variable (voc : Vocabulary)

mutual

/-- The text of an expression for a reader with this vocabulary. -/
def textIn : Expr → Except Fault (List Char)
  | number v => v.text voc.digits
  | symbol name => .ok name.toList
  | sum [] => .error .emptySum
  | sum (t :: ts) => do
    let strength ← t.binding
    let first ← textIn t
    let later ← laterTerms ts
    return bracketed (strength ≤ .sum) first ++ later
  | product [] => .error .emptyProduct
  | product (number v :: rest) =>
    if v.isNegative then
      if v.isMinusOne then
        match rest with
        | [] => .ok ['-', '1']
        | [e] => do
          let inner ← textIn e
          minus e inner
        | es => do
          let inner ← textIn (product es)
          minus (product es) inner
      else
        match rest with
        | [] => do
          let inner ← v.neg.text voc.digits
          return '-' :: inner
        | es => do
          let inner ← quotient v.neg es
          minus (product (number v.neg :: es)) inner
    else quotient v rest
  | product (negation e :: rest) =>
    match rest with
    | [] => do
      let inner ← textIn e
      minus e inner
    | es => do
      let inner ← textIn (product (e :: es))
      minus (product (e :: es)) inner
  | product es => do
    let pieces ← factorPieces es
    pieces.text voc
  | power b e =>
    if e.isHalf then do
      let inner ← textIn b
      return "sqrt(".toList ++ inner ++ [')']
    else if e.isNegativeNumber && b.isZeroNumber then do
      let inner ← textIn e
      return "0^(".toList ++ inner ++ [')']
    else
      match e with
      | number v =>
        if v.isNegative then do
          let bottom ← denominator b v.neg
          return '1' :: '/' :: bottom
        else raised b (number v)
      | e => raised b e
  | negation e => do
    let inner ← textIn e
    let strength ← e.binding
    return '-' :: bracketed
      (strength ≤ .sum || strength = .negation || (e.isProduct && inner.head? == some '(')) inner
  | call name es => do
    let inner ← arguments es
    return name.toList ++ '(' :: inner ++ [')']
  | hole => .error (.hole .print)
termination_by e => 8 * e.size
decreasing_by
  all_goals simp only [size, sizeAll]
  all_goals omega

/-- The text of a power with its exponent written as one. -/
def raised (b e : Expr) : Except Fault (List Char) := do
  let baseStrength ← b.binding
  let base ← textIn b
  let exponentStrength ← e.binding
  let exponent ← textIn e
  return bracketed (baseStrength < .atom) base ++
    '^' :: bracketed (exponentStrength < .atom) exponent
termination_by 8 * (b.size + e.size) + 1

/-- The text of the power of `b` to the positive number `v` in a denominator. -/
def denominator (b : Expr) (v : Number) : Except Fault (List Char) :=
  if v.isOne then do
    let strength ← b.binding
    let inner ← textIn b
    return bracketed (strength < .power) inner
  else if v.isHalf then do
    let inner ← textIn b
    return "sqrt(".toList ++ inner ++ [')']
  else do
    let baseStrength ← b.binding
    let base ← textIn b
    let exponent ← v.text voc.digits
    return bracketed (baseStrength < .atom) base
      ++ '^' :: bracketed (numberBinding v < .atom) exponent
termination_by 8 * b.size + 1

/-- The text of a product with the coefficient `v`, which is not negative. -/
def quotient (v : Number) (es : List Expr) : Except Fault (List Char) := do
  let front ← Pieces.ofCoefficient voc.digits v
  let pieces ← factorPieces es
  (front.append pieces).text voc
termination_by 8 * sizeAll es + 4

/-- The pieces of factors. -/
def factorPieces : List Expr → Except Fault Pieces
  | [] => .ok ⟨[], []⟩
  | e :: es => do
    let first ← piece e
    let later ← factorPieces es
    return first.append later
termination_by es => 8 * sizeAll es + 3
decreasing_by
  · simp only [sizeAll]; omega
  · have := e.size_pos
    simp only [sizeAll]
    omega

/-- The piece of one factor: below the line if its exponent is a negative number. -/
def piece (e : Expr) : Except Fault Pieces :=
  match e with
  | power b (number v) =>
    if v.isNegative && !b.isZeroNumber then do
      let bottom ← denominator b v.neg
      return ⟨[], [bottom]⟩
    else numeratorPiece (power b (number v))
  | e => numeratorPiece e
termination_by 8 * e.size + 2
decreasing_by
  · simp only [size]; omega
  · omega
  · omega

/-- The piece of a factor above the line. -/
def numeratorPiece (e : Expr) : Except Fault Pieces := do
  let strength ← e.binding
  let inner ← textIn e
  return ⟨[bracketed (strength < .power) inner], []⟩
termination_by 8 * e.size + 1

/-- The texts of the terms after the first, each with its sign in front. -/
def laterTerms : List Expr → Except Fault (List Char)
  | [] => .ok []
  | t :: ts => do
    let strength ← t.splitSign.2.binding
    let inner ← textIn t.splitSign.2
    let later ← laterTerms ts
    return (if t.splitSign.1 then '-' :: bracketed (strength ≤ .sum || strength = .negation) inner
      else '+' :: bracketed (strength ≤ .sum) inner) ++ later
termination_by ts => 8 * sizeAll ts + 1
decreasing_by
  · have := t.size_splitSign_le
    simp only [sizeAll]
    omega
  · have := t.size_pos
    simp only [sizeAll]
    omega

/-- The texts of arguments, with commas between them. -/
def arguments : List Expr → Except Fault (List Char)
  | [] => .ok []
  | [e] => textIn e
  | e :: es => do
    let first ← textIn e
    let later ← arguments es
    return first ++ ',' :: later
termination_by es => 8 * sizeAll es + 1
decreasing_by
  · simp only [sizeAll]; omega
  · simp only [sizeAll]; omega
  · have := e.size_pos
    simp only [sizeAll]
    omega

end

end

/-- The text of an expression, for a reader with the standard vocabulary. -/
def text (e : Expr) (limit : DigitLimit := .standard) : Except Fault (List Char) :=
  e.textIn (Vocabulary.standard.within limit)

/-- The text of an expression as a string. -/
def print (e : Expr) (limit : DigitLimit := .standard) : Except Fault String := do
  let cs ← e.text limit
  return String.ofList cs

end Expr

end AlgebraicForm
