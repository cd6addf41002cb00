import AlgebraicForm.Expr.Parser

/-!
# Recursive descent

The grammar of expressions as mutually recursive procedures, one for each of its phrases and one for
each of its repetitions. A procedure takes the offsets of the brackets that are open, the innermost
first, and the tokens that are left. It gives what it has read and the tokens behind that, which are
fewer, so that the calls end. A phrase goes on as long as the next token belongs to it.

`State.run` reads expressions without calls, one token at a time.
-/

namespace AlgebraicForm

/-- What has been read, and the tokens behind it, fewer than `n`. -/
structure Parsed (α : Type) (n : Nat) where
  value : α
  rest : List Token
  shorter : rest.length < n

/-- Another value that has been read by the same tokens. -/
def Parsed.giving {α β : Type} {m n : Nat} (p : Parsed α m) (value : β) (h : m ≤ n) : Parsed β n :=
  ⟨value, p.rest, Nat.lt_of_lt_of_le p.shorter h⟩

namespace Descent

/-- The error where the tokens stop before the end of input. -/
def missingEnd : ParseError :=
  ⟨.unexpectedEnd, 0, none⟩

/-- The error for a token that cannot come next. -/
def unexpected (opens : List Nat) (t : Token) (expected : Expected) : ParseError :=
  match t.kind, opens with
  | .endOfInput, offset :: _ => ⟨.unmatchedOpen, offset, some .closeParen⟩
  | .endOfInput, [] => ⟨.unexpectedEnd, t.offset, some expected⟩
  | .rightParen, [] => ⟨.unmatchedClose, t.offset, none⟩
  | _, _ => ⟨.unexpectedToken t.text, t.offset, some expected⟩

/-- Whether a token starts an atom. -/
def startsAtom : TokenKind → Bool
  | .number _ | .identifier _ | .function _ | .leftParen => true
  | _ => false

/-- Takes a closing bracket. -/
def close (opens : List Nat) (expected : Expected) :
    (ts : List Token) → Except ParseError (Parsed Unit ts.length)
  | [] => .error missingEnd
  | t :: rest =>
    if t.kind = .rightParen then .ok ⟨(), rest, Nat.lt_succ_self _⟩
    else .error (unexpected opens t expected)

/-- Refuses a closing bracket where the arguments of a function start. -/
def requireArgument (lexeme : String) : List Token → Except ParseError Unit
  | [] => .ok ()
  | t :: _ =>
    if t.kind = .rightParen then .error ⟨.emptyArguments lexeme, t.offset, some .expression⟩
    else .ok ()

mutual

/-- `expression := term (("+" | "-") term)*` -/
def expression (opens : List Nat) (ts : List Token) :
    Except ParseError (Parsed Expr ts.length) := do
  let first ← term opens ts
  let all ← moreTerms opens [first.value] first.rest
  return all.giving (Expr.ofTerms all.value) first.shorter
termination_by (ts.length, 5)
decreasing_by
  · exact .right _ (by decide)
  · exact .left _ _ first.shorter

def moreTerms (opens : List Nat) (terms : List Expr) (ts : List Token) :
    Except ParseError (Parsed (List Expr) (ts.length + 1)) :=
  match ts with
  | [] => return ⟨terms, [], Nat.lt_succ_self _⟩
  | t :: rest => do
    if t.kind = .operator .plus then
      let next ← term opens rest
      let all ← moreTerms opens (terms ++ [next.value]) next.rest
      return all.giving all.value (Nat.lt_succ_of_lt (Nat.lt_succ_of_lt next.shorter))
    else if t.kind = .operator .minus then
      let next ← term opens rest
      let all ← moreTerms opens (terms ++ [.negation next.value]) next.rest
      return all.giving all.value (Nat.lt_succ_of_lt (Nat.lt_succ_of_lt next.shorter))
    else return ⟨terms, t :: rest, Nat.lt_succ_self _⟩
termination_by (ts.length, 0)
decreasing_by
  · exact .left _ _ (Nat.lt_succ_self _)
  · exact .left _ _ (Nat.lt_succ_of_lt next.shorter)
  · exact .left _ _ (Nat.lt_succ_self _)
  · exact .left _ _ (Nat.lt_succ_of_lt next.shorter)

/-- `term := unary (("*" | "/") unary | power)*` -/
def term (opens : List Nat) (ts : List Token) : Except ParseError (Parsed Expr ts.length) := do
  let first ← unary opens ts
  let all ← moreFactors opens [first.value] first.rest
  return all.giving (Expr.ofFactors all.value) first.shorter
termination_by (ts.length, 4)
decreasing_by
  · exact .right _ (by decide)
  · exact .left _ _ first.shorter

def moreFactors (opens : List Nat) (factors : List Expr) (ts : List Token) :
    Except ParseError (Parsed (List Expr) (ts.length + 1)) :=
  match ts with
  | [] => return ⟨factors, [], Nat.lt_succ_self _⟩
  | t :: rest => do
    if t.kind = .operator .times then
      let next ← unary opens rest
      let all ← moreFactors opens (factors ++ [next.value]) next.rest
      return all.giving all.value (Nat.lt_succ_of_lt (Nat.lt_succ_of_lt next.shorter))
    else if t.kind = .operator .divide then
      let next ← unary opens rest
      let all ← moreFactors opens (factors ++ [.power next.value .minusOne]) next.rest
      return all.giving all.value (Nat.lt_succ_of_lt (Nat.lt_succ_of_lt next.shorter))
    else if startsAtom t.kind then
      let next ← power opens (t :: rest)
      let all ← moreFactors opens (factors ++ [next.value]) next.rest
      return all.giving all.value (Nat.lt_succ_of_lt next.shorter)
    else return ⟨factors, t :: rest, Nat.lt_succ_self _⟩
termination_by (ts.length, 3)
decreasing_by
  · exact .left _ _ (Nat.lt_succ_self _)
  · exact .left _ _ (Nat.lt_succ_of_lt next.shorter)
  · exact .left _ _ (Nat.lt_succ_self _)
  · exact .left _ _ (Nat.lt_succ_of_lt next.shorter)
  · exact .right _ (by decide)
  · exact .left _ _ next.shorter

/-- `unary := ("-" | "+") unary | power` -/
def unary (opens : List Nat) (ts : List Token) : Except ParseError (Parsed Expr ts.length) :=
  match ts with
  | [] => power opens []
  | t :: rest => do
    if t.kind = .operator .minus then
      let operand ← unary opens rest
      return operand.giving (.negation operand.value) (Nat.le_succ _)
    else if t.kind = .operator .plus then
      let operand ← unary opens rest
      return operand.giving operand.value (Nat.le_succ _)
    else power opens (t :: rest)
termination_by (ts.length, 2)
decreasing_by
  · exact .right _ (by decide)
  · exact .left _ _ (Nat.lt_succ_self _)
  · exact .left _ _ (Nat.lt_succ_self _)
  · exact .right _ (by decide)

/-- `power := atom ("^" unary)?` -/
def power (opens : List Nat) (ts : List Token) : Except ParseError (Parsed Expr ts.length) := do
  let base ← atom opens ts
  match h : base.rest with
  | [] => return base
  | t :: rest =>
    if t.kind = .operator .power then
      let exponent ← unary opens rest
      return exponent.giving (.power base.value exponent.value) (by
        have hrest := h ▸ base.shorter
        exact Nat.le_of_lt (Nat.lt_of_succ_lt hrest))
    else return base
termination_by (ts.length, 1)
decreasing_by
  · exact .right _ (by decide)
  · have hrest := h ▸ base.shorter
    exact .left _ _ (Nat.lt_of_succ_lt hrest)

/-- `atom := number | identifier | "(" expression ")"`
`| function "(" expression ("," expression)* ")"` -/
def atom (opens : List Nat) (ts : List Token) : Except ParseError (Parsed Expr ts.length) :=
  match ts with
  | [] => .error missingEnd
  | t :: rest =>
    match t.kind with
    | .number q => return ⟨.rat q, rest, Nat.lt_succ_self _⟩
    | .identifier name => return ⟨.symbol name, rest, Nat.lt_succ_self _⟩
    | .leftParen => do
      let inner ← group (t.offset :: opens) rest
      return inner.giving inner.value (Nat.le_succ _)
    | .function name => do
      let result ← call opens name t.text rest
      return result.giving result.value (Nat.le_succ _)
    | _ => .error (unexpected opens t .operand)
termination_by (ts.length, 0)
decreasing_by
  · exact .left _ _ (Nat.lt_succ_self _)
  · exact .left _ _ (Nat.lt_succ_self _)

/-- What stands in brackets, up to the closing one. -/
def group (opens : List Nat) (ts : List Token) : Except ParseError (Parsed Expr ts.length) := do
  let inner ← expression opens ts
  let closed ← close opens .closeParen inner.rest
  return closed.giving inner.value (Nat.le_of_lt inner.shorter)
termination_by (ts.length, 6)
decreasing_by
  exact .right _ (by decide)

/-- The arguments of a function, from the bracket behind its name. -/
def call (opens : List Nat) (name lexeme : String) (ts : List Token) :
    Except ParseError (Parsed Expr ts.length) :=
  match ts with
  | [] => .error missingEnd
  | t :: rest => do
    if t.kind = .leftParen then
      requireArgument lexeme rest
      let first ← expression (t.offset :: opens) rest
      let all ← moreArguments (t.offset :: opens) [first.value] first.rest
      let closed ← close (t.offset :: opens) .closeParenOrComma all.rest
      return closed.giving (.call name all.value) (Nat.le_succ_of_le
        (Nat.le_trans (Nat.le_of_lt_succ all.shorter) (Nat.le_of_lt first.shorter)))
    else throw ⟨.missingOpen lexeme, t.offset, some .openParen⟩
termination_by (ts.length, 0)
decreasing_by
  · exact .left _ _ (Nat.lt_succ_self _)
  · exact .left _ _ (Nat.lt_succ_of_lt first.shorter)

def moreArguments (opens : List Nat) (es : List Expr) (ts : List Token) :
    Except ParseError (Parsed (List Expr) (ts.length + 1)) :=
  match ts with
  | [] => return ⟨es, [], Nat.lt_succ_self _⟩
  | t :: rest => do
    if t.kind = .comma then
      let next ← expression opens rest
      let all ← moreArguments opens (es ++ [next.value]) next.rest
      return all.giving all.value (Nat.lt_succ_of_lt (Nat.lt_succ_of_lt next.shorter))
    else return ⟨es, t :: rest, Nat.lt_succ_self _⟩
termination_by (ts.length, 0)
decreasing_by
  · exact .left _ _ (Nat.lt_succ_self _)
  · exact .left _ _ (Nat.lt_succ_of_lt next.shorter)

end

/-- The expression that has been read, if the end of input is behind it. -/
def finish {n : Nat} (p : Parsed Expr n) : Except ParseError Expr :=
  match p.rest with
  | [] => .error missingEnd
  | t :: _ => if t.kind = .endOfInput then .ok p.value else .error (unexpected [] t .endOfInput)

/-- The expression that a list of tokens denotes, which ends with the end of input. -/
def parse (ts : List Token) : Except ParseError Expr :=
  match ts with
  | ⟨.endOfInput, _, offset⟩ :: _ => .error ⟨.emptyExpression, offset, some .expression⟩
  | _ => do finish (← expression [] ts)

end Descent

end AlgebraicForm
