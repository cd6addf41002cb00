import AlgebraicForm.Expr
import AlgebraicForm.Token.Lexer

/-!
# Expressions from tokens

The grammar, from the loosest binding to the tightest:

    expression := term (("+" | "-") term)*
    term       := unary (("*" | "/") unary | power)*
    unary      := ("-" | "+") unary | power
    power      := atom ("^" unary)?
    atom       := number | identifier | "(" expression ")"
                | function "(" expression ("," expression)* ")"

Tokens are taken one at a time by `State.step`. The state holds, for each open bracket, the sum
and the product under construction (`Frame`) and the signs and powers that wait for their operand
(`Pending`); `State.phase` says what may come next. A token that cannot come next is refused on
the spot by `State.refusal`, so an error never depends on what follows it. `Descent` has a function
for each line of the grammar instead, and reads the same.

Subtracting a term adds its negation, dividing by a factor multiplies by its power -1, a plus sign
in front is dropped, and a sum or product of one operand is that operand.
-/

namespace AlgebraicForm

/-! ## Operands that are not complete yet -/

/-- An operator that waits for the operand on its right. -/
inductive Pending where
  | negate
  | raise (base : Expr)

/-- Gives a waiting operator its operand. -/
def Pending.close : Pending → Expr → Expr
  | negate, e => .negation e
  | raise base, e => .power base e

/-- Gives waiting operators their operand, the innermost first. -/
def Pending.closeAll (pending : List Pending) (e : Expr) : Expr :=
  pending.foldl (fun operand p => p.close operand) e

/-- The sum of terms; one term is its own sum. -/
def Expr.ofTerms : List Expr → Expr
  | [e] => e
  | es => .sum es

/-- The product of factors; one factor is its own product. -/
def Expr.ofFactors : List Expr → Expr
  | [e] => e
  | es => .product es

/-- An expression that is being read: its finished terms, the finished factors of its last term,
and the operators that wait for the last operand. Lists grow at the front. -/
structure Frame where
  terms : List Expr
  /-- The term being read is subtracted. -/
  subtracts : Bool
  factors : List Expr
  /-- The factor being read divides. -/
  divides : Bool
  pending : List Pending

namespace Frame

/-- An expression of which nothing is read yet. -/
def start : Frame :=
  ⟨[], false, [], false, []⟩

/-- Adds a waiting operator. -/
def wait (f : Frame) (p : Pending) : Frame :=
  { f with pending := p :: f.pending }

/-- The factor that ends with `operand`. -/
def factor (f : Frame) (operand : Expr) : Expr :=
  let e := Pending.closeAll f.pending operand
  if f.divides then .power e .minusOne else e

/-- The term that ends with `operand`. -/
def term (f : Frame) (operand : Expr) : Expr :=
  let e := Expr.ofFactors (f.factors.reverse ++ [f.factor operand])
  if f.subtracts then .negation e else e

/-- The expression that ends with `operand`. -/
def expression (f : Frame) (operand : Expr) : Expr :=
  Expr.ofTerms (f.terms.reverse ++ [f.term operand])

/-- Goes on to another factor. -/
def nextFactor (f : Frame) (operand : Expr) (divides : Bool) : Frame :=
  { f with factors := f.factor operand :: f.factors, divides := divides, pending := [] }

/-- Goes on to another term. -/
def nextTerm (f : Frame) (operand : Expr) (subtracts : Bool) : Frame :=
  ⟨f.term operand :: f.terms, subtracts, [], false, []⟩

end Frame

/-! ## The state -/

/-- What an open bracket holds: a group, or the arguments of a function read so far, the last one
first. -/
inductive Bracket where
  | group
  | call (name : String) (arguments : List Expr)

/-- An open bracket, where it was opened, and the expression that it is part of. -/
structure Opening where
  bracket : Bracket
  offset : Nat
  outer : Frame

/-- What may come next. -/
inductive Phase where
  /-- An operand, or a sign in front of one. -/
  | operand
  /-- The same, where a closing bracket would leave the function called `lexeme` without
  arguments. -/
  | firstArgument (lexeme : String)
  /-- The bracket that opens the arguments of the function `name`, read as `lexeme`. -/
  | arguments (name lexeme : String)
  /-- An operator or a further factor after the operand `last`, or an end. -/
  | operator (last : Expr)

/-- How far a text has been read. -/
structure State where
  frame : Frame
  openings : List Opening
  phase : Phase

namespace State

/-- Nothing has been read. -/
def start : State :=
  ⟨.start, [], .operand⟩

/-! ## Refused tokens -/

/-- The error for a token that cannot come next. At the end of input an open bracket is reported
instead, the innermost one. -/
def unexpected (s : State) (t : Token) (expected : Expected) : ParseError :=
  match t.kind, s.openings with
  | .endOfInput, o :: _ => ⟨.unmatchedOpen, o.offset, some .closeParen⟩
  | .endOfInput, [] => ⟨.unexpectedEnd, t.offset, some expected⟩
  | .rightParen, [] => ⟨.unmatchedClose, t.offset, none⟩
  | _, _ => ⟨.unexpectedToken t.text, t.offset, some expected⟩

/-- What would end the expression being read. -/
def closing (s : State) : Expected :=
  match s.openings with
  | [] => .endOfInput
  | ⟨.group, _, _⟩ :: _ => .closeParen
  | ⟨.call _ _, _, _⟩ :: _ => .closeParenOrComma

/-- Why a token cannot come next. -/
def refusal (s : State) (t : Token) : ParseError :=
  match s.phase with
  | .arguments _ lexeme => ⟨.missingOpen lexeme, t.offset, some .openParen⟩
  | .firstArgument lexeme =>
    if t.kind = .rightParen then ⟨.emptyArguments lexeme, t.offset, some .expression⟩
    else s.unexpected t .operand
  | .operand => s.unexpected t .operand
  | .operator _ => s.unexpected t s.closing

/-! ## Accepted tokens -/

/-- Goes on with another expectation. -/
def expecting (s : State) (phase : Phase) : State :=
  { s with phase := phase }

/-- Opens a bracket. -/
def openBracket (s : State) (bracket : Bracket) (offset : Nat) (phase : Phase) : State :=
  ⟨.start, ⟨bracket, offset, s.frame⟩ :: s.openings, phase⟩

/-- Takes a token where an operand may start. -/
def beginOperand (s : State) (t : Token) : Except ParseError State :=
  match t.kind with
  | .operator .minus => .ok ⟨s.frame.wait .negate, s.openings, .operand⟩
  | .operator .plus => .ok (s.expecting .operand)
  | .number q => .ok (s.expecting (.operator (.rat q)))
  | .identifier name => .ok (s.expecting (.operator (.symbol name)))
  | .function name => .ok (s.expecting (.arguments name t.text))
  | .leftParen => .ok (s.openBracket .group t.offset .operand)
  | _ => .error (s.refusal t)

/-- Takes a token after the operand `last`. -/
def afterOperand (s : State) (last : Expr) (t : Token) : Except ParseError State :=
  match t.kind with
  | .operator .power => .ok ⟨s.frame.wait (.raise last), s.openings, .operand⟩
  | .operator .times => .ok ⟨s.frame.nextFactor last false, s.openings, .operand⟩
  | .operator .divide => .ok ⟨s.frame.nextFactor last true, s.openings, .operand⟩
  | .operator .plus => .ok ⟨s.frame.nextTerm last false, s.openings, .operand⟩
  | .operator .minus => .ok ⟨s.frame.nextTerm last true, s.openings, .operand⟩
  | .rightParen =>
    match s.openings with
    | ⟨.group, _, outer⟩ :: rest => .ok ⟨outer, rest, .operator (s.frame.expression last)⟩
    | ⟨.call name es, _, outer⟩ :: rest =>
      .ok ⟨outer, rest, .operator (.call name (es.reverse ++ [s.frame.expression last]))⟩
    | [] => .error (s.refusal t)
  | .comma =>
    match s.openings with
    | ⟨.call name es, offset, outer⟩ :: rest =>
      .ok ⟨.start, ⟨.call name (s.frame.expression last :: es), offset, outer⟩ :: rest, .operand⟩
    | _ => .error (s.refusal t)
  | .endOfInput => .error (s.refusal t)
  | _ => { s with frame := s.frame.nextFactor last false }.beginOperand t

/-- Takes one token. -/
def step (s : State) (t : Token) : Except ParseError State :=
  match s.phase with
  | .operand | .firstArgument _ => s.beginOperand t
  | .operator last => s.afterOperand last t
  | .arguments name lexeme =>
    match t.kind with
    | .leftParen => .ok (s.openBracket (.call name []) t.offset (.firstArgument lexeme))
    | _ => .error (s.refusal t)

/-- The expression that has been read when the end of input `stop` comes. -/
def finish (s : State) (stop : Token) : Except ParseError Expr :=
  match s.phase, s.openings with
  | .operator last, [] => .ok (s.frame.expression last)
  | _, _ => .error (s.refusal stop)

/-- Takes tokens up to the end of input. -/
def run (s : State) : List Token → Except ParseError Expr
  | [] => .error ⟨.unexpectedEnd, 0, none⟩
  | t :: ts =>
    if t.kind = .endOfInput then s.finish t
    else do
      let next ← s.step t
      next.run ts

end State

namespace State

/-- The end of input ends the reading, whatever follows it. -/
theorem run_endOfInput (s : State) (text : String) (offset : Nat) (ts : List Token) :
    s.run (⟨.endOfInput, text, offset⟩ :: ts) = s.finish ⟨.endOfInput, text, offset⟩ := by
  simp [run]

/-- A token that can come next is taken, and the reading goes on after it. -/
theorem run_step {s next : State} {t : Token} (ts : List Token) (h : t.kind ≠ .endOfInput)
    (hs : s.step t = .ok next) : s.run (t :: ts) = next.run ts := by
  rw [run, if_neg h, hs]
  rfl

/-- A token that cannot come next ends the reading, whatever follows it. -/
theorem run_refused {s : State} {t : Token} {e : ParseError} (ts : List Token)
    (h : t.kind ≠ .endOfInput) (hs : s.step t = .error e) : s.run (t :: ts) = .error e := by
  rw [run, if_neg h, hs]
  rfl

end State

/-! ## Whole expressions -/

namespace Expr

/-- The expression that a list of tokens denotes, which ends with the end of input. -/
def ofTokens (ts : List Token) : Except ParseError Expr :=
  match ts with
  | ⟨.endOfInput, _, offset⟩ :: _ => .error ⟨.emptyExpression, offset, some .expression⟩
  | _ => State.start.run ts

/-- The expression that a text denotes. -/
def parse (v : Vocabulary) (text : List Char) : Except Fault Expr := do
  let ts ← tokenize v text
  match ofTokens ts with
  | .ok e => return e
  | .error e => throw (.malformed e)

/-- The expression that a string denotes under the settings. -/
def ofString (s : Settings) (text : String) : Except Fault Expr :=
  parse s.vocabulary text.toList

end Expr

end AlgebraicForm
