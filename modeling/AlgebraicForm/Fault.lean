/-!
# What can go wrong

`ParseError` is malformed text: a reason, the offset where it shows, and what was expected there.
`Fault` is everything that stops a computation, malformed text included. Both name causes; their
wording is in `ParseError.message` and `Fault.message?` alone.
-/

namespace AlgebraicForm

/-- Why a text is malformed. -/
inductive Reason where
  /-- A second point in a number; `literal` is the number up to it. -/
  | malformedNumber (literal : String)
  | unrecognizedCharacter (c : Char)
  | emptyExpression
  | unmatchedOpen
  | unmatchedClose
  | unexpectedEnd
  | unexpectedToken (lexeme : String)
  | missingOpen (function : String)
  | emptyArguments (function : String)
  /-- What was given is no text at all. -/
  | notText
  deriving DecidableEq, Repr

namespace Reason

/-- Whether the reason lies in the characters rather than in the order of the tokens. -/
def isLexical : Reason → Bool
  | malformedNumber _ | unrecognizedCharacter _ => true
  | _ => false

/-- The wording of a reason. -/
def text : Reason → String
  | malformedNumber literal => "malformed number '" ++ literal ++ ".'"
  | unrecognizedCharacter c => "unrecognized character '" ++ toString c ++ "'"
  | emptyExpression => "empty expression"
  | unmatchedOpen => "unmatched '('"
  | unmatchedClose => "unmatched ')'"
  | unexpectedEnd => "unexpected end of input"
  | unexpectedToken lexeme => "unexpected token '" ++ lexeme ++ "'"
  | missingOpen function => "missing '(' after function '" ++ function ++ "'"
  | emptyArguments function => "empty argument list for '" ++ function ++ "'"
  | notText => "input is not a string"

end Reason

/-- What would have been accepted in place of the offending token. -/
inductive Expected where
  | expression
  | operand
  | openParen
  | closeParen
  | closeParenOrComma
  | endOfInput
  deriving DecidableEq, Repr

/-- The wording of an expectation. -/
def Expected.text : Expected → String
  | expression => "expression"
  | operand => "number, variable, function or '('"
  | openParen => "'('"
  | closeParen => "')'"
  | closeParenOrComma => "')' or ','"
  | endOfInput => "end of input"

/-- The first error of a malformed text. Offsets count code points. -/
structure ParseError where
  reason : Reason
  offset : Nat
  expected : Option Expected
  deriving DecidableEq, Repr

/-- The full wording of a parse error. -/
def ParseError.message (e : ParseError) : String :=
  let place := e.reason.text ++ " at offset " ++ toString e.offset
  match e.expected with
  | none => place
  | some x => place ++ " (expected " ++ x.text ++ ")"

/-- The operations that look inside an expression, as their reports name them. -/
inductive Job where
  | print
  | precedence
  | normalize
  | strip
  | evaluate
  | symbolic
  deriving DecidableEq, Repr

/-- The name under which an operation reports. -/
def Job.label : Job → String
  | print => "print"
  | precedence => "prec"
  | normalize => "normalize"
  | strip => "strip"
  | evaluate => "eval"
  | symbolic => "to_sympy"

/-- Everything that stops a computation. -/
inductive Fault where
  /-- Malformed text. -/
  | malformed (error : ParseError)
  /-- A number starts with a digit that belongs to no decimal notation. -/
  | strayDigit
  /-- A truth value was given as a number. -/
  | truthValue
  /-- An operation met a hole in place of an expression. -/
  | hole (job : Job)
  /-- A hole was asked for its parts, or for the term that it is. -/
  | bareHole
  | emptySum
  | emptyProduct
  /-- Not-a-number has no value to write. -/
  | notANumber
  /-- A whole number has more digits than are allowed in a text. How many it has is only told of one
  that is read. -/
  | tooManyDigits (limit : Nat) (found : Option Nat)
  /-- A fraction or an infinity is beyond the largest finite double. -/
  | tooLarge
  /-- The passes did not settle. -/
  | unsettled (passes : Int)
  | unboundVariable (name : String)
  | unknownFunction (name : String)
  | wrongArity (name : String) (count : Nat)
  /-- The symbolic notation has no such function. -/
  | functionNotAllowed (name : String)
  /-- A sample over an empty grid. -/
  | emptyGrid
  /-- A value cannot be written with fewer than zero places. -/
  | negativePlaces
  /-- A recursion went deeper than the bound computed for it. -/
  | outOfFuel
  deriving DecidableEq, Repr

/-- The wording of a fault. Faults of arithmetic, of stray digits and of bare holes have none. -/
def Fault.message? : Fault → Option String
  | malformed e => some e.message
  | strayDigit | bareHole | tooLarge | emptyGrid => none
  | truthValue => some "Num value must be numeric, not bool"
  | hole job => some (job.label ++ ": unsupported node type object")
  | emptySum => some "print: Add with no terms"
  | emptyProduct => some "print: Mul with no factors"
  | notANumber => some "cannot convert NaN to integer ratio"
  | tooManyDigits limit found =>
    let count := match found with
      | some n => ": value has " ++ toString n ++ " digits"
      | none => ""
    some ("Exceeds the limit (" ++ toString limit ++ " digits) for integer string conversion" ++
      count ++ "; use sys.set_int_max_str_digits() to increase the limit")
  | unsettled passes => some ("normalize: no fixpoint after " ++ toString passes ++ " passes")
  | unboundVariable name => some ("unbound variable '" ++ name ++ "'")
  | unknownFunction name => some ("unknown function '" ++ name ++ "'")
  | wrongArity name count =>
    some ("wrong number of arguments for '" ++ name ++ "': " ++ toString count)
  | functionNotAllowed name => some ("Function not allowed: " ++ name)
  | negativePlaces => some "Format specifier missing precision"
  | outOfFuel => some "recursion bound exceeded"

end AlgebraicForm
