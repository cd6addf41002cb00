/-!
# Tokens

The words of the notation. A token carries what it means, the text it was read from, and where
that text starts; offsets count code points.
-/

namespace AlgebraicForm

/-- The operators. Each has several spellings in text. -/
inductive Operator where
  | plus
  | minus
  | times
  | divide
  | power
  deriving DecidableEq, Repr

/-- The canonical spelling of an operator. -/
def Operator.symbol : Operator → Char
  | plus => '+'
  | minus => '-'
  | times => '*'
  | divide => '/'
  | power => '^'

/-- What a token means. -/
inductive TokenKind where
  | number (value : Rat)
  | identifier (name : String)
  | function (name : String)
  | operator (op : Operator)
  | leftParen
  | rightParen
  | comma
  | endOfInput
  deriving DecidableEq, Repr

/-- A token with its source text and the offset of that text. -/
structure Token where
  kind : TokenKind
  text : String
  offset : Nat
  deriving DecidableEq, Repr

/-- How messages speak of a token. -/
def Token.describe (t : Token) : String :=
  if t.kind = .endOfInput then "end of input" else "'" ++ t.text ++ "'"

end AlgebraicForm
