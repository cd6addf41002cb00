import AlgebraicForm.Fault
import AlgebraicForm.Settings
import AlgebraicForm.Text.CharClass
import AlgebraicForm.Token

/-!
# Reading tokens

Text is cut into tokens from left to right. Between tokens blanks are skipped; at any other
character `Lexeme.read` decides which token starts there and how many characters it takes:

* a number is a run of decimal digits of any script, with at most one point inside or in front;
* an ASCII letter starts the longest reserved word that fits, or else is an identifier by itself,
  with a subscript `_1` or `_{12}` if one follows;
* operators have the ASCII spellings `+ - * / ^` and `**`, and a few typographic ones.

A lexeme is never empty (`Lexeme.read` counts the characters after its first), so `scan` ends.
-/

namespace AlgebraicForm

/-! ## Numbers -/

/-- The whole number that decimal digits denote, most significant first. -/
def digitsValue (ds : List Char) : Nat :=
  ds.foldl (fun n c => 10 * n + (Text.digitValue? c).getD 0) 0

/-- The fraction that the digits before and after a point denote. -/
def decimalValue (whole fraction : List Char) : Rat :=
  (digitsValue (whole ++ fraction) : Rat) / (10 : Rat) ^ fraction.length

/-- The digits that follow a point, if a point and a digit come next. -/
def fractionDigits : List Char → List Char
  | '.' :: rest => rest.takeWhile Text.isDecimalDigit
  | _ => []

/-- Splits a number off the front of a text, into the digits before and after the point. -/
def splitNumber (cs : List Char) : List Char × List Char :=
  let whole := cs.takeWhile Text.isDecimalDigit
  (whole, fractionDigits (cs.drop whole.length))

/-! ## Words -/

/-- The first of the words that a text starts with. -/
def Vocabulary.longestWord? (v : Vocabulary) (cs : List Char) : Option String :=
  v.words.find? fun w => w ≠ "" && w.toList.isPrefixOf cs

/-- The letters and digits of a subscript and the length of its whole text. Braces must be closed
right after at least one letter or digit. -/
def subscript? : List Char → Option (List Char × Nat)
  | '_' :: '\x7b' :: rest =>
    let inner := rest.takeWhile Text.isSubscriptChar
    match inner, rest.drop inner.length with
    | _ :: _, '\x7d' :: _ => some (inner, inner.length + 3)
    | _, _ => none
  | '_' :: rest =>
    let inner := rest.takeWhile Text.isSubscriptChar
    if inner.isEmpty then none else some (inner, inner.length + 1)
  | _ => none

/-! ## One token -/

/-- Symbols with a letter of their own. -/
def symbolLetter? : Char → Option String
  | 'π' => some "pi"
  | 'θ' => some "theta"
  | _ => none

/-- The operators that are one character. -/
def operator? : Char → Option Operator
  | '+' => some .plus
  | '-' | '−' => some .minus
  | '*' | '×' | '·' | '⋅' => some .times
  | '/' | '÷' => some .divide
  | '^' => some .power
  | _ => none

/-- Brackets and the comma. -/
def punctuation? : Char → Option TokenKind
  | '(' => some .leftParen
  | ')' => some .rightParen
  | ',' => some .comma
  | _ => none

/-- What the reader finds at a character that is not blank: the meaning of the token that starts
there, and the number of characters after its first. -/
structure Lexeme where
  kind : TokenKind
  tail : Nat
  deriving DecidableEq, Repr

namespace Lexeme

/-- Whether a number starts here: at a digit, or at a point before a digit. -/
def startsNumber (c : Char) (rest : List Char) : Bool :=
  Text.isDigit c || (c == '.' && (rest.head?.map Text.isDigit).getD false)

/-- Reads a number. A point that would follow the number makes it malformed; only then the digits in
front of the point and behind it are counted. -/
def number (limit : DigitLimit) (offset : Nat) (cs : List Char) : Except Fault Lexeme :=
  let (whole, fraction) := splitNumber cs
  let length := whole.length + (if fraction.isEmpty then 0 else fraction.length + 1)
  match length with
  | 0 => .error .strayDigit
  | tail + 1 =>
    if (cs.drop length).head? = some '.' then
      .error (.malformed
        ⟨.malformedNumber (String.ofList (cs.take length)), offset + length, none⟩)
    else do
      limit.check whole.length (some whole.length)
      limit.check fraction.length (some fraction.length)
      return ⟨.number (decimalValue whole fraction), tail⟩

/-- Reads a reserved word, or an identifier of one letter and perhaps a subscript. -/
def word (v : Vocabulary) (c : Char) (rest : List Char) : Lexeme :=
  match v.longestWord? (c :: rest) with
  | some w =>
    ⟨if v.functions.contains w then .function w else .identifier w, w.length - 1⟩
  | none =>
    match subscript? rest with
    | some (inner, length) => ⟨.identifier (String.ofList (c :: '_' :: inner)), length⟩
    | none => ⟨.identifier (String.ofList [c]), 0⟩

/-- Reads the token that starts at the character `c`, which is at `offset` and not blank. -/
def read (v : Vocabulary) (offset : Nat) (c : Char) (rest : List Char) : Except Fault Lexeme :=
  if startsNumber c rest then number v.digits offset (c :: rest)
  else match symbolLetter? c with
  | some name => .ok ⟨.identifier name, 0⟩
  | none =>
    if c.isAlpha then .ok (word v c rest)
    else if c = '*' ∧ rest.head? = some '*' then .ok ⟨.operator .power, 1⟩
    else match operator? c with
    | some op => .ok ⟨.operator op, 0⟩
    | none =>
      match punctuation? c with
      | some kind => .ok ⟨kind, 0⟩
      | none => .error (.malformed ⟨.unrecognizedCharacter c, offset, none⟩)

end Lexeme

/-! ## The whole text -/

/-- The tokens of a text that starts at `offset`, and the end of input after them. -/
def scan (v : Vocabulary) (offset : Nat) : List Char → Except Fault (List Token)
  | [] => .ok [⟨.endOfInput, "", offset⟩]
  | c :: rest =>
    if Text.isBlank c then scan v (offset + 1) rest
    else do
      let lexeme ← Lexeme.read v offset c rest
      let text := String.ofList (c :: rest.take lexeme.tail)
      let later ← scan v (offset + 1 + lexeme.tail) (rest.drop lexeme.tail)
      return ⟨lexeme.kind, text, offset⟩ :: later
termination_by cs => cs.length
decreasing_by all_goals simp only [List.length_drop, List.length_cons]; omega

/-- Nothing is left: only the end of input. -/
theorem scan_nil (v : Vocabulary) (offset : Nat) :
    scan v offset [] = .ok [⟨.endOfInput, "", offset⟩] := by
  rw [scan]

/-- A blank is skipped. -/
theorem scan_blank (v : Vocabulary) (offset : Nat) {c : Char} (rest : List Char)
    (h : Text.isBlank c = true) : scan v offset (c :: rest) = scan v (offset + 1) rest := by
  rw [scan, if_pos h]

/-- At any other character one lexeme is read, and the scan goes on after it. -/
theorem scan_lexeme (v : Vocabulary) (offset : Nat) {c : Char} {rest : List Char} {x : Lexeme}
    (h : Text.isBlank c = false) (hx : Lexeme.read v offset c rest = .ok x) :
    scan v offset (c :: rest) =
      (scan v (offset + 1 + x.tail) (rest.drop x.tail)).map
        (⟨x.kind, String.ofList (c :: rest.take x.tail), offset⟩ :: ·) := by
  rw [scan, if_neg (by simp [h]), hx]
  cases hs : scan v (offset + 1 + x.tail) (rest.drop x.tail) <;>
    simp [bind, Except.bind, hs, Except.map, pure, Except.pure]

/-- A lexeme that does not read ends the scan with its fault. -/
theorem scan_fault (v : Vocabulary) (offset : Nat) {c : Char} {rest : List Char} {f : Fault}
    (h : Text.isBlank c = false) (hf : Lexeme.read v offset c rest = .error f) :
    scan v offset (c :: rest) = .error f := by
  rw [scan, if_neg (by simp [h]), hf]
  rfl

/-- Cuts a text into tokens; the last one is the end of input. -/
def tokenize (v : Vocabulary) (text : List Char) : Except Fault (List Token) :=
  scan v 0 text

end AlgebraicForm
