import AlgebraicForm.DigitLimit

/-!
# Settings

The reserved words of the notation, the bounds on literal folding, and the parameters of the
numeric sample. `Settings.standard` is what a reader of ordinary answers uses.
-/

namespace AlgebraicForm

/-- Everything about reading, normalising and comparing that a caller may choose. -/
structure Settings where
  /-- Words that must be followed by an argument list. -/
  functionNames : List String
  /-- Words of several letters that name a single symbol. -/
  symbolNames : List String
  /-- Powers of literals are folded up to this exponent, in absolute value. -/
  maxFoldExponent : Int
  /-- How many passes may look for the normal form. -/
  maxPasses : Int
  /-- How many points a numeric sample has; there is always one. -/
  samplePoints : Int
  /-- The values that the variables of a sample run through. -/
  sampleGrid : List Float
  /-- The number of decimal places of a sampled value. -/
  samplePlaces : Int
  /-- Values of the symbols that are constants. -/
  constants : List (String × Float)
  /-- How many digits a whole number may have where it is read or written. -/
  digits : DigitLimit := .standard

namespace Settings

/-- The default function names. -/
def standardFunctions : List String :=
  ["sin", "cos", "tan", "sec", "csc", "cot", "sinh", "cosh", "tanh", "arcsin", "arccos", "arctan",
    "asin", "acos", "atan", "ln", "log", "sqrt", "abs", "exp"]

/-- The default symbol names. -/
def standardSymbols : List String :=
  ["pi", "theta", "alpha", "beta", "gamma", "delta", "phi", "tau", "omega", "lambda", "sigma",
    "rho", "epsilon"]

/-- The default settings. -/
def standard : Settings where
  functionNames := standardFunctions
  symbolNames := standardSymbols
  maxFoldExponent := 64
  maxPasses := 32
  samplePoints := 8
  sampleGrid := [-2.0, -1.0, -0.5, 0.5, 1.0, 2.0]
  samplePlaces := 6
  constants := [("pi", 3.141592653589793), ("e", 2.718281828459045)]

/-- The value of a constant. -/
def constant? (s : Settings) (name : String) : Option Float :=
  (s.constants.find? fun c => c.1 == name).map (·.2)

end Settings

/-! ## Reserved words -/

/-- Whether one reserved word is tried before another: the longer first, and words of one length
in code point order. -/
def triedBefore (a b : String) : Bool :=
  if a.length = b.length then a ≤ b else b.length < a.length

/-- Puts a word in its place among words in the order of `triedBefore`, unless it is there. -/
def insertWord (word : String) : List String → List String
  | [] => [word]
  | other :: rest =>
    if word = other then other :: rest
    else if triedBefore word other then word :: other :: rest
    else other :: insertWord word rest

/-- Function and symbol names without repetition, in the order in which they are tried. -/
def Settings.reservedWords (s : Settings) : List String :=
  (s.functionNames ++ s.symbolNames).foldr insertWord []

/-- The words that a reader of text knows, in the order in which they are tried, and how many digits
a number may have for this reader. -/
structure Vocabulary where
  words : List String
  functions : List String
  digits : DigitLimit

/-- The vocabulary of the settings. -/
def Settings.vocabulary (s : Settings) : Vocabulary :=
  ⟨s.reservedWords, s.functionNames, s.digits⟩

/-- The vocabulary of the default settings. -/
def Vocabulary.standard : Vocabulary :=
  Settings.standard.vocabulary

/-- The same settings with another limit for the digits of numbers. -/
def Settings.within (s : Settings) (limit : DigitLimit) : Settings :=
  { s with digits := limit }

/-- The same words with another limit for the digits of numbers. -/
def Vocabulary.within (v : Vocabulary) (limit : DigitLimit) : Vocabulary :=
  { v with digits := limit }

theorem Settings.vocabulary_within (s : Settings) (limit : DigitLimit) :
    (s.within limit).vocabulary = s.vocabulary.within limit :=
  rfl

/-- Inserting a word adds it and nothing else. -/
theorem mem_insertWord {w word : String} {ws : List String} :
    w ∈ insertWord word ws ↔ w = word ∨ w ∈ ws := by
  induction ws with
  | nil => simp [insertWord]
  | cons other rest ih =>
    unfold insertWord
    split
    · simp_all
    · split <;> simp_all [or_left_comm]

/-- The reserved words are the function names and the symbol names. -/
theorem Settings.mem_reservedWords {s : Settings} {w : String} :
    w ∈ s.reservedWords ↔ w ∈ s.functionNames ∨ w ∈ s.symbolNames := by
  rw [← List.mem_append, reservedWords]
  induction s.functionNames ++ s.symbolNames with
  | nil => simp
  | cons word rest ih => simp [mem_insertWord, ih]

end AlgebraicForm
