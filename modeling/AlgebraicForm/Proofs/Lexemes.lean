import AlgebraicForm.Expr.Printer
import AlgebraicForm.Proofs.DigitLimit
import Mathlib.Data.List.Find
import Mathlib.Data.List.TakeWhile

/-!
# Reading one token

Which token is read at a character depends on what follows it. `LexemeAt v c rest x` says that the
token `x` starts at the character `c` before `rest`, with one constructor for each kind of token;
`Lexeme.read` finds exactly these (`read_eq_ok_iff`).

* `LexemeAt.tail_le`: a token lies within the text it is read from.
* `LexemeAt.append`: what follows a token matters only up to a character that ends it (`EndsToken`),
  which an operator, a bracket, a comma and a blank do. This needs words that consist of letters
  (`Vocabulary.IsAlphabetic`).
* `length_le_of_longestWord?`: no word that fits is longer than the one that is found.
* `read_eq_error`: why a token does not read.
-/

namespace AlgebraicForm

open Text

/-! ## Characters -/

/-- The separators, with the tokens that they are by themselves. -/
def separatorKinds : List (Char × TokenKind) :=
  [('+', .operator .plus), ('-', .operator .minus), ('*', .operator .times),
    ('/', .operator .divide), ('^', .operator .power), ('(', .leftParen), (')', .rightParen),
    (',', .comma)]

/-- No separator can go on a number, a word or a subscript. -/
theorem separator_classes {d : Char} {k : TokenKind} (h : (d, k) ∈ separatorKinds) :
    isDigit d = false ∧ isDecimalDigit d = false ∧ isSubscriptChar d = false ∧ isBlank d = false ∧
      d.isAlpha = false ∧ d ≠ '.' ∧ d ≠ '_' := by
  have hall : ∀ x ∈ separatorKinds, isDigit x.1 = false ∧ isDecimalDigit x.1 = false ∧
      isSubscriptChar x.1 = false ∧ isBlank x.1 = false ∧ x.1.isAlpha = false ∧ x.1 ≠ '.' ∧
      x.1 ≠ '_' := by decide
  exact hall (d, k) h

/-- No number, word or subscript goes on with the character. -/
structure EndsToken (d : Char) : Prop where
  notDigit : isDigit d = false
  notDecimal : isDecimalDigit d = false
  notSubscript : isSubscriptChar d = false
  notLetter : d.isAlpha = false
  notPoint : d ≠ '.'
  notUnderscore : d ≠ '_'

theorem endsToken_separator {d : Char} {k : TokenKind} (h : (d, k) ∈ separatorKinds) :
    EndsToken d := by
  obtain ⟨hdigit, hdecimal, hsubscript, -, hletter, hpoint, hunderscore⟩ := separator_classes h
  exact ⟨hdigit, hdecimal, hsubscript, hletter, hpoint, hunderscore⟩

/-- A digit that belongs to no decimal notation. -/
def isStray (c : Char) : Bool :=
  isDigit c && !isDecimalDigit c

theorem isStray_of_isDecimalDigit {c : Char} (h : isDecimalDigit c = true) : isStray c = false := by
  simp [isStray, h]

/-- A character between the ranges is in none of them. -/
theorem Ranges.has_eq_false {rs : Ranges} {c : Char}
    (h : ∀ r ∈ rs, c.toNat < r.1 ∨ r.2 < c.toNat) : rs.has c = false := by
  rw [Ranges.has, List.any_eq_false]
  intro r hr
  have := h r hr
  simp only [Bool.and_eq_true, decide_eq_true_eq, not_and, not_le]
  omega

theorem Ranges.exists_of_has {rs : Ranges} {c : Char} (h : rs.has c = true) :
    ∃ r ∈ rs, r.1 ≤ c.toNat ∧ c.toNat ≤ r.2 := by
  obtain ⟨r, hr, hc⟩ := List.any_eq_true.mp h
  exact ⟨r, hr, by simpa using hc⟩

theorem isDecimalDigit_eq_false {c : Char}
    (h : ∀ z ∈ decimalZeros, c.toNat < z ∨ z + 10 ≤ c.toNat) : isDecimalDigit c = false := by
  simp only [isDecimalDigit, digitValue?, Option.isSome_map, List.find?_isSome, Bool.and_eq_true,
    decide_eq_true_eq, not_exists, not_and, not_lt, ← Bool.not_eq_true]
  intro z hz
  have := h z hz
  omega

theorem isStray_of_otherDigitRanges {c : Char} (h : otherDigitRanges.has c = false) :
    isStray c = false := by
  cases hd : isDecimalDigit c <;> simp [isStray, isDigit, hd, h]

theorem isStray_of_lt {c : Char} (h : c.toNat < 128) : isStray c = false := by
  have hranges : ∀ r ∈ otherDigitRanges, 128 ≤ r.1 := by decide
  exact isStray_of_otherDigitRanges
    (Ranges.has_eq_false fun r hr => .inl (h.trans_le (hranges r hr)))

theorem code_of_isAlpha {c : Char} (h : c.isAlpha = true) :
    (65 ≤ c.toNat ∧ c.toNat ≤ 90) ∨ (97 ≤ c.toNat ∧ c.toNat ≤ 122) := by
  obtain hupper | hlower := Bool.or_eq_true_iff.mp h
  · exact .inl (by simpa [UInt32.le_iff_toNat_le] using of_decide_eq_true hupper)
  · exact .inr (by simpa [UInt32.le_iff_toNat_le] using Bool.and_eq_true_iff.mp hlower)

/-- The code points of the letters and the digits lie between those of `0` and `z`. -/
theorem code_of_isAlphanum {c : Char} (h : c.isAlphanum = true) :
    48 ≤ c.toNat ∧ c.toNat ≤ 122 := by
  obtain halpha | hdigit := Bool.or_eq_true_iff.mp h
  · have := code_of_isAlpha halpha
    omega
  · have : 48 ≤ c.toNat ∧ c.toNat ≤ 57 := by
      simpa [UInt32.le_iff_toNat_le] using Bool.and_eq_true_iff.mp hdigit
    omega

theorem isStray_of_isAlphanum {c : Char} (h : c.isAlphanum = true) : isStray c = false :=
  isStray_of_lt (by have := code_of_isAlphanum h; omega)

theorem isStray_of_isBlank {c : Char} (h : isBlank c = true) : isStray c = false := by
  have hdisjoint : ∀ r ∈ blankRanges, ∀ r' ∈ otherDigitRanges, r.2 < r'.1 ∨ r'.2 < r.1 := by decide
  obtain ⟨r, hr, hc⟩ := Ranges.exists_of_has h
  refine isStray_of_otherDigitRanges (Ranges.has_eq_false fun r' hr' => ?_)
  have := hdisjoint r hr r' hr'
  omega

theorem isBlank_of_isAlphanum {c : Char} (h : c.isAlphanum = true) : isBlank c = false := by
  have hranges : ∀ r ∈ blankRanges, r.2 < 48 ∨ 122 < r.1 := by decide
  have hcode := code_of_isAlphanum h
  refine Ranges.has_eq_false fun r hr => ?_
  have := hranges r hr
  omega

/-- A blank ends every token. -/
theorem endsToken_blank {c : Char} (h : isBlank c = true) : EndsToken c := by
  have hdisjoint : ∀ r ∈ blankRanges, ∀ z ∈ decimalZeros, r.2 < z ∨ z + 10 ≤ r.1 := by decide
  have hdecimal : isDecimalDigit c = false := by
    obtain ⟨r, hr, hc⟩ := Ranges.exists_of_has h
    refine isDecimalDigit_eq_false fun z hz => ?_
    have := hdisjoint r hr z hz
    omega
  have hdigit : isDigit c = false := by
    have hstray := isStray_of_isBlank h
    simpa [isStray, hdecimal] using hstray
  have halnum : c.isAlphanum = false :=
    Bool.eq_false_iff.mpr fun htrue => by simp [isBlank_of_isAlphanum htrue] at h
  refine ⟨hdigit, hdecimal, halnum, (Bool.or_eq_false_iff.mp halnum).1, ?_, ?_⟩
  · rintro rfl
    exact absurd h (by decide)
  · rintro rfl
    exact absurd h (by decide)

theorem digitValue?_of_isDigit {c : Char} (h : c.isDigit = true) :
    digitValue? c = some (c.toNat - '0'.toNat) := by
  simp only [Char.isDigit, Bool.and_eq_true, decide_eq_true_eq, ge_iff_le,
    UInt32.le_iff_toNat_le, Char.reduceVal, UInt32.reduceToNat] at h
  have hfirst : (decide (0x30 ≤ c.toNat) && decide (c.toNat < 0x30 + 10)) = true := by
    rw [Bool.and_eq_true, decide_eq_true_eq, decide_eq_true_eq]
    show 48 ≤ c.val.toNat ∧ c.val.toNat < 58
    omega
  have hzeros : decimalZeros = 0x30 :: decimalZeros.tail := rfl
  rw [digitValue?, hzeros, List.find?_cons_of_pos (by exact hfirst)]
  rfl

/-- A letter starts no number, is no symbol with a letter of its own, and is not blank. -/
theorem letter_classes {c : Char} (h : c.isAlpha = true) (rest : List Char) :
    Lexeme.startsNumber c rest = false ∧ symbolLetter? c = none ∧ isBlank c = false := by
  have hzeros : ∀ z ∈ decimalZeros, z + 10 ≤ 65 ∨ 122 < z := by decide
  have halnum : c.isAlphanum = true := by simp [Char.isAlphanum, h]
  have hdecimal : isDecimalDigit c = false := by
    have hcode := code_of_isAlpha h
    refine isDecimalDigit_eq_false fun z hz => ?_
    have := hzeros z hz
    omega
  have hdigit : isDigit c = false := by
    have hstray := isStray_of_isAlphanum halnum
    simpa [isStray, hdecimal] using hstray
  refine ⟨?_, ?_, isBlank_of_isAlphanum halnum⟩
  · have hpoint : c ≠ '.' := by
      rintro rfl
      exact absurd h (by decide)
    simp [Lexeme.startsNumber, hdigit, hpoint]
  · unfold symbolLetter?
    split
    · exact absurd h (by decide)
    · exact absurd h (by decide)
    · rfl

/-! ## Vocabularies -/

/-- The words of the vocabulary are not empty and consist of letters, longer words are tried first,
and functions are words. -/
class Vocabulary.IsAlphabetic (v : Vocabulary) : Prop where
  nonempty : ∀ w ∈ v.words, w ≠ ""
  letters : ∀ w ∈ v.words, ∀ c ∈ w.toList, c.isAlpha = true
  longestFirst : v.words.Pairwise fun a b => b.length ≤ a.length
  functions : ∀ f ∈ v.functions, f ∈ v.words

theorem length_le_of_triedBefore {a b : String} (h : triedBefore a b = true) :
    b.length ≤ a.length := by
  unfold triedBefore at h
  split at h
  · omega
  · exact (of_decide_eq_true h).le

theorem length_le_of_triedBefore_eq_false {a b : String} (h : triedBefore a b = false) :
    a.length ≤ b.length := by
  unfold triedBefore at h
  split at h
  · omega
  · simpa using h

theorem longestFirst_insertWord (word : String) {ws : List String}
    (h : ws.Pairwise fun a b => b.length ≤ a.length) :
    (insertWord word ws).Pairwise fun a b => b.length ≤ a.length := by
  induction ws with
  | nil => simp [insertWord]
  | cons other rest ih =>
    obtain ⟨hother, hrest⟩ := List.pairwise_cons.mp h
    rw [insertWord]
    split
    · exact h
    · split
      next htried =>
        have hword := length_le_of_triedBefore htried
        refine List.pairwise_cons.mpr ⟨fun w hw => ?_, h⟩
        obtain rfl | hw := List.mem_cons.mp hw
        · exact hword
        · exact (hother w hw).trans hword
      next htried =>
        have hword := length_le_of_triedBefore_eq_false (Bool.eq_false_iff.mpr htried)
        refine List.pairwise_cons.mpr ⟨fun w hw => ?_, ih hrest⟩
        obtain rfl | hw := mem_insertWord.mp hw
        · exact hword
        · exact hother w hw

/-- Of the reserved words, the longer ones are tried first. -/
theorem Settings.longestFirst_reservedWords (s : Settings) :
    s.reservedWords.Pairwise fun a b => b.length ≤ a.length := by
  rw [reservedWords]
  induction s.functionNames ++ s.symbolNames with
  | nil => exact .nil
  | cons word rest ih => exact longestFirst_insertWord word ih

/-- Settings whose names are not empty and consist of letters have such a vocabulary. -/
theorem Settings.vocabulary_isAlphabetic {s : Settings}
    (h : ∀ name ∈ s.functionNames ++ s.symbolNames, name ≠ "" ∧
      ∀ c ∈ name.toList, c.isAlpha = true) :
    s.vocabulary.IsAlphabetic where
  nonempty w hw := (h w (List.mem_append.mpr (mem_reservedWords.mp hw))).1
  letters w hw := (h w (List.mem_append.mpr (mem_reservedWords.mp hw))).2
  longestFirst := s.longestFirst_reservedWords
  functions _ hf := mem_reservedWords.mpr (.inl hf)

instance : Vocabulary.standard.IsAlphabetic := by
  have hletters : (Settings.standardFunctions ++ Settings.standardSymbols).all
      (fun w => w.toList.all Char.isAlpha) = true := by decide
  have hnonempty : ∀ w ∈ Settings.standardFunctions ++ Settings.standardSymbols, w ≠ "" := by
    decide
  exact Settings.vocabulary_isAlphabetic fun w hw =>
    ⟨hnonempty w hw, List.all_eq_true.mp (List.all_eq_true.mp hletters w hw)⟩

/-! ## Numbers -/

/-- A run of characters of a class ends at the latest before a character that is not in it. -/
theorem takeWhile_append_cons {p : Char → Bool} {d : Char} (hp : p d = false)
    (cs ds : List Char) : (cs ++ d :: ds).takeWhile p = cs.takeWhile p := by
  induction cs with
  | nil => simp [hp]
  | cons c cs ih => simp [List.takeWhile_cons, ih]

section

variable {d : Char} (hd : EndsToken d)

include hd

theorem startsNumber_append (c : Char) (rest ds : List Char) :
    Lexeme.startsNumber c (rest ++ d :: ds) = Lexeme.startsNumber c rest := by
  cases rest <;> simp [Lexeme.startsNumber, hd.notDigit]

theorem fractionDigits_append (cs ds : List Char) :
    fractionDigits (cs ++ d :: ds) = fractionDigits cs := by
  cases cs with
  | nil =>
    simp only [List.nil_append, fractionDigits]
    split
    next h => exact absurd (List.cons.inj h).1 hd.notPoint
    next => rfl
  | cons c cs =>
    by_cases hc : c = '.'
    · subst hc
      exact takeWhile_append_cons hd.notDecimal cs ds
    · simp [fractionDigits, hc]

/-- A number ends at the latest before such a character. -/
theorem splitNumber_append (cs ds : List Char) :
    splitNumber (cs ++ d :: ds) = splitNumber cs := by
  have hlen : (cs.takeWhile isDecimalDigit).length ≤ cs.length :=
    (List.takeWhile_prefix _).length_le
  simp only [splitNumber, takeWhile_append_cons hd.notDecimal,
    List.drop_append_of_le_length hlen, fractionDigits_append hd]

end

/-- The characters that a number takes. -/
def numberLength (cs : List Char) : Nat :=
  (splitNumber cs).1.length +
    (if (splitNumber cs).2.isEmpty then 0 else (splitNumber cs).2.length + 1)

/-- How the digits before and after a point are written. -/
def numberText (whole fraction : List Char) : List Char :=
  whole ++ if fraction.isEmpty then [] else '.' :: fraction

theorem length_numberText (cs : List Char) :
    (numberText (splitNumber cs).1 (splitNumber cs).2).length = numberLength cs := by
  rw [numberText, numberLength, List.length_append]
  split <;> rfl

/-- The digits of a number are decimal digits. -/
theorem splitNumber_digits (cs : List Char) :
    (∀ a ∈ (splitNumber cs).1, isDecimalDigit a = true) ∧
      ∀ a ∈ (splitNumber cs).2, isDecimalDigit a = true := by
  refine ⟨fun a ha => List.mem_takeWhile_imp ha, fun a ha => ?_⟩
  simp only [splitNumber] at ha
  unfold fractionDigits at ha
  split at ha
  · exact List.mem_takeWhile_imp ha
  · simp at ha

theorem startsWith_fractionDigits (cs : List Char) :
    (if (fractionDigits cs).isEmpty then [] else '.' :: fractionDigits cs) <+: cs := by
  unfold fractionDigits
  split
  next rest =>
    split
    · exact List.nil_prefix
    · exact List.cons_prefix_cons.mpr ⟨rfl, List.takeWhile_prefix _⟩
  next => exact List.nil_prefix

/-- A number is at the front of the text it is read from. -/
theorem startsWith_numberText (cs : List Char) :
    numberText (splitNumber cs).1 (splitNumber cs).2 <+: cs := by
  have hsplit : cs.takeWhile isDecimalDigit ++ cs.drop (cs.takeWhile isDecimalDigit).length = cs :=
    List.prefix_iff_eq_append.mp (List.takeWhile_prefix _)
  have hafter := startsWith_fractionDigits (cs.drop (cs.takeWhile isDecimalDigit).length)
  have hprefix := (List.prefix_append_right_inj (cs.takeWhile isDecimalDigit)).mpr hafter
  rwa [hsplit] at hprefix

theorem numberLength_le (cs : List Char) : numberLength cs ≤ cs.length :=
  length_numberText cs ▸ (startsWith_numberText cs).length_le

theorem take_numberLength (cs : List Char) :
    cs.take (numberLength cs) = numberText (splitNumber cs).1 (splitNumber cs).2 := by
  rw [← length_numberText]
  exact (List.prefix_iff_eq_take.mp (startsWith_numberText cs)).symm

theorem number_chars (cs : List Char) : ∀ a ∈ cs.take (numberLength cs), isStray a = false := by
  obtain ⟨hwhole, hfraction⟩ := splitNumber_digits cs
  rw [take_numberLength, numberText, List.forall_mem_append]
  refine ⟨fun a ha => isStray_of_isDecimalDigit (hwhole a ha), ?_⟩
  split
  next => exact List.forall_mem_nil _
  next =>
    refine List.forall_mem_cons.mpr ⟨by decide, fun a ha => ?_⟩
    exact isStray_of_isDecimalDigit (hfraction a ha)

/-- What is written splits into the same digits again. -/
theorem splitNumber_numberText {whole fraction : List Char}
    (hwhole : ∀ a ∈ whole, isDecimalDigit a = true)
    (hfraction : ∀ a ∈ fraction, isDecimalDigit a = true) :
    splitNumber (numberText whole fraction) = (whole, fraction) := by
  have htake : whole.takeWhile isDecimalDigit = whole := List.takeWhile_eq_self_iff.mpr hwhole
  unfold numberText
  split
  next hempty =>
    obtain rfl := List.isEmpty_iff.mp hempty
    simp [splitNumber, htake, fractionDigits]
  next =>
    have hpoint : isDecimalDigit '.' = false := by decide
    simp [splitNumber, takeWhile_append_cons hpoint, htake, fractionDigits,
      List.takeWhile_eq_self_iff.mpr hfraction]

/-- A number that has a digit starts as numbers do. -/
theorem startsNumber_of_numberLength_pos {c : Char} {rest : List Char}
    (h : 0 < numberLength (c :: rest)) : Lexeme.startsNumber c rest = true := by
  by_cases hc : isDecimalDigit c = true
  · simp [Lexeme.startsNumber, isDigit_of_isDecimalDigit hc]
  · have hwhole : (c :: rest).takeWhile isDecimalDigit = [] := List.takeWhile_cons_of_neg hc
    simp only [numberLength, splitNumber, hwhole, List.length_nil, List.drop_zero] at h
    unfold fractionDigits at h
    split at h
    next heq =>
      -- no digit in front, so the point has one after it
      obtain ⟨rfl, rfl⟩ := List.cons.inj heq
      cases rest with
      | nil => simp at h
      | cons a rest =>
        have ha : isDecimalDigit a = true := by
          by_contra hno
          simp [List.takeWhile_cons_of_neg hno] at h
        simp [Lexeme.startsNumber, isDigit_of_isDecimalDigit ha]
    next => simp at h

/-- The limit allows the digits of a number, in front of its point and behind it. -/
def NumberFits (limit : DigitLimit) (cs : List Char) : Prop :=
  limit.Allows (splitNumber cs).1.length ∧ limit.Allows (splitNumber cs).2.length

theorem number_eq_ok_iff {limit : DigitLimit} {offset : Nat} {cs : List Char} {x : Lexeme} :
    Lexeme.number limit offset cs = .ok x ↔
      numberLength cs = x.tail + 1 ∧ (cs.drop (x.tail + 1)).head? ≠ some '.' ∧
        NumberFits limit cs ∧
        x.kind = .number (decimalValue (splitNumber cs).1 (splitNumber cs).2) := by
  obtain ⟨kind, tail⟩ := x
  unfold Lexeme.number
  simp only []
  split
  next hzero =>
    have hzero : numberLength cs = 0 := hzero
    simp [hzero]
  next n hsucc =>
    have hsucc : numberLength cs = n + 1 := hsucc
    show (if (cs.drop (numberLength cs)).head? = some '.' then _ else _) = _ ↔ _
    rw [hsucc]
    by_cases hpoint : (cs.drop (n + 1)).head? = some '.'
    · simp only [hpoint, ↓reduceIte, reduceCtorEq, false_iff, not_and]
      intro h
      obtain rfl : n = tail := by omega
      simp [hpoint]
    · simp only [hpoint, ↓reduceIte, DigitLimit.check_bind_eq_ok_iff, pure_eq_ok, Except.ok.injEq,
        Lexeme.mk.injEq]
      constructor
      · rintro ⟨hwhole, hfraction, rfl, rfl⟩
        exact ⟨rfl, hpoint, ⟨hwhole, hfraction⟩, rfl⟩
      · rintro ⟨h, _, ⟨hwhole, hfraction⟩, rfl⟩
        exact ⟨hwhole, hfraction, rfl, by omega⟩

/-- Where there are no stray digits, a number that starts has a digit. -/
theorem numberLength_pos {c : Char} {rest : List Char}
    (h : ∀ a ∈ c :: rest, isStray a = false) (hnum : Lexeme.startsNumber c rest = true) :
    0 < numberLength (c :: rest) := by
  have hdecimal : ∀ a ∈ c :: rest, isDigit a = true → isDecimalDigit a = true := by
    intro a ha hdigit
    simpa [isStray, hdigit] using h a ha
  unfold numberLength splitNumber
  simp only [Lexeme.startsNumber, Bool.or_eq_true, Bool.and_eq_true, beq_iff_eq] at hnum
  by_cases hc : isDecimalDigit c = true
  · simp only [List.takeWhile_cons_of_pos hc, List.length_cons]
    omega
  · obtain hdigit | ⟨rfl, hnext⟩ := hnum
    · exact absurd (hdecimal c (by simp) hdigit) hc
    · -- a point in front, so the fraction has a digit
      cases rest with
      | nil => simp at hnext
      | cons a rest =>
        have ha : isDecimalDigit a = true := hdecimal a (by simp) (by simpa using hnext)
        simp [List.takeWhile_cons_of_neg hc, fractionDigits, List.takeWhile_cons_of_pos ha]

/-! ## Words -/

/-- A subscript is a nonempty run of letters and digits, bare or in braces. -/
theorem subscript?_eq_some {cs inner : List Char} {n : Nat} (h : subscript? cs = some (inner, n)) :
    inner ≠ [] ∧ (∀ c ∈ inner, isSubscriptChar c = true) ∧
      ((n = inner.length + 1 ∧ ∃ rest, cs = '_' :: (inner ++ rest)) ∨
        (n = inner.length + 3 ∧ ∃ rest, cs = '_' :: '\x7b' :: (inner ++ '\x7d' :: rest))) := by
  have hclass : ∀ rest : List Char, ∀ c ∈ rest.takeWhile isSubscriptChar,
      isSubscriptChar c = true := fun _ _ => List.mem_takeWhile_imp
  have hsplit : ∀ rest : List Char, rest = rest.takeWhile isSubscriptChar ++
      rest.drop (rest.takeWhile isSubscriptChar).length := fun rest =>
    List.prefix_iff_eq_append.mp (List.takeWhile_prefix _) |>.symm
  unfold subscript? at h
  split at h
  next rest =>
    simp only at h
    split at h
    next a as bs hinner hafter =>
      obtain ⟨rfl, rfl⟩ := Prod.mk.inj (Option.some.inj h)
      refine ⟨by simp [hinner], hclass rest, .inr ⟨rfl, bs, ?_⟩⟩
      rw [← hafter, ← hsplit rest]
    next => simp at h
  next rest _ =>
    simp only [Option.ite_none_left_eq_some, Option.some.injEq, Prod.mk.injEq] at h
    obtain ⟨hne, rfl, rfl⟩ := h
    exact ⟨by simpa using hne, hclass rest, .inl ⟨rfl, _, congrArg _ (hsplit rest)⟩⟩
  next => simp at h

/-- What a subscript takes of the text. -/
theorem take_of_subscript? {cs inner : List Char} {n : Nat} (h : subscript? cs = some (inner, n)) :
    n ≤ cs.length ∧ ((n = inner.length + 1 ∧ cs.take n = '_' :: inner) ∨
      (n = inner.length + 3 ∧ cs.take n = '_' :: '\x7b' :: (inner ++ ['\x7d']))) := by
  obtain ⟨-, -, ⟨rfl, rest, rfl⟩ | ⟨rfl, rest, rfl⟩⟩ := subscript?_eq_some h
  · exact ⟨by simp, .inl ⟨rfl, by simp⟩⟩
  · exact ⟨by simp, .inr ⟨rfl, by simp [List.take_append, List.take_of_length_le]⟩⟩

/-- No subscript without an underscore. -/
theorem subscript?_eq_none {cs : List Char} (h : cs.head? ≠ some '_') : subscript? cs = none := by
  unfold subscript?
  split <;> simp_all

/-- A subscript without braces is the run of letters and digits after the underscore. -/
theorem subscript?_underscore {cs : List Char} (h : cs.head? ≠ some '\x7b') :
    subscript? ('_' :: cs) = if (cs.takeWhile isSubscriptChar).isEmpty then none
      else some (cs.takeWhile isSubscriptChar, (cs.takeWhile isSubscriptChar).length + 1) := by
  unfold subscript?
  split
  next heq => exact absurd (by rw [(List.cons.inj heq).2]; rfl) h
  next heq => rw [(List.cons.inj heq).2]
  next hno => exact absurd rfl (hno cs)

/-- A run of letters and digits starts with no brace. -/
theorem head?_ne_brace {inner : List Char} (hne : inner ≠ [])
    (hinner : ∀ a ∈ inner, isSubscriptChar a = true) (rest : List Char) :
    (inner ++ rest).head? ≠ some '\x7b' := by
  obtain ⟨a, as, rfl⟩ := List.exists_cons_of_ne_nil hne
  rintro hhead
  obtain rfl := Option.some.inj hhead
  exact absurd (hinner '\x7b' List.mem_cons_self) (by decide)

theorem subscript?_bare {inner : List Char} (hne : inner ≠ [])
    (hinner : ∀ a ∈ inner, isSubscriptChar a = true) :
    subscript? ('_' :: inner) = some (inner, inner.length + 1) := by
  have hbrace := head?_ne_brace hne hinner []
  rw [List.append_nil] at hbrace
  rw [subscript?_underscore hbrace, List.takeWhile_eq_self_iff.mpr hinner]
  simp [hne]

theorem subscript?_braced {inner : List Char} (hne : inner ≠ [])
    (hinner : ∀ a ∈ inner, isSubscriptChar a = true) (rest : List Char) :
    subscript? ('_' :: '\x7b' :: (inner ++ '\x7d' :: rest)) = some (inner, inner.length + 3) := by
  have htake : (inner ++ '\x7d' :: rest).takeWhile isSubscriptChar = inner := by
    rw [takeWhile_append_cons (by decide), List.takeWhile_eq_self_iff.mpr hinner]
  obtain ⟨a, as, rfl⟩ := List.exists_cons_of_ne_nil hne
  simp only [subscript?, htake, List.drop_left]

theorem subscript?_append {d : Char} (hd : EndsToken d) {cs : List Char} (ds : List Char)
    (h : (∃ r, subscript? cs = some r) ∨ cs.head? ≠ some '_') :
    subscript? (cs ++ d :: ds) = subscript? cs := by
  have hclass := hd.notSubscript
  have hunderscore := hd.notUnderscore
  by_cases hhead : cs.head? = some '_'
  · obtain ⟨⟨inner, n⟩, hr⟩ := h.resolve_right (not_not_intro hhead)
    rw [hr]
    obtain ⟨rest, rfl⟩ := List.head?_eq_some_iff.mp hhead
    by_cases hbrace : rest.head? = some '\x7b'
    · obtain ⟨after, rfl⟩ := List.head?_eq_some_iff.mp hbrace
      -- the closing brace is there already
      unfold subscript? at hr ⊢
      simp only [List.cons_append] at hr ⊢
      rw [takeWhile_append_cons hclass, List.drop_append_of_le_length
        (List.takeWhile_prefix _).length_le]
      split at hr
      next a as bs hinner hafter =>
        rw [hinner] at hafter hr ⊢
        rw [hafter, ← hr]
        rfl
      next => simp at hr
    · rw [subscript?_underscore hbrace] at hr
      rw [List.cons_append, subscript?_underscore, takeWhile_append_cons hclass, hr]
      cases rest with
      | nil => simp at hr
      | cons => exact hbrace
  · rw [subscript?_eq_none hhead, subscript?_eq_none]
    cases cs <;> simp_all

/-- Reserved words end before such a character. -/
theorem longestWord?_append {v : Vocabulary} [v.IsAlphabetic] {d : Char} (hd : EndsToken d)
    (cs ds : List Char) : v.longestWord? (cs ++ d :: ds) = v.longestWord? cs := by
  have halpha := hd.notLetter
  refine List.find?_congr fun w hw => ?_
  have hstart : w.toList <+: cs ++ d :: ds ↔ w.toList <+: cs := by
    constructor
    · rintro ⟨rest, heq⟩
      obtain ⟨after, rfl, -⟩ | ⟨after, hw', -⟩ := List.append_eq_append_iff.mp heq
      · exact List.prefix_append _ _
      · cases after with
        | nil => simp [hw']
        | cons c after =>
          have hc : c = d := by simp_all
          have := Vocabulary.IsAlphabetic.letters w hw c (by simp [hw'])
          simp_all
    · exact fun h => h.trans (List.prefix_append _ _)
  rw [Bool.eq_iff_iff]
  simp [hstart]

/-- The word that is found is not empty and the text starts with it. -/
theorem longestWord?_eq_some {v : Vocabulary} {cs : List Char} {w : String}
    (h : v.longestWord? cs = some w) :
    w ∈ v.words ∧ w ≠ "" ∧ w.toList <+: cs := by
  have hfits := List.find?_some h
  simp only [Bool.and_eq_true, decide_eq_true_eq, List.isPrefixOf_iff_prefix] at hfits
  exact ⟨List.mem_of_find?_eq_some h, hfits⟩

/-- The characters after the first of the word that is found. -/
theorem toList_of_longestWord? {v : Vocabulary} {c : Char} {rest : List Char} {w : String}
    (h : v.longestWord? (c :: rest) = some w) :
    w.length - 1 ≤ rest.length ∧ w.toList = c :: rest.take (w.length - 1) := by
  obtain ⟨-, hne, hstart⟩ := longestWord?_eq_some h
  have hlen : w.toList.length = w.length := String.length_toList
  have hpos : w.length ≠ 0 := by simpa using hne
  have hle := hstart.length_le
  rw [List.length_cons, hlen] at hle
  refine ⟨by omega, ?_⟩
  rw [List.prefix_iff_eq_take.mp hstart, hlen, ← List.take_succ_cons,
    show w.length - 1 + 1 = w.length by omega]

/-- No word that fits is longer than the one that is found. -/
theorem length_le_of_longestWord? {v : Vocabulary}
    (hlongest : v.words.Pairwise fun a b => b.length ≤ a.length) {cs : List Char} {w x : String}
    (h : v.longestWord? cs = some x) (hw : w ∈ v.words) (hne : w ≠ "")
    (hstart : w.toList <+: cs) : w.length ≤ x.length := by
  have hfits : (decide (w ≠ "") && w.toList.isPrefixOf cs) = true := by
    simp [hne, hstart]
  obtain ⟨-, before, after, hwords, hbefore⟩ := List.find?_eq_some_iff_append.mp h
  rw [hwords] at hw hlongest
  -- a word that fits is not passed over
  obtain hw | rfl | hw := List.mem_append.mp hw |>.imp_right List.mem_cons.mp
  · exact absurd (hbefore w hw) (by rw [hfits]; decide)
  · exact le_rfl
  · exact (List.pairwise_cons.mp (List.pairwise_append.mp hlongest).2.1).1 w hw

/-- A word is found wherever one fits. -/
theorem exists_longestWord? {v : Vocabulary} {cs : List Char} {w : String} (hw : w ∈ v.words)
    (hne : w ≠ "") (hstart : w.toList <+: cs) : ∃ x, v.longestWord? cs = some x := by
  refine Option.isSome_iff_exists.mp (List.find?_isSome.mpr ⟨w, hw, ?_⟩)
  simp [hne, hstart]

/-- A word is the longest word that fits itself. -/
theorem longestWord?_self {v : Vocabulary} [v.IsAlphabetic] {w : String} (hw : w ∈ v.words) :
    v.longestWord? w.toList = some w := by
  have hne := Vocabulary.IsAlphabetic.nonempty w hw
  obtain ⟨x, hx⟩ := exists_longestWord? hw hne List.prefix_rfl
  have hlen := length_le_of_longestWord? Vocabulary.IsAlphabetic.longestFirst hx hw hne
    List.prefix_rfl
  have heq : x.toList = w.toList := (longestWord?_eq_some hx).2.2.eq_of_length_le
    (by rwa [String.length_toList, String.length_toList])
  rw [hx, String.toList_inj.mp heq]

/-- Where no word fits at a letter, none fits at the same letter before what is no letter. -/
theorem longestWord?_eq_none_of_letter {v : Vocabulary} [v.IsAlphabetic] {c : Char}
    {rest rest' : List Char} (h : v.longestWord? (c :: rest) = none)
    (hnext : ∀ a, rest'.head? = some a → a.isAlpha = false) :
    v.longestWord? (c :: rest') = none := by
  refine List.find?_eq_none.mpr fun w hw hfits => ?_
  simp only [Bool.and_eq_true, decide_eq_true_eq] at hfits
  obtain ⟨hne, hstart⟩ := hfits
  obtain ⟨after, heq⟩ := List.isPrefixOf_iff_prefix.mp hstart
  have halone : w.toList = [c] := by
    match hletters : w.toList with
    | [] => simp_all
    | [a] =>
      rw [hletters] at heq
      rw [(List.cons.inj heq).1]
    | a :: b :: letters =>
      rw [hletters] at heq
      have hhead : rest'.head? = some b := by
        rw [← (List.cons.inj heq).2]
        rfl
      have hb := Vocabulary.IsAlphabetic.letters w hw b (by simp [hletters])
      simp [hnext b hhead] at hb
  have hno := List.find?_eq_none.mp h w hw
  simp [hne, halone] at hno

theorem two_le_length_of_mem_words {w : String} (hw : w ∈ Vocabulary.standard.words) :
    2 ≤ w.length := by
  have hnames : ∀ w ∈ Settings.standardFunctions ++ Settings.standardSymbols, 2 ≤ w.length := by
    decide
  exact hnames w (List.mem_append.mpr (Settings.mem_reservedWords.mp hw))

/-- No reserved word fits where the second character is no letter. -/
theorem longestWord?_eq_none {c : Char} {rest : List Char}
    (h : ∀ a, rest.head? = some a → a.isAlpha = false) :
    Vocabulary.standard.longestWord? (c :: rest) = none := by
  refine List.find?_eq_none.mpr fun w hw hfits => ?_
  simp only [Bool.and_eq_true] at hfits
  have hstart := List.isPrefixOf_iff_prefix.mp hfits.2
  have hlen := two_le_length_of_mem_words hw
  rw [← String.length_toList] at hlen
  obtain ⟨a, b, after, hletters⟩ : ∃ a b after, w.toList = a :: b :: after := by
    match hw : w.toList with
    | [] | [_] => simp [hw] at hlen
    | a :: b :: after => exact ⟨a, b, after, rfl⟩
  have hb := Vocabulary.IsAlphabetic.letters w hw b (by simp [hletters])
  rw [hletters] at hstart
  obtain ⟨after', heq⟩ := hstart
  have hhead : rest.head? = some b := by
    rw [← (List.cons.inj heq).2]
    rfl
  simp [h b hhead] at hb

/-! ## One token -/

section

variable {v : Vocabulary}

/-- The token that starts at a character, by what it is. -/
inductive LexemeAt (v : Vocabulary) (c : Char) (rest : List Char) : Lexeme → Prop
  | number {x : Lexeme} : Lexeme.startsNumber c rest = true →
      Lexeme.number v.digits 0 (c :: rest) = .ok x → LexemeAt v c rest x
  | letter {name : String} : Lexeme.startsNumber c rest = false → symbolLetter? c = some name →
      LexemeAt v c rest ⟨.identifier name, 0⟩
  | word : Lexeme.startsNumber c rest = false → symbolLetter? c = none → c.isAlpha = true →
      LexemeAt v c rest (Lexeme.word v c rest)
  | doubledStar : Lexeme.startsNumber c rest = false → symbolLetter? c = none →
      c.isAlpha = false → c = '*' ∧ rest.head? = some '*' → LexemeAt v c rest ⟨.operator .power, 1⟩
  | operator {op : Operator} : Lexeme.startsNumber c rest = false → symbolLetter? c = none →
      c.isAlpha = false → ¬(c = '*' ∧ rest.head? = some '*') → operator? c = some op →
      LexemeAt v c rest ⟨.operator op, 0⟩
  | punctuation {kind : TokenKind} : Lexeme.startsNumber c rest = false → symbolLetter? c = none →
      c.isAlpha = false → ¬(c = '*' ∧ rest.head? = some '*') → operator? c = none →
      punctuation? c = some kind → LexemeAt v c rest ⟨kind, 0⟩

/-- These are the tokens that the reader finds, at any offset. -/
theorem read_eq_ok_iff (offset : Nat) {c : Char} {rest : List Char} {x : Lexeme} :
    Lexeme.read v offset c rest = .ok x ↔ LexemeAt v c rest x := by
  constructor
  · intro h
    unfold Lexeme.read at h
    split at h
    next hnum => exact .number hnum (number_eq_ok_iff.mpr (number_eq_ok_iff.mp h))
    next hnum =>
      rw [Bool.not_eq_true] at hnum
      split at h
      next name hname => exact Except.ok.inj h ▸ .letter hnum hname
      next hname =>
        split at h
        next halpha => exact Except.ok.inj h ▸ .word hnum hname halpha
        next halpha =>
          rw [Bool.not_eq_true] at halpha
          split at h
          next hstar => exact Except.ok.inj h ▸ .doubledStar hnum hname halpha hstar
          next hstar =>
            split at h
            next op hop => exact Except.ok.inj h ▸ .operator hnum hname halpha hstar hop
            next hop =>
              split at h
              next kind hkind =>
                exact Except.ok.inj h ▸ .punctuation hnum hname halpha hstar hop hkind
              next => simp at h
  · intro h
    unfold Lexeme.read
    cases h with
    | number hnum hx =>
      rw [if_pos hnum]
      exact number_eq_ok_iff.mpr (number_eq_ok_iff.mp hx)
    | letter hnum hname => simp [hnum, hname]
    | word hnum hname halpha => simp [hnum, hname, halpha]
    | doubledStar hnum hname halpha hstar =>
      rw [if_neg (by simp [hnum]), hname]
      simp only [halpha, Bool.false_eq_true, ↓reduceIte]
      rw [if_pos hstar]
    | operator hnum hname halpha hstar hop =>
      rw [if_neg (by simp [hnum]), hname]
      simp only [halpha, Bool.false_eq_true, ↓reduceIte]
      rw [if_neg hstar, hop]
    | punctuation hnum hname halpha hstar hop hkind =>
      rw [if_neg (by simp [hnum]), hname]
      simp only [halpha, Bool.false_eq_true, ↓reduceIte]
      rw [if_neg hstar, hop, hkind]

/-- What a word takes lies within the text. -/
theorem word_tail_le (c : Char) (rest : List Char) :
    (Lexeme.word v c rest).tail ≤ rest.length := by
  unfold Lexeme.word
  split
  next w hw => exact (toList_of_longestWord? hw).1
  next =>
    split
    next inner n hsub => exact (take_of_subscript? hsub).1
    next => simp

/-- Of which characters a word consists. -/
theorem word_chars [v.IsAlphabetic] (c : Char) (rest : List Char) :
    ∀ a ∈ rest.take (Lexeme.word v c rest).tail, isStray a = false := by
  unfold Lexeme.word
  split
  next w hw =>
    intro a ha
    have hletter := Vocabulary.IsAlphabetic.letters w (longestWord?_eq_some hw).1 a
      (by rw [(toList_of_longestWord? hw).2]; exact List.mem_cons_of_mem c ha)
    exact isStray_of_isAlphanum (by simp [Char.isAlphanum, hletter])
  next =>
    split
    next inner n hsub =>
      have hinner : ∀ a ∈ inner, isStray a = false := fun a ha =>
        isStray_of_isAlphanum ((subscript?_eq_some hsub).2.1 a ha)
      obtain ⟨-, ⟨rfl, htake⟩ | ⟨rfl, htake⟩⟩ := take_of_subscript? hsub
      · rw [htake, List.forall_mem_cons]
        exact ⟨by decide, hinner⟩
      · simp only [htake, List.forall_mem_cons, List.forall_mem_append]
        exact ⟨by decide, by decide, hinner, by decide, List.forall_mem_nil _⟩
    next => simp

/-- A token lies within the text it is read from. -/
theorem LexemeAt.tail_le {c : Char} {rest : List Char} {x : Lexeme} (h : LexemeAt v c rest x) :
    x.tail ≤ rest.length := by
  cases h with
  | number _ hx =>
    obtain ⟨hlen, -⟩ := number_eq_ok_iff.mp hx
    have hle := numberLength_le (c :: rest)
    rw [hlen, List.length_cons] at hle
    omega
  | word => exact word_tail_le c rest
  | doubledStar _ _ _ hstar =>
    obtain ⟨after, rfl⟩ := List.head?_eq_some_iff.mp hstar.2
    simp
  | letter | operator | punctuation => exact Nat.zero_le _

/-- No stray digit occurs in a token. -/
theorem LexemeAt.chars [v.IsAlphabetic] {c : Char} {rest : List Char} {x : Lexeme}
    (h : LexemeAt v c rest x) :
    isStray c = false ∧ ∀ a ∈ rest.take x.tail, isStray a = false := by
  cases h with
  | number _ hx =>
    obtain ⟨hlen, -⟩ := number_eq_ok_iff.mp hx
    have hchars := number_chars (c :: rest)
    rw [hlen, List.take_succ_cons, List.forall_mem_cons] at hchars
    exact hchars
  | letter _ hname =>
    refine ⟨?_, by simp⟩
    unfold symbolLetter? at hname
    split at hname <;> first | decide | simp at hname
  | word _ _ halpha =>
    exact ⟨isStray_of_isAlphanum (by simp [Char.isAlphanum, halpha]), word_chars c rest⟩
  | doubledStar _ _ _ hstar =>
    obtain ⟨rfl, hhead⟩ := hstar
    obtain ⟨after, rfl⟩ := List.head?_eq_some_iff.mp hhead
    refine ⟨by decide, ?_⟩
    simp only [List.take_succ_cons, List.take_zero, List.forall_mem_singleton]
    decide
  | operator _ _ _ _ hop =>
    refine ⟨?_, by simp⟩
    unfold operator? at hop
    split at hop <;> first | decide | simp at hop
  | punctuation _ _ _ _ _ hkind =>
    refine ⟨?_, by simp⟩
    unfold punctuation? at hkind
    split at hkind <;> first | decide | simp at hkind

/-- What follows a token changes nothing about it, if that starts with a character that ends the
token. The token of a `*` must not be followed by another one, and a subscript must not be cut
off. -/
theorem LexemeAt.append [v.IsAlphabetic] {d : Char} (hd : EndsToken d) {c : Char}
    {rest : List Char} {x : Lexeme} (ds : List Char) (h : LexemeAt v c rest x)
    (hcut : (rest.drop x.tail).head? ≠ some '_') (hstar : ¬(c = '*' ∧ rest = [] ∧ d = '*')) :
    LexemeAt v c (rest ++ d :: ds) x := by
  have hstart := startsNumber_append hd c rest ds
  have hdoubled : (c = '*' ∧ (rest ++ d :: ds).head? = some '*') ↔
      (c = '*' ∧ rest.head? = some '*') := by
    cases rest <;> simp_all
  cases h with
  | number hnum hx =>
    refine .number (by rw [hstart, hnum]) ?_
    obtain ⟨hlen, hpoint, hvalue⟩ := number_eq_ok_iff.mp hx
    have hle := numberLength_le (c :: rest)
    rw [hlen] at hle
    rw [← List.cons_append, number_eq_ok_iff, numberLength, NumberFits, splitNumber_append hd,
      List.drop_append_of_le_length hle]
    refine ⟨hlen, ?_, hvalue⟩
    cases hafter : (c :: rest).drop (x.tail + 1) with
    | nil => simpa using hd.notPoint
    | cons a as => rwa [hafter] at hpoint
  | letter hnum hname => exact .letter (by rw [hstart, hnum]) hname
  | word hnum hname halpha =>
    have hword : Lexeme.word v c (rest ++ d :: ds) = Lexeme.word v c rest := by
      unfold Lexeme.word at hcut ⊢
      rw [← List.cons_append, longestWord?_append hd]
      cases hw : v.longestWord? (c :: rest) with
      | some w => rfl
      | none =>
        simp only [hw] at hcut ⊢
        cases hsub : subscript? rest with
        | some r => rw [subscript?_append hd ds (.inl ⟨r, hsub⟩), hsub]
        | none =>
          simp only [hsub] at hcut
          rw [subscript?_append hd ds (.inr (by simpa using hcut)), hsub]
    rw [← hword]
    exact .word (by rw [hstart, hnum]) hname halpha
  | doubledStar hnum hname halpha hstar' =>
    exact .doubledStar (by rw [hstart, hnum]) hname halpha (hdoubled.mpr hstar')
  | operator hnum hname halpha hstar' hop =>
    exact .operator (by rw [hstart, hnum]) hname halpha (mt hdoubled.mp hstar') hop
  | punctuation hnum hname halpha hstar' hop hkind =>
    exact .punctuation (by rw [hstart, hnum]) hname halpha (mt hdoubled.mp hstar') hop hkind

/-- A separator is a token by itself, unless it is the first of two stars. -/
theorem lexemeAt_separator {d : Char} {k : TokenKind} (hd : (d, k) ∈ separatorKinds)
    {rest : List Char} (hstar : d = '*' → rest.head? ≠ some '*') : LexemeAt v d rest ⟨k, 0⟩ := by
  obtain ⟨hdigit, _, _, _, halpha, hpoint, _⟩ := separator_classes hd
  have hnum : Lexeme.startsNumber d rest = false := by
    simp [Lexeme.startsNumber, hdigit, hpoint]
  have htable : ∀ y ∈ separatorKinds, symbolLetter? y.1 = none ∧
      ((∃ op, operator? y.1 = some op ∧ y.2 = .operator op) ∨
        (operator? y.1 = none ∧ punctuation? y.1 = some y.2)) := by
    simp [separatorKinds, symbolLetter?, operator?, punctuation?]
  obtain ⟨hletter, ⟨op, hop, rfl⟩ | ⟨hop, hpunct⟩⟩ := htable (d, k) hd
  · exact .operator hnum hletter halpha (fun h => hstar h.1 h.2) hop
  · exact .punctuation hnum hletter halpha (fun h => hstar h.1 h.2) hop hpunct

/-- Where a number has digits and no second point, only the limit can stop it. -/
theorem raises_of_number_eq_error {limit : DigitLimit} {whole fraction : List Char} {tail : Nat}
    {f : Fault} (h : (do
        limit.check whole.length (some whole.length)
        limit.check fraction.length (some fraction.length)
        return ⟨.number (decimalValue whole fraction), tail⟩ : Except Fault Lexeme) = .error f) :
    limit.Raises f := by
  obtain hwhole | hstop := limit.check_or_stops whole.length (some whole.length)
  · rw [hwhole] at h
    obtain hfraction | hstop := limit.check_or_stops fraction.length (some fraction.length)
    · rw [hfraction] at h
      exact nomatch h
    · exact DigitLimit.stops_error_iff.mp (h ▸ hstop.bind _)
  · exact DigitLimit.stops_error_iff.mp (h ▸ hstop.bind _)

/-- A number that does not read is malformed, or has no digit, or has too many of them. -/
theorem number_eq_error {limit : DigitLimit} {offset : Nat} {cs : List Char} {f : Fault}
    (hf : Lexeme.number limit offset cs = .error f) :
    (∃ e, f = .malformed e) ∨ (f = .strayDigit ∧ numberLength cs = 0) ∨ limit.Raises f := by
  have hlen : (splitNumber cs).1.length +
      (if (splitNumber cs).2.isEmpty then 0 else (splitNumber cs).2.length + 1) =
        numberLength cs := rfl
  unfold Lexeme.number at hf
  simp only [hlen] at hf
  split at hf
  next hzero => exact .inr (.inl ⟨(Except.error.inj hf).symm, hzero⟩)
  next =>
    split at hf
    · exact .inl ⟨_, (Except.error.inj hf).symm⟩
    · exact .inr (.inr (raises_of_number_eq_error hf))

/-- A number is malformed if a point stands behind it, and it is malformed there. -/
theorem number_eq_malformed_iff {limit : DigitLimit} {offset : Nat} {cs : List Char}
    {e : ParseError} :
    Lexeme.number limit offset cs = .error (.malformed e) ↔
      ∃ k, numberLength cs = k + 1 ∧ (cs.drop (k + 1)).head? = some '.' ∧
        e = ⟨.malformedNumber (String.ofList (cs.take (k + 1))), offset + (k + 1), none⟩ := by
  unfold Lexeme.number
  simp only []
  split
  next hzero =>
    have hzero : numberLength cs = 0 := hzero
    simp [hzero]
  next n hsucc =>
    have hsucc : numberLength cs = n + 1 := hsucc
    show (if (cs.drop (numberLength cs)).head? = some '.' then
      Except.error (Fault.malformed ⟨.malformedNumber (String.ofList (cs.take (numberLength cs))),
        offset + numberLength cs, none⟩) else _) = _ ↔ _
    rw [hsucc]
    split
    next hpoint =>
      simp only [Except.error.injEq, Fault.malformed.injEq, Nat.add_right_cancel_iff]
      constructor
      · rintro rfl
        exact ⟨n, rfl, hpoint, rfl⟩
      · rintro ⟨k, rfl, -, rfl⟩
        rfl
    next hpoint =>
      refine ⟨fun h => ?_, ?_⟩
      · exact absurd rfl ((raises_of_number_eq_error h).ne_malformed e)
      · rintro ⟨k, hk, hpoint', -⟩
        obtain rfl := Nat.add_right_cancel hk
        exact absurd hpoint' hpoint

theorem number_eq_strayDigit {limit : DigitLimit} {cs : List Char} (h : numberLength cs = 0)
    (offset : Nat) : Lexeme.number limit offset cs = .error .strayDigit := by
  have hlen : (splitNumber cs).1.length +
      (if (splitNumber cs).2.isEmpty then 0 else (splitNumber cs).2.length + 1) =
        numberLength cs := rfl
  unfold Lexeme.number
  simp only [hlen, h]

/-- A number is stopped if it has too many digits, and no point stands behind it. -/
theorem number_stops_iff {limit : DigitLimit} {cs : List Char} (offset : Nat) :
    limit.Stops (Lexeme.number limit offset cs) ↔
      ∃ k, numberLength cs = k + 1 ∧ (cs.drop (k + 1)).head? ≠ some '.' ∧ ¬NumberFits limit cs := by
  constructor
  · intro hstop
    cases hlen : numberLength cs with
    | zero =>
      rw [number_eq_strayDigit hlen, DigitLimit.stops_error_iff] at hstop
      obtain ⟨n, -, found, h⟩ := hstop
      exact nomatch h
    | succ k =>
      have hpoint : (cs.drop (k + 1)).head? ≠ some '.' := by
        intro hpoint
        rw [number_eq_malformed_iff.mpr ⟨k, hlen, hpoint, rfl⟩, DigitLimit.stops_error_iff] at hstop
        exact hstop.ne_malformed _ rfl
      refine ⟨k, rfl, hpoint, fun hfits => ?_⟩
      have hx : Lexeme.number limit offset cs =
          .ok ⟨.number (decimalValue (splitNumber cs).1 (splitNumber cs).2), k⟩ :=
        number_eq_ok_iff.mpr ⟨hlen, hpoint, hfits, rfl⟩
      exact DigitLimit.not_stops_ok (hx ▸ hstop)
  · rintro ⟨k, hlen, hpoint, hfits⟩
    cases hx : Lexeme.number limit offset cs with
    | ok x => exact absurd (number_eq_ok_iff.mp hx).2.2.1 hfits
    | error f =>
      obtain ⟨e, rfl⟩ | ⟨-, hzero⟩ | hraises := number_eq_error hx
      · obtain ⟨j, hj, hpoint', -⟩ := number_eq_malformed_iff.mp hx
        obtain rfl : j = k := by omega
        exact absurd hpoint' hpoint
      · omega
      · exact DigitLimit.stops_error_iff.mpr hraises

/-- A token that does not read is malformed, unless a number starts with no digit in it or has too
many of them. -/
theorem read_eq_error {v : Vocabulary} {offset : Nat} {c : Char} {rest : List Char} {f : Fault}
    (hf : Lexeme.read v offset c rest = .error f) :
    (∃ e, f = .malformed e) ∨
      (Lexeme.startsNumber c rest = true ∧
        (f = .strayDigit ∧ numberLength (c :: rest) = 0 ∨ v.digits.Raises f)) := by
  unfold Lexeme.read at hf
  split at hf
  next hnum => exact (number_eq_error hf).imp_right fun h => ⟨hnum, h⟩
  next =>
    split at hf
    · simp at hf
    · split_ifs at hf
      split at hf
      · simp at hf
      · split at hf
        · simp at hf
        · exact .inl ⟨_, (Except.error.inj hf).symm⟩

/-- Without stray digits a token that does not read is malformed, or a number that is too long. -/
theorem malformed_of_read_eq_error {v : Vocabulary} {offset : Nat} {c : Char} {rest : List Char}
    {f : Fault} (h : ∀ a ∈ c :: rest, isStray a = false)
    (hf : Lexeme.read v offset c rest = .error f) :
    (∃ e, f = .malformed e) ∨ v.digits.Raises f := by
  obtain he | ⟨hnum, ⟨-, hzero⟩ | hraises⟩ := read_eq_error hf
  · exact .inl he
  · have hpos := numberLength_pos h hnum
    omega
  · exact .inr hraises

end

end AlgebraicForm
