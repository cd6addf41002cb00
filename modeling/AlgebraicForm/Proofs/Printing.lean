import AlgebraicForm.Proofs.LimitedTexts
import AlgebraicForm.Proofs.Readable
import AlgebraicForm.Proofs.Rereading
import AlgebraicForm.Proofs.Unambiguity

/-!
# Printing and reading back

Every expression with names of the vocabulary has a text, unless a number in it has too many digits
for one, and `Reads` describes what the text reads as.
`Prints voc bare e b cs ks fs` collects what is known of the text `cs` of an expression for a reader
with the vocabulary `voc`: its tokens `ks`, how strongly it binds, and the factors `fs` of the term
that it reads back as. How strongly a text binds says which phrase its tokens form (`Phrase`), so
brackets can be left out where the grammar allows the phrase. A function without arguments has a
text as well, which no reader takes; `bare` says whether there may be any.

The induction is on the number of nodes; a printer step that only takes out a sign counts as one
more (`printRank`). Each function of the printer has one lemma here: `juxtapose`, `Pieces.text`,
`factorPieces`, the texts with a sign in front, and so on.

* `prints_inLimit`: every such expression prints, or the limit stops it.
* `Prints.unique`: what a text reads as is no matter of the expression that it was printed from.
* `print_gives`: the text of a readable expression reads back as `Reads` says, which keeps the
  meaning (`Reads.meaning`).
-/

namespace AlgebraicForm

open AlgebraicForm.Expr

/-! ## Equations of the printer -/

section

variable {voc : Vocabulary}

theorem textIn_number (v : Number) : (number v).textIn voc = v.text voc.digits := by
  rw [Expr.textIn.eq_def]

theorem textIn_symbol (n : String) : (symbol n).textIn voc = .ok n.toList := by
  rw [Expr.textIn.eq_def]

theorem textIn_sum (t : Expr) (ts : List Expr) : (sum (t :: ts)).textIn voc = (do
    let strength ← t.binding
    let first ← t.textIn voc
    let later ← laterTerms voc ts
    return bracketed (strength ≤ .sum) first ++ later) := by
  rw [Expr.textIn.eq_def]

theorem textIn_product_number (v : Number) (es : List Expr) :
    (product (number v :: es)).textIn voc =
    if v.isNegative then
      if v.isMinusOne then
        match es with
        | [] => .ok ['-', '1']
        | [e] => do
          let inner ← textIn voc e
          minus e inner
        | es => do
          let inner ← textIn voc (product es)
          minus (product es) inner
      else
        match es with
        | [] => do
          let inner ← v.neg.text voc.digits
          return '-' :: inner
        | es => do
          let inner ← quotient voc v.neg es
          minus (product (number v.neg :: es)) inner
    else quotient voc v es :=
  Expr.textIn.eq_def _ _

theorem textIn_product_negation (e : Expr) (es : List Expr) :
    (product (negation e :: es)).textIn voc =
      (ofRemaining (e :: es)).textIn voc >>= minus (ofRemaining (e :: es)) := by
  rw [Expr.textIn.eq_def]
  cases es <;> rfl

theorem textIn_product {es : List Expr} (hne : es ≠ []) (hnumber : ∀ v rest, es ≠ number v :: rest)
    (hnegation : ∀ e rest, es ≠ negation e :: rest) :
    (product es).textIn voc = factorPieces voc es >>= Pieces.text voc := by
  rw [Expr.textIn.eq_def]
  split <;> simp_all

theorem textIn_power (b p : Expr) : (power b p).textIn voc =
    if p.isHalf then do
      let inner ← textIn voc b
      return "sqrt(".toList ++ inner ++ [')']
    else if p.isNegativeNumber && b.isZeroNumber then do
      let inner ← textIn voc p
      return "0^(".toList ++ inner ++ [')']
    else
      match p with
      | number v =>
        if v.isNegative then do
          let bottom ← denominator voc b v.neg
          return '1' :: '/' :: bottom
        else raised voc b (number v)
      | p => raised voc b p :=
  Expr.textIn.eq_def _ _

theorem textIn_negation (e : Expr) : (negation e).textIn voc = (do
    let inner ← e.textIn voc
    let strength ← e.binding
    return '-' :: bracketed (strength ≤ .sum || strength = .negation ||
      (e.isProduct && inner.head? == some '(')) inner) := by
  rw [Expr.textIn.eq_def]

theorem textIn_call (n : String) (es : List Expr) : (call n es).textIn voc = (do
    let inner ← arguments voc es
    return n.toList ++ '(' :: inner ++ [')']) := by
  rw [Expr.textIn.eq_def]

theorem minus_number (v : Number) (cs : List Char) : minus (number v) cs = .ok ('-' :: cs) := by
  have hstrong : ¬numberBinding v ≤ .sum := by
    unfold numberBinding
    split
    · decide
    · split
      · split <;> decide
      · decide
  simp [minus, binding, hstrong, isProduct, bracketed]

/-- A literal below zero has its sign in front. -/
theorem textIn_negative {q : Rat} (hq : q < 0) :
    (rat q).textIn voc = (rat (-q)).textIn voc >>= minus (rat (-q)) := by
  have hnum : q.num < 0 := Rat.num_neg.mpr hq
  have hintText : Number.intText q.num = '-' :: Number.intText (-q).num := by
    rw [Rat.num_neg_eq_neg_num, Number.intText, if_pos hnum, Number.intText, if_neg (by omega),
      Int.natAbs_neg]
  have hnatAbs : (-q).num.natAbs = q.num.natAbs := by
    rw [Rat.num_neg_eq_neg_num, Int.natAbs_neg]
  rw [textIn_number, textIn_number]
  show Number.writeRat _ q = Number.writeRat _ (-q) >>= minus (rat (-q))
  simp only [Number.writeRat, Number.writeInt, Rat.den_neg_eq_den, hintText, hnatAbs]
  split <;> simp only [bind_assoc, pure_bind, minus_number] <;> rfl

theorem textIn_product_negative {q : Rat} (hq : q < 0) (es : List Expr) :
    let m := ofRemaining (if q = -1 then es else rat (-q) :: es)
    (product (rat q :: es)).textIn voc = m.textIn voc >>= minus m := by
  simp only [textIn_product_number, Number.isNegative_exact, hq, decide_true, if_true,
    Number.isMinusOne_exact, decide_eq_true_eq, Number.neg_exact]
  split
  next =>
    obtain _ | ⟨e, _ | ⟨f, es⟩⟩ := es
    · have hone : (Number.exact 1).text voc.digits = .ok ['1'] :=
        writeRat_eq_ok_iff.mpr ⟨⟨allows_digits_one _, allows_digits_one _⟩, rfl⟩
      rw [ofRemaining, one, textIn_number, hone, ok_bind, minus_number]
    · rfl
    · rfl
  next =>
    cases es with
    | nil =>
      have hminus : minus (rat (-q)) = fun cs => .ok ('-' :: cs) :=
        funext fun _ => minus_number _ _
      rw [ofRemaining, textIn_number, hminus]
      rfl
    | cons e es =>
      show _ = (product (rat (-q) :: e :: es)).textIn voc >>= minus (product (rat (-q) :: e :: es))
      have hpos : (Number.exact (-q)).isNegative = false := by simpa using hq.le
      rw [textIn_product_number, if_neg (by simp [hpos])]

/-! ### Powers -/

theorem isHalf_of_neg {v : Rat} (hv : v < 0) : (rat v).isHalf = false := by
  have hne : v ≠ 1 / 2 := by linarith
  simpa [isHalf] using hne

theorem isNegativeNumber_of_neg {v : Rat} (hv : v < 0) : (rat v).isNegativeNumber = true := by
  simpa [isNegativeNumber] using hv

theorem textIn_root (b : Expr) : (power b (rat (1 / 2))).textIn voc =
    b.textIn voc >>= fun cs => .ok ("sqrt(".toList ++ cs ++ [')']) := by
  rw [textIn_power, if_pos (by simp [isHalf])]
  rfl

theorem binding_root (b : Expr) : (power b (rat (1 / 2))).binding = .ok .atom := by
  rw [binding, powerBinding, if_pos (by simp [isHalf])]

/-- A power of zero with a negative exponent is no quotient. -/
theorem textIn_zeroReciprocal {v : Rat} (hv : v < 0) : (power zero (rat v)).textIn voc =
    (rat v).textIn voc >>= fun cs => .ok ("0^(".toList ++ cs ++ [')']) := by
  have hzero : zero.isZeroNumber = true := rfl
  rw [textIn_power, if_neg (by simp [isHalf_of_neg hv]),
    if_pos (by simp [isNegativeNumber_of_neg hv, hzero])]
  rfl

theorem binding_zeroPower {p : Expr} (hhalf : p.isHalf = false) :
    (power zero p).binding = .ok .power := by
  have hzero : zero.isZeroNumber = true := rfl
  rw [binding, powerBinding, if_neg (by simp [hhalf]), if_neg (by simp [hzero])]

/-- Any other power with a negative exponent is one over a power. -/
theorem textIn_reciprocal {b : Expr} {v : Rat} (hv : v < 0) (hzero : b.isZeroNumber = false) :
    (power b (rat v)).textIn voc =
      denominator voc b (.exact (-v)) >>= fun bottom => .ok ('1' :: '/' :: bottom) := by
  have hnegative : (Number.exact v).isNegative = true := by simpa using hv
  rw [textIn_power, if_neg (by simp [isHalf_of_neg hv]), if_neg (by simp [hzero])]
  simp only [hnegative, if_true, Number.neg_exact, pure_eq_ok]

theorem binding_reciprocal {b : Expr} {v : Rat} (hv : v < 0) (hzero : b.isZeroNumber = false) :
    (power b (rat v)).binding = .ok .product := by
  rw [binding, powerBinding, if_neg (by simp [isHalf_of_neg hv]),
    if_pos (by simp [isNegativeNumber_of_neg hv, hzero])]

/-- The other powers are written with their exponent. -/
theorem textIn_raised {p : Expr} (hhalf : p.isHalf = false) (hnegative : p.isNegativeNumber = false)
    (b : Expr) : (power b p).textIn voc = raised voc b p := by
  rw [textIn_power, if_neg (by simp [hhalf]), if_neg (by simp [hnegative])]
  split
  next v => rw [if_neg (by simpa [isNegativeNumber] using hnegative)]
  next => rfl

theorem binding_raised {p : Expr} (hhalf : p.isHalf = false)
    (hnegative : p.isNegativeNumber = false) (b : Expr) :
    (power b p).binding = .ok .power := by
  rw [binding, powerBinding, if_neg (by simp [hhalf]), if_neg (by simp [hnegative])]

end

/-! ## Phrases by binding strength -/

/-- The phrase that the tokens of a text form which binds this strongly, and the factors that it
denotes as a term. -/
def Phrase (bare : Prop) (b : Binding) (ks : List TokenKind) (fs : List Expr) : Prop :=
  match b with
  | .sum => ∃ ts, Derives bare .sum ks ts ∧ ofTerms ts = ofFactors fs
  | .product | .negation => Derives bare .term ks fs
  | .power => ∃ f, fs = [f] ∧ Derives bare .power ks [f]
  | .atom => ∃ f, fs = [f] ∧ Derives bare .atom ks [f]

namespace Phrase

variable {bare : Prop} {b : Binding} {ks : List TokenKind} {fs : List Expr}

theorem term (h : Phrase bare b ks fs) (hb : ¬b ≤ .sum) : Derives bare .term ks fs := by
  cases b with
  | sum => exact absurd (by decide) hb
  | product | negation => exact h
  | power =>
    obtain ⟨f, rfl, h⟩ := h
    exact .factor (.unsigned h)
  | atom =>
    obtain ⟨f, rfl, h⟩ := h
    exact .factor (.unsigned (.atom h))

theorem sum (h : Phrase bare b ks fs) :
    ∃ ts, Derives bare .sum ks ts ∧ ofTerms ts = ofFactors fs := by
  by_cases hb : b ≤ .sum
  · cases b with
    | sum => exact h
    | _ => exact absurd hb (by decide)
  · exact ⟨[ofFactors fs], .term (h.term hb), rfl⟩

theorem brackets (h : Phrase bare b ks fs) :
    Derives bare .atom (.leftParen :: (ks ++ [.rightParen])) [ofFactors fs] := by
  obtain ⟨ts, hts, heq⟩ := h.sum
  exact heq ▸ .group hts

theorem power (h : Phrase bare b ks fs) (hb : ¬b < .power) :
    Derives bare .power ks [ofFactors fs] := by
  cases b with
  | sum | product | negation => exact absurd (by decide) hb
  | power =>
    obtain ⟨f, rfl, h⟩ := h
    exact h
  | atom =>
    obtain ⟨f, rfl, h⟩ := h
    exact .atom h

theorem atom (h : Phrase bare b ks fs) (hb : ¬b < .atom) :
    Derives bare .atom ks [ofFactors fs] := by
  cases b with
  | sum | product | negation | power => exact absurd (by decide) hb
  | atom =>
    obtain ⟨f, rfl, h⟩ := h
    exact h

end Phrase

/-- A text with its tokens, which form a phrase. -/
structure Writes (voc : Vocabulary) (bare : Prop) (c : Category) (cs : List Char)
    (ks : List TokenKind) (es : List Expr) : Prop where
  lexes : Lexes voc cs ks
  derives : Derives bare c ks es

/-- What is known of the text of an expression. -/
structure Prints (voc : Vocabulary) (bare : Prop) (e : Expr) (b : Binding) (cs : List Char)
    (ks : List TokenKind) (fs : List Expr) : Prop where
  text : e.textIn voc = .ok cs
  binding : e.binding = .ok b
  lexes : Lexes voc cs ks
  reads : Reads e fs
  phrase : Phrase bare b ks fs
  /-- A first factor that is a sum stands in brackets. -/
  opens : ¬b ≤ .sum → ∀ f ∈ fs.head?, f.isSum = true → e.isProduct = true ∧ cs.head? = some '('

section

variable {voc : Vocabulary} {bare : Prop} [voc.IsAlphabetic]

namespace Prints

variable {e : Expr} {b : Binding} {cs : List Char} {ks : List TokenKind} {fs : List Expr}

theorem atom (h : Prints voc bare e b cs ks fs) (needed : Bool)
    (hneeded : needed = false → ¬b < .atom) :
    ∃ ls, Writes voc bare .atom (bracketed needed cs) ls [ofFactors fs] := by
  cases needed with
  | true => exact ⟨_, h.lexes.brackets, h.phrase.brackets⟩
  | false => exact ⟨ks, h.lexes, h.phrase.atom (hneeded rfl)⟩

theorem power (h : Prints voc bare e b cs ks fs) (needed : Bool)
    (hneeded : needed = false → ¬b < .power) :
    ∃ ls, Writes voc bare .power (bracketed needed cs) ls [ofFactors fs] := by
  cases needed with
  | true => exact ⟨_, h.lexes.brackets, .atom h.phrase.brackets⟩
  | false => exact ⟨ks, h.lexes, h.phrase.power (hneeded rfl)⟩

theorem term (h : Prints voc bare e b cs ks fs) (needed : Bool)
    (hneeded : needed = false → ¬b ≤ .sum) :
    ∃ ls gs, (gs = fs ∨ gs = [ofFactors fs]) ∧
      Writes voc bare .term (bracketed needed cs) ls gs := by
  cases needed with
  | true => exact ⟨_, _, .inr rfl, h.lexes.brackets, .factor (.unsigned (.atom h.phrase.brackets))⟩
  | false => exact ⟨ks, fs, .inl rfl, h.lexes, h.phrase.term (hneeded rfl)⟩

end Prints

/-! ## Factors side by side -/

/-- Texts of powers, with what they denote. -/
def WritesPieces (voc : Vocabulary) (bare : Prop) (pieces : List (List Char))
    (es : List Expr) : Prop :=
  List.Forall₂ (fun piece e => ∃ ls, Writes voc bare .power piece ls [e]) pieces es

/-- Powers written after a term make a longer term, with or without a `*` in between. -/
theorem juxtapose_gives {text : List Char} {ks : List TokenKind} {fs : List Expr}
    (h : Writes voc bare .term text ks fs) {pieces : List (List Char)} {es : List Expr}
    (hpieces : WritesPieces voc bare pieces es) :
    voc.digits.Gives (juxtapose voc text pieces) fun cs => ∃ rest ls, cs = text ++ rest ∧
      Writes voc bare .term cs ls (fs ++ es) := by
  induction hpieces generalizing text ks fs with
  | nil => exact .ok ⟨[], ks, by simp, by simpa using h⟩
  | @cons piece e pieces es hpiece _ ih =>
    obtain ⟨ls, hpiece⟩ := hpiece
    rw [juxtapose]
    refine (h.lexes.joinsCleanly hpiece.lexes).bind fun clean _ hjoin => ?_
    have hnext : ∃ next ms, (if clean then piece else '*' :: piece) = next ∧
        Writes voc bare .term (text ++ next) ms (fs ++ [e]) := by
      cases clean with
      | true => exact ⟨piece, _, rfl, hjoin rfl, .juxtapose h.derives hpiece.derives⟩
      | false =>
        refine ⟨'*' :: piece, _, rfl, ?_, .times h.derives (.unsigned hpiece.derives)⟩
        exact h.lexes.between (by decide) hpiece.lexes
          (fun _ => h.derives.getLast?_ne_operator .times)
          (fun _ op => hpiece.derives.head?_ne_operator (.inr rfl) op)
    obtain ⟨next, ms, hnext, hwrites⟩ := hnext
    rw [hnext]
    refine (ih hwrites).mono ?_
    rintro cs - ⟨rest, ls', rfl, hall⟩
    exact ⟨next ++ rest, ls', by simp, by simpa using hall⟩

/-- Several powers side by side are a term. -/
theorem juxtapose_pieces {piece : List Char} {pieces : List (List Char)} {es : List Expr}
    (hpieces : WritesPieces voc bare (piece :: pieces) es) :
    voc.digits.Gives (juxtapose voc piece pieces) fun cs => ∃ rest ls, cs = piece ++ rest ∧
      Writes voc bare .term cs ls es := by
  obtain ⟨e, es', ⟨ls, hpiece⟩, hrest, rfl⟩ := List.forall₂_cons_left_iff.mp hpieces
  exact juxtapose_gives ⟨hpiece.lexes, .factor (.unsigned hpiece.derives)⟩ hrest

omit [voc.IsAlphabetic] in
theorem writes_one : Writes voc bare .term ['1'] [.number 1] [one] :=
  ⟨Lexes.digits (allows_digits_one _), .factor (.unsigned (.atom (.number 1)))⟩

theorem Writes.divide {cs ds : List Char} {ks ls : List TokenKind} {fs : List Expr} {e : Expr}
    (h : Writes voc bare .term cs ks fs) (h' : Writes voc bare .power ds ls [e]) :
    Writes voc bare .term (cs ++ '/' :: ds) (ks ++ .operator .divide :: ls)
      (fs ++ [Expr.power e minusOne]) :=
  ⟨h.lexes.between (by decide) h'.lexes (by simp) (by simp),
    .divide h.derives (.unsigned h'.derives)⟩

/-- The text above the line. -/
def Pieces.topText (voc : Vocabulary) : List (List Char) → Except Fault (List Char)
  | [] => .ok ['1']
  | piece :: rest => juxtapose voc piece rest

/-- A text and what stands below the line. -/
def Pieces.overText (voc : Vocabulary) (top : List Char) :
    List (List Char) → Except Fault (List Char)
  | [] => .ok top
  | [piece] => .ok (top ++ '/' :: piece)
  | piece :: rest => do
    let bottom ← juxtapose voc piece rest
    return top ++ '/' :: bracketed true bottom

omit [voc.IsAlphabetic] in
/-- A quotient is written above the line first. -/
theorem Pieces.text_eq (p : Pieces) :
    p.text voc =
      Pieces.topText voc p.numerator >>= fun top => Pieces.overText voc top p.denominator := by
  obtain ⟨numerator, denominator⟩ := p
  cases numerator <;> rfl

/-- What is written above the line is a term that starts as its first piece does. -/
theorem Pieces.topText_gives {pieces : List (List Char)} {ns : List Expr}
    (hn : WritesPieces voc bare pieces ns) :
    voc.digits.Gives (Pieces.topText voc pieces) fun top => ∃ ks,
      Writes voc bare .term top ks (if ns = [] then [one] else ns) ∧
      ∀ piece ∈ pieces.head?, ∃ rest, top = piece ++ rest := by
  cases pieces with
  | nil =>
    obtain rfl := List.forall₂_nil_left_iff.mp hn
    exact .ok ⟨_, writes_one, by simp⟩
  | cons piece pieces =>
    refine (juxtapose_pieces hn).mono ?_
    rintro top - ⟨rest, ls, rfl, hwrites⟩
    obtain ⟨e, es, -, -, rfl⟩ := List.forall₂_cons_left_iff.mp hn
    exact ⟨ls, by simpa using hwrites, by simp⟩

/-- What is written below the line divides, in brackets if it has several pieces. -/
theorem Pieces.overText_gives {top : List Char} {ks : List TokenKind} {fs : List Expr}
    (h : Writes voc bare .term top ks fs) {pieces : List (List Char)} {ds : List Expr}
    (hd : WritesPieces voc bare pieces ds) :
    voc.digits.Gives (Pieces.overText voc top pieces) fun cs => ∃ rest ls, cs = top ++ rest ∧
      Writes voc bare .term cs ls
        (fs ++ if ds = [] then [] else [Expr.power (ofFactors ds) minusOne]) := by
  cases pieces with
  | nil =>
    obtain rfl := List.forall₂_nil_left_iff.mp hd
    exact .ok ⟨[], ks, by simp, by simpa using h⟩
  | cons piece pieces =>
    have hne : ds ≠ [] := by
      rintro rfl
      simp [WritesPieces] at hd
    rw [if_neg hne]
    cases pieces with
    | nil =>
      obtain ⟨d, _, ⟨ls, hpiece⟩, hnil, rfl⟩ := List.forall₂_cons_left_iff.mp hd
      obtain rfl := List.forall₂_nil_left_iff.mp hnil
      exact .ok ⟨'/' :: piece, _, rfl, h.divide hpiece⟩
    | cons piece' pieces =>
      rw [overText]
      · refine (juxtapose_pieces hd).bind ?_
        rintro bottom - ⟨rest, ls, rfl, hbottom⟩
        have hgroup : Writes voc bare .power (bracketed true (piece ++ rest))
            (.leftParen :: (ls ++ [.rightParen])) [ofFactors ds] :=
          ⟨hbottom.lexes.brackets, .atom (.group (.term hbottom.derives))⟩
        exact .ok ⟨'/' :: bracketed true (piece ++ rest), _, rfl, h.divide hgroup⟩
      · simp

/-- A quotient of products is written as one term, which starts as its first piece does. -/
theorem Pieces.text_gives {p : Pieces} {ns ds : List Expr}
    (hn : WritesPieces voc bare p.numerator ns)
    (hd : WritesPieces voc bare p.denominator ds) :
    voc.digits.Gives (p.text voc) fun cs => ∃ ks,
      Writes voc bare .term cs ks (quotientFactors ns ds) ∧
      ∀ piece ∈ p.numerator.head?, ∃ rest, cs = piece ++ rest := by
  rw [text_eq]
  refine (Pieces.topText_gives hn).bind ?_
  rintro top - ⟨ks, hwrites, hhead⟩
  refine (Pieces.overText_gives hwrites hd).mono ?_
  rintro cs - ⟨rest, ls, rfl, hall⟩
  refine ⟨ls, hall, fun piece hpiece => ?_⟩
  obtain ⟨after, rfl⟩ := hhead piece hpiece
  exact ⟨after ++ rest, by simp⟩

/-! ## Numbers -/

omit [voc.IsAlphabetic] in
/-- A whole number that is not negative is written with its digits. -/
theorem writes_intText {k : Int} (hk : 0 ≤ k)
    (hfits : voc.digits.Allows (Decimal.digits k.natAbs).length) :
    Writes voc bare .atom (Number.intText k) [.number k] [rat k] := by
  have htext : Number.intText k = Decimal.digits k.natAbs := by
    rw [Number.intText, if_neg (by omega)]
  have hcast : (k : Rat) = ((k.natAbs : Nat) : Rat) := by
    rw [Nat.cast_natAbs, abs_of_nonneg hk]
  rw [htext, hcast]
  exact ⟨Lexes.digits hfits, .number _⟩

/-- A fraction that is not negative is written as a quotient of whole numbers. -/
theorem prints_literal {q : Rat} (hq : 0 ≤ q) (hfits : RatFits voc.digits q) :
    ∃ ks, Prints voc bare (rat q) (numberBinding (.exact q)) (Number.ratText q) ks
      (literalFactors q) := by
  have hnum : Writes voc bare .atom _ _ _ := writes_intText (Rat.num_nonneg.mpr hq) hfits.1
  have hnegative : (Number.exact q).isNegative = false := by simpa using hq
  have htext : (rat q).textIn voc = .ok (Number.ratText q) := by
    rw [textIn_number]
    exact writeRat_eq_ok_iff.mpr ⟨hfits, rfl⟩
  have hopens : ¬numberBinding (.exact q) ≤ .sum → ∀ f ∈ (literalFactors q).head?,
      f.isSum = true → (rat q).isProduct = true ∧ (Number.ratText q).head? = some '(' := by
    simp [literalFactors, isSum]
  by_cases hden : q.den = 1
  · have hbinding : numberBinding (.exact q) = .atom := by simp [numberBinding, hnegative, hden]
    have hfactors : literalFactors q = [rat q.num] := by simp [literalFactors, hden]
    have hratText : Number.ratText q = Number.intText q.num := by simp [Number.ratText, hden]
    refine ⟨_, htext, rfl, hratText ▸ hnum.lexes, .literal hq, ?_, hopens⟩
    rw [hbinding, hfactors]
    exact ⟨_, rfl, hnum.derives⟩
  · have hbinding : numberBinding (.exact q) = .product := by
      simp [numberBinding, hnegative, hden]
    have hfactors : literalFactors q = [rat q.num] ++ [power (rat q.den) minusOne] := by
      simp [literalFactors, hden]
    have hratText : Number.ratText q = Number.intText q.num ++ '/' :: Decimal.digits q.den := by
      simp [Number.ratText, hden]
    have hbottom : Writes voc bare .power (Decimal.digits q.den) [.number q.den] [rat q.den] :=
      ⟨Lexes.digits hfits.2, .atom (.number _)⟩
    have htop : Writes voc bare .term (Number.intText q.num) [.number q.num] [rat q.num] :=
      ⟨hnum.lexes, .factor (.unsigned (.atom hnum.derives))⟩
    have hquotient := htop.divide hbottom
    refine ⟨_, htext, rfl, hratText ▸ hquotient.lexes, .literal hq, ?_, hopens⟩
    rw [hbinding, hfactors]
    exact hquotient.derives

/-! ## Factors above and below the line -/

theorem lexes_call {name : String} (hname : name ∈ voc.functions) {cs : List Char}
    {ks : List TokenKind} (h : Lexes voc cs ks) :
    Lexes voc (name.toList ++ '(' :: cs ++ [')'])
      (.function name :: .leftParen :: (ks ++ [.rightParen])) := by
  have hfunction := Lexes.word (Vocabulary.IsAlphabetic.functions name hname)
  rw [if_pos (by simpa using hname)] at hfunction
  rw [List.append_assoc]
  exact hfunction.append_separator (d := '(') (k := .leftParen) (by decide) (by simp) h.brackets

theorem writes_call {name : String} (hname : name ∈ voc.functions) {cs : List Char}
    {ks : List TokenKind} {es : List Expr} (h : Writes voc bare .arguments cs ks es) :
    Writes voc bare .atom (name.toList ++ '(' :: cs ++ [')'])
      (.function name :: .leftParen :: (ks ++ [.rightParen])) [call name es] :=
  ⟨lexes_call hname h.lexes, .call name h.derives⟩

section

variable {e : Expr} {b : Binding} {cs : List Char} {ks : List TokenKind} {fs : List Expr}

omit [voc.IsAlphabetic] in
theorem Prints.sum (h : Prints voc bare e b cs ks fs) :
    ∃ ts, Writes voc bare .sum cs ks ts ∧ ofTerms ts = ofFactors fs := by
  obtain ⟨ts, hts, heq⟩ := h.phrase.sum
  exact ⟨ts, ⟨h.lexes, hts⟩, heq⟩

theorem Prints.root (h : Prints voc bare e b cs ks fs) (hroot : "sqrt" ∈ voc.functions) :
    ∃ ls, Writes voc bare .atom ("sqrt(".toList ++ cs ++ [')']) ls
      [call "sqrt" [ofFactors fs]] := by
  obtain ⟨ts, hts, heq⟩ := h.sum
  have hargument : Writes voc bare .arguments cs ks [ofTerms ts] :=
    ⟨hts.lexes, .argument hts.derives⟩
  have hcall := writes_call hroot hargument
  rw [heq] at hcall
  exact ⟨_, hcall⟩

/-- What stands below the line for a base to a positive exponent. -/
theorem Prints.denominator (h : Prints voc bare e b cs ks fs) {v : Rat} (hv : 0 < v)
    (hroot : v = 1 / 2 → "sqrt" ∈ voc.functions) :
    voc.digits.Gives (denominator voc e (.exact v)) fun ds => ∃ ls,
      Writes voc bare .power ds ls [belowLine v (ofFactors fs)] := by
  unfold Expr.denominator belowLine
  rw [h.binding, h.text]
  simp only [Number.isOne_exact, Number.isHalf_exact, decide_eq_true_eq, ok_bind, pure_eq_ok]
  split_ifs with hone hhalf
  · exact .ok (h.power (b < .power) (by simp))
  · obtain ⟨ls, hls⟩ := h.root (hroot hhalf)
    exact .ok ⟨ls, hls.lexes, .atom hls.derives⟩
  · obtain ⟨ls, hls⟩ := h.atom (b < .atom) (by simp)
    refine (writeRat_gives voc.digits v).bind ?_
    rintro _ - ⟨hfits, rfl⟩
    obtain ⟨ms, hnumber⟩ := @prints_literal voc bare _ v hv.le hfits
    obtain ⟨ms', hms'⟩ := hnumber.atom (numberBinding (.exact v) < .atom) (by simp)
    refine .ok ⟨_, ?_, .power hls.derives (.unsigned (.atom hms'.derives))⟩
    exact hls.lexes.between (by decide) hms'.lexes (by simp) (by simp)

theorem Prints.numeratorPiece (h : Prints voc bare e b cs ks fs) :
    ∃ piece ls, numeratorPiece voc e = .ok ⟨[piece], []⟩ ∧
      Writes voc bare .power piece ls [ofFactors fs] ∧
      ((ofFactors fs).isSum = true → piece.head? = some '(') := by
  obtain ⟨ls, hls⟩ := h.power (b < .power) (by simp)
  refine ⟨_, ls, ?_, hls, fun hsum => ?_⟩
  · rw [Expr.numeratorPiece, h.binding, h.text]
    rfl
  · by_cases hb : b < .power
    · simp [bracketed, hb]
    · have hsingle : ∃ f, fs = [f] := by
        cases b with
        | sum | product | negation => exact absurd (by decide) hb
        | power | atom => exact h.phrase.imp fun f hf => hf.1
      obtain ⟨f, rfl⟩ := hsingle
      have hstrong : ¬b ≤ .sum := by
        cases b <;> first | exact absurd (by decide) hb | decide
      have := h.opens hstrong f (by simp) hsum
      simpa [bracketed, hb] using this.2

end

/-- If this is written as a square root, the vocabulary has these. -/
def RootsIn (voc : Vocabulary) (e : Expr) : Prop :=
  ∀ b p, e = power b p → p.IsRootExponent → "sqrt" ∈ voc.functions

/-- The expression has a text of which all this is known. -/
def PrintsAs (voc : Vocabulary) (bare : Prop) (e : Expr) (cs : List Char) : Prop :=
  ∃ b ks fs, Prints voc bare e b cs ks fs

/-- The expression prints, unless the limit stops it. -/
def PrintsInLimit (voc : Vocabulary) (bare : Prop) (e : Expr) : Prop :=
  voc.digits.Gives (e.textIn voc) (PrintsAs voc bare e)

section

omit [voc.IsAlphabetic]

theorem Prints.inLimit {e : Expr} {b : Binding} {cs : List Char} {ks : List TokenKind}
    {fs : List Expr} (h : Prints voc bare e b cs ks fs) : PrintsInLimit voc bare e :=
  .inl ⟨cs, h.text, b, ks, fs, h⟩

theorem Expr.IsExact.exists_binding {e : Expr} (h : e.IsExact) : ∃ b, e.binding = .ok b := by
  cases e with
  | hole => simp at h
  | _ => exact ⟨_, rfl⟩

/-- A text in which this one is written is stopped where this one is. -/
theorem PrintsInLimit.cases {e : Expr} (h : PrintsInLimit voc bare e) (he : e.IsExact) :
    (∃ b cs ks fs, Prints voc bare e b cs ks fs) ∨
      ∃ b, e.binding = .ok b ∧ voc.digits.Stops (e.textIn voc) := by
  obtain ⟨cs, -, b, ks, fs, hprints⟩ | hstop := h
  · exact .inl ⟨b, cs, ks, fs, hprints⟩
  · obtain ⟨b, hb⟩ := he.exists_binding
    exact .inr ⟨b, hb, hstop⟩

end

theorem denominator_gives {e : Expr} (he : e.IsExact) (h : PrintsInLimit voc bare e) {v : Rat}
    (hv : 0 < v) (hroot : v = 1 / 2 → "sqrt" ∈ voc.functions) :
    voc.digits.Gives (denominator voc e (.exact v)) fun ds => ∃ fs ls, Reads e fs ∧
      Writes voc bare .power ds ls [belowLine v (ofFactors fs)] := by
  obtain ⟨b, cs, ks, fs, hprints⟩ | ⟨b, hb, hstop⟩ := h.cases he
  · exact (hprints.denominator hv hroot).mono fun ds _ ⟨ls, hls⟩ => ⟨fs, ls, hprints.reads, hls⟩
  · right
    unfold Expr.denominator
    rw [hb]
    split_ifs <;> exact hstop.bind _

theorem numeratorPiece_gives {e : Expr} (he : e.IsExact) (h : PrintsInLimit voc bare e) :
    voc.digits.Gives (numeratorPiece voc e) fun p => ∃ top fs ls, p = ⟨[top], []⟩ ∧ Reads e fs ∧
      Writes voc bare .power top ls [ofFactors fs] ∧
      ((ofFactors fs).isSum = true → top.head? = some '(') := by
  obtain ⟨b, cs, ks, fs, hprints⟩ | ⟨b, hb, hstop⟩ := h.cases he
  · obtain ⟨top, ls, htop, hwrites, hsum⟩ := hprints.numeratorPiece
    exact .inl ⟨_, htop, top, fs, ls, rfl, hprints.reads, hwrites, hsum⟩
  · right
    rw [Expr.numeratorPiece, hb]
    exact hstop.bind _

/-- The pieces of a factor whose body prints. -/
theorem piece_gives {e : Expr} (he : e.IsExact) (hroots : RootsIn voc e)
    (h : PrintsInLimit voc bare e.pieceBody) :
    voc.digits.Gives (piece voc e) fun p => ∃ fs, Reads e.pieceBody fs ∧
      WritesPieces voc bare p.numerator (ReadPieces.above [(e, fs)]) ∧
      WritesPieces voc bare p.denominator (ReadPieces.below [(e, fs)]) ∧
      ((ofFactors fs).isSum = true → ∀ piece ∈ p.numerator.head?, piece.head? = some '(') := by
  cases hdiv : e.isDivided with
  | true =>
    obtain ⟨c, v, rfl, hv, hzero, hbody, hexponent⟩ := divided_of_isDivided he hdiv
    rw [hbody] at h ⊢
    have hdenominator := denominator_gives (isExact_power.mp he).1 h (v := -v) (by linarith)
      fun hhalf => hroots c (rat v) rfl (.inr (by rw [neg_eq_iff_eq_neg.mp hhalf, neg_div]))
    rw [piece, if_pos (by simp [hv, hzero])]
    refine hdenominator.bind ?_
    rintro ds - ⟨fs, ls, hreads, hwrites⟩
    have habove : ReadPieces.above [(power c (rat v), fs)] = [] := by
      simp [ReadPieces.above, hdiv]
    have hbelow : ReadPieces.below [(power c (rat v), fs)] = [belowLine (-v) (ofFactors fs)] := by
      simp [ReadPieces.below, hdiv, hexponent]
    rw [pure_eq_ok]
    exact .ok ⟨fs, hreads, habove ▸ .nil, hbelow ▸ .cons ⟨ls, hwrites⟩ .nil, by simp⟩
  | false =>
    rw [pieceBody_of_isDivided_eq_false hdiv] at h ⊢
    have hpiece : piece voc e = numeratorPiece voc e := by
      rw [piece.eq_def]
      split
      next c v =>
        have hcond : (v.isNegative && !c.isZeroNumber) = false := hdiv
        rw [if_neg (by simp [hcond])]
      next => rfl
    rw [hpiece]
    refine (numeratorPiece_gives he h).mono ?_
    rintro p - ⟨top, fs, ls, rfl, hreads, hwrites, hsum⟩
    have habove : ReadPieces.above [(e, fs)] = [ofFactors fs] := by
      simp [ReadPieces.above, hdiv]
    have hbelow : ReadPieces.below [(e, fs)] = [] := by
      simp [ReadPieces.below, hdiv]
    exact ⟨fs, hreads, habove ▸ .cons ⟨ls, hwrites⟩ .nil, hbelow ▸ .nil, by simpa using hsum⟩

/-- The pieces of factors whose bodies print. -/
theorem factorPieces_gives {es : List Expr} (hexact : ∀ e ∈ es, e.IsExact)
    (hroots : ∀ e ∈ es, RootsIn voc e)
    (hes : ∀ e ∈ es, PrintsInLimit voc bare e.pieceBody) :
    voc.digits.Gives (factorPieces voc es) fun p => ∃ ls : ReadPieces, ls.map (·.1) = es ∧
      (∀ l ∈ ls, Reads l.1.pieceBody l.2) ∧ WritesPieces voc bare p.numerator ls.above ∧
      WritesPieces voc bare p.denominator ls.below ∧
      ∀ f ∈ ls.above.head?, f.isSum = true → ∀ piece ∈ p.numerator.head?,
        piece.head? = some '(' := by
  induction es with
  | nil =>
    rw [factorPieces]
    exact .ok ⟨[], rfl, by simp, .nil, .nil, by simp [ReadPieces.above]⟩
  | cons e es ih =>
    rw [List.forall_mem_cons] at hexact hroots hes
    rw [factorPieces]
    refine (piece_gives hexact.1 hroots.1 hes.1).bind ?_
    rintro p - ⟨fs, hreads, hnum, hden, hopens⟩
    refine (ih hexact.2 hroots.2 hes.2).bind ?_
    rintro p' - ⟨ls, rfl, hreads', hnum', hden', hopens'⟩
    refine .ok ⟨(e, fs) :: ls, rfl, List.forall_mem_cons.mpr ⟨hreads, hreads'⟩, ?_, ?_, ?_⟩
    · exact ReadPieces.above_cons (e, fs) ls ▸ List.rel_append hnum hnum'
    · exact ReadPieces.below_cons (e, fs) ls ▸ List.rel_append hden hden'
    · cases hdiv : e.isDivided with
      | true =>
        have habove : ReadPieces.above [(e, fs)] = [] := by simp [ReadPieces.above, hdiv]
        rw [habove] at hnum
        rw [ReadPieces.above_cons, habove, Pieces.append, List.forall₂_nil_right_iff.mp hnum]
        exact hopens'
      | false =>
        have habove : ReadPieces.above [(e, fs)] = [ofFactors fs] := by
          simp [ReadPieces.above, hdiv]
        rw [habove] at hnum
        obtain ⟨top, _, -, -, htop⟩ := List.forall₂_cons_right_iff.mp hnum
        rw [ReadPieces.above_cons, habove, Pieces.append, htop]
        simpa [htop] using hopens

omit [voc.IsAlphabetic] in
/-- The coefficient of a product is a piece above the line and one below it. -/
theorem writes_coefficientPieces {q : Rat} (hq : 0 ≤ q) (hfits : RatFits voc.digits q) :
    WritesPieces voc bare (coefficientPieces q).numerator
        (if q.num = 1 then [] else [rat q.num]) ∧
      WritesPieces voc bare (coefficientPieces q).denominator
        (if q.den = 1 then [] else [rat q.den]) := by
  constructor
  · show WritesPieces voc bare (if q.num = 1 then [] else [Number.intText q.num]) _
    split
    · exact .nil
    · have hnumber : Writes voc bare .atom _ _ _ :=
        writes_intText (Rat.num_nonneg.mpr hq) hfits.1
      exact .cons ⟨_, hnumber.lexes, .atom hnumber.derives⟩ .nil
  · show WritesPieces voc bare (if q.den = 1 then [] else [Decimal.digits q.den]) _
    split
    · exact .nil
    · exact .cons ⟨_, Lexes.digits hfits.2, .atom (.number _)⟩ .nil

/-- The text of a product without a sign to take out. -/
theorem quotient_gives {q : Rat} (hq : 0 ≤ q) {es : List Expr} (hexact : ∀ e ∈ es, e.IsExact)
    (hroots : ∀ e ∈ es, RootsIn voc e)
    (hes : ∀ e ∈ es, PrintsInLimit voc bare e.pieceBody) :
    voc.digits.Gives (quotient voc (.exact q) es) fun cs =>
      ∃ (ls : ReadPieces) (ks : List TokenKind) (fs : List Expr),
        ls.map (·.1) = es ∧ (∀ l ∈ ls, Reads l.1.pieceBody l.2) ∧
        fs = quotientFactors ((if q.num = 1 then [] else [rat q.num]) ++ ls.above)
          ((if q.den = 1 then [] else [rat q.den]) ++ ls.below) ∧
        Writes voc bare .term cs ks fs ∧ ∀ f ∈ fs.head?, f.isSum = true → cs.head? = some '(' := by
  rw [quotient]
  refine (ofCoefficient_gives voc.digits q).bind ?_
  rintro _ - ⟨hfits, rfl⟩
  refine (factorPieces_gives hexact hroots hes).bind ?_
  rintro p - ⟨ls, hls, hreads, hnum, hden, hopens⟩
  obtain ⟨hfrontNum, hfrontDen⟩ := @writes_coefficientPieces voc bare q hq hfits
  have hallNum : WritesPieces voc bare ((coefficientPieces q).append p).numerator
      ((if q.num = 1 then [] else [rat q.num]) ++ ls.above) := List.rel_append hfrontNum hnum
  have hallDen : WritesPieces voc bare ((coefficientPieces q).append p).denominator
      ((if q.den = 1 then [] else [rat q.den]) ++ ls.below) := List.rel_append hfrontDen hden
  refine (Pieces.text_gives hallNum hallDen).mono ?_
  rintro cs - ⟨ks, hwrites, hhead⟩
  refine ⟨ls, ks, _, hls, hreads, rfl, hwrites, fun f hf hsum => ?_⟩
  -- a sum comes first only if it is the first factor above the line
  have hone : q.num = 1 := by
    by_contra hne
    simp only [quotientFactors, hne, if_false, List.cons_append, List.nil_append, reduceCtorEq,
      List.head?_cons, Option.mem_some] at hf
    rw [← hf] at hsum
    simp [isSum] at hsum
  cases habove : ls.above with
  | nil =>
    simp only [quotientFactors, hone, habove, if_true, List.append_nil, List.cons_append,
      List.nil_append, List.head?_cons, Option.mem_some] at hf
    rw [← hf] at hsum
    simp [isSum, one] at hsum
  | cons g gs =>
    simp only [quotientFactors, hone, habove, if_true, List.nil_append, reduceCtorEq, if_false,
      List.cons_append, List.head?_cons, Option.mem_some] at hf
    subst hf
    rw [habove] at hnum hopens
    obtain ⟨piece, pieces, -, -, hpieces⟩ := List.forall₂_cons_right_iff.mp hnum
    have hpiece := hopens g (by simp) hsum piece (by simp [hpieces])
    obtain ⟨rest, rfl⟩ := hhead piece (by simp [coefficientPieces, Pieces.append, hone, hpieces])
    simp [List.head?_append, hpiece]

/-! ## Signs -/

omit [voc.IsAlphabetic] in
/-- An expression with a sign to take out is written as a minus sign and its magnitude, in brackets
if the magnitude is a sum or a product that starts with a bracket. -/
theorem textIn_of_splitSign {e m : Expr} (he : e.IsExact) (h : e.splitSign = (true, m))
    {b : Binding} {cs : List Char} {ks : List TokenKind} {fs : List Expr}
    (hm : Prints voc bare m b cs ks fs) :
    ∃ needed, e.textIn voc = .ok ('-' :: bracketed needed cs) ∧ (needed = false → ¬b ≤ .sum) ∧
      (needed = false → ¬(m.isProduct = true ∧ cs.head? = some '(')) ∧
      (e.binding = .ok .negation ∨ e.binding = .ok .product) := by
  have hminus : m.textIn voc >>= minus m = .ok ('-' :: bracketed
      (b ≤ .sum || (m.isProduct && cs.head? == some '(')) cs) := by
    rw [hm.text, ok_bind, minus, hm.binding]
    rfl
  have hneeded : (b ≤ .sum || (m.isProduct && cs.head? == some '(')) = false →
      ¬b ≤ .sum ∧ ¬(m.isProduct = true ∧ cs.head? = some '(') := by
    intro hfalse
    simpa using hfalse
  unfold splitSign at h
  split at h
  next v =>
    obtain ⟨q, rfl⟩ := he.exists_rat
    split at h
    next hq =>
      obtain rfl := (Prod.mk.inj h).2
      have hq' : q < 0 := by simpa using hq
      refine ⟨_, (textIn_negative hq').trans hminus, fun hf => (hneeded hf).1,
        fun hf => (hneeded hf).2, .inl ?_⟩
      simp [binding, numberBinding, hq']
    next => simp at h
  next e =>
    obtain rfl := (Prod.mk.inj h).2
    refine ⟨b ≤ .sum || b = .negation || (e.isProduct && cs.head? == some '('), ?_, ?_, ?_,
      .inl rfl⟩
    · rw [textIn_negation, hm.text, hm.binding]
      rfl
    · intro hf
      simp only [Bool.or_eq_false_iff, decide_eq_false_iff_not] at hf
      exact hf.1.1
    · intro hf
      simp only [Bool.or_eq_false_iff] at hf
      simpa using hf.2
  next v rest =>
    obtain ⟨q, rfl⟩ := (isExact_product.mp he (number v) (by simp)).exists_rat
    split at h
    next hq =>
      have hq' : q < 0 := by simpa using hq
      have hm' : ofRemaining (if q = -1 then rest else rat (-q) :: rest) = m := by
        simpa using (Prod.mk.inj h).2
      have htext := @textIn_product_negative voc _ hq' rest
      simp only [hm'] at htext
      exact ⟨_, htext.trans hminus, fun hf => (hneeded hf).1, fun hf => (hneeded hf).2, .inr rfl⟩
    next => simp at h
  next e rest =>
    obtain rfl := (Prod.mk.inj h).2
    exact ⟨_, (textIn_product_negation e rest).trans hminus, fun hf => (hneeded hf).1,
      fun hf => (hneeded hf).2, .inr rfl⟩
  next => simp at h

omit [voc.IsAlphabetic] in
/-- An expression with a sign to take out is written after its magnitude. -/
theorem exists_textIn_of_splitSign {e m : Expr} (he : e.IsExact) (h : e.splitSign = (true, m)) :
    ∃ f, e.textIn voc = m.textIn voc >>= f := by
  unfold splitSign at h
  split at h
  next v =>
    obtain ⟨q, rfl⟩ := he.exists_rat
    split at h
    next hq =>
      obtain rfl := (Prod.mk.inj h).2
      exact ⟨_, textIn_negative (by simpa using hq)⟩
    next => simp at h
  next e =>
    obtain rfl := (Prod.mk.inj h).2
    exact ⟨_, textIn_negation e⟩
  next v rest =>
    obtain ⟨q, rfl⟩ := (isExact_product.mp he (number v) (by simp)).exists_rat
    split at h
    next hq =>
      have hm : ofRemaining (if q = -1 then rest else rat (-q) :: rest) = m := by
        simpa using (Prod.mk.inj h).2
      have htext := @textIn_product_negative voc q (by simpa using hq) rest
      simp only [hm] at htext
      exact ⟨_, htext⟩
    next => simp at h
  next e rest =>
    obtain rfl := (Prod.mk.inj h).2
    exact ⟨_, textIn_product_negation e rest⟩
  next => simp at h

theorem prints_of_splitSign {e m : Expr} (he : e.IsExact) (h : e.splitSign = (true, m))
    (hm : PrintsInLimit voc bare m) : PrintsInLimit voc bare e := by
  obtain ⟨cs, -, b, ks, fs, hm⟩ | hstop := hm
  swap
  · obtain ⟨f, hf⟩ := @exists_textIn_of_splitSign voc e m he h
    exact .inr (hf ▸ hstop.bind f)
  obtain ⟨needed, htext, hstrong, hopen, hbinding⟩ := textIn_of_splitSign he h hm
  obtain ⟨ls, gs, hlexes, hneg, hderives⟩ : ∃ ls gs, Lexes voc ('-' :: bracketed needed cs) ls ∧
      Negates fs gs ∧ Derives bare .term ls gs := by
    cases needed with
    | true =>
      refine ⟨_, _, hm.lexes.brackets.separator (k := .operator .minus) (by decide) (by simp),
        .all fs, ?_⟩
      exact .factor (.minus (.unsigned (.atom hm.phrase.brackets)))
    | false =>
      have hterm := hm.phrase.term (hstrong rfl)
      obtain ⟨f, fs, rfl⟩ := List.exists_cons_of_ne_nil hterm.ne_nil
      refine ⟨_, _, hm.lexes.separator (k := .operator .minus) (by decide) (by simp),
        .first fs ?_, hterm.minus_term⟩
      cases hsum : f.isSum with
      | false => rfl
      | true => exact absurd (hm.opens (hstrong rfl) f (by simp) hsum) (hopen rfl)
  have hnosum : ∀ f ∈ gs.head?, f.isSum = false := by
    cases hneg <;> simp [isSum]
  have hphrase : ∀ b' : Binding, b' = .negation ∨ b' = .product → Phrase bare b' ls gs := by
    rintro b' (rfl | rfl) <;> exact hderives
  obtain ⟨b', hb', hcases⟩ : ∃ b', e.binding = .ok b' ∧ (b' = .negation ∨ b' = .product) :=
    hbinding.elim (fun hb => ⟨_, hb, .inl rfl⟩) (fun hb => ⟨_, hb, .inr rfl⟩)
  exact Prints.inLimit ⟨htext, hb', hlexes, .signed he h hm.reads hneg, hphrase b' hcases,
    fun _ f hf hsum => by simp [hnosum f hf] at hsum⟩

/-! ## Sums and arguments -/

/-- A later term of a sum with its sign, given the text of its magnitude. -/
def signedText (sign : Bool) (b : Binding) (cs : List Char) : List Char :=
  if sign then '-' :: bracketed (b ≤ .sum || b = .negation) cs
  else '+' :: bracketed (b ≤ .sum) cs

/-- A sum goes on with one more term. -/
theorem Prints.laterTerm {t : Expr} {b : Binding} {cs : List Char} {ks : List TokenKind}
    {fs : List Expr} (hprints : Prints voc bare t.splitSign.2 b cs ks fs) {text : List Char}
    {ms : List TokenKind} {es : List Expr} (h : Writes voc bare .sum text ms es) :
    ∃ ms', Writes voc bare .sum (text ++ signedText t.splitSign.1 b cs) ms'
      (es ++ [signedTerm (t, fs)]) := by
  have hofFactors : ∀ gs : List Expr, gs = fs ∨ gs = [ofFactors fs] →
      ofFactors gs = ofFactors fs := by
    rintro gs (rfl | rfl) <;> rfl
  unfold signedTerm signedText
  cases t.splitSign.1 with
  | true =>
    obtain ⟨ls, gs, hgs, hwrites⟩ := hprints.term (b ≤ .sum || b = .negation) (by simp_all)
    have hlexes := h.lexes.between (d := '-') (k := .operator .minus) (by decide) hwrites.lexes
      (by simp) (by simp)
    have hsub := Derives.subtract h.derives hwrites.derives
    rw [hofFactors gs hgs] at hsub
    exact ⟨_, hlexes, hsub⟩
  | false =>
    obtain ⟨ls, gs, hgs, hwrites⟩ := hprints.term (b ≤ .sum) (by simp)
    have hlexes := h.lexes.between (d := '+') (k := .operator .plus) (by decide) hwrites.lexes
      (by simp) (by simp)
    have hadd := Derives.add h.derives hwrites.derives
    rw [hofFactors gs hgs] at hadd
    exact ⟨_, hlexes, hadd⟩

/-- The later terms of a sum go on any sum that is written before them. -/
theorem laterTerms_gives {ts : List Expr} (hexact : ∀ t ∈ ts, t.splitSign.2.IsExact)
    (hts : ∀ t ∈ ts, PrintsInLimit voc bare t.splitSign.2) :
    voc.digits.Gives (laterTerms voc ts) fun cs => ∃ ls : List (Expr × List Expr),
      ls.map (·.1) = ts ∧ (∀ l ∈ ls, Reads l.1.splitSign.2 l.2) ∧
      ∀ {text ks es}, Writes voc bare .sum text ks es →
        ∃ ks', Writes voc bare .sum (text ++ cs) ks' (es ++ ls.map signedTerm) := by
  induction ts with
  | nil =>
    rw [laterTerms]
    exact .ok ⟨[], rfl, by simp, fun {text ks es} h => ⟨ks, by simpa using h⟩⟩
  | cons t ts ih =>
    rw [List.forall_mem_cons] at hexact hts
    rw [laterTerms]
    obtain ⟨b, cs, ks, fs, hprints⟩ | ⟨b, hb, hstop⟩ := hts.1.cases hexact.1
    · rw [hprints.binding, hprints.text]
      refine (ih hexact.2 hts.2).bind ?_
      rintro later - ⟨ls, rfl, hreads, hgo⟩
      refine .ok ⟨(t, fs) :: ls, rfl, List.forall_mem_cons.mpr ⟨hprints.reads, hreads⟩,
        fun {text ms es} h => ?_⟩
      obtain ⟨ms', hms'⟩ := hprints.laterTerm h
      obtain ⟨ms'', hms''⟩ := hgo hms'
      refine ⟨ms'', ?_⟩
      rw [List.append_assoc, List.append_assoc] at hms''
      exact hms''
    · rw [hb]
      exact .inr (hstop.bind _)

theorem arguments_gives {es : List Expr} (hne : es ≠ [])
    (hes : ∀ e ∈ es, PrintsInLimit voc bare e) :
    voc.digits.Gives (arguments voc es) fun cs =>
      ∃ (ks : List TokenKind) (ls : List (Expr × List Expr)), ls.map (·.1) = es ∧
        (∀ l ∈ ls, Reads l.1 l.2) ∧ Writes voc bare .arguments cs ks (ls.map (ofFactors ·.2)) := by
  induction es with
  | nil => exact absurd rfl hne
  | cons e es ih =>
    rw [List.forall_mem_cons] at hes
    cases es with
    | nil =>
      rw [arguments]
      refine hes.1.mono ?_
      rintro cs - ⟨b, ks, fs, hprints⟩
      obtain ⟨ts, hts, heq⟩ := hprints.sum
      have hargument := Derives.argument hts.derives
      rw [heq] at hargument
      exact ⟨ks, [(e, fs)], rfl, by simpa using hprints.reads, hts.lexes, hargument⟩
    | cons e' es =>
      rw [arguments]
      · refine hes.1.bind ?_
        rintro cs - ⟨b, ks, fs, hprints⟩
        obtain ⟨ts, hts, heq⟩ := hprints.sum
        refine (ih (by simp) hes.2).bind ?_
        rintro later - ⟨ms, ls, hls, hreads, hwrites⟩
        refine .ok ⟨ks ++ .comma :: ms, (e, fs) :: ls, by simp [hls],
          List.forall_mem_cons.mpr ⟨hprints.reads, hreads⟩, ?_, ?_⟩
        · exact hts.lexes.between (by decide) hwrites.lexes (by simp) (by simp)
        · have hcons := hts.derives.cons_argument hwrites.derives
          rw [heq] at hcons
          exact hcons
      · simp

/-! ## One node at a time -/

omit [voc.IsAlphabetic] in
theorem prints_symbol {n : String} (hn : IsIdentifierIn voc n) :
    Prints voc bare (symbol n) .atom n.toList [.identifier n] [symbol n] where
  text := textIn_symbol n
  binding := rfl
  lexes := isIdentifierIn_iff.mp hn
  reads := .symbol n
  phrase := ⟨_, rfl, .identifier n⟩
  opens := by simp [isSum]

theorem prints_sum {t : Expr} {ts : List Expr} (hexact : ∀ u ∈ t :: ts, u.IsExact)
    (hmagnitudes : ∀ u ∈ ts, u.splitSign.2.IsExact) (ht : PrintsInLimit voc bare t)
    (hts : ∀ u ∈ ts, PrintsInLimit voc bare u.splitSign.2) :
    PrintsInLimit voc bare (sum (t :: ts)) := by
  rw [List.forall_mem_cons] at hexact
  obtain ⟨b, cs, ks, fs, hprints⟩ | ⟨b, hb, hstop⟩ := ht.cases hexact.1
  swap
  · right
    rw [textIn_sum, hb]
    exact hstop.bind _
  have hsum : (sum (t :: ts)).textIn voc = laterTerms voc ts >>= fun later =>
      .ok (bracketed (b ≤ .sum) cs ++ later) := by
    rw [textIn_sum, hprints.binding, hprints.text]
    rfl
  obtain ⟨later, hlater, ls, rfl, hreads, hgo⟩ | hstop := laterTerms_gives hmagnitudes hts
  swap
  · exact .inr (hsum ▸ hstop.bind _)
  obtain ⟨ms, gs, hgs, hfirst⟩ := hprints.term (b ≤ .sum) (by simp)
  obtain ⟨ns, hwrites⟩ := hgo ⟨hfirst.lexes, .term hfirst.derives⟩
  have htext : (sum (t :: ls.map (·.1))).textIn voc = .ok (bracketed (b ≤ .sum) cs ++ later) := by
    rw [hsum, hlater, ok_bind]
  have hsame : ofFactors gs = ofFactors fs := by
    obtain rfl | rfl := hgs <;> rfl
  have hopens : ∀ {p : Prop}, ¬Binding.sum ≤ .sum → p := fun h => absurd (by decide) h
  by_cases hne : ls = []
  · subst hne
    exact Prints.inLimit (b := .sum) ⟨htext, rfl, hwrites.lexes,
      .singleTerm hprints.reads hgs, ⟨_, hwrites.derives, rfl⟩, hopens⟩
  · refine Prints.inLimit (b := .sum) ⟨htext, rfl, hwrites.lexes,
      .sum ls (fun l hl => hexact.2 l.1 (List.mem_map_of_mem hl)) hne hprints.reads hreads,
      ⟨_, hwrites.derives, ?_⟩, hopens⟩
    obtain ⟨l, ls, rfl⟩ := List.exists_cons_of_ne_nil hne
    show sum _ = sum _
    rw [hsame]
    rfl

omit [voc.IsAlphabetic] in
/-- Without a coefficient, a product is written as if that were one. -/
theorem textIn_product_one {es : List Expr} (hne : es ≠ [])
    (hnumber : ∀ v rest, es ≠ number v :: rest)
    (hnegation : ∀ e rest, es ≠ negation e :: rest) :
    (product es).textIn voc = quotient voc (.exact 1) es := by
  have hone : Pieces.ofCoefficient voc.digits (.exact 1) = .ok ⟨[], []⟩ :=
    ofCoefficient_eq_ok_iff.mpr ⟨⟨allows_digits_one _, allows_digits_one _⟩, rfl⟩
  rw [textIn_product hne hnumber hnegation, quotient, hone]
  show _ = factorPieces voc es >>= fun p => (Pieces.append ⟨[], []⟩ p).text voc
  rfl

/-- A product without a sign to take out prints if the bodies of its factors do. -/
theorem prints_product {es : List Expr} (hexact : (product es).IsExact) (hne : es ≠ [])
    (hroots : ∀ e ∈ es, RootsIn voc e) (hsign : (product es).splitSign.1 = false)
    (hes : ∀ e ∈ es, PrintsInLimit voc bare e.pieceBody) :
    PrintsInLimit voc bare (product es) := by
  rw [isExact_product] at hexact
  -- the coefficient, which is one if there is none, and the other factors
  obtain ⟨q, fs, hq, hshape, hfront, htext, hfs⟩ : ∃ q fs, 0 ≤ q ∧
      (es = rat q :: fs ∨ q = 1 ∧ es = fs) ∧
      (es = fs → ∀ v rest, es ≠ number v :: rest) ∧
      (product es).textIn voc = quotient voc (.exact q) fs ∧ ∀ f ∈ fs, f ∈ es := by
    by_cases hnumber : ∃ v rest, es = number v :: rest
    · obtain ⟨v, rest, rfl⟩ := hnumber
      obtain ⟨q, rfl⟩ := (hexact (number v) (by simp)).exists_rat
      have hq : 0 ≤ q := by
        by_contra hneg
        simp [splitSign, not_le.mp hneg] at hsign
      refine ⟨q, rest, hq, .inl rfl, fun h => absurd h (List.cons_ne_self _ _), ?_,
        fun f hf => List.mem_cons_of_mem _ hf⟩
      rw [textIn_product_number, if_neg (by simpa using hq)]
    · push Not at hnumber
      refine ⟨1, es, by norm_num, .inr ⟨rfl, rfl⟩, fun _ => hnumber,
        textIn_product_one hne hnumber ?_, fun f hf => hf⟩
      rintro e rest rfl
      simp [splitSign] at hsign
  obtain ⟨cs, hquotient, ls, ks, gs, rfl, hreads, rfl, hwrites, hopens⟩ | hstop :=
    quotient_gives hq (fun f hf => hexact f (hfs f hf)) (fun f hf => hroots f (hfs f hf))
      fun f hf => hes f (hfs f hf)
  · exact Prints.inLimit (b := .product) ⟨htext.trans hquotient, rfl, hwrites.lexes,
      .quotient ls (isExact_product.mpr hexact) hq hshape hfront hreads, hwrites.derives,
      fun _ f hf hsum => ⟨rfl, hopens f hf hsum⟩⟩
  · exact .inr (htext ▸ hstop)

theorem Expr.IsExact.eq_half {p : Expr} (hp : p.IsExact) (h : p.isHalf = true) :
    p = rat (1 / 2) := by
  unfold Expr.isHalf at h
  split at h
  next v =>
    obtain ⟨q, rfl⟩ := hp.exists_rat
    simpa using h
  next => simp at h

theorem Expr.IsExact.exists_negative {p : Expr} (hp : p.IsExact) (h : p.isNegativeNumber = true) :
    ∃ v < 0, p = rat v := by
  unfold Expr.isNegativeNumber at h
  split at h
  next v =>
    obtain ⟨q, rfl⟩ := hp.exists_rat
    exact ⟨q, by simpa using h, rfl⟩
  next => simp at h

theorem Expr.IsExact.eq_zero {b : Expr} (hb : b.IsExact) (h : b.isZeroNumber = true) :
    b = zero := by
  unfold Expr.isZeroNumber at h
  split at h
  next v =>
    obtain ⟨q, rfl⟩ := hb.exists_rat
    simpa [zero] using h
  next => simp at h

theorem prints_root {b : Expr} (hroot : "sqrt" ∈ voc.functions) (hb : PrintsInLimit voc bare b) :
    PrintsInLimit voc bare (power b (rat (1 / 2))) := by
  obtain ⟨cs, hcs, s, ks, fs, hb⟩ | hstop := hb
  · obtain ⟨ms, hroot⟩ := hb.root hroot
    refine Prints.inLimit (b := .atom)
      ⟨?_, ?_, hroot.lexes, .root hb.reads, ⟨_, rfl, hroot.derives⟩, ?_⟩
    · rw [textIn_root, hcs]
      rfl
    · exact binding_root b
    · simp [isSum]
  · exact .inr (textIn_root b ▸ hstop.bind _)

/-- A negative power of zero, whose exponent prints. -/
theorem prints_zeroReciprocal {v : Rat} (hv : v < 0) (hp : PrintsInLimit voc bare (rat v)) :
    PrintsInLimit voc bare (power zero (rat v)) := by
  obtain ⟨ds, hds, s, ls, gs, hp⟩ | hstop := hp
  · have hbase : Lexes voc ['0'] [.number 0] :=
      Lexes.digits (n := 0) (DigitLimit.allows_of_le (by decide))
    have hwrites : Writes voc bare .power ('0' :: '^' :: ('(' :: (ds ++ [')'])))
        ([.number 0] ++ .operator .power :: .leftParen :: (ls ++ [.rightParen]))
        [Expr.power zero (ofFactors gs)] :=
      ⟨hbase.between (by decide) hp.lexes.brackets (by simp) (by simp),
        .power (.number 0) (.unsigned (.atom hp.phrase.brackets))⟩
    refine Prints.inLimit (b := .power) ⟨?_, ?_, hwrites.lexes, .zeroReciprocal hv hp.reads,
      ⟨_, rfl, hwrites.derives⟩, ?_⟩
    · rw [textIn_zeroReciprocal hv, hds]
      rfl
    · exact binding_zeroPower (isHalf_of_neg hv)
    · simp [isSum]
  · exact .inr (textIn_zeroReciprocal hv ▸ hstop.bind _)

/-- A negative power of a base that prints. -/
theorem prints_reciprocal {b : Expr} {v : Rat} (hexact : b.IsExact)
    (hroots : RootsIn voc (power b (rat v))) (hv : v < 0) (hzero : b.isZeroNumber = false)
    (hb : PrintsInLimit voc bare b) : PrintsInLimit voc bare (power b (rat v)) := by
  obtain ⟨bottom, hbottom, fs, ms, hreads, hdenominator⟩ | hstop := denominator_gives hexact hb
    (v := -v) (by linarith)
    fun hhalf => hroots b (rat v) rfl (.inr (by rw [neg_eq_iff_eq_neg.mp hhalf, neg_div]))
  · have hwrites := writes_one.divide hdenominator
    refine Prints.inLimit (b := .product) ⟨?_, ?_, hwrites.lexes, .reciprocal hv hzero hreads,
      hwrites.derives, by simp [isSum, one]⟩
    · rw [textIn_reciprocal hv hzero, hbottom]
      rfl
    · exact binding_reciprocal hv hzero
  · exact .inr (textIn_reciprocal hv hzero ▸ hstop.bind _)

/-- A power that is written with its exponent. -/
theorem prints_raised {b p : Expr} (hexactb : b.IsExact) (hexactp : p.IsExact)
    (hhalf : p.isHalf = false) (hnegative : p.isNegativeNumber = false)
    (hb : PrintsInLimit voc bare b) (hp : PrintsInLimit voc bare p) :
    PrintsInLimit voc bare (power b p) := by
  have htext : (power b p).textIn voc = _ := textIn_raised hhalf hnegative b
  rw [raised] at htext
  obtain ⟨s, cs, ks, fs, hb⟩ | ⟨s, hs, hstop⟩ := hb.cases hexactb
  swap
  · right
    rw [htext, hs]
    exact hstop.bind _
  obtain ⟨s', ds, ls, gs, hp⟩ | ⟨s', hs', hstop⟩ := hp.cases hexactp
  swap
  · right
    rw [htext, hb.binding, hb.text, hs']
    exact hstop.bind _
  obtain ⟨ms, hbase⟩ := hb.atom (s < .atom) (by simp)
  obtain ⟨ns, hexponent⟩ := hp.atom (s' < .atom) (by simp)
  have hlexes := hbase.lexes.between (d := '^') (k := .operator .power) (by decide)
    hexponent.lexes (by simp) (by simp)
  refine Prints.inLimit (b := .power) ⟨?_, ?_, hlexes, .power hhalf hnegative hb.reads hp.reads,
    ⟨_, rfl, .power hbase.derives (.unsigned (.atom hexponent.derives))⟩, by simp [isSum]⟩
  · rw [htext, hb.binding, hb.text, hp.binding, hp.text]
    rfl
  · exact binding_raised hhalf hnegative b

theorem prints_power {b p : Expr} (hexactb : b.IsExact) (hexactp : p.IsExact)
    (hroots : RootsIn voc (power b p)) (hb : PrintsInLimit voc bare b)
    (hp : PrintsInLimit voc bare p) : PrintsInLimit voc bare (power b p) := by
  cases hhalf : p.isHalf with
  | true =>
    obtain rfl := hexactp.eq_half hhalf
    exact prints_root (hroots b _ rfl (.inl rfl)) hb
  | false =>
  cases hnegative : p.isNegativeNumber with
  | false => exact prints_raised hexactb hexactp hhalf hnegative hb hp
  | true =>
    obtain ⟨v, hv, rfl⟩ := hexactp.exists_negative hnegative
    cases hzero : b.isZeroNumber with
    | true =>
      obtain rfl := hexactb.eq_zero hzero
      exact prints_zeroReciprocal hv hp
    | false => exact prints_reciprocal hexactb hroots hv hzero hb

theorem prints_call {n : String} (hn : n ∈ voc.functions) {es : List Expr}
    (hbare : es = [] → bare) (hes : ∀ e ∈ es, PrintsInLimit voc bare e) :
    PrintsInLimit voc bare (call n es) := by
  by_cases hne : es = []
  · subst hne
    refine Prints.inLimit (b := .atom) ⟨?_, rfl, lexes_call hn .nil, .call n [] (by simp),
      ⟨_, rfl, .bareCall n (hbare rfl)⟩, by simp [isSum]⟩
    rw [textIn_call, arguments]
    rfl
  · obtain ⟨cs, harguments, ks, ls, rfl, hreads, hwrites⟩ | hstop := arguments_gives hne hes
    · have hcall := writes_call hn hwrites
      refine Prints.inLimit (b := .atom) ⟨?_, rfl, hcall.lexes, .call n ls hreads,
        ⟨_, rfl, hcall.derives⟩, by simp [isSum]⟩
      rw [textIn_call, harguments]
      rfl
    · exact .inr (@textIn_call voc n es ▸ hstop.bind _)

/-! ## Every expression prints -/

theorem size_le_sizeAll {e : Expr} {es : List Expr} (h : e ∈ es) : e.size ≤ sizeAll es := by
  induction es with
  | nil => simp at h
  | cons d es ih =>
    rw [sizeAll]
    obtain rfl | h := List.mem_cons.mp h
    · omega
    · have := ih h
      omega

theorem size_pieceBody_le (e : Expr) : e.pieceBody.size ≤ e.size := by
  unfold pieceBody
  split
  · split
    · simp only [size]
      omega
    · exact le_rfl
  · exact le_rfl

theorem Expr.IsReadableIn.pieceBody {D : Dialect} {e : Expr} (h : e.IsReadableIn D) :
    e.pieceBody.IsReadableIn D := by
  unfold Expr.pieceBody
  split
  · split
    · exact (isReadableIn_power.mp h).2.1
    · exact h
  · exact h

omit [voc.IsAlphabetic] in
theorem Expr.IsReadableIn.rootsIn {e : Expr} (h : e.IsReadableIn (.written voc bare)) :
    RootsIn voc e := by
  rintro b p rfl
  exact (isReadableIn_power.mp h).1

/-- The number of nodes, with one more step to take for a sign. -/
def printRank (e : Expr) : Nat :=
  2 * e.size + if e.splitSign.1 then 1 else 0

theorem printRank_lt {d e : Expr} (h : d.size < e.size) : printRank d < printRank e := by
  unfold printRank
  split <;> split <;> omega

theorem printRank_splitSign_lt {e m : Expr} (he : e.IsExact) (h : e.splitSign = (true, m)) :
    printRank m < printRank e := by
  have hsize : m.size ≤ e.size := by
    have := e.size_splitSign_le
    rwa [h] at this
  have hsign : m.size < e.size ∨ m.splitSign.1 = false := by
    unfold splitSign at h
    split at h
    next v =>
      obtain ⟨q, rfl⟩ := he.exists_rat
      split at h
      next hq =>
        obtain rfl := (Prod.mk.inj h).2
        have hq' : q < 0 := by simpa using hq
        right
        simp [splitSign, not_lt.mpr hq'.le]
      next => simp at h
    next e =>
      obtain rfl := (Prod.mk.inj h).2
      left
      simp [size]
    next v rest =>
      obtain ⟨q, rfl⟩ := (isExact_product.mp he (number v) (by simp)).exists_rat
      split at h
      next hq =>
        have hq' : q < 0 := by simpa using hq
        obtain rfl := (Prod.mk.inj h).2
        cases rest with
        | nil =>
          left
          split <;> simp [ofRemaining, one, size, sizeAll]
        | cons r rest =>
          split
          · have := size_ofRemaining_le r rest
            left
            simp only [size, sizeAll] at *
            omega
          · right
            simp [ofRemaining, splitSign, not_lt.mpr hq'.le]
      next => simp at h
    next e rest =>
      obtain rfl := (Prod.mk.inj h).2
      have := size_ofRemaining_le e rest
      left
      simp only [size, sizeAll] at *
      omega
    next => simp at h
  obtain hlt | hfalse := hsign
  · exact printRank_lt hlt
  · simp only [printRank, h, hfalse, if_true, if_false, Bool.false_eq_true]
    omega

/-- Every expression that can be written with the names of a vocabulary has a text for it, unless
the limit stops it. -/
theorem prints_inLimit (e : Expr) (he : e.IsReadableIn (.written voc bare)) :
    PrintsInLimit voc bare e := by
  induction hn : printRank e using Nat.strong_induction_on generalizing e with
  | _ n ih =>
  subst hn
  have hparts : ∀ d : Expr, d.size < e.size → d.IsReadableIn (.written voc bare) →
      PrintsInLimit voc bare d :=
    fun d hd hread => ih _ (printRank_lt hd) d hread rfl
  cases hs : e.splitSign with
  | mk sign m =>
  cases sign with
  | true =>
    have hm : m.IsReadableIn (.written voc bare) := by
      have := he.splitSign
      rwa [hs] at this
    exact prints_of_splitSign he.isExact hs (ih _ (printRank_splitSign_lt he.isExact hs) m hm rfl)
  | false =>
    cases e with
    | number v =>
      obtain ⟨q, rfl⟩ := he.isExact.exists_rat
      have hq : 0 ≤ q := by
        by_contra hneg
        simp [splitSign, not_le.mp hneg] at hs
      show voc.digits.Gives ((rat q).textIn voc) _
      rw [textIn_number]
      refine (writeRat_gives voc.digits q).mono ?_
      rintro _ - ⟨hfits, rfl⟩
      obtain ⟨ks, hprints⟩ := @prints_literal voc bare _ q hq hfits
      exact ⟨_, ks, _, hprints⟩
    | symbol n => exact (prints_symbol (isReadableIn_symbol.mp he)).inLimit
    | sum ts =>
      obtain ⟨hne, hread⟩ := isReadableIn_sum.mp he
      obtain ⟨t, ts, rfl⟩ := List.exists_cons_of_ne_nil hne
      refine prints_sum (fun u hu => (hread u hu).isExact)
        (fun u hu => (hread u (List.mem_cons_of_mem _ hu)).splitSign.isExact)
        (hparts t ?_ (hread t List.mem_cons_self)) fun u hu =>
          hparts _ ?_ (hread u (List.mem_cons_of_mem _ hu)).splitSign
      · simp only [size, sizeAll]
        omega
      · have hsize := size_le_sizeAll hu
        have hmagnitude := u.size_splitSign_le
        simp only [size, sizeAll]
        omega
    | product fs =>
      obtain ⟨hne, hread⟩ := isReadableIn_product.mp he
      refine prints_product he.isExact hne (fun f hf => (hread f hf).rootsIn) (by rw [hs])
        fun f hf => hparts _ ?_ (hread f hf).pieceBody
      have hsize := size_le_sizeAll hf
      have hbody := size_pieceBody_le f
      simp only [size]
      omega
    | power b p =>
      obtain ⟨-, hb, hp⟩ := isReadableIn_power.mp he
      refine prints_power hb.isExact hp.isExact he.rootsIn (hparts b ?_ hb) (hparts p ?_ hp)
      all_goals
        have := b.size_pos
        have := p.size_pos
        simp only [size]
        omega
    | negation d => simp [splitSign] at hs
    | call n es =>
      obtain ⟨⟨hname, hbare⟩, hread⟩ := isReadableIn_call.mp he
      refine prints_call hname hbare fun d hd => hparts d ?_ (hread d hd)
      have hsize := size_le_sizeAll hd
      simp only [size]
      omega
    | hole => exact absurd he not_isReadableIn_hole

/-! ## Reading back -/

omit [voc.IsAlphabetic] in
/-- A text denotes one expression, whether the reader takes it or not. -/
theorem Prints.unique {d e : Expr} {a b : Binding} {cs : List Char} {ks ls : List TokenKind}
    {fs gs : List Expr} (h : Prints voc bare d a cs ks fs) (h' : Prints voc bare e b cs ls gs) :
    ofFactors fs = ofFactors gs := by
  obtain ⟨ts, hts, hfs⟩ := h.sum
  obtain ⟨us, hus, hgs⟩ := h'.sum
  obtain rfl := hts.lexes.unique hus.lexes
  rw [← hfs, ← hgs, hts.derives.unique hus.derives]

omit [voc.IsAlphabetic] in
/-- A text that prints an expression reads as the product of its factors. -/
theorem Prints.parse {e : Expr} {b : Binding} {cs : List Char} {ks : List TokenKind}
    {fs : List Expr} (h : Prints voc False e b cs ks fs) :
    Expr.parse voc cs = .ok (ofFactors fs) := by
  obtain ⟨ts, hts, heq⟩ := h.sum
  rw [parse_eq_ok hts.lexes hts.derives, heq]

end

/-! ### The standard vocabulary -/

/-- A printable expression has a text, unless the limit stops it. -/
theorem text_gives (limit : DigitLimit) {bare : Prop} {e : Expr}
    (he : e.IsReadableIn (.written .standard bare)) :
    limit.Gives (e.text limit) (PrintsAs (Vocabulary.standard.within limit) bare e) :=
  prints_inLimit e (Dialect.written_within .standard limit bare ▸ he)

/-- Without a limit it has one. -/
theorem exists_prints {bare : Prop} {e : Expr} (he : e.IsReadableIn (.written .standard bare)) :
    ∃ b cs ks fs, Prints .unbounded bare e b cs ks fs := by
  obtain ⟨cs, -, b, ks, fs, h⟩ := (text_gives .unlimited he).exists_of_unlimited
  exact ⟨b, cs, ks, fs, h⟩

/-- The text of a readable expression, and what it reads as. -/
theorem print_gives (limit : DigitLimit) {e : Expr} (he : e.IsReadable) :
    limit.Gives (e.print limit) fun text => ∃ fs,
      Expr.ofString (Settings.standard.within limit) text = .ok (ofFactors fs) ∧ Reads e fs := by
  refine (text_gives limit he).bind ?_
  rintro cs - ⟨b, ks, fs, hprints⟩
  refine .ok ⟨fs, ?_, hprints.reads⟩
  rw [Expr.ofString, Settings.vocabulary_within, String.toList_ofList]
  exact hprints.parse

/-- Printing an expression and reading the text succeed, unless the limit for digits stops the
printing, and what is read has the meaning of the expression: it has a value exactly where that has
one, and the same value. -/
theorem ofString_print {e : Expr} (he : e.IsReadable) :
    DigitLimit.standard.Gives e.print fun text => ∃ r, Expr.ofString .standard text = .ok r ∧
      ∀ M : Interpretation, r.meaning M = e.meaning M := by
  refine (print_gives .standard he).mono ?_
  rintro text - ⟨fs, hread, hreads⟩
  exact ⟨ofFactors fs, hread, fun M => by rw [meaning_ofFactors, hreads.meaning M]⟩

/-- A quotient with a sign in front of a sum and a root below the line. -/
theorem ofString_print_quotient :
    let e := product [negation (sum [symbol "x", rat (-1)]), power (symbol "y") (rat (-1 / 2))]
    e.IsReadable ∧ e.print = .ok "-((x-1)/sqrt(y))" ∧ DigitLimit.standard.Gives e.print fun text =>
      ∃ r, Expr.ofString .standard text = .ok r ∧
        ∀ M : Interpretation, r.meaning M = e.meaning M := by
  intro e
  have hx : IsIdentifier "x" := isIdentifier_letter (c := 'x') (by decide)
  have hy : IsIdentifier "y" := isIdentifier_letter (c := 'y') (by decide)
  have he : e.IsReadable := by simp [e, hx, hy]
  exact ⟨he, by decide +kernel, ofString_print he⟩

/-- A literal that is readable, the value of a text of 4302 characters, and too long for a text in
lowest terms. -/
theorem print_long_literal :
    let e := rat ((2 * 10 ^ 4300 - 1) / 2)
    e.IsReadable ∧ e.print = .error (.tooManyDigits 4300 none) :=
  ⟨by simp, by decide +kernel⟩

end AlgebraicForm
