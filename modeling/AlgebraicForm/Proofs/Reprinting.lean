import AlgebraicForm.Proofs.Decoding
import AlgebraicForm.Proofs.LimitedForms

/-!
# A text prints as itself

What the text of a tree is read back as is another tree: quotients are products with a power minus
one, signs are negations, square roots are calls, literals fall apart into numerator and
denominator. Printed again it gives the same text all the same, by other branches of the printer.
`PrintsAlike e r cs a b` says so of a tree `e` and what it is read back as: both have the text `cs`,
and their binding strengths `a` and `b` ask for the same brackets, though one may be a product where
the other has a sign in front.

* `Reads.eq_literal`, `Reads.isDivided`: what is read back is a literal only if the tree is one, and
  is never written below the line.
* `text_quotientFactors`: a quotient is written again from the pieces above and below its line.
* `Reads.reprints`: by induction on the rules of the printer, what is read back of a tree that has a
  text prints alike. Its parts have texts then, too.
* `print_reread`: the text of a normal form prints as itself.
-/

namespace AlgebraicForm

open AlgebraicForm.Expr

section

variable {voc : Vocabulary}

/-! ## Texts alike -/

/-- Two binding strengths for which the printer sets the same brackets, except under a sign. -/
def Binding.Alike (a b : Binding) : Prop :=
  (a ≤ .sum ↔ b ≤ .sum) ∧ (a < .power ↔ b < .power) ∧ (a < .atom ↔ b < .atom)

theorem Binding.Alike.refl (a : Binding) : a.Alike a :=
  ⟨.rfl, .rfl, .rfl⟩

/-- An expression without a sign in front does not bind as a negation does. -/
theorem binding_ne_negation {e : Expr} {a : Binding} (hs : e.splitSign.1 = false)
    (ha : e.binding = .ok a) : a ≠ .negation := by
  rintro rfl
  cases e with
  | number v =>
    have hv : v.isNegative = false := by
      cases hv : v.isNegative with
      | true => simp [splitSign, hv] at hs
      | false => rfl
    cases v with
    | exact q =>
      simp only [binding, numberBinding, hv, Bool.false_eq_true, ↓reduceIte] at ha
      split_ifs at ha <;> simp at ha
    | approx x => simp [binding, numberBinding, hv] at ha
  | negation => simp [splitSign] at hs
  | power b p =>
    simp only [binding, powerBinding] at ha
    split_ifs at ha <;> simp at ha
  | _ => simp [binding] at ha

/-- Two expressions with one text, whose strengths ask for the same brackets. -/
structure PrintsAlike (voc : Vocabulary) (e r : Expr) (cs : List Char) (a b : Binding) : Prop where
  text : e.textIn voc = .ok cs
  again : r.textIn voc = .ok cs
  binding : e.binding = .ok a
  rebinding : r.binding = .ok b
  alike : a.Alike b
  /-- A text that starts with a bracket is that of a product for both or for neither. -/
  opens : r.isProduct = e.isProduct ∨ cs.head? ≠ some '('
  /-- The second has a sign in front only if the first has one. -/
  sign : e.splitSign.1 = false → r.splitSign.1 = false

namespace PrintsAlike

variable {e r : Expr} {cs : List Char} {a b : Binding}

/-- The brackets that a minus sign in front asks for. -/
theorem opening (h : PrintsAlike voc e r cs a b) :
    (r.isProduct && cs.head? == some '(') = (e.isProduct && cs.head? == some '(') := by
  obtain hproduct | hhead := h.opens
  · rw [hproduct]
  · have hfalse : (cs.head? == some '(') = false := by simpa using hhead
    rw [hfalse, Bool.and_false, Bool.and_false]

/-- A minus sign in front. -/
theorem minus (h : PrintsAlike voc e r cs a b) :
    r.textIn voc >>= AlgebraicForm.minus r =
      e.textIn voc >>= AlgebraicForm.minus e := by
  have hstrength : decide (b ≤ .sum) = decide (a ≤ .sum) := decide_eq_decide.mpr h.alike.1.symm
  rw [h.text, h.again, ok_bind, ok_bind, AlgebraicForm.minus, AlgebraicForm.minus, h.binding,
    h.rebinding, ok_bind, ok_bind, h.opening, hstrength]

/-- Without a sign in front, neither binds as a negation does. -/
theorem ne_negation (h : PrintsAlike voc e r cs a b) (hs : e.splitSign.1 = false) :
    a ≠ .negation ∧ b ≠ .negation :=
  ⟨binding_ne_negation hs h.binding, binding_ne_negation (h.sign hs) h.rebinding⟩

/-- A minus sign in front of what has none yet. -/
theorem negation (h : PrintsAlike voc e r cs a b) (hb : b ≠ .negation) :
    (Expr.negation r).textIn voc = e.textIn voc >>= AlgebraicForm.minus e := by
  rw [← h.minus, textIn_negation, h.again, ok_bind, ok_bind, AlgebraicForm.minus, h.rebinding,
    ok_bind, ok_bind]
  simp [hb]

/-- Above the line. -/
theorem numeratorPiece (h : PrintsAlike voc e r cs a b) :
    numeratorPiece voc r = numeratorPiece voc e := by
  have hstrength : decide (b < .power) = decide (a < .power) :=
    decide_eq_decide.mpr h.alike.2.1.symm
  rw [Expr.numeratorPiece, Expr.numeratorPiece, h.text, h.again, h.binding, h.rebinding, ok_bind,
    ok_bind, ok_bind, ok_bind, hstrength]

end PrintsAlike

/-- What has a text prints alike. -/
def Reprints (voc : Vocabulary) (e r : Expr) : Prop :=
  ∀ cs, e.textIn voc = .ok cs → ∃ a b, PrintsAlike voc e r cs a b

/-! ## Texts of parts

Where an expression has a text, so have the parts that this is put together from. -/

section

variable {e b p : Expr} {cs : List Char}

theorem texts_of_raised (h : raised voc b p = .ok cs) :
    (∃ bs, b.textIn voc = .ok bs) ∧ ∃ ps, p.textIn voc = .ok ps := by
  rw [raised] at h
  obtain ⟨_, -, h⟩ := bind_eq_ok_iff.mp h
  obtain ⟨bs, hb, h⟩ := bind_eq_ok_iff.mp h
  obtain ⟨_, -, h⟩ := bind_eq_ok_iff.mp h
  obtain ⟨ps, hp, -⟩ := bind_eq_ok_iff.mp h
  exact ⟨⟨bs, hb⟩, ps, hp⟩

theorem text_of_denominator {v : Number} (h : denominator voc b v = .ok cs) :
    ∃ bs, b.textIn voc = .ok bs := by
  rw [denominator] at h
  split at h
  · obtain ⟨_, -, h⟩ := bind_eq_ok_iff.mp h
    obtain ⟨bs, hb, -⟩ := bind_eq_ok_iff.mp h
    exact ⟨bs, hb⟩
  · split at h
    · obtain ⟨bs, hb, -⟩ := bind_eq_ok_iff.mp h
      exact ⟨bs, hb⟩
    · obtain ⟨_, -, h⟩ := bind_eq_ok_iff.mp h
      obtain ⟨bs, hb, -⟩ := bind_eq_ok_iff.mp h
      exact ⟨bs, hb⟩

theorem text_of_numeratorPiece {q : Pieces} (h : e.numeratorPiece voc = .ok q) :
    ∃ cs, e.textIn voc = .ok cs := by
  rw [numeratorPiece] at h
  obtain ⟨_, -, h⟩ := bind_eq_ok_iff.mp h
  obtain ⟨cs, hcs, -⟩ := bind_eq_ok_iff.mp h
  exact ⟨cs, hcs⟩

theorem texts_of_laterTerms {ts : List Expr} (h : laterTerms voc ts = .ok cs) :
    ∀ t ∈ ts, ∃ cs, t.splitSign.2.textIn voc = .ok cs := by
  induction ts generalizing cs with
  | nil => exact List.forall_mem_nil _
  | cons t ts ih =>
    rw [laterTerms] at h
    obtain ⟨_, -, h⟩ := bind_eq_ok_iff.mp h
    obtain ⟨inner, hinner, h⟩ := bind_eq_ok_iff.mp h
    obtain ⟨later, hlater, -⟩ := bind_eq_ok_iff.mp h
    exact List.forall_mem_cons.mpr ⟨⟨inner, hinner⟩, ih hlater⟩

theorem arguments_cons (e : Expr) {es : List Expr} (hne : es ≠ []) :
    arguments voc (e :: es) = (do
      let first ← e.textIn voc
      let later ← arguments voc es
      return first ++ ',' :: later) := by
  rw [arguments]
  exact fun h => hne h

theorem texts_of_arguments {es : List Expr} (h : arguments voc es = .ok cs) :
    ∀ e ∈ es, ∃ cs, e.textIn voc = .ok cs := by
  induction es generalizing cs with
  | nil => exact List.forall_mem_nil _
  | cons e es ih =>
    by_cases hne : es = []
    · subst hne
      rw [arguments] at h
      simpa using ⟨cs, h⟩
    · rw [arguments_cons e hne] at h
      obtain ⟨first, hfirst, h⟩ := bind_eq_ok_iff.mp h
      obtain ⟨later, hlater, -⟩ := bind_eq_ok_iff.mp h
      exact List.forall_mem_cons.mpr ⟨⟨first, hfirst⟩, ih hlater⟩

end

/-! ## What is read back -/

theorem ofFactors_of_two_le {fs : List Expr} (h : 2 ≤ fs.length) : ofFactors fs = product fs := by
  match fs, h with
  | _ :: _ :: _, _ => rfl

section

variable {e : Expr} {fs : List Expr}

/-- A quotient is read back as a product, also where its coefficient is one. -/
theorem two_le_length_quotient {q : Rat} {es : List Expr} {ls : ReadPieces}
    (he : (product es).IsTidy)
    (hes : es = rat q :: ls.map (·.1) ∨ (q = 1 ∧ es = ls.map (·.1))) :
    2 ≤ (quotientFactors ((if q.num = 1 then [] else [rat q.num]) ++ ls.above)
      ((if q.den = 1 then [] else [rat q.den]) ++ ls.below)).length := by
  simpa [coefficientFactor] using two_le_length_pieces he.isBuilt hes

/-- Only a whole number that is not negative is read back as a literal. -/
theorem Reads.eq_literal (h : Reads e fs) (he : e.IsTidy) (hn : (ofFactors fs).isNumber = true) :
    ∃ q : Rat, 0 ≤ q ∧ q.den = 1 ∧ e = rat q ∧ ofFactors fs = rat q := by
  cases h with
  | @literal q hq =>
    unfold literalFactors at hn ⊢
    split
    next hone => exact ⟨q, hq, hone, rfl, by rw [(Rat.den_eq_one_iff q).mp hone]; rfl⟩
    next hden => simp [hden, ofFactors, isNumber] at hn
  | signed _ _ _ hneg =>
    cases hneg with
    | all => simp [ofFactors, isNumber] at hn
    | first fs => cases fs <;> simp [ofFactors, isNumber] at hn
  | singleTerm =>
    obtain ⟨⟨hlen, -⟩, -⟩ := isBuilt_sum.mp he.isBuilt
    simp at hlen
  | quotient ls _ _ hes =>
    rw [ofFactors_of_two_le (two_le_length_quotient he hes)] at hn
    simp [isNumber] at hn
  | _ => simp [ofFactors, isNumber] at hn

/-- A power whose exponent is read back is not written below the line. -/
theorem isDivided_of_reads {p : Expr} (h : Reads p fs) (hp : p.IsTidy) (d : Expr) :
    (Expr.power d (ofFactors fs)).isDivided = false := by
  cases hnumber : (ofFactors fs).isNumber with
  | true =>
    obtain ⟨v, hv, -, -, hback⟩ := h.eq_literal hp hnumber
    simp [hback, isDivided, not_lt.mpr hv]
  | false =>
    unfold Expr.isDivided
    split
    next heq =>
      rw [(Expr.power.inj heq).2] at hnumber
      simp [isNumber] at hnumber
    next => rfl

/-- Nothing is read back as a power that is written below the line. -/
theorem Reads.isDivided (h : Reads e fs) (he : e.IsTidy) : (ofFactors fs).isDivided = false := by
  cases h with
  | @literal q hq =>
    unfold literalFactors
    split <;> rfl
  | signed _ _ _ hneg =>
    cases hneg with
    | all => rfl
    | first fs => cases fs <;> rfl
  | singleTerm =>
    obtain ⟨⟨hlen, -⟩, -⟩ := isBuilt_sum.mp he.isBuilt
    simp at hlen
  | quotient ls _ _ hes =>
    rw [ofFactors_of_two_le (two_le_length_quotient he hes)]
    rfl
  | zeroReciprocal _ hv => exact isDivided_of_reads hv (isTidy_rat _) _
  | power _ _ _ hp => exact isDivided_of_reads hp he.exponent _
  | _ => rfl

/-- A factor of a product is read back without a sign and as no literal. -/
theorem Reads.of_isFactor (h : Reads e fs) (he : e.IsTidy) (hf : e.IsFactor) :
    (ofFactors fs).isNumber = false ∧ ∀ d, ofFactors fs ≠ negation d := by
  have hnumber : (ofFactors fs).isNumber = false := by
    by_contra hn
    obtain ⟨q, -, -, rfl, -⟩ := h.eq_literal he (by simpa using hn)
    simp [IsFactor, isNumber] at hf
  refine ⟨hnumber, ?_⟩
  cases h with
  | literal => simp [IsFactor, isNumber] at hf
  | signed _ hsplit =>
    -- only literals and products have a sign to take out
    cases e with
    | number => simp [IsFactor, isNumber] at hf
    | product => simp [IsFactor, isProduct] at hf
    | negation => exact absurd he.isBuilt not_isBuilt_negation
    | _ => simp [splitSign] at hsplit
  | singleTerm =>
    obtain ⟨⟨hlen, -⟩, -⟩ := isBuilt_sum.mp he.isBuilt
    simp at hlen
  | quotient => simp [IsFactor, isProduct] at hf
  | _ => simp [ofFactors]

end

/-! ## Quotients -/

/-- A factor that is written above the line as `cs`. It is no negation, and a literal only if it is
a whole number greater than one. -/
structure IsUpright (voc : Vocabulary) (e : Expr) (cs : List Char) : Prop where
  unsigned : ∀ d, e ≠ negation d
  literal : e.isNumber = true → ∃ n : Nat, 2 ≤ n ∧ e = rat n
  undivided : e.isDivided = false
  written : e.numeratorPiece voc = .ok ⟨[cs], []⟩

theorem piece_of_isDivided_eq_false {e : Expr} (h : e.isDivided = false) :
    e.piece voc = numeratorPiece voc e := by
  rw [piece.eq_def]
  split
  next c v =>
    have hcond : (v.isNegative && !c.isZeroNumber) = false := h
    rw [if_neg (by simp [hcond])]
  next => rfl

theorem IsUpright.piece {e : Expr} {cs : List Char} (h : IsUpright voc e cs) :
    e.piece voc = .ok ⟨[cs], []⟩ :=
  (piece_of_isDivided_eq_false h.undivided).trans h.written

theorem intText_natCast (n : Nat) : Number.intText n = Decimal.digits n := by
  rw [Number.intText, if_neg (by omega), Int.natAbs_natCast]

theorem ratFits_natCast {limit : DigitLimit} {n : Nat} :
    RatFits limit (n : Rat) ↔ limit.Allows (Decimal.digits n).length := by
  simp [RatFits, allows_digits_one]

theorem textIn_rat_eq_ok_iff {q : Rat} {cs : List Char} :
    (rat q).textIn voc = .ok cs ↔ RatFits voc.digits q ∧ cs = Number.ratText q := by
  rw [textIn_number]
  exact writeRat_eq_ok_iff

/-- A whole number greater than one. -/
theorem isUpright_literal {n : Nat} (hn : 2 ≤ n)
    (hfits : voc.digits.Allows (Decimal.digits n).length) :
    IsUpright voc (rat n) (Decimal.digits n) where
  unsigned := nofun
  literal _ := ⟨n, hn, rfl⟩
  undivided := rfl
  written := by
    have hratText : Number.ratText (n : Rat) = Decimal.digits n := by
      simp [Number.ratText, intText_natCast]
    have htext : (rat n).textIn voc = .ok (Decimal.digits n) :=
      textIn_rat_eq_ok_iff.mpr ⟨ratFits_natCast.mpr hfits, hratText.symm⟩
    have hnonneg : ¬(n : Rat) < 0 := not_lt.mpr n.cast_nonneg
    have hbinding : numberBinding (.exact (n : Rat)) = .atom := by simp [numberBinding, hnonneg]
    have hstrong : ¬Binding.atom < .power := by decide
    rw [numeratorPiece, htext]
    simp [binding, hbinding, hstrong, bracketed]

/-- A whole number that is written is not too long. -/
theorem IsUpright.allows {n : Nat} {cs : List Char} (h : IsUpright voc (rat n) cs) :
    voc.digits.Allows (Decimal.digits n).length := by
  have hwritten := h.written
  rw [numeratorPiece] at hwritten
  obtain ⟨_, -, hwritten⟩ := bind_eq_ok_iff.mp hwritten
  obtain ⟨inner, hinner, -⟩ := bind_eq_ok_iff.mp hwritten
  exact ratFits_natCast.mp (textIn_rat_eq_ok_iff.mp hinner).1

/-- A product whose first factor is upright has no sign in front. -/
theorem IsUpright.splitSign {f : Expr} {cs : List Char} (h : IsUpright voc f cs) (fs : List Expr) :
    (product (f :: fs)).splitSign.1 = false := by
  cases f with
  | number v =>
    obtain ⟨n, -, heq⟩ := h.literal rfl
    obtain rfl := Expr.number.inj heq
    have hnonneg : ¬(n : Rat) < 0 := not_lt.mpr n.cast_nonneg
    simp [Expr.splitSign, hnonneg]
  | negation d => exact absurd rfl (h.unsigned d)
  | _ => rfl

theorem factorPieces_append (es fs : List Expr) : factorPieces voc (es ++ fs) = (do
    let first ← factorPieces voc es
    let later ← factorPieces voc fs
    return first.append later) := by
  induction es with
  | nil =>
    rw [List.nil_append, factorPieces, ok_bind]
    cases factorPieces voc fs <;> rfl
  | cons e es ih =>
    rw [List.cons_append, factorPieces, factorPieces, ih]
    cases e.piece voc with
    | error => rfl
    | ok p =>
      cases factorPieces voc es with
      | error => rfl
      | ok q =>
        cases factorPieces voc fs with
        | error => rfl
        | ok r => simp [Pieces.append]

/-- Upright factors are all above the line. -/
theorem factorPieces_upright {fs : List Expr} {tops : List (List Char)}
    (h : List.Forall₂ (IsUpright voc) fs tops) : factorPieces voc fs = .ok ⟨tops, []⟩ := by
  induction h with
  | nil => rw [factorPieces]
  | cons hf _ ih =>
    rw [factorPieces, hf.piece, ih]
    rfl

/-- The text of a product whose first factor is upright. -/
theorem IsUpright.textIn_product {f : Expr} {cs : List Char} (h : IsUpright voc f cs)
    {fs : List Expr} {p : Pieces} (hp : factorPieces voc (f :: fs) = .ok p) :
    (product (f :: fs)).textIn voc = p.text voc := by
  cases hf : f.isNumber with
  | true =>
    -- the coefficient is written like a factor
    obtain ⟨n, hn, rfl⟩ := h.literal hf
    have hone : (n : Int) ≠ 1 := by omega
    have hfront : Pieces.ofCoefficient voc.digits (.exact (n : Rat)) =
        .ok ⟨[Decimal.digits n], []⟩ :=
      ofCoefficient_eq_ok_iff.mpr ⟨ratFits_natCast.mpr h.allows, by
        simp [coefficientPieces, hone, intText_natCast]⟩
    obtain ⟨first, hfirst, hrest⟩ := bind_eq_ok_iff.mp (factorPieces.eq_2 _ _ _ ▸ hp)
    obtain rfl := Except.ok.inj ((isUpright_literal hn h.allows).piece.symm.trans hfirst)
    obtain ⟨later, hlater, hp⟩ := bind_eq_ok_iff.mp hrest
    obtain rfl := Except.ok.inj hp
    rw [textIn_product_number, if_neg (by simp), quotient, hfront, ok_bind, hlater, ok_bind]
  | false =>
    rw [AlgebraicForm.textIn_product (List.cons_ne_nil _ _), hp, ok_bind]
    · rintro v rest heq
      rw [(List.cons.inj heq).1] at hf
      simp [isNumber] at hf
    · exact fun d rest heq => h.unsigned d (List.cons.inj heq).1

/-- What stands below the line alone has the brackets that it has as a factor. -/
theorem denominator_one {e : Expr} {cs : List Char}
    (h : e.numeratorPiece voc = .ok ⟨[cs], []⟩) :
    e.denominator voc (.exact 1) = .ok cs := by
  rw [numeratorPiece] at h
  obtain ⟨a, ha, h⟩ := bind_eq_ok_iff.mp h
  obtain ⟨inner, hinner, h⟩ := bind_eq_ok_iff.mp h
  simp only [pure_eq_ok, Except.ok.injEq, Pieces.mk.injEq, List.cons.injEq, and_true] at h
  rw [denominator, if_pos (by simp), ha, hinner, ok_bind, ok_bind, h]
  rfl

/-- A factor with the exponent minus one is written below the line. -/
theorem piece_reciprocal {e : Expr} (he : e.isZeroNumber = false) {cs : List Char}
    (h : e.denominator voc (.exact 1) = .ok cs) :
    (power e minusOne).piece voc = .ok ⟨[], [cs]⟩ := by
  rw [minusOne, piece]
  simp [he, h]

theorem IsUpright.isZeroNumber {e : Expr} {cs : List Char} (h : IsUpright voc e cs) :
    e.isZeroNumber = false := by
  cases hnumber : e.isNumber with
  | true =>
    obtain ⟨n, hn, rfl⟩ := h.literal hnumber
    have hpos : (n : Rat) ≠ 0 := by positivity
    simp [Expr.isZeroNumber, hpos]
  | false => cases e <;> simp_all [Expr.isZeroNumber, isNumber]

/-- What stands below the line is written there again. -/
theorem piece_below {ds : List Expr} {bottoms : List (List Char)} (hne : ds ≠ [])
    (hd : List.Forall₂ (IsUpright voc) ds bottoms) {top cs : List Char}
    (h : Pieces.overText voc top bottoms = .ok cs) :
    ∃ bottom, (power (ofFactors ds) minusOne).piece voc = .ok ⟨[], [bottom]⟩ ∧
      Pieces.overText voc top [bottom] = .ok cs := by
  cases hd with
  | nil => exact absurd rfl hne
  | @cons d bottom ds bottoms hfirst hrest =>
  cases hrest with
  | nil => exact ⟨bottom, piece_reciprocal hfirst.isZeroNumber (denominator_one hfirst.written), h⟩
  | @cons d' bottom' ds bottoms hsecond hrest =>
    -- several factors are read back as a product, which has brackets around it
    have hpieces := factorPieces_upright (.cons hfirst (.cons hsecond hrest))
    obtain ⟨inner, hinner, hcs⟩ := bind_eq_ok_iff.mp h
    have htext : (product (d :: d' :: ds)).textIn voc = .ok inner := by
      rw [hfirst.textIn_product hpieces, Pieces.text_eq, Pieces.topText, hinner]
      rfl
    have hweak : Binding.product < .power := by decide
    refine ⟨bracketed true inner, piece_reciprocal rfl ?_, hcs⟩
    rw [denominator, if_pos (by simp)]
    simp [binding, htext, hweak, ofFactors]

/-- A quotient is written again from the pieces above and below its line. -/
theorem text_quotientFactors {ns ds : List Expr} {tops bottoms : List (List Char)}
    (hn : List.Forall₂ (IsUpright voc) ns tops) (hd : List.Forall₂ (IsUpright voc) ds bottoms)
    (hlen : ds = [] → ns ≠ []) {cs : List Char}
    (h : Pieces.text voc ⟨tops, bottoms⟩ = .ok cs) :
    (product (quotientFactors ns ds)).textIn voc = .ok cs := by
  rw [Pieces.text_eq] at h
  obtain ⟨top, htop, hover⟩ := bind_eq_ok_iff.mp h
  obtain ⟨under, hunder, hagain⟩ : ∃ under,
      factorPieces voc (if ds = [] then [] else [power (ofFactors ds) minusOne]) =
        .ok ⟨[], under⟩ ∧
      Pieces.overText voc top under = .ok cs := by
    by_cases hne : ds = []
    · subst hne
      obtain rfl := List.forall₂_nil_left_iff.mp hd
      exact ⟨[], by rw [if_pos rfl, factorPieces], hover⟩
    · obtain ⟨bottom, hpiece, hagain⟩ := piece_below hne hd hover
      refine ⟨[bottom], ?_, hagain⟩
      rw [if_neg hne, factorPieces, factorPieces, hpiece]
      rfl
  cases hn with
  | nil =>
    -- nothing is above the line, where a one is written that is no piece
    have hne : ds ≠ [] := fun hds => hlen hds rfl
    rw [quotientFactors, if_pos rfl, if_neg hne]
    rw [if_neg hne] at hunder
    rw [List.singleton_append, one, textIn_product_number, if_neg (by simp), quotient, hunder]
    show Pieces.text voc ⟨[] ++ [], [] ++ under⟩ = _
    rw [Pieces.text_eq]
    exact bind_eq_ok_iff.mpr ⟨top, htop, hagain⟩
  | @cons n piece ns tops hfirst hrest =>
    have hpieces : factorPieces voc (quotientFactors (n :: ns) ds) =
        .ok ⟨piece :: tops, under⟩ := by
      rw [quotientFactors, if_neg (List.cons_ne_nil _ _), factorPieces_append,
        factorPieces_upright (.cons hfirst hrest), hunder]
      simp [Pieces.append]
    rw [quotientFactors, if_neg (List.cons_ne_nil _ _), List.cons_append] at hpieces ⊢
    rw [hfirst.textIn_product hpieces, Pieces.text_eq]
    exact bind_eq_ok_iff.mpr ⟨top, htop, hagain⟩

theorem splitSign_quotientFactors {ns : List Expr} {tops : List (List Char)}
    (hn : List.Forall₂ (IsUpright voc) ns tops) (ds : List Expr) :
    (product (quotientFactors ns ds)).splitSign.1 = false := by
  cases hn with
  | nil => rfl
  | cons hfirst =>
    rw [quotientFactors, if_neg (List.cons_ne_nil _ _)]
    exact hfirst.splitSign _

/-! ## Literals and powers -/

/-- The numerator or denominator of a coefficient, which is left out if it is one. -/
theorem isUpright_coefficient {n : Nat} (hn : n ≠ 0)
    (hfits : voc.digits.Allows (Decimal.digits n).length) :
    List.Forall₂ (IsUpright voc) (if n = 1 then [] else [rat n])
      (if n = 1 then [] else [Decimal.digits n]) := by
  split
  next => exact .nil
  next hone => exact .cons (isUpright_literal (by omega) hfits) .nil

@[inherit_doc isUpright_coefficient]
theorem isUpright_numerator {q : Rat} (hq : 0 < q)
    (hfits : voc.digits.Allows (Decimal.digits q.num.natAbs).length) :
    List.Forall₂ (IsUpright voc) (if q.num = 1 then [] else [rat q.num])
      (if q.num = 1 then [] else [Number.intText q.num]) := by
  have hpos : 0 < q.num := Rat.num_pos.mpr hq
  obtain ⟨n, hn⟩ := Int.eq_ofNat_of_zero_le hpos.le
  rw [hn, Int.natAbs_natCast] at hfits
  have hcoefficient := isUpright_coefficient (by omega) hfits
  rw [hn, intText_natCast]
  simpa using hcoefficient

/-- The text of a number starts with no bracket. -/
theorem head?_digits (n : Nat) (cs : List Char) : (Decimal.digits n ++ cs).head? ≠ some '(' := by
  obtain ⟨c, rest, hdigits⟩ := List.exists_cons_of_ne_nil
    (show Decimal.digits n ≠ [] from Nat.toDigits_ne_nil)
  have hmem : c ∈ Nat.toDigits 10 n := by
    show c ∈ Decimal.digits n
    rw [hdigits]
    exact List.mem_cons_self
  have hdigit : c.isDigit = true := Nat.isDigit_of_mem_toDigits (by decide) (by decide) hmem
  rw [hdigits, List.cons_append, List.head?_cons]
  rintro heq
  rw [Option.some.inj heq] at hdigit
  exact absurd hdigit (by decide)

/-- A fraction is written again from its numerator and its denominator. -/
theorem printsAlike_literal {q : Rat} (hq : 0 ≤ q) (hfits : RatFits voc.digits q) :
    ∃ b, PrintsAlike voc (rat q) (ofFactors (literalFactors q)) (Number.ratText q)
      (numberBinding (.exact q)) b := by
  have hsign : (rat q).splitSign.1 = false := by simp [splitSign, not_lt.mpr hq]
  have hself : (rat q).textIn voc = .ok (Number.ratText q) :=
    textIn_rat_eq_ok_iff.mpr ⟨hfits, rfl⟩
  by_cases hden : q.den = 1
  · have hsame : ofFactors (literalFactors q) = rat q := by
      rw [literalFactors, if_pos hden, (Rat.den_eq_one_iff q).mp hden]
      rfl
    rw [hsame]
    exact ⟨_, hself, hself, rfl, rfl, .refl _, .inl rfl, id⟩
  · have hpos : 0 < q := lt_of_le_of_ne hq fun h => hden (by rw [← h]; rfl)
    have hfactors : literalFactors q =
        quotientFactors (if q.num = 1 then [] else [rat q.num]) [rat q.den] := by
      unfold literalFactors quotientFactors
      by_cases hnum : q.num = 1 <;> simp [hden, hnum, ofFactors, one]
    have hdenominator := isUpright_coefficient q.den_nz hfits.2
    rw [if_neg hden, if_neg hden] at hdenominator
    have htext : Pieces.text voc ⟨if q.num = 1 then [] else [Number.intText q.num],
        [Decimal.digits q.den]⟩ = .ok (Number.ratText q) := by
      have hratText : Number.ratText q = Number.intText q.num ++ '/' :: Decimal.digits q.den := by
        simp [Number.ratText, hden]
      rw [hratText]
      split
      next hnum =>
        rw [hnum]
        rfl
      next => rfl
    have hagain :=
      text_quotientFactors (isUpright_numerator hpos hfits.1) hdenominator (by simp) htext
    have hlen : 2 ≤ (literalFactors q).length := by simp [literalFactors, hden]
    have hproduct := ofFactors_of_two_le hlen
    rw [← hfactors, ← hproduct] at hagain
    have hbinding : numberBinding (.exact q) = .product := by
      simp [numberBinding, not_lt.mpr hq, hden]
    refine ⟨.product, hself, hagain, rfl, ?_, ?_, .inr ?_, fun _ => ?_⟩
    · rw [hproduct]
      rfl
    · rw [hbinding]
      exact .refl _
    · obtain ⟨n, hn⟩ := Int.eq_ofNat_of_zero_le (Rat.num_nonneg.mpr hq)
      rw [Number.ratText, if_neg hden, hn, intText_natCast]
      exact head?_digits n _
    · have hnum : ¬(q.num : Rat) < 0 := not_lt.mpr (by exact_mod_cast Rat.num_nonneg.mpr hq)
      rw [hproduct, literalFactors, splitSign, if_neg (by simpa using hnum)]

/-- An exponent is read back as one. -/
theorem Reads.exponent {p : Expr} {gs : List Expr} (h : Reads p gs) (hp : p.IsTidy) :
    (ofFactors gs).isHalf = false ∧ (ofFactors gs).isNegativeNumber = false := by
  cases hnumber : (ofFactors gs).isNumber with
  | true =>
    obtain ⟨q, hq, hden, -, hback⟩ := h.eq_literal hp hnumber
    rw [hback]
    refine ⟨?_, by simpa [isNegativeNumber] using hq⟩
    have hne : q ≠ 1 / 2 := by
      rintro rfl
      exact absurd hden (by decide +kernel)
    simpa [Expr.isHalf] using hne
  | false =>
    constructor <;> cases hr : ofFactors gs <;> simp_all [isHalf, isNegativeNumber, isNumber]

/-- A power of what is read back of its base and its exponent. -/
theorem PrintsAlike.raised {b p r t : Expr} {bs ps : List Char} {a a' c c' : Binding}
    (hb : PrintsAlike voc b r bs a a') (hp : PrintsAlike voc p t ps c c') :
    Expr.raised voc b p = .ok (bracketed (a < .atom) bs ++ '^' :: bracketed (c < .atom) ps) ∧
      Expr.raised voc r t = Expr.raised voc b p := by
  have hbase : decide (a' < .atom) = decide (a < .atom) := decide_eq_decide.mpr hb.alike.2.2.symm
  have hexponent : decide (c' < .atom) = decide (c < .atom) :=
    decide_eq_decide.mpr hp.alike.2.2.symm
  rw [Expr.raised, Expr.raised, hb.text, hb.again, hb.binding, hb.rebinding, hp.text, hp.again,
    hp.binding, hp.rebinding]
  simp only [ok_bind, pure_eq_ok, hbase, hexponent, and_self]

/-- What stands below the line with an exponent of its own is a power or a root. -/
theorem denominator_eq_raised {v : Rat} (hone : v ≠ 1) (hhalf : v ≠ 1 / 2) (b : Expr) :
    b.denominator voc (.exact v) = raised voc b (rat v) := by
  rw [denominator, if_neg (by simpa using hone), if_neg (by simpa using hhalf), raised,
    textIn_number]
  rfl

/-! ## Factors -/

section

variable {e : Expr} {fs : List Expr} {cs : List Char} {a b : Binding}

/-- What a factor is read back as is written like the factor. -/
theorem PrintsAlike.upright (h : PrintsAlike voc e (ofFactors fs) cs a b) (hreads : Reads e fs)
    (he : e.IsTidy) (hf : e.IsFactor) :
    ∃ top, IsUpright voc (ofFactors fs) top ∧ e.numeratorPiece voc = .ok ⟨[top], []⟩ := by
  obtain ⟨hnumber, hunsigned⟩ := hreads.of_isFactor he hf
  have hpiece : e.numeratorPiece voc = .ok ⟨[bracketed (a < .power) cs], []⟩ := by
    rw [Expr.numeratorPiece, h.binding, h.text]
    rfl
  exact ⟨_, ⟨hunsigned, by simp [hnumber], hreads.isDivided he, h.numeratorPiece.trans hpiece⟩,
    hpiece⟩

/-- What a base with a negative exponent is read back as is written below the line like it. -/
theorem PrintsAlike.below {v : Rat} (h : PrintsAlike voc e (ofFactors fs) cs a b)
    (hreads : Reads e fs)
    (he : (Expr.power e (rat v)).IsTidy) (hv : v < 0) (hzero : e.isZeroNumber = false)
    {bottom : List Char} (hbottom : e.denominator voc (.exact (-v)) = .ok bottom) :
    IsUpright voc (belowLine (-v) (ofFactors fs)) bottom := by
  unfold belowLine
  split_ifs with hone hhalf
  · -- a bare base, which is a factor
    obtain rfl : v = -1 := by linarith
    have hinteger : (rat (-1)).isIntegerNumber = true :=
      (isIntegerNumber_iff (isExact_rat _)).mpr ⟨-1, by norm_num⟩
    obtain ⟨⟨-, hwhole⟩, -⟩ := isBuilt_power.mp he.isBuilt
    have hfactor : e.IsFactor := by
      refine ⟨isNumber_of_reciprocal he hzero, ?_⟩
      cases e with
      | product es => exact absurd rfl ((hwhole hinteger).2 es)
      | _ => rfl
    obtain ⟨top, hupright, hpiece⟩ := h.upright hreads he.base hfactor
    rw [neg_neg, denominator_one hpiece] at hbottom
    exact Except.ok.inj hbottom ▸ hupright
  · have hroot : bottom = "sqrt(".toList ++ cs ++ [')'] := by
      rw [denominator, if_neg (by simpa using hone), if_pos (by simpa using hhalf), h.text]
        at hbottom
      exact (Except.ok.inj hbottom).symm
    refine ⟨by simp, by simp [isNumber], rfl, ?_⟩
    have hstrong : ¬Binding.atom < .power := by decide
    rw [hroot, Expr.numeratorPiece, textIn_call, arguments, h.again]
    simp [Expr.binding, hstrong, bracketed]
  · -- a power, whose exponent falls apart into numerator and denominator
    rw [denominator_eq_raised hone hhalf] at hbottom
    obtain ⟨-, ps, hps⟩ := texts_of_raised hbottom
    obtain ⟨c, hexponent⟩ := printsAlike_literal (by linarith) (textIn_rat_eq_ok_iff.mp hps).1
    have hliteral : Reads (rat (-v)) (literalFactors (-v)) := .literal (by linarith)
    obtain ⟨hnohalf, hnonneg⟩ := hliteral.exponent (isTidy_rat _)
    obtain ⟨hraised, hagain⟩ := h.raised hexponent
    have hstrong : ¬Binding.power < .power := by decide
    refine ⟨by simp, by simp [isNumber], isDivided_of_reads hliteral (isTidy_rat _) _, ?_⟩
    rw [Expr.numeratorPiece, textIn_raised hnohalf hnonneg, hagain, hbottom]
    simp [Expr.binding, powerBinding, hnohalf, hnonneg, hstrong, bracketed]

end

/-- The pieces of factors, which are written again from what the factors are read back as. -/
theorem factorPieces_of_reads {ls : ReadPieces} (htidy : ∀ l ∈ ls, l.1.IsTidy ∧ l.1.IsFactor)
    (hreads : ∀ l ∈ ls, Reads l.1.pieceBody l.2)
    (h : ∀ l ∈ ls, Reprints voc l.1.pieceBody (ofFactors l.2)) {p : Pieces}
    (hp : factorPieces voc (ls.map (·.1)) = .ok p) :
    List.Forall₂ (IsUpright voc) ls.above p.numerator ∧
      List.Forall₂ (IsUpright voc) ls.below p.denominator := by
  induction ls generalizing p with
  | nil =>
    rw [List.map_nil, factorPieces] at hp
    exact Except.ok.inj hp ▸ ⟨.nil, .nil⟩
  | cons l ls ih =>
    rw [List.forall_mem_cons] at htidy hreads h
    rw [List.map_cons, factorPieces] at hp
    obtain ⟨first, hfirst, hp⟩ := bind_eq_ok_iff.mp hp
    obtain ⟨later, hlater, hp⟩ := bind_eq_ok_iff.mp hp
    obtain rfl := Except.ok.inj hp
    obtain ⟨habove, hbelow⟩ := ih htidy.2 hreads.2 h.2 hlater
    obtain ⟨e, fs⟩ := l
    cases hdiv : e.isDivided with
    | true =>
      obtain ⟨c, v, rfl, hv, hzero, hbody, hexponent⟩ := divided_of_isDivided htidy.1.1.isExact hdiv
      have hreads' := hreads.1
      have halike := h.1
      simp only [hbody] at halike hreads'
      have hbottom : ∃ bottom, c.denominator voc (.exact (-v)) = .ok bottom ∧
          first = ⟨[], [bottom]⟩ := by
        rw [piece] at hfirst
        simp only [Number.isNegative_exact, hv, hzero, decide_true, Bool.not_false, Bool.and_self,
          if_true, Number.neg_exact] at hfirst
        obtain ⟨bottom, hbottom, hfirst⟩ := bind_eq_ok_iff.mp hfirst
        exact ⟨bottom, hbottom, (Except.ok.inj hfirst).symm⟩
      obtain ⟨bottom, hbottom, rfl⟩ := hbottom
      obtain ⟨cs, hcs⟩ := text_of_denominator hbottom
      obtain ⟨a, b, hc⟩ := halike cs hcs
      have hupright := hc.below hreads' htidy.1.1 hv hzero hbottom
      refine ⟨by simpa [ReadPieces.above, hdiv, Pieces.append] using habove, ?_⟩
      have hcons : ReadPieces.below ((power c (rat v), fs) :: ls) =
          belowLine (-v) (ofFactors fs) :: ReadPieces.below ls := by
        simp [ReadPieces.below, hdiv, hexponent]
      rw [hcons]
      exact .cons hupright hbelow
    | false =>
      have hreads' := hreads.1
      have halike := h.1
      rw [pieceBody_of_isDivided_eq_false hdiv] at halike hreads'
      rw [piece_of_isDivided_eq_false hdiv] at hfirst
      obtain ⟨cs, hcs⟩ := text_of_numeratorPiece hfirst
      obtain ⟨a, b, he⟩ := halike cs hcs
      obtain ⟨top, hupright, hpiece⟩ := he.upright hreads' htidy.1.1 htidy.1.2
      obtain rfl := Except.ok.inj (hpiece.symm.trans hfirst)
      refine ⟨?_, by simpa [ReadPieces.below, hdiv, Pieces.append] using hbelow⟩
      have hcons : ReadPieces.above ((e, fs) :: ls) = ofFactors fs :: ReadPieces.above ls := by
        simp [ReadPieces.above, hdiv]
      rw [hcons]
      exact .cons hupright habove

/-- The coefficient of a tidy product, which is not zero, and its other factors. -/
theorem factors_of_quotient {q : Rat} {es : List Expr} {ls : ReadPieces}
    (he : (product es).IsTidy)
    (hes : es = rat q :: ls.map (·.1) ∨ (q = 1 ∧ es = ls.map (·.1)))
    (hfront : es = ls.map (·.1) → ∀ v rest, es ≠ number v :: rest) :
    q ≠ 0 ∧ ∀ l ∈ ls, l.1.IsTidy ∧ l.1.IsFactor := by
  obtain ⟨⟨-, q', gs, hq', -, heq, hgs⟩, -⟩ := isBuilt_product.mp he.isBuilt
  have hsame : q = q' ∧ ls.map (·.1) = gs := by
    unfold coefficientFactor at heq
    rcases hes with rfl | ⟨rfl, rfl⟩
    · split at heq
      next =>
        have hfactor := hgs.factor (rat q) (by rw [← List.nil_append gs, ← heq]; simp)
        simp [IsFactor, isNumber] at hfactor
      next => simpa using heq
    · split at heq
      next hone => exact ⟨hone.symm, heq⟩
      next => exact absurd heq (hfront rfl _ _)
  obtain ⟨rfl, rfl⟩ := hsame
  exact ⟨hq', fun l hl => ⟨he.of_mem_product _ (mem_of_pieces hes l hl),
    hgs.factor l.1 (List.mem_map_of_mem hl)⟩⟩

/-- A quotient prints alike if its parts do. -/
theorem printsAlike_quotient {q : Rat} {es : List Expr} {ls : ReadPieces}
    (he : (product es).IsTidy) (hq : 0 ≤ q)
    (hes : es = rat q :: ls.map (·.1) ∨ (q = 1 ∧ es = ls.map (·.1)))
    (hfront : es = ls.map (·.1) → ∀ v rest, es ≠ number v :: rest)
    (hreads : ∀ l ∈ ls, Reads l.1.pieceBody l.2)
    (h : ∀ l ∈ ls, Reprints voc l.1.pieceBody (ofFactors l.2)) :
    Reprints voc (product es) (ofFactors (quotientFactors
      ((if q.num = 1 then [] else [rat q.num]) ++ ls.above)
      ((if q.den = 1 then [] else [rat q.den]) ++ ls.below))) := by
  intro cs hcs
  obtain ⟨hne, hfactors⟩ := factors_of_quotient he hes hfront
  have hpos : 0 < q := lt_of_le_of_ne hq hne.symm
  have htext : (product es).textIn voc = quotient voc (.exact q) (ls.map (·.1)) := by
    rcases hes with rfl | ⟨rfl, rfl⟩
    · rw [textIn_product_number, if_neg (by simpa using hq)]
    · refine textIn_product_one ?_ (hfront rfl) ?_
      · rintro hnil
        have hlen := (isBuilt_product.mp he.isBuilt).1.1
        simp [hnil] at hlen
      · rintro d rest heq
        have hmem : negation d ∈ ls.map (·.1) := by rw [heq]; exact List.mem_cons_self
        exact absurd (he.of_mem_product _ hmem).isBuilt not_isBuilt_negation
  have hcs' := hcs
  rw [htext, quotient] at hcs'
  obtain ⟨front, hfront', hcs'⟩ := bind_eq_ok_iff.mp hcs'
  obtain ⟨hfits, rfl⟩ := ofCoefficient_eq_ok_iff.mp hfront'
  obtain ⟨p, hpieces, hcs'⟩ := bind_eq_ok_iff.mp hcs'
  obtain ⟨habove, hbelow⟩ := factorPieces_of_reads hfactors hreads h hpieces
  have hns := List.rel_append (isUpright_numerator hpos hfits.1) habove
  have hds := List.rel_append (isUpright_coefficient q.den_nz hfits.2) hbelow
  have hlen := two_le_length_quotient he hes
  have hagain := text_quotientFactors hns hds
    (fun hnil hnil' => by simp [hnil, hnil', quotientFactors] at hlen) hcs'
  rw [ofFactors_of_two_le hlen]
  exact ⟨.product, .product, hcs, hagain, rfl, rfl, .refl _, .inl rfl,
    fun _ => splitSign_quotientFactors hns _⟩

/-! ## Signs -/

/-- The text of a tree with a sign is a minus sign in front of its magnitude. -/
theorem text_of_sign {e m : Expr} (he : e.IsTidy) (h : e.splitSign = (true, m)) :
    e.textIn voc = m.textIn voc >>= minus m := by
  cases e with
  | number v =>
    obtain ⟨q, rfl⟩ := he.isExact.exists_rat
    by_cases hq : q < 0
    · obtain rfl : rat (-q) = m := by simpa [splitSign, hq] using h
      exact textIn_negative hq
    · simp [splitSign, hq] at h
  | product fs =>
    cases fs with
    | nil => simp [splitSign] at h
    | cons f rest =>
      cases f with
      | number v =>
        obtain ⟨q, rfl⟩ := (he.of_mem_product (number v) (by simp)).isExact.exists_rat
        by_cases hq : q < 0
        · have hm : ofRemaining (if q = -1 then rest else rat (-q) :: rest) = m := by
            simpa [splitSign, hq] using h
          exact hm ▸ textIn_product_negative hq rest
        · simp [splitSign, hq] at h
      | negation d =>
        exact absurd (he.of_mem_product (negation d) (by simp)).isBuilt not_isBuilt_negation
      | _ => simp [splitSign] at h
  | negation d => exact absurd he.isBuilt not_isBuilt_negation
  | _ => simp [splitSign] at h

/-- The magnitude of a tidy tree has no sign of its own. -/
theorem splitSign_magnitude {e m : Expr} (he : e.IsTidy) (h : e.splitSign = (true, m)) :
    m.splitSign.1 = false := by
  obtain ⟨hm, hsame⟩ := he.magnitude h
  have hneg := (he.isBuilt.splitSign_eq h).1
  have hlit := hsame.literal
  rw [minusOne, literalProduct_cons_rat] at hlit
  cases hs : m.splitSign with
  | mk sign m' =>
    cases sign with
    | true =>
      have := (hm.isBuilt.splitSign_eq hs).1
      linarith
    | false => rfl

theorem Expr.IsTidy.splitSign {e : Expr} (he : e.IsTidy) : e.splitSign.2.IsTidy := by
  cases hs : e.splitSign with
  | mk sign m =>
    cases sign with
    | true => exact (he.magnitude hs).1
    | false => exact splitSign_eq_self hs ▸ he

/-- A tree with a sign prints alike if its magnitude does, whether the sign is read as that of the
whole term or of its first factor. -/
theorem printsAlike_signed {e m : Expr} {fs gs : List Expr} (he : e.IsTidy)
    (hsplit : e.splitSign = (true, m)) (hneg : Negates fs gs) (h : Reprints voc m (ofFactors fs)) :
    Reprints voc e (ofFactors gs) := by
  intro text htext'
  have htext : e.textIn voc = m.textIn voc >>= minus m := text_of_sign he hsplit
  obtain ⟨cs, hcs, hminus'⟩ := bind_eq_ok_iff.mp (htext.symm.trans htext')
  obtain ⟨a, b, h⟩ := h cs hcs
  have hstrength := (h.ne_negation (splitSign_magnitude he hsplit)).2
  obtain ⟨inner, rfl⟩ : ∃ inner, text = '-' :: inner := by
    rw [minus, h.binding] at hminus'
    exact ⟨_, (Except.ok.inj hminus').symm⟩
  -- a product and a negation ask for the same brackets
  have halike : ∀ {a b : Binding}, (a = .negation ∨ a = .product) →
      (b = .negation ∨ b = .product) → a.Alike b := by
    rintro a b (rfl | rfl) (rfl | rfl) <;> exact ⟨by decide, by decide, by decide⟩
  have hbinding : ∃ a, e.binding = .ok a ∧ (a = .negation ∨ a = .product) := by
    cases e with
    | number v =>
      obtain ⟨q, rfl⟩ := he.isExact.exists_rat
      by_cases hq : q < 0
      · exact ⟨.negation, by simp [binding, numberBinding, hq], .inl rfl⟩
      · simp [splitSign, hq] at hsplit
    | product fs => exact ⟨.product, rfl, .inr rfl⟩
    | negation d => exact ⟨.negation, rfl, .inl rfl⟩
    | _ => simp [splitSign] at hsplit
  obtain ⟨c, hc, hcases⟩ := hbinding
  have hsign : e.splitSign.1 = false → ∀ P : Prop, P := by simp [hsplit]
  have hdone : ∀ {r : Expr} {d : Binding},
      r.textIn voc = m.textIn voc >>= minus m → r.binding = .ok d →
      (d = .negation ∨ d = .product) → ∃ a b, PrintsAlike voc e r ('-' :: inner) a b :=
    fun hr hd hdcases => ⟨c, _, htext', hr.trans (htext.symm.trans htext'), hc, hd,
      halike hcases hdcases, .inr (by simp), fun hs => hsign hs _⟩
  cases hneg with
  | all => exact hdone (h.negation hstrength) rfl (.inl rfl)
  | @first f fs _ =>
    cases fs with
    | nil => exact hdone (h.negation hstrength) rfl (.inl rfl)
    | cons g fs => exact hdone ((textIn_product_negation f (g :: fs)).trans h.minus) rfl (.inr rfl)

/-! ## Sums and arguments -/

/-- Later terms are written again with their signs. -/
theorem laterTerms_of_reads {ls : List (Expr × List Expr)} (htidy : ∀ l ∈ ls, l.1.IsTidy)
    (h : ∀ l ∈ ls, Reprints voc l.1.splitSign.2 (ofFactors l.2)) {text : List Char}
    (htext : laterTerms voc (ls.map (·.1)) = .ok text) :
    laterTerms voc (ls.map signedTerm) = laterTerms voc (ls.map (·.1)) := by
  induction ls generalizing text with
  | nil => rfl
  | cons l ls ih =>
    rw [List.forall_mem_cons] at htidy h
    obtain ⟨cs, hcs⟩ := texts_of_laterTerms htext l.1 List.mem_cons_self
    obtain ⟨a, b, hl⟩ := h.1 cs hcs
    rw [List.map_cons, laterTerms, hl.binding, hl.text, ok_bind, ok_bind] at htext
    obtain ⟨later, hlater, -⟩ := bind_eq_ok_iff.mp htext
    rw [List.map_cons, List.map_cons, laterTerms, laterTerms, ih htidy.2 h.2 hlater, hl.text,
      hl.binding]
    have hsum : decide (b ≤ .sum) = decide (a ≤ .sum) := decide_eq_decide.mpr hl.alike.1.symm
    unfold signedTerm
    cases hs : l.1.splitSign with
    | mk sign m =>
      rw [hs] at hl
      cases sign with
      | true =>
        obtain ⟨ha, hb⟩ := hl.ne_negation (splitSign_magnitude htidy.1 hs)
        simp [splitSign, hl.again, hl.rebinding, hsum, ha, hb]
      | false =>
        obtain rfl := splitSign_eq_self hs
        have hsign := hl.sign (by rw [hs])
        have hself : (ofFactors l.2).splitSign = (false, ofFactors l.2) := by
          cases hr : (ofFactors l.2).splitSign with
          | mk sign r =>
            rw [hr] at hsign
            obtain rfl : sign = false := hsign
            rw [splitSign_eq_self hr]
        simp [hself, hl.again, hl.rebinding, hsum]

/-- Arguments are written again. -/
theorem arguments_of_reads {ls : List (Expr × List Expr)}
    (h : ∀ l ∈ ls, Reprints voc l.1 (ofFactors l.2)) {text : List Char}
    (htext : arguments voc (ls.map (·.1)) = .ok text) :
    arguments voc (ls.map (ofFactors ·.2)) = arguments voc (ls.map (·.1)) := by
  induction ls generalizing text with
  | nil => rfl
  | cons l ls ih =>
    rw [List.forall_mem_cons] at h
    obtain ⟨cs, hcs⟩ := texts_of_arguments htext l.1 List.mem_cons_self
    obtain ⟨a, b, hl⟩ := h.1 cs hcs
    cases ls with
    | nil => rw [List.map_singleton, List.map_singleton, arguments, arguments, hl.text, hl.again]
    | cons l' ls =>
      rw [List.map_cons, arguments_cons _ (by simp), hl.text, ok_bind] at htext
      obtain ⟨later, hlater, -⟩ := bind_eq_ok_iff.mp htext
      rw [List.map_cons, arguments_cons _ (by simp), List.map_cons (l := l' :: ls),
        arguments_cons _ (by simp), hl.text, hl.again, ih h.2 hlater]

/-! ## Powers -/

/-- A root is read back as a square root. -/
theorem PrintsAlike.root {e r : Expr} {cs : List Char} {a b : Binding}
    (h : PrintsAlike voc e r cs a b) :
    PrintsAlike voc (power e (rat (1 / 2))) (Expr.call "sqrt" [r]) ("sqrt(".toList ++ cs ++ [')'])
      .atom .atom := by
  refine ⟨?_, ?_, binding_root e, rfl, .refl _, .inl rfl, fun _ => rfl⟩
  · rw [textIn_root, h.text]
    rfl
  · rw [textIn_call, arguments, h.again]
    rfl

/-- A power of zero with a negative exponent is no quotient. -/
theorem printsAlike_zeroReciprocal {v : Rat} {r : Expr} {cs : List Char} {a b : Binding}
    (hv : v < 0) (hnohalf : r.isHalf = false) (hnonneg : r.isNegativeNumber = false)
    (hp : PrintsAlike voc (rat v) r cs a b) :
    PrintsAlike voc (power zero (rat v)) (power zero r) ("0^(".toList ++ cs ++ [')'])
      .power .power := by
  -- the exponent has a sign, so that it stands in brackets in either way of writing
  have hweak : a < .atom := by
    have hbinding := hp.binding
    simp only [binding, numberBinding, Number.isNegative_exact, hv, decide_true, if_true,
      Except.ok.injEq] at hbinding
    subst hbinding
    decide
  have hzerotext : zero.textIn voc = .ok ['0'] :=
    textIn_rat_eq_ok_iff.mpr ⟨⟨DigitLimit.allows_of_le (by decide), allows_digits_one _⟩, rfl⟩
  have hzeros : PrintsAlike voc zero zero ['0'] .atom .atom :=
    ⟨hzerotext, hzerotext, rfl, rfl, .refl _, .inl rfl, id⟩
  obtain ⟨hraised, hagain⟩ := hzeros.raised hp
  have hstrong : ¬Binding.atom < .atom := by decide
  refine ⟨?_, ?_, binding_zeroPower (isHalf_of_neg hv), binding_zeroPower hnohalf, .refl _,
    .inl rfl, fun _ => rfl⟩
  · rw [textIn_zeroReciprocal hv, hp.text]
    rfl
  · rw [textIn_raised hnohalf hnonneg, hagain, hraised]
    simp [bracketed, hweak, hstrong]

/-- Any other power with a negative exponent is one over a power. -/
theorem printsAlike_reciprocal {b : Expr} {v : Rat} {fs : List Expr} {bottom : List Char}
    (hv : v < 0) (hzero : b.isZeroNumber = false)
    (hupright : IsUpright voc (belowLine (-v) (ofFactors fs)) bottom)
    (hbottom : b.denominator voc (.exact (-v)) = .ok bottom) :
    PrintsAlike voc (power b (rat v))
      (ofFactors [one, power (belowLine (-v) (ofFactors fs)) minusOne]) ('1' :: '/' :: bottom)
      .product .product := by
  have hagain := text_quotientFactors .nil (.cons hupright .nil) (by simp)
    (show Pieces.text voc ⟨[], [bottom]⟩ = .ok ('1' :: '/' :: bottom) from rfl)
  refine ⟨?_, hagain, binding_reciprocal hv hzero, rfl, .refl _, .inr (by simp), fun _ => rfl⟩
  rw [textIn_reciprocal hv hzero, hbottom]
  rfl

/-- Other powers keep their base and their exponent. -/
theorem PrintsAlike.power {b p r t : Expr} {bs ps : List Char} {a a' c c' : Binding}
    (hb : PrintsAlike voc b r bs a a') (hp : PrintsAlike voc p t ps c c') (hhalf : p.isHalf = false)
    (hnonneg : p.isNegativeNumber = false) (hhalf' : t.isHalf = false)
    (hnonneg' : t.isNegativeNumber = false) :
    PrintsAlike voc (Expr.power b p) (Expr.power r t)
      (bracketed (a < .atom) bs ++ '^' :: bracketed (c < .atom) ps) .power .power := by
  obtain ⟨hraised, hagain⟩ := hb.raised hp
  refine ⟨(textIn_raised hhalf hnonneg b).trans hraised, ?_, binding_raised hhalf hnonneg b,
    binding_raised hhalf' hnonneg' r, .refl _, .inl rfl, fun _ => rfl⟩
  rw [textIn_raised hhalf' hnonneg', hagain, hraised]

/-! ## Every tidy tree -/

/-- What a tidy tree is read back as prints like the tree, by induction on the reading. -/
theorem Reads.reprints {e : Expr} {fs : List Expr} (h : Reads e fs) (he : e.IsTidy) :
    Reprints voc e (ofFactors fs) := by
  induction h with
  | literal hq =>
    intro cs hcs
    obtain ⟨hfits, rfl⟩ := textIn_rat_eq_ok_iff.mp hcs
    exact ⟨_, printsAlike_literal hq hfits⟩
  | symbol n =>
    intro cs hcs
    exact ⟨_, _, hcs, hcs, rfl, rfl, .refl _, .inl rfl, id⟩
  | signed _ hsplit _ hneg ih =>
    exact printsAlike_signed he hsplit hneg (ih (he.magnitude hsplit).1)
  | singleTerm =>
    -- no sum of one term is built
    obtain ⟨⟨hlen, -⟩, -⟩ := isBuilt_sum.mp he.isBuilt
    simp at hlen
  | @sum t fs ls _ _ _ _ iht ihs =>
    intro cs hcs
    have htexts := hcs
    rw [textIn_sum] at htexts
    obtain ⟨_, -, htexts⟩ := bind_eq_ok_iff.mp htexts
    obtain ⟨first, hfirst, htexts⟩ := bind_eq_ok_iff.mp htexts
    obtain ⟨later, hlater, -⟩ := bind_eq_ok_iff.mp htexts
    obtain ⟨a, b, ht⟩ := iht (he.of_mem_sum t List.mem_cons_self) first hfirst
    have htidy : ∀ l ∈ ls, l.1.IsTidy := fun l hl =>
      he.of_mem_sum l.1 (List.mem_cons_of_mem _ (List.mem_map_of_mem hl))
    have hagain := laterTerms_of_reads htidy (fun l hl => ihs l hl (htidy l hl).splitSign) hlater
    have hstrength : decide (b ≤ .sum) = decide (a ≤ .sum) := decide_eq_decide.mpr ht.alike.1.symm
    refine ⟨.sum, .sum, hcs, ?_, rfl, rfl, .refl _, .inl rfl, fun _ => rfl⟩
    rw [← hcs, ofFactors, textIn_sum, textIn_sum, ht.text, ht.again, ht.binding, ht.rebinding,
      hagain]
    simp only [ok_bind, hstrength]
  | quotient ls _ hq hes hfront hreads ih =>
    refine printsAlike_quotient he hq hes hfront hreads fun l hl => ih l hl ?_
    exact (he.of_mem_product _ (mem_of_pieces hes l hl)).pieceBody
  | @root b fs _ ih =>
    intro cs hcs
    have hbase := hcs
    rw [textIn_root] at hbase
    obtain ⟨bs, hbs, hbase⟩ := bind_eq_ok_iff.mp hbase
    obtain rfl := Except.ok.inj hbase
    obtain ⟨a, b, h⟩ := ih he.base bs hbs
    exact ⟨_, _, h.root⟩
  | @zeroReciprocal v fs hv hreads ih =>
    intro cs hcs
    have hexponent := hcs
    rw [textIn_zeroReciprocal hv] at hexponent
    obtain ⟨ps, hps, hexponent⟩ := bind_eq_ok_iff.mp hexponent
    obtain rfl := Except.ok.inj hexponent
    obtain ⟨a, b, h⟩ := ih (isTidy_rat v) ps hps
    obtain ⟨hnohalf, hnonneg⟩ := hreads.exponent (isTidy_rat v)
    exact ⟨_, _, printsAlike_zeroReciprocal hv hnohalf hnonneg h⟩
  | @reciprocal b v fs hv hzero hreads ih =>
    intro cs hcs
    have hbelow := hcs
    rw [textIn_reciprocal hv hzero] at hbelow
    obtain ⟨bottom, hbottom, hbelow⟩ := bind_eq_ok_iff.mp hbelow
    obtain rfl := Except.ok.inj hbelow
    obtain ⟨bs, hbs⟩ := text_of_denominator hbottom
    obtain ⟨a, b, h⟩ := ih he.base bs hbs
    exact ⟨_, _, printsAlike_reciprocal hv hzero (h.below hreads he hv hzero hbottom) hbottom⟩
  | @power b p fs gs hhalf hnonneg _ hreads ihb ihp =>
    intro cs hcs
    have hraised := hcs
    rw [textIn_raised hhalf hnonneg] at hraised
    obtain ⟨⟨bs, hbs⟩, ps, hps⟩ := texts_of_raised hraised
    obtain ⟨a, a', hb⟩ := ihb he.base bs hbs
    obtain ⟨c, c', hp⟩ := ihp he.exponent ps hps
    obtain ⟨hhalf', hnonneg'⟩ := hreads.exponent he.exponent
    have halike := hb.power hp hhalf hnonneg hhalf' hnonneg'
    obtain rfl := Except.ok.inj (halike.text.symm.trans hcs)
    exact ⟨_, _, halike⟩
  | call n ls _ ih =>
    intro cs hcs
    have harguments := hcs
    rw [textIn_call] at harguments
    obtain ⟨inner, hinner, -⟩ := bind_eq_ok_iff.mp harguments
    have hagain := arguments_of_reads (fun l hl =>
      ih l hl (he.of_mem_call l.1 (List.mem_map_of_mem hl))) hinner
    refine ⟨.atom, .atom, hcs, ?_, rfl, rfl, .refl _, .inl rfl, fun _ => rfl⟩
    rw [← hcs, ofFactors, textIn_call, textIn_call, hagain]

end

/-- The text of a normal form is read back, and what is read prints as the same text, unless the
limit for digits stops the text of the normal form. -/
theorem print_reread {e c : Expr} (he : e.Every IsNamedNode) (harguments : e.Every HasArguments)
    (h : normalForm .standard e = .ok c) :
    DigitLimit.standard.Gives c.print fun text =>
      ∃ r, ofString .standard text = .ok r ∧ r.print = .ok text := by
  have hform := normalForm_unlimited h
  have htidy := normalForm_isTidy he hform
  have hreadable := htidy.isBuilt.isReadable htidy.named
    ((normalForm_rewrites (isExact_of_named he) h).every leafProperty_hasArguments harguments)
  refine (print_gives .standard hreadable).mono ?_
  rintro text hprint ⟨fs, hread, hreads⟩
  obtain ⟨cs, hcs, htext⟩ := bind_eq_ok_iff.mp hprint
  obtain ⟨a, b, halike⟩ := hreads.reprints htidy cs hcs
  refine ⟨ofFactors fs, hread, ?_⟩
  rw [← htext, print, Expr.text, halike.again]
  rfl

/-- A quotient with a sign, a root and a fraction as an exponent below the line, which is read back
as a negation over one product of three factors. -/
theorem print_reread_quotient :
    let e := product [rat (-3 / 2), power (sum [symbol "x", rat (-1)]) (rat (-1 / 2)),
      power (symbol "y") (rat (-2 / 3))]
    let c := product [rat (-3 / 2), power (sum [rat (-1), symbol "x"]) (rat (-1 / 2)),
      power (symbol "y") (rat (-2 / 3))]
    let text := "-3/(2sqrt(-1+x)y^(2/3))"
    (e.Every IsNamedNode ∧ e.Every HasArguments ∧ normalForm .standard e = .ok c) ∧
      c.print = .ok text ∧ ∃ r, ofString .standard text = .ok r ∧ r.print = .ok text := by
  intro e c text
  have hx : IsIdentifier "x" := isIdentifier_letter (c := 'x') (by decide)
  have hy : IsIdentifier "y" := isIdentifier_letter (c := 'y') (by decide)
  have he : e.Every IsNamedNode := by simp [e, IsNamedNode, hx, hy]
  have hexact : c.IsExact := by simp [c]
  have hc : normalForm .standard e = .ok c :=
    normalForm_eq_ok_of_returns (isExact_of_named he) hexact (by decide +kernel)
  have harguments : e.Every HasArguments := by simp [e, HasArguments]
  have hprint : c.print = .ok text := by decide +kernel
  exact ⟨⟨he, harguments, hc⟩, hprint, (print_reread he harguments hc).of_ok hprint⟩

/-- A power of a power of literals folds to a number of 5330 digits. -/
theorem print_folded_power :
    let e := power (power (rat 20) (rat 64)) (rat 64)
    e.Every IsNamedNode ∧ e.Every HasArguments ∧
      normalForm .standard e = .ok (rat (20 ^ 4096)) ∧
      (rat (20 ^ 4096)).print = .error (.tooManyDigits 4300 none) := by
  intro e
  have he : e.Every IsNamedNode := by simp [e, IsNamedNode]
  exact ⟨he, by simp [e, HasArguments],
    normalForm_eq_ok_of_returns (isExact_of_named he) (isExact_rat _) (by decide +kernel),
    by decide +kernel⟩

end AlgebraicForm
