import AlgebraicForm.Expr.Order
import AlgebraicForm.Proofs.DigitLimit

/-!
# Reading and writing under a limit

A text is read and an expression is written under a limit as they are without one, unless the limit
stops that: `tokenize_restricts`, `kinds_restricts`, `joinsCleanly_restricts` and
`textIn_restricts`. So a text under a limit is the text without one (`text_unlimited`), and keys
under a limit are the keys without one.
-/

namespace AlgebraicForm

/-- The same vocabulary without a limit. -/
abbrev Vocabulary.unlimited (v : Vocabulary) : Vocabulary :=
  v.within .unlimited

/-- The same settings without a limit. -/
abbrev Settings.unlimited (s : Settings) : Settings :=
  s.within .unlimited

/-- The standard vocabulary without a limit. -/
abbrev Vocabulary.unbounded : Vocabulary :=
  Vocabulary.standard.unlimited

/-- The default settings without a limit. -/
abbrev Settings.unbounded : Settings :=
  Settings.standard.unlimited

@[simp] theorem Settings.unbounded_digits : Settings.unbounded.digits = .unlimited :=
  rfl

@[simp] theorem Settings.unbounded_maxFoldExponent : Settings.unbounded.maxFoldExponent = 64 :=
  rfl

/-! ## Reading -/

theorem check_restricts (limit : DigitLimit) (count : Nat) (found : Option Nat) :
    limit.Restricts (limit.check count found) (DigitLimit.unlimited.check count found) :=
  limit.check_or_stops count found

theorem number_restricts (limit : DigitLimit) (offset : Nat) (cs : List Char) :
    limit.Restricts (Lexeme.number limit offset cs) (Lexeme.number .unlimited offset cs) := by
  unfold Lexeme.number
  dsimp only
  generalize (splitNumber cs).1.length + _ = length
  cases length with
  | zero => exact .refl _
  | succ tail =>
    dsimp only
    split
    · exact .refl _
    · exact (check_restricts limit _ _).bind fun _ => (check_restricts limit _ _).bind fun _ =>
        .refl _

theorem read_restricts (v : Vocabulary) (offset : Nat) (c : Char) (rest : List Char) :
    v.digits.Restricts (Lexeme.read v offset c rest) (Lexeme.read v.unlimited offset c rest) := by
  unfold Lexeme.read
  split
  · exact number_restricts v.digits offset (c :: rest)
  · exact .refl _

theorem scan_restricts (v : Vocabulary) (offset : Nat) (cs : List Char) :
    v.digits.Restricts (scan v offset cs) (scan v.unlimited offset cs) := by
  induction offset, cs using scan.induct with
  | case1 offset =>
    rw [scan_nil, scan_nil]
    exact .refl _
  | case2 offset c rest hblank ih =>
    rw [scan_blank _ _ _ hblank, scan_blank _ _ _ hblank]
    exact ih
  | case3 offset c rest hblank ih =>
    rw [scan, scan, if_neg hblank, if_neg hblank]
    exact (read_restricts v offset c rest).bind fun x => (ih x).bind fun _ => .refl _

theorem tokenize_restricts (v : Vocabulary) (cs : List Char) :
    v.digits.Restricts (tokenize v cs) (tokenize v.unlimited cs) :=
  scan_restricts v 0 cs

theorem kinds_restricts (v : Vocabulary) (cs : List Char) :
    v.digits.Restricts (kinds v cs) (kinds v.unlimited cs) :=
  (tokenize_restricts v cs).bind fun _ => .refl _

theorem joinsCleanly_restricts (v : Vocabulary) (left right : List Char) :
    v.digits.Restricts (joinsCleanly v left right) (joinsCleanly v.unlimited left right) := by
  have hjoins := (kinds_restricts v (left ++ right)).bind fun joined =>
    (kinds_restricts v left).bind fun first => (kinds_restricts v right).bind fun second =>
      .refl (.ok (decide (joined = first.dropLast ++ second)))
  unfold joinsCleanly
  obtain heq | ⟨fault, hfault, heq⟩ := hjoins
  · exact .inl (by simp only [pure_eq_ok, heq])
  · -- what the limit raises is not taken for malformed text
    obtain ⟨n, hn, found, rfl⟩ := hfault
    exact .inr ⟨_, ⟨n, hn, found, rfl⟩, by simp only [pure_eq_ok, heq]⟩

theorem juxtapose_restricts (v : Vocabulary) (text : List Char) (pieces : List (List Char)) :
    v.digits.Restricts (juxtapose v text pieces) (juxtapose v.unlimited text pieces) := by
  induction pieces generalizing text with
  | nil => exact .refl _
  | cons piece rest ih => exact (joinsCleanly_restricts v text piece).bind fun _ => ih _

/-! ## Writing -/

theorem writeInt_restricts (limit : DigitLimit) (n : Int) :
    limit.Restricts (Number.writeInt limit n) (Number.writeInt .unlimited n) :=
  (check_restricts limit _ _).bind fun _ => .refl _

theorem writeRat_restricts (limit : DigitLimit) (q : Rat) :
    limit.Restricts (Number.writeRat limit q) (Number.writeRat .unlimited q) := by
  unfold Number.writeRat
  split
  · exact writeInt_restricts limit _
  · exact (writeInt_restricts limit _).bind fun _ => (writeInt_restricts limit _).bind fun _ =>
      .refl _

theorem numberText_restricts (limit : DigitLimit) (v : Number) :
    limit.Restricts (v.text limit) (v.text .unlimited) := by
  unfold Number.text
  split
  · exact writeRat_restricts limit _
  · split
    · exact .refl _
    · simp only
      split
      · exact writeRat_restricts limit _
      · exact .refl _

theorem pieceUnlessOne_restricts (limit : DigitLimit) (n : Int) :
    limit.Restricts (Pieces.pieceUnlessOne limit n) (Pieces.pieceUnlessOne .unlimited n) := by
  unfold Pieces.pieceUnlessOne
  split
  · exact .refl _
  · exact (writeInt_restricts limit n).bind fun _ => .refl _

theorem ofCoefficient_restricts (limit : DigitLimit) (v : Number) :
    limit.Restricts (Pieces.ofCoefficient limit v) (Pieces.ofCoefficient .unlimited v) := by
  unfold Pieces.ofCoefficient
  split
  · exact (pieceUnlessOne_restricts limit _).bind fun _ =>
      (pieceUnlessOne_restricts limit _).bind fun _ => .refl _
  · exact (numberText_restricts limit _).bind fun _ => .refl _

theorem piecesText_restricts (v : Vocabulary) (p : Pieces) :
    v.digits.Restricts (p.text v) (p.text v.unlimited) := by
  have hbottom : ∀ top piece rest, v.digits.Restricts
      (juxtapose v piece rest >>= fun bottom => pure (top ++ '/' :: bracketed true bottom))
      (juxtapose v.unlimited piece rest >>= fun bottom =>
        pure (top ++ '/' :: bracketed true bottom)) :=
    fun _ _ _ => (juxtapose_restricts v _ _).bind fun _ => .refl _
  unfold Pieces.text
  simp only
  split
  · refine (DigitLimit.Restricts.refl _).bind fun top => ?_
    split
    exacts [.refl _, .refl _, hbottom _ _ _]
  · refine (juxtapose_restricts v _ _).bind fun top => ?_
    split
    exacts [.refl _, .refl _, hbottom _ _ _]

/-! ## Writing fractions -/

/-- The limit allows the digits of a fraction, above the line and below it. -/
def RatFits (limit : DigitLimit) (q : Rat) : Prop :=
  limit.Allows (Decimal.digits q.num.natAbs).length ∧ limit.Allows (Decimal.digits q.den).length

theorem ratFits_unlimited (q : Rat) : RatFits .unlimited q :=
  ⟨DigitLimit.allows_unlimited _, DigitLimit.allows_unlimited _⟩

/-- A limit allows one digit. -/
theorem allows_digits_one (limit : DigitLimit) : limit.Allows (Decimal.digits 1).length :=
  DigitLimit.allows_of_le (by decide)

theorem writeInt_eq_ok_iff {limit : DigitLimit} {n : Int} {cs : List Char} :
    Number.writeInt limit n = .ok cs ↔
      limit.Allows (Decimal.digits n.natAbs).length ∧ cs = Number.intText n := by
  rw [Number.writeInt, DigitLimit.check_bind_eq_ok_iff, pure_eq_ok, Except.ok.injEq,
    eq_comm (a := cs)]

theorem writeRat_eq_ok_iff {limit : DigitLimit} {q : Rat} {cs : List Char} :
    Number.writeRat limit q = .ok cs ↔ RatFits limit q ∧ cs = Number.ratText q := by
  have hden : Number.intText (q.den : Int) = Decimal.digits q.den := by
    rw [Number.intText, if_neg (by omega), Int.natAbs_natCast]
  unfold Number.writeRat Number.ratText RatFits
  split
  next hq => simp [writeInt_eq_ok_iff, hq, allows_digits_one]
  next =>
    simp only [bind_eq_ok_iff, writeInt_eq_ok_iff, pure_eq_ok, Except.ok.injEq,
      Int.natAbs_natCast, hden]
    constructor
    · rintro ⟨top, ⟨htop, rfl⟩, bottom, ⟨hbottom, rfl⟩, rfl⟩
      exact ⟨⟨htop, hbottom⟩, rfl⟩
    · rintro ⟨⟨htop, hbottom⟩, rfl⟩
      exact ⟨_, ⟨htop, rfl⟩, _, ⟨hbottom, rfl⟩, rfl⟩

/-- A fraction is written as it is, unless it is too long. -/
theorem writeRat_gives (limit : DigitLimit) (q : Rat) :
    limit.Gives (Number.writeRat limit q) fun cs => RatFits limit q ∧ cs = Number.ratText q := by
  have hfree := writeRat_eq_ok_iff.mpr ⟨ratFits_unlimited q, rfl⟩
  exact ((writeRat_restricts limit q).gives (P := fun _ => True) hfree trivial).mono
    fun _ h _ => writeRat_eq_ok_iff.mp h

/-- The pieces of a coefficient that is a fraction. -/
def coefficientPieces (q : Rat) : Pieces :=
  ⟨if q.num = 1 then [] else [Number.intText q.num],
    if q.den = 1 then [] else [Decimal.digits q.den]⟩

theorem pieceUnlessOne_eq_ok_iff {limit : DigitLimit} {n : Int} {ps : List (List Char)} :
    Pieces.pieceUnlessOne limit n = .ok ps ↔ limit.Allows (Decimal.digits n.natAbs).length ∧
      ps = if n = 1 then [] else [Number.intText n] := by
  unfold Pieces.pieceUnlessOne
  split
  next hn =>
    subst hn
    rw [Except.ok.injEq]
    exact ⟨fun h => ⟨allows_digits_one limit, h.symm⟩, fun h => h.2.symm⟩
  next =>
    simp only [bind_eq_ok_iff, writeInt_eq_ok_iff, pure_eq_ok, Except.ok.injEq]
    constructor
    · rintro ⟨cs, ⟨h, rfl⟩, rfl⟩
      exact ⟨h, rfl⟩
    · rintro ⟨h, rfl⟩
      exact ⟨_, ⟨h, rfl⟩, rfl⟩

theorem ofCoefficient_eq_ok_iff {limit : DigitLimit} {q : Rat} {p : Pieces} :
    Pieces.ofCoefficient limit (.exact q) = .ok p ↔ RatFits limit q ∧ p = coefficientPieces q := by
  have hden : Number.intText (q.den : Int) = Decimal.digits q.den := by
    rw [Number.intText, if_neg (by omega), Int.natAbs_natCast]
  simp only [Pieces.ofCoefficient, bind_eq_ok_iff, pieceUnlessOne_eq_ok_iff, pure_eq_ok,
    Except.ok.injEq, Int.natAbs_natCast, hden, Nat.cast_eq_one]
  constructor
  · rintro ⟨top, ⟨htop, rfl⟩, bottom, ⟨hbottom, rfl⟩, rfl⟩
    exact ⟨⟨htop, hbottom⟩, rfl⟩
  · rintro ⟨⟨htop, hbottom⟩, rfl⟩
    exact ⟨_, ⟨htop, rfl⟩, _, ⟨hbottom, rfl⟩, rfl⟩

theorem ofCoefficient_gives (limit : DigitLimit) (q : Rat) :
    limit.Gives (Pieces.ofCoefficient limit (.exact q))
      fun p => RatFits limit q ∧ p = coefficientPieces q := by
  have hfree := ofCoefficient_eq_ok_iff.mpr ⟨ratFits_unlimited q, rfl⟩
  exact ((ofCoefficient_restricts limit (.exact q)).gives (P := fun _ => True) hfree trivial).mono
    fun _ h _ => ofCoefficient_eq_ok_iff.mp h

namespace Expr

/-- What the printer writes under a limit is what it writes without one. -/
theorem printer_restricts (v : Vocabulary) :
    (∀ e : Expr, v.digits.Restricts (e.textIn v) (e.textIn v.unlimited)) ∧
    (∀ es, v.digits.Restricts (arguments v es) (arguments v.unlimited es)) ∧
    (∀ b p, v.digits.Restricts (raised v b p) (raised v.unlimited b p)) ∧
    (∀ b c, v.digits.Restricts (denominator v b c) (denominator v.unlimited b c)) ∧
    (∀ fs, v.digits.Restricts (factorPieces v fs) (factorPieces v.unlimited fs)) ∧
    (∀ f, v.digits.Restricts (piece v f) (piece v.unlimited f)) ∧
    (∀ f, v.digits.Restricts (numeratorPiece v f) (numeratorPiece v.unlimited f)) ∧
    (∀ c fs, v.digits.Restricts (quotient v c fs) (quotient v.unlimited c fs)) ∧
    ∀ ts, v.digits.Restricts (laterTerms v ts) (laterTerms v.unlimited ts) := by
  have hnumber : ∀ c : Number, v.digits.Restricts (c.text v.digits) (c.text v.unlimited.digits) :=
    numberText_restricts v.digits
  have hcoefficient : ∀ c : Number, v.digits.Restricts (Pieces.ofCoefficient v.digits c)
      (Pieces.ofCoefficient v.unlimited.digits c) := ofCoefficient_restricts v.digits
  apply textIn.mutual_induct
  all_goals intros
  -- each equation is a chain of computations on the parts, which go along by the hypotheses
  all_goals first
    | rw [textIn.eq_def v, textIn.eq_def v.unlimited]; simp only [*, if_true, if_false,
        Bool.false_eq_true]
    | rw [textIn.eq_def v, textIn.eq_def v.unlimited]
    | simp only [arguments, *]
    | simp only [raised]
    | simp only [denominator, *]
    | simp only [factorPieces]
    | simp only [piece, *]
    | simp only [numeratorPiece]
    | simp only [quotient]
    | simp only [laterTerms]
  all_goals repeat' first
    | intro _
    | assumption
    | exact hnumber _
    | exact hcoefficient _
    | exact piecesText_restricts v _
    | exact DigitLimit.Restricts.refl _
    | apply DigitLimit.Restricts.bind

theorem textIn_restricts (v : Vocabulary) (e : Expr) :
    v.digits.Restricts (e.textIn v) (e.textIn v.unlimited) :=
  (printer_restricts v).1 e

theorem text_restricts (limit : DigitLimit) (e : Expr) :
    limit.Restricts (e.text limit) (e.text .unlimited) :=
  textIn_restricts (Vocabulary.standard.within limit) e

/-- A text under a limit is the text without one. -/
theorem text_unlimited {limit : DigitLimit} {e : Expr} {t : List Char}
    (h : e.text limit = .ok t) : e.text .unlimited = .ok t :=
  (text_restricts limit e).eq_ok h

theorem print_restricts (limit : DigitLimit) (e : Expr) :
    limit.Restricts (e.print limit) (e.print .unlimited) :=
  (text_restricts limit e).bind fun _ => .refl _

theorem factorKey_restricts (limit : DigitLimit) (e : Expr) :
    limit.Restricts (e.factorKey limit) (e.factorKey .unlimited) :=
  (text_restricts limit _).bind fun _ => (text_restricts limit _).bind fun _ => .refl _

theorem factorKey_unlimited {limit : DigitLimit} {e : Expr} {k : List Char × List Char}
    (h : e.factorKey limit = .ok k) : e.factorKey .unlimited = .ok k :=
  (factorKey_restricts limit e).eq_ok h

theorem orientationKey_restricts (limit : DigitLimit) (e : Expr) :
    limit.Restricts (e.orientationKey limit) (e.orientationKey .unlimited) :=
  (text_restricts limit e).bind fun _ => .refl _

end Expr

end AlgebraicForm
