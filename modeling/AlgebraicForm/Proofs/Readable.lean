import AlgebraicForm.Proofs.Lexing
import AlgebraicForm.Proofs.Tree

/-!
# Expressions whose text can be read back

`IsReadable e` is what an expression needs for its text to denote it: names that read back as
themselves, no empty operand lists, and no double and no hole. Everything that is read from a text
is of this kind. `IsPrintable e` asks for less, as functions may be without arguments: these have a
text as well, which the reader refuses. Which names there are depends on the vocabulary, so this is
said for any `Dialect`.
The reader keeps its unfinished operands readable: `State.IsReadable` says so of each place in its
state that holds one, every token keeps it (`State.IsReadable.step`), and so does reading a list of
tokens (`State.IsReadable.run`).

* `ofString_isReadable`: what a text reads as is readable.
* `ofString_isReadableIn`: the same for any vocabulary, up to the symbols with letters of their own.
-/

namespace AlgebraicForm

open AlgebraicForm.Expr

/-! ## Readable expressions -/

/-- What may be written: the names of symbols and of functions, whether functions may be without
arguments, and whether square roots may be written. -/
structure Dialect where
  symbol : String → Prop
  function : String → Prop
  bare : Prop
  roots : Prop

/-- What may be written with the names of this vocabulary. -/
def Dialect.written (v : Vocabulary) (bare : Prop) : Dialect where
  symbol := IsIdentifierIn v
  function n := n ∈ v.functions
  bare := bare
  roots := "sqrt" ∈ v.functions

/-- The limit for digits is no matter for what may be written. -/
theorem Dialect.written_within (v : Vocabulary) (limit : DigitLimit) (bare : Prop) :
    Dialect.written (v.within limit) bare = Dialect.written v bare := by
  have hsymbol : IsIdentifierIn (v.within limit) = IsIdentifierIn v :=
    funext fun _ => propext (isIdentifierIn_within limit)
  rw [Dialect.written, hsymbol]
  rfl

/-- What may be written for a reader with this vocabulary, which takes no function without
arguments. -/
def Dialect.of (v : Vocabulary) : Dialect :=
  .written v False

/-- What a reader with this vocabulary may find: also symbols that have letters of their own, and
powers of all kinds. -/
def Dialect.foundIn (v : Vocabulary) : Dialect where
  symbol n := IsIdentifierIn v n ∨ ∃ a, symbolLetter? a = some n
  function n := n ∈ v.functions
  bare := False
  roots := True

namespace Expr

/-- Whether a power with this exponent is written as a square root. -/
def IsRootExponent (p : Expr) : Prop :=
  p = rat (1 / 2) ∨ p = rat (-1 / 2)

/-- Nothing about this node keeps it from being written in the dialect: literals are fractions,
names are names of the dialect, roots and empty argument lists may be written, and no sum or product
is empty. -/
def IsReadableNode (D : Dialect) : Expr → Prop
  | number (.approx _) | hole => False
  | symbol n => D.symbol n
  | sum ts => ts ≠ []
  | product fs => fs ≠ []
  | power _ p => p.IsRootExponent → D.roots
  | call n es => D.function n ∧ (es = [] → D.bare)
  | _ => True

/-- The expression can be written in the dialect. -/
def IsReadableIn (D : Dialect) (e : Expr) : Prop :=
  e.Every (IsReadableNode D)

/-- The text of the expression can be read back in the standard vocabulary. -/
def IsReadable (e : Expr) : Prop :=
  e.IsReadableIn (.of .standard)

/-- The expression has a text in the standard vocabulary, even if no reader takes it. -/
def IsPrintable (e : Expr) : Prop :=
  e.IsReadableIn (.written .standard True)

section

variable {D : Dialect}

@[simp] theorem isReadableIn_rat (q : Rat) : (rat q).IsReadableIn D :=
  every_number.mpr trivial

@[simp] theorem isReadableIn_symbol {n : String} : (symbol n).IsReadableIn D ↔ D.symbol n :=
  every_symbol

@[simp] theorem isReadableIn_sum {ts : List Expr} :
    (sum ts).IsReadableIn D ↔ ts ≠ [] ∧ ∀ t ∈ ts, t.IsReadableIn D :=
  every_sum

@[simp] theorem isReadableIn_product {fs : List Expr} :
    (product fs).IsReadableIn D ↔ fs ≠ [] ∧ ∀ f ∈ fs, f.IsReadableIn D :=
  every_product

@[simp] theorem isReadableIn_power {b p : Expr} : (power b p).IsReadableIn D ↔
    (p.IsRootExponent → D.roots) ∧ b.IsReadableIn D ∧ p.IsReadableIn D :=
  every_power

@[simp] theorem isReadableIn_negation {e : Expr} :
    (negation e).IsReadableIn D ↔ e.IsReadableIn D :=
  every_negation.trans (and_iff_right trivial)

@[simp] theorem isReadableIn_call {n : String} {es : List Expr} : (call n es).IsReadableIn D ↔
    (D.function n ∧ (es = [] → D.bare)) ∧ ∀ e ∈ es, e.IsReadableIn D :=
  every_call

@[simp] theorem not_isReadableIn_hole : ¬hole.IsReadableIn D :=
  fun h => every_hole.mp h

theorem IsReadableIn.isExact {e : Expr} (h : e.IsReadableIn D) : e.IsExact := by
  refine h.mono fun d hd => ?_
  cases d with
  | number v => cases v <;> simp_all [IsReadableNode, IsExactNode]
  | hole => simp [IsReadableNode] at hd
  | _ => trivial

theorem IsReadableIn.splitSign {e : Expr} (h : e.IsReadableIn D) :
    e.splitSign.2.IsReadableIn D := by
  have hrest : ∀ es : List Expr, (∀ d ∈ es, d.IsReadableIn D) →
      (ofRemaining es).IsReadableIn D := by
    intro es hes
    unfold ofRemaining
    split
    · simp [one]
    · simpa using hes
    · next hne _ => exact isReadableIn_product.mpr ⟨by simpa using hne, hes⟩
  unfold Expr.splitSign
  split
  next v =>
    obtain ⟨q, rfl⟩ := h.isExact.exists_rat
    split <;> simp [Number.neg]
  next => simpa using h
  next v rest =>
    obtain ⟨q, rfl⟩ := (isExact_product.mp h.isExact (number v) (by simp)).exists_rat
    simp only [isReadableIn_product, List.forall_mem_cons] at h
    split
    · refine hrest _ ?_
      split
      · exact h.2.2
      · simpa [Number.neg] using h.2.2
    · simpa using h.2.2
  next e rest =>
    simp only [isReadableIn_product, List.forall_mem_cons, isReadableIn_negation] at h
    exact hrest _ (List.forall_mem_cons.mpr h.2)
  next => exact h

end

/-! ### The standard vocabulary -/

@[simp] theorem isReadable_rat (q : Rat) : (rat q).IsReadable :=
  isReadableIn_rat q

@[simp] theorem isReadable_symbol {n : String} : (symbol n).IsReadable ↔ IsIdentifier n :=
  isReadableIn_symbol

@[simp] theorem isReadable_sum {ts : List Expr} :
    (sum ts).IsReadable ↔ ts ≠ [] ∧ ∀ t ∈ ts, t.IsReadable :=
  isReadableIn_sum

@[simp] theorem isReadable_product {fs : List Expr} :
    (product fs).IsReadable ↔ fs ≠ [] ∧ ∀ f ∈ fs, f.IsReadable :=
  isReadableIn_product

@[simp] theorem isReadable_power {b p : Expr} :
    (power b p).IsReadable ↔ b.IsReadable ∧ p.IsReadable :=
  isReadableIn_power.trans (and_iff_right fun _ =>
    show "sqrt" ∈ Settings.standardFunctions by decide)

@[simp] theorem isReadable_negation {e : Expr} : (negation e).IsReadable ↔ e.IsReadable :=
  isReadableIn_negation

@[simp] theorem isReadable_call {n : String} {es : List Expr} : (call n es).IsReadable ↔
    (n ∈ Settings.standardFunctions ∧ es ≠ []) ∧ ∀ e ∈ es, e.IsReadable :=
  isReadableIn_call

@[simp] theorem not_isReadable_hole : ¬hole.IsReadable :=
  not_isReadableIn_hole

theorem IsReadable.isExact {e : Expr} (h : e.IsReadable) : e.IsExact :=
  IsReadableIn.isExact h

/-- What can be read back can be written. -/
theorem IsReadable.printable {e : Expr} (h : e.IsReadable) : e.IsPrintable := by
  refine h.mono fun d hd => ?_
  cases d with
  | number v => cases v <;> exact hd
  | call n es => exact ⟨hd.1, fun _ => trivial⟩
  | _ => exact hd

@[simp] theorem isPrintable_rat (q : Rat) : (rat q).IsPrintable :=
  isReadableIn_rat q

@[simp] theorem isPrintable_power {b p : Expr} :
    (power b p).IsPrintable ↔ b.IsPrintable ∧ p.IsPrintable :=
  isReadableIn_power.trans (and_iff_right fun _ =>
    show "sqrt" ∈ Settings.standardFunctions by decide)

theorem IsPrintable.splitSign {e : Expr} (h : e.IsPrintable) : e.splitSign.2.IsPrintable :=
  IsReadableIn.splitSign h

end Expr

/-! ## What the reader holds -/

section

variable {D : Dialect}

/-- The names in a token are names of the dialect. -/
def TokenKind.IsKnown (D : Dialect) : TokenKind → Prop
  | identifier n => D.symbol n
  | function n => D.function n
  | _ => True

/-- An operator that waits has a readable base. -/
def Pending.IsReadable (D : Dialect) : Pending → Prop
  | negate => True
  | raise base => base.IsReadableIn D

/-- The finished operands of a frame are readable, and any exponent may come. -/
structure Frame.IsReadable (D : Dialect) (f : Frame) : Prop where
  roots : D.roots
  terms : ∀ t ∈ f.terms, t.IsReadableIn D
  factors : ∀ e ∈ f.factors, e.IsReadableIn D
  pending : ∀ p ∈ f.pending, p.IsReadable D

/-- The finished arguments of an open bracket are readable, and its function is of the dialect. -/
def Bracket.IsReadable (D : Dialect) : Bracket → Prop
  | group => True
  | call n es => D.function n ∧ ∀ e ∈ es, e.IsReadableIn D

/-- The operand or the function that a phase holds is readable. -/
def Phase.IsReadable (D : Dialect) : Phase → Prop
  | operand | firstArgument _ => True
  | arguments n _ => D.function n
  | operator last => last.IsReadableIn D

/-- Everything that the reader holds is readable. -/
structure State.IsReadable (D : Dialect) (s : State) : Prop where
  frame : s.frame.IsReadable D
  openings : ∀ o ∈ s.openings, o.bracket.IsReadable D ∧ o.outer.IsReadable D
  phase : s.phase.IsReadable D

/-- Several operands together are readable if each is. -/
theorem isReadableIn_ofTerms {ts : List Expr} (hne : ts ≠ []) (hts : ∀ t ∈ ts, t.IsReadableIn D) :
    (ofTerms ts).IsReadableIn D := by
  unfold ofTerms
  split
  · simpa using hts
  · exact isReadableIn_sum.mpr ⟨hne, hts⟩

@[inherit_doc isReadableIn_ofTerms]
theorem isReadableIn_ofFactors {fs : List Expr} (hne : fs ≠ []) (hfs : ∀ f ∈ fs, f.IsReadableIn D) :
    (ofFactors fs).IsReadableIn D := by
  unfold ofFactors
  split
  · simpa using hfs
  · exact isReadableIn_product.mpr ⟨hne, hfs⟩

/-- Waiting operators keep their operand readable. -/
theorem isReadableIn_closeAll (hroots : D.roots) {ps : List Pending}
    (hps : ∀ p ∈ ps, p.IsReadable D) {e : Expr} (he : e.IsReadableIn D) :
    (Pending.closeAll ps e).IsReadableIn D := by
  induction ps generalizing e with
  | nil => exact he
  | cons p ps ih =>
    rw [List.forall_mem_cons] at hps
    refine ih hps.2 ?_
    cases p with
    | negate => exact isReadableIn_negation.mpr he
    | raise base => exact isReadableIn_power.mpr ⟨fun _ => hroots, hps.1, he⟩

namespace Frame.IsReadable

variable {f : Frame} {operand : Expr}

theorem start (hroots : D.roots) : Frame.start.IsReadable D :=
  ⟨hroots, by simp [Frame.start], by simp [Frame.start], by simp [Frame.start]⟩

theorem wait (hf : f.IsReadable D) {p : Pending} (hp : p.IsReadable D) : (f.wait p).IsReadable D :=
  ⟨hf.roots, hf.terms, hf.factors, List.forall_mem_cons.mpr ⟨hp, hf.pending⟩⟩

theorem factor (hf : f.IsReadable D) (h : operand.IsReadableIn D) :
    (f.factor operand).IsReadableIn D := by
  have hclose := isReadableIn_closeAll hf.roots hf.pending h
  unfold Frame.factor
  split
  · exact isReadableIn_power.mpr ⟨fun _ => hf.roots, hclose, isReadableIn_rat _⟩
  · exact hclose

theorem term (hf : f.IsReadable D) (h : operand.IsReadableIn D) :
    (f.term operand).IsReadableIn D := by
  have hfactors : (ofFactors (f.factors.reverse ++ [f.factor operand])).IsReadableIn D := by
    refine isReadableIn_ofFactors (by simp) ?_
    simpa [or_imp, forall_and, hf.factor h] using hf.factors
  unfold Frame.term
  split
  · exact isReadableIn_negation.mpr hfactors
  · exact hfactors

theorem expression (hf : f.IsReadable D) (h : operand.IsReadableIn D) :
    (f.expression operand).IsReadableIn D := by
  refine isReadableIn_ofTerms (by simp) ?_
  simpa [or_imp, forall_and, hf.term h] using hf.terms

theorem nextFactor (hf : f.IsReadable D) (h : operand.IsReadableIn D) (divides : Bool) :
    (f.nextFactor operand divides).IsReadable D :=
  ⟨hf.roots, hf.terms, List.forall_mem_cons.mpr ⟨hf.factor h, hf.factors⟩,
    by simp [Frame.nextFactor]⟩

theorem nextTerm (hf : f.IsReadable D) (h : operand.IsReadableIn D) (subtracts : Bool) :
    (f.nextTerm operand subtracts).IsReadable D :=
  ⟨hf.roots, List.forall_mem_cons.mpr ⟨hf.term h, hf.terms⟩, by simp [Frame.nextTerm],
    by simp [Frame.nextTerm]⟩

end Frame.IsReadable

/-! ## Every token keeps it -/

theorem isReadable_start (hroots : D.roots) : State.start.IsReadable D :=
  ⟨.start hroots, by simp [State.start], trivial⟩

namespace State.IsReadable

variable {s next : State} {t : Token}

theorem beginOperand (hs : s.IsReadable D) (ht : t.kind.IsKnown D)
    (h : s.beginOperand t = .ok next) : next.IsReadable D := by
  unfold State.beginOperand at h
  split at h
  next =>
    obtain rfl := Except.ok.inj h
    exact ⟨hs.frame.wait trivial, hs.openings, trivial⟩
  next =>
    obtain rfl := Except.ok.inj h
    exact ⟨hs.frame, hs.openings, trivial⟩
  next q _ =>
    obtain rfl := Except.ok.inj h
    exact ⟨hs.frame, hs.openings, isReadableIn_rat q⟩
  next n hkind =>
    obtain rfl := Except.ok.inj h
    rw [hkind] at ht
    exact ⟨hs.frame, hs.openings, isReadableIn_symbol.mpr ht⟩
  next n hkind =>
    obtain rfl := Except.ok.inj h
    rw [hkind] at ht
    exact ⟨hs.frame, hs.openings, ht⟩
  next =>
    obtain rfl := Except.ok.inj h
    exact ⟨.start hs.frame.roots, List.forall_mem_cons.mpr ⟨⟨trivial, hs.frame⟩, hs.openings⟩,
      trivial⟩
  next => simp at h

theorem afterOperand (hs : s.IsReadable D) {last : Expr} (hlast : last.IsReadableIn D)
    (ht : t.kind.IsKnown D) (h : s.afterOperand last t = .ok next) : next.IsReadable D := by
  unfold State.afterOperand at h
  split at h
  next =>
    obtain rfl := Except.ok.inj h
    exact ⟨hs.frame.wait hlast, hs.openings, trivial⟩
  iterate 2
    next =>
      obtain rfl := Except.ok.inj h
      exact ⟨hs.frame.nextFactor hlast _, hs.openings, trivial⟩
  iterate 2
    next =>
      obtain rfl := Except.ok.inj h
      exact ⟨hs.frame.nextTerm hlast _, hs.openings, trivial⟩
  next =>
    have hexpression := hs.frame.expression hlast
    have hopenings := hs.openings
    split at h
    next outer rest heq =>
      obtain rfl := Except.ok.inj h
      rw [heq, List.forall_mem_cons] at hopenings
      exact ⟨hopenings.1.2, hopenings.2, hexpression⟩
    next n es _ outer rest heq =>
      obtain rfl := Except.ok.inj h
      rw [heq, List.forall_mem_cons] at hopenings
      obtain ⟨⟨⟨hname, hes⟩, houter⟩, hrest⟩ := hopenings
      refine ⟨houter, hrest, isReadableIn_call.mpr ⟨⟨hname, by simp⟩, ?_⟩⟩
      simpa [or_imp, forall_and, hexpression] using hes
    next => simp at h
  next =>
    have hexpression := hs.frame.expression hlast
    have hopenings := hs.openings
    split at h
    next n es offset outer rest heq =>
      obtain rfl := Except.ok.inj h
      rw [heq, List.forall_mem_cons] at hopenings
      obtain ⟨⟨⟨hname, hes⟩, houter⟩, hrest⟩ := hopenings
      have hargs := List.forall_mem_cons.mpr ⟨hexpression, hes⟩
      exact ⟨.start hs.frame.roots, List.forall_mem_cons.mpr ⟨⟨⟨hname, hargs⟩, houter⟩, hrest⟩,
        trivial⟩
    next => simp at h
  next => simp at h
  next =>
    have hnext : State.IsReadable D { s with frame := s.frame.nextFactor last false } :=
      ⟨hs.frame.nextFactor hlast _, hs.openings, hs.phase⟩
    exact hnext.beginOperand ht h

/-- Any token. -/
theorem step (hs : s.IsReadable D) (ht : t.kind.IsKnown D) (h : s.step t = .ok next) :
    next.IsReadable D := by
  have hphase := hs.phase
  unfold State.step at h
  split at h
  next => exact hs.beginOperand ht h
  next => exact hs.beginOperand ht h
  next last heq =>
    rw [heq] at hphase
    exact hs.afterOperand hphase ht h
  next n lexeme heq =>
    rw [heq] at hphase
    split at h
    next =>
      obtain rfl := Except.ok.inj h
      refine ⟨.start hs.frame.roots,
        List.forall_mem_cons.mpr ⟨⟨⟨hphase, ?_⟩, hs.frame⟩, hs.openings⟩, trivial⟩
      simp
    next => simp at h

theorem finish (hs : s.IsReadable D) {stop : Token} {e : Expr} (h : s.finish stop = .ok e) :
    e.IsReadableIn D := by
  have hphase := hs.phase
  unfold State.finish at h
  split at h
  next last heq _ =>
    obtain rfl := Except.ok.inj h
    rw [heq] at hphase
    exact hs.frame.expression hphase
  next => simp at h

/-- All tokens up to the end of input. -/
theorem run (hs : s.IsReadable D) {ts : List Token} (hts : ∀ t ∈ ts, t.kind.IsKnown D) {e : Expr}
    (h : s.run ts = .ok e) : e.IsReadableIn D := by
  induction ts generalizing s with
  | nil => simp [State.run] at h
  | cons t ts ih =>
    rw [List.forall_mem_cons] at hts
    rw [State.run] at h
    split at h
    next => exact hs.finish h
    next =>
      obtain ⟨next, hnext, h⟩ := bind_eq_ok_iff.mp h
      exact ih (hs.step hts.1 hnext) hts.2 h

end State.IsReadable

end

/-! ## Whole texts -/

/-- The names in the tokens of a text are those of the vocabulary, or have letters of their own. -/
theorem isKnown_of_tokenize {v : Vocabulary} [v.IsAlphabetic] {cs : List Char} {ts : List Token}
    (h : tokenize v cs = .ok ts) : ∀ t ∈ ts, t.kind.IsKnown (.foundIn v) := by
  obtain ⟨ks, hks, hkinds⟩ := (scan_eq_ok_iff 0).mp ⟨ts, h, rfl⟩
  intro t ht
  have hmem : t.kind ∈ ks ++ [.endOfInput] := hkinds ▸ List.mem_map_of_mem ht
  obtain hmem | hmem := List.mem_append.mp hmem
  · cases hkind : t.kind with
    | identifier n => exact hks.names.1 n (hkind ▸ hmem)
    | function n => exact hks.names.2 n (hkind ▸ hmem)
    | _ => trivial
  · rw [List.mem_singleton.mp hmem]
    trivial

/-- What a text reads as in some vocabulary. -/
theorem ofString_isReadableIn {s : Settings} [s.vocabulary.IsAlphabetic] {text : String} {e : Expr}
    (h : ofString s text = .ok e) : e.IsReadableIn (.foundIn s.vocabulary) := by
  unfold ofString Expr.parse at h
  obtain ⟨ts, hts, h⟩ := bind_eq_ok_iff.mp h
  have hknown := isKnown_of_tokenize hts
  split at h
  next d hd =>
    obtain rfl : d = e := by simpa using h
    unfold ofTokens at hd
    split at hd
    · simp at hd
    · exact (isReadable_start trivial).run hknown hd
  next => simp at h

/-- A reading may be computed and compared. -/
theorem ofString_eq_ok_of_returns {s : Settings} [s.vocabulary.IsAlphabetic] {text : String}
    {e : Expr} (he : e.IsExact) (h : returns (ofString s text) e = true) :
    ofString s text = .ok e :=
  eq_ok_of_returns (fun _ hd => (ofString_isReadableIn hd).isExact) he h

instance : Settings.standard.vocabulary.IsAlphabetic :=
  inferInstanceAs Vocabulary.standard.IsAlphabetic

/-- What a text reads as is readable, as all symbols with letters of their own are standard ones. -/
theorem ofString_isReadable {text : String} {e : Expr} (h : ofString .standard text = .ok e) :
    e.IsReadable := by
  refine (ofString_isReadableIn h).mono fun d hd => ?_
  cases d with
  | symbol n =>
    obtain hname | ⟨a, ha⟩ := hd
    · exact hname
    · exact isIdentifier_symbolLetter ha
  | power b p => exact fun _ => show "sqrt" ∈ Settings.standardFunctions by decide
  | number v => cases v <;> exact hd
  | _ => exact hd

end AlgebraicForm
