import AlgebraicForm.Proofs.Printing
import AlgebraicForm.Proofs.Shape
import Mathlib.Data.String.Basic

/-!
# Readers with other words

A form is written for a reader with the standard vocabulary, whatever words the settings have. A
reader with the words of the settings may find other names in it: two symbols that stand side by
side may be the name of one symbol. What is written for the vocabulary of the settings themselves
(`Expr.textIn`) reads back with the same symbols, and so does the form where it is the same text.

* `Reads.avoids_iff`: a symbol occurs in what is read back exactly if it occurs in what was written.
* `parse_textIn`: what is written for a vocabulary reads back in it with the same symbols.
* `ofString_print_symbols`: the form of a text, read with the words of the settings.
-/

namespace AlgebraicForm

open AlgebraicForm.Expr

/-! ## The symbols of an expression -/

namespace Expr

theorem pairwise_insertName (name : String) {names : List String} (h : names.Pairwise (· < ·)) :
    (insertName name names).Pairwise (· < ·) := by
  induction names with
  | nil => simp [insertName]
  | cons other rest ih =>
    obtain ⟨hother, hrest⟩ := List.pairwise_cons.mp h
    unfold insertName
    split
    · exact h
    · split
      next hlt =>
        refine List.pairwise_cons.mpr ⟨fun n hn => ?_, h⟩
        obtain rfl | hn := List.mem_cons.mp hn
        · exact hlt
        · exact hlt.trans (hother n hn)
      next hne hlt =>
        refine List.pairwise_cons.mpr ⟨fun n hn => ?_, ih hrest⟩
        obtain rfl | hn := mem_insertName.mp hn
        · exact lt_of_le_of_ne (not_lt.mp hlt) (Ne.symm hne)
        · exact hother n hn

theorem pairwise_sortNames (names : List String) : (sortNames names).Pairwise (· < ·) := by
  induction names with
  | nil => exact .nil
  | cons name rest ih => exact pairwise_insertName name ih

/-- Sorted names are determined by which names there are. -/
theorem sortNames_congr {ms ns : List String} (h : ∀ n, n ∈ ms ↔ n ∈ ns) :
    sortNames ms = sortNames ns := by
  have hms := pairwise_sortNames ms
  have hns := pairwise_sortNames ns
  have hperm : (sortNames ms).Perm (sortNames ns) := by
    refine (List.perm_ext_iff_of_nodup (hms.imp ne_of_lt) (hns.imp ne_of_lt)).mpr fun n => ?_
    rw [mem_sortNames, mem_sortNames, h]
  exact hperm.eq_of_pairwise (fun a b _ _ hab hba => absurd hab hba.not_gt) hms hns

/-- A symbol does not occur in an expression. -/
def Avoids (n : String) (e : Expr) : Prop :=
  e.Every (· ≠ symbol n)

variable {n : String}

theorem mem_symbols {e : Expr} : n ∈ e.symbols ↔ ¬e.Avoids n := by
  have hname : ∀ d : Expr, d.symbolName? = some n ↔ d = symbol n := by
    intro d
    cases d <;> simp [symbolName?]
  simp [symbols, mem_sortNames, hname, Avoids, Every]

/-- Expressions in which the same symbols occur have the same symbols. -/
theorem symbols_congr {d e : Expr} (h : ∀ n, d.Avoids n ↔ e.Avoids n) : d.symbols = e.symbols := by
  refine sortNames_congr fun n => ?_
  have hd : n ∈ d.symbols ↔ n ∈ e.symbols := by rw [mem_symbols, mem_symbols, h]
  simpa [symbols, mem_sortNames] using hd

@[simp] theorem avoids_number (v : Number) : (number v).Avoids n := by
  simp [Avoids]

@[simp] theorem avoids_sum {ts : List Expr} : (sum ts).Avoids n ↔ ∀ t ∈ ts, t.Avoids n := by
  simp [Avoids]

@[simp] theorem avoids_product {fs : List Expr} :
    (product fs).Avoids n ↔ ∀ f ∈ fs, f.Avoids n := by
  simp [Avoids]

@[simp] theorem avoids_power {b p : Expr} : (power b p).Avoids n ↔ b.Avoids n ∧ p.Avoids n := by
  simp [Avoids]

@[simp] theorem avoids_negation {e : Expr} : (negation e).Avoids n ↔ e.Avoids n := by
  simp [Avoids]

@[simp] theorem avoids_call {name : String} {es : List Expr} :
    (call name es).Avoids n ↔ ∀ e ∈ es, e.Avoids n := by
  simp [Avoids]

@[simp] theorem avoids_ofFactors {fs : List Expr} :
    (ofFactors fs).Avoids n ↔ ∀ f ∈ fs, f.Avoids n := by
  unfold ofFactors
  split <;> simp

@[simp] theorem avoids_ofRemaining {es : List Expr} :
    (ofRemaining es).Avoids n ↔ ∀ e ∈ es, e.Avoids n := by
  unfold ofRemaining
  split <;> simp [one]

/-- Taking out a sign takes no symbol along. -/
theorem avoids_splitSign (e : Expr) : e.splitSign.2.Avoids n ↔ e.Avoids n := by
  unfold splitSign
  split
  · split <;> simp
  · simp
  · split
    next v rest _ => split <;> simp
    next => rfl
  · simp
  · rfl

theorem avoids_literalFactors (q : Rat) : ∀ f ∈ literalFactors q, f.Avoids n := by
  unfold literalFactors
  split <;> simp [minusOne]

@[simp] theorem avoids_belowLine {v : Rat} {r : Expr} : (belowLine v r).Avoids n ↔ r.Avoids n := by
  unfold belowLine
  split_ifs
  · rfl
  · simp
  · rw [avoids_power, avoids_ofFactors, and_iff_left (avoids_literalFactors v)]

theorem avoids_pieceBody (e : Expr) : e.pieceBody.Avoids n ↔ e.Avoids n := by
  unfold pieceBody
  split
  · split <;> simp
  · rfl

end Expr

/-! ## What is read back -/

section

variable {n : String}

theorem Negates.avoids_iff {fs gs : List Expr} (h : Negates fs gs) :
    (∀ g ∈ gs, g.Avoids n) ↔ ∀ f ∈ fs, f.Avoids n := by
  cases h <;> simp

theorem avoids_quotientFactors {ns ds : List Expr} :
    (∀ f ∈ quotientFactors ns ds, f.Avoids n) ↔ ∀ f ∈ ns ++ ds, f.Avoids n := by
  rw [quotientFactors, List.forall_mem_append, List.forall_mem_append]
  refine and_congr ?_ ?_
  · split
    next h => simp [h, one]
    next => rfl
  · split
    next h => simp [h]
    next => simp [minusOne]

/-- Every factor is written above or below the line. -/
theorem ReadPieces.avoids_iff {ls : ReadPieces}
    (h : ∀ l ∈ ls, (∀ f ∈ l.2, f.Avoids n) ↔ l.1.pieceBody.Avoids n) :
    (∀ f ∈ ls.above ++ ls.below, f.Avoids n) ↔ ∀ l ∈ ls, l.1.Avoids n := by
  have hpiece : ∀ l ∈ ls, (ofFactors l.2).Avoids n ↔ l.1.Avoids n := fun l hl => by
    rw [avoids_ofFactors, h l hl, avoids_pieceBody]
  simp only [above, below, List.forall_mem_append, List.forall_mem_map, List.mem_filter,
    avoids_belowLine, and_imp]
  constructor
  · rintro ⟨habove, hbelow⟩ l hl
    cases hdiv : l.1.isDivided with
    | true => exact (hpiece l hl).mp (hbelow l hl hdiv)
    | false => exact (hpiece l hl).mp (habove l hl (by simp [hdiv]))
  · exact fun hall => ⟨fun l hl _ => (hpiece l hl).mpr (hall l hl),
      fun l hl _ => (hpiece l hl).mpr (hall l hl)⟩

/-- A symbol occurs in what is read back exactly if it occurs in what was written. -/
theorem Reads.avoids_iff {e : Expr} {fs : List Expr} (h : Reads e fs) :
    (∀ f ∈ fs, f.Avoids n) ↔ e.Avoids n := by
  induction h with
  | @literal q _ => exact iff_of_true (avoids_literalFactors q) (avoids_number _)
  | symbol m => simp
  | @signed e m fs gs _ hsplit _ hneg ih =>
    have hmagnitude := @avoids_splitSign n e
    rw [hsplit] at hmagnitude
    rw [hneg.avoids_iff, ih, hmagnitude]
  | singleTerm _ hgs ih =>
    obtain rfl | rfl := hgs
    · simp [ih]
    · simp [ih]
  | @sum t fs ls _ _ _ _ iht ihs =>
    have hlater : ∀ l ∈ ls, (signedTerm l).Avoids n ↔ l.1.Avoids n := by
      intro l hl
      unfold signedTerm
      split <;> simp [ihs l hl, avoids_splitSign]
    simp only [List.forall_mem_singleton, avoids_sum, List.forall_mem_cons, avoids_ofFactors, iht,
      List.forall_mem_map]
    exact and_congr_right' (forall₂_congr hlater)
  | @quotient q es ls _ _ hes _ _ ih =>
    have hes' : (∀ e ∈ es, e.Avoids n) ↔ ∀ l ∈ ls, l.1.Avoids n := by
      obtain rfl | ⟨-, rfl⟩ := hes <;> simp
    have hcoefficient : ∀ (k : Rat) (p : Prop) [Decidable p],
        ∀ f ∈ (if p then [] else [rat k]), f.Avoids n := by
      intro k p _
      split <;> simp
    rw [avoids_quotientFactors, avoids_product, hes', ← ReadPieces.avoids_iff ih]
    simp only [List.forall_mem_append]
    exact ⟨fun h => ⟨h.1.2, h.2.2⟩, fun h =>
      ⟨⟨hcoefficient _ _, h.1⟩, ⟨hcoefficient _ _, h.2⟩⟩⟩
  | root _ ih => simp [ih]
  | zeroReciprocal _ _ ih => simp [ih, zero]
  | reciprocal _ _ _ ih => simp [ih, one, minusOne]
  | power _ _ _ _ ihb ihp => simp [ihb, ihp]
  | call m ls _ ih =>
    simp only [List.forall_mem_singleton, avoids_call, List.forall_mem_map, avoids_ofFactors]
    exact forall₂_congr ih

end

/-! ## Texts for a vocabulary -/

/-- What is written for a vocabulary reads back in it, with the same symbols. -/
theorem parse_textIn {voc : Vocabulary} [voc.IsAlphabetic] {c : Expr}
    (hc : c.IsReadableIn (.of voc)) :
    voc.digits.Gives (c.textIn voc) fun cs =>
      ∃ r, Expr.parse voc cs = .ok r ∧ r.symbols = c.symbols := by
  refine DigitLimit.Gives.mono (prints_inLimit c hc) fun cs _ ⟨b, ks, fs, hprints⟩ => ?_
  refine ⟨ofFactors fs, hprints.parse, symbols_congr fun n => ?_⟩
  rw [avoids_ofFactors, hprints.reads.avoids_iff]

/-- A symbol with a letter of its own is one of two. -/
theorem symbolLetter?_eq_some {a : Char} {name : String} (h : symbolLetter? a = some name) :
    name = "pi" ∨ name = "theta" := by
  unfold symbolLetter? at h
  split at h
  · exact .inl (Option.some.inj h).symm
  · exact .inr (Option.some.inj h).symm
  · simp at h

/-- What is found in a text can be written for the same vocabulary, if that has its square roots and
its symbols with letters of their own. -/
theorem Expr.IsReadableIn.of_foundIn {s : Settings} [s.vocabulary.IsAlphabetic] {c : Expr}
    (hc : c.IsReadableIn (.foundIn s.vocabulary))
    (hletters : ∀ name ∈ c.symbols, name = "pi" ∨ name = "theta" →
      name ∈ s.symbolNames ∧ name ∉ s.functionNames)
    (hroots : ∀ b p, power b p ∈ c.walk → p.IsRootExponent → "sqrt" ∈ s.functionNames) :
    c.IsReadableIn (.of s.vocabulary) := by
  intro d hd
  have hfound := hc d hd
  cases d with
  | number v => cases v <;> exact hfound
  | symbol name =>
    obtain hname | ⟨a, ha⟩ := hfound
    · exact hname
    · have hmem : name ∈ c.symbols := mem_symbols.mpr fun havoids => havoids _ hd rfl
      obtain ⟨hsymbol, hfun⟩ := hletters name hmem (symbolLetter?_eq_some ha)
      exact isIdentifierIn_word (Settings.mem_reservedWords.mpr (.inr hsymbol)) hfun
  | power b p => exact hroots b p hd
  | _ => exact hfound

/-- The form of a text reads with the words of the settings, and has the symbols of the normal form,
wherever it is what would be written for these words: where the settings have the square root and
the symbols with letters of their own that occur in it, and no two factors stand side by side in it
that these words would run together. Only the limit for digits can stop the form. -/
theorem ofString_print_symbols {s : Settings} {a : String} {e c : Expr}
    (hwords : ∀ name ∈ s.functionNames ++ s.symbolNames, name ≠ "" ∧
      ∀ letter ∈ name.toList, letter.isAlpha = true)
    (hroles : ∀ name ∈ s.functionNames, name ∉ s.symbolNames)
    (ha : ofString s a = .ok e) (hc : normalForm s e = .ok c)
    (hletters : ∀ name ∈ c.symbols, name = "pi" ∨ name = "theta" → name ∈ s.symbolNames)
    (hroots : ∀ b p, power b p ∈ c.walk → p.IsRootExponent → "sqrt" ∈ s.functionNames)
    (hsame : c.text s.digits = c.textIn s.vocabulary) :
    s.digits.Gives (c.print s.digits) fun form =>
      ∃ r, ofString s form = .ok r ∧ r.symbols = c.symbols := by
  have := Settings.vocabulary_isAlphabetic hwords
  have hfound := normalForm_isReadableIn trivial (ofString_isReadableIn ha) hc
  have hreadable : c.IsReadableIn (.of s.vocabulary) :=
    hfound.of_foundIn (fun name hname hletter => ⟨hletters name hname hletter,
      fun hfun => hroles name hfun (hletters name hname hletter)⟩) hroots
  rw [print, hsame]
  refine DigitLimit.Gives.bind (parse_textIn hreadable) fun cs _ ⟨r, hparse, hsymbols⟩ => ?_
  exact .ok ⟨r, by rw [ofString, String.toList_ofList, hparse], hsymbols⟩

/-- A product of a literal and a function of the settings, applied to a symbol of theirs. -/
theorem ofString_print_symbols_call :
    let s : Settings :=
      { Settings.standard with functionNames := ["foo"], symbolNames := ["velocity"] }
    let c := product [rat 2, call "foo" [symbol "velocity"]]
    ((∀ name ∈ s.functionNames ++ s.symbolNames, name ≠ "" ∧
      ∀ letter ∈ name.toList, letter.isAlpha = true) ∧
      (∀ name ∈ s.functionNames, name ∉ s.symbolNames) ∧
      ofString s "foo(velocity)*2" = .ok (product [call "foo" [symbol "velocity"], rat 2]) ∧
      normalForm s (product [call "foo" [symbol "velocity"], rat 2]) = .ok c ∧
      (∀ name ∈ c.symbols, name = "pi" ∨ name = "theta" → name ∈ s.symbolNames) ∧
      (∀ b p, power b p ∈ c.walk → p.IsRootExponent → "sqrt" ∈ s.functionNames) ∧
      c.text s.digits = c.textIn s.vocabulary) ∧
      s.digits.Gives (c.print s.digits) fun form =>
        ∃ r, ofString s form = .ok r ∧ r.symbols = c.symbols := by
  intro s c
  have hwords : ∀ name ∈ s.functionNames ++ s.symbolNames, name ≠ "" ∧
      ∀ letter ∈ name.toList, letter.isAlpha = true := by
    have hall : ∀ name ∈ s.functionNames ++ s.symbolNames, name ≠ "" ∧
        name.toList.all Char.isAlpha = true := by decide
    simpa only [List.all_eq_true] using hall
  have hroles : ∀ name ∈ s.functionNames, name ∉ s.symbolNames := by decide
  have := Settings.vocabulary_isAlphabetic hwords
  have ha : ofString s "foo(velocity)*2" = .ok (product [call "foo" [symbol "velocity"], rat 2]) :=
    ofString_eq_ok_of_returns (by simp) (by decide +kernel)
  have hc : normalForm s (product [call "foo" [symbol "velocity"], rat 2]) = .ok c :=
    normalForm_eq_ok_of_returns (by simp) (by simp [c]) (by decide +kernel)
  have hletters : ∀ name ∈ c.symbols, name = "pi" ∨ name = "theta" → name ∈ s.symbolNames := by
    decide +kernel
  have hroots : ∀ b p, power b p ∈ c.walk → p.IsRootExponent → "sqrt" ∈ s.functionNames := by
    simp [c]
  have hsame : c.text s.digits = c.textIn s.vocabulary := by decide +kernel
  exact ⟨⟨hwords, hroles, ha, hc, hletters, hroots, hsame⟩,
    ofString_print_symbols hwords hroles ha hc hletters hroots hsame⟩

/-- Where two symbols stand side by side that the settings have as one word, the form reads as that
word. -/
theorem print_two_symbols_of_one_word :
    let s : Settings := { Settings.standard with functionNames := [], symbolNames := ["ab"] }
    let c := product [symbol "a", symbol "b"]
    ofString s "a*b" = .ok c ∧ normalForm s c = .ok c ∧ c.print = .ok "ab" ∧
      ofString s "ab" = .ok (symbol "ab") ∧ (symbol "ab").symbols ≠ c.symbols := by
  intro s c
  have hall : ∀ name ∈ s.functionNames ++ s.symbolNames, name ≠ "" ∧
      name.toList.all Char.isAlpha = true := by decide
  have := Settings.vocabulary_isAlphabetic (s := s) (by simpa only [List.all_eq_true] using hall)
  have hexact : c.IsExact := by simp [c]
  refine ⟨ofString_eq_ok_of_returns hexact (by decide +kernel), ?_, ?_,
    ofString_eq_ok_of_returns (by simp) (by decide +kernel), ?_⟩
  · exact normalForm_eq_ok_of_returns hexact hexact (by decide +kernel)
  · decide +kernel
  · decide +kernel

end AlgebraicForm
