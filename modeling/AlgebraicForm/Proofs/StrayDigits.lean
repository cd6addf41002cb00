import AlgebraicForm.Answer.Form
import AlgebraicForm.Proofs.Lexing

/-!
# Texts that cannot be read at all

Reading a text gives an expression, or the error of a malformed text. It gives neither at two kinds
of numbers. A number may have no digit to start with: a superscript or a circled number is a digit,
but not a digit of any decimal notation. And it may have more digits than are allowed. `Meets` says
that the scan of a text comes to such a place, and these are the only texts on which reading stops
(`readText_result`).

* `meets_iff`: the scan stops at a place where no token is read.
* `scan_result`: a text has tokens, is malformed, or meets a number of one of the two kinds.
* `MeetsStrayDigit.exists_isStray`: only texts with a stray digit in them meet one.
* `MeetsLongNumber.exists_lt`: only texts with more characters than are allowed meet a long number.
* `ofTokens_append`: the reader looks at no token after the end of input.
-/

namespace AlgebraicForm

open Text

/-! ## Where the scan stops -/

/-- The scan of a text, token by token, comes to a place of some kind. -/
inductive Meets (v : Vocabulary) (P : Char → List Char → Prop) : List Char → Prop
  | here {c : Char} {rest : List Char} : isBlank c = false → P c rest → Meets v P (c :: rest)
  | blank {c : Char} {rest : List Char} : isBlank c = true → Meets v P rest →
      Meets v P (c :: rest)
  | lexeme {c : Char} {rest : List Char} {x : Lexeme} : isBlank c = false →
      LexemeAt v c rest x → Meets v P (rest.drop x.tail) → Meets v P (c :: rest)

/-- A number starts here without a decimal digit. -/
def IsStrayStart (c : Char) (rest : List Char) : Prop :=
  Lexeme.startsNumber c rest = true ∧ numberLength (c :: rest) = 0

/-- A number starts here that has too many digits, and is not malformed. -/
def IsLongNumber (limit : DigitLimit) (c : Char) (rest : List Char) : Prop :=
  ∃ k, numberLength (c :: rest) = k + 1 ∧ ((c :: rest).drop (k + 1)).head? ≠ some '.' ∧
    ¬NumberFits limit (c :: rest)

/-- The scan of a text comes to a place where a number starts without a decimal digit. -/
def MeetsStrayDigit (v : Vocabulary) : List Char → Prop :=
  Meets v IsStrayStart

/-- The scan of a text comes to a number that has too many digits. -/
def MeetsLongNumber (v : Vocabulary) : List Char → Prop :=
  Meets v (IsLongNumber v.digits)

section

variable {v : Vocabulary} {offset : Nat} {c : Char} {rest cs : List Char}

/-- The faults of the reader that are no malformed text. -/
theorem read_eq_strayDigit_iff :
    Lexeme.read v offset c rest = .error .strayDigit ↔ IsStrayStart c rest := by
  constructor
  · intro h
    obtain ⟨e, he⟩ | ⟨hnum, ⟨-, hzero⟩ | ⟨n, -, found, hlong⟩⟩ := read_eq_error h
    · exact nomatch he
    · exact ⟨hnum, hzero⟩
    · exact nomatch hlong
  · rintro ⟨hnum, hzero⟩
    rw [Lexeme.read, if_pos hnum, number_eq_strayDigit hzero]

theorem read_stops_iff :
    v.digits.Stops (Lexeme.read v offset c rest) ↔ IsLongNumber v.digits c rest := by
  constructor
  · rintro ⟨fault, hfault, h⟩
    obtain ⟨e, he⟩ | ⟨hnum, -⟩ := read_eq_error h
    · exact absurd he (hfault.ne_malformed e)
    · rw [Lexeme.read, if_pos hnum] at h
      exact (number_stops_iff offset).mp ⟨fault, hfault, h⟩
  · rintro ⟨k, hlen, hpoint, hfits⟩
    rw [Lexeme.read, if_pos (startsNumber_of_numberLength_pos (by omega))]
    exact (number_stops_iff offset).mpr ⟨k, hlen, hpoint, hfits⟩

/-- The scan meets the places at which no token is read for some reason, if it stops for that
reason. -/
theorem meets_iff {P : Char → List Char → Prop} {F : Fault → Prop}
    (hP : ∀ offset c rest, P c rest ↔ ∃ f, F f ∧ Lexeme.read v offset c rest = .error f) :
    Meets v P cs ↔ ∃ f, F f ∧ scan v offset cs = .error f := by
  induction offset, cs using scan.induct with
  | case1 offset => exact iff_of_false (by rintro ⟨⟩) (by simp [scan_nil])
  | case2 offset c rest hblank ih =>
    rw [scan_blank _ _ _ hblank, ← ih]
    refine ⟨fun h => ?_, .blank hblank⟩
    cases h with
    | here hvisible => simp [hblank] at hvisible
    | blank _ h => exact h
    | lexeme hvisible => simp [hblank] at hvisible
  | case3 offset c rest hblank ih =>
    rw [Bool.not_eq_true] at hblank
    cases hx : Lexeme.read v offset c rest with
    | error f =>
      have hhere : P c rest ↔ F f := by
        refine (hP offset c rest).trans ⟨?_, fun hf => ⟨f, hf, hx⟩⟩
        rintro ⟨g, hg, hread⟩
        exact Except.error.inj (hx.symm.trans hread) ▸ hg
      rw [scan_fault _ _ hblank hx]
      constructor
      · intro h
        cases h with
        | here _ h => exact ⟨f, hhere.mp h, rfl⟩
        | blank hblank' => simp [hblank] at hblank'
        | lexeme _ hread => cases hx.symm.trans ((read_eq_ok_iff offset).mpr hread)
      · rintro ⟨g, hg, hfault⟩
        exact .here hblank (hhere.mpr (Except.error.inj hfault ▸ hg))
    | ok x =>
      have hlexeme := (read_eq_ok_iff offset).mp hx
      rw [scan_lexeme _ _ hblank hx]
      constructor
      · intro h
        cases h with
        | here _ h =>
          obtain ⟨f, -, hf⟩ := (hP offset c rest).mp h
          cases hx.symm.trans hf
        | blank hblank' => simp [hblank] at hblank'
        | @lexeme _ _ y _ hread h =>
          obtain rfl : y = x :=
            Except.ok.inj (((read_eq_ok_iff offset).mpr hread).symm.trans hx)
          obtain ⟨f, hf, hlater⟩ := (ih y).mp h
          exact ⟨f, hf, by rw [hlater]; rfl⟩
      · rintro ⟨f, hf, h⟩
        refine .lexeme hblank hlexeme ((ih x).mpr ⟨f, hf, ?_⟩)
        cases hlater : scan v (offset + 1 + x.tail) (rest.drop x.tail) with
        | ok ts => simp [hlater, Except.map] at h
        | error g => rw [hlater] at h; exact h

theorem meetsStrayDigit_iff (offset : Nat) :
    MeetsStrayDigit v cs ↔ scan v offset cs = .error .strayDigit := by
  have hread : ∀ offset c rest, IsStrayStart c rest ↔
      ∃ f, f = .strayDigit ∧ Lexeme.read v offset c rest = .error f := by
    simp [read_eq_strayDigit_iff]
  rw [MeetsStrayDigit, @meets_iff _ offset _ _ _ hread]
  simp

theorem meetsLongNumber_iff (offset : Nat) :
    MeetsLongNumber v cs ↔ v.digits.Stops (scan v offset cs) :=
  meets_iff fun _ _ _ => read_stops_iff.symm

/-- A text in which the scan meets a stray digit has a stray digit. -/
theorem MeetsStrayDigit.exists_isStray (h : MeetsStrayDigit v cs) :
    ∃ c ∈ cs, isStray c = true := by
  induction h with
  | @here c rest _ h =>
    by_contra hnone
    have hpos := @numberLength_pos c rest
      (fun a ha => by simpa using fun hstray => hnone ⟨a, ha, hstray⟩) h.1
    have hzero := h.2
    omega
  | blank _ _ ih =>
    obtain ⟨c, hc, hstray⟩ := ih
    exact ⟨c, List.mem_cons_of_mem _ hc, hstray⟩
  | lexeme _ _ _ ih =>
    obtain ⟨c, hc, hstray⟩ := ih
    exact ⟨c, List.mem_cons_of_mem _ (List.mem_of_mem_drop hc), hstray⟩

theorem exists_lt_of_not_numberFits {limit : DigitLimit} (h : ¬NumberFits limit cs) :
    ∃ n ∈ limit.max?, n < cs.length := by
  have hlength := numberLength_le cs
  simp only [numberLength, List.isEmpty_iff] at hlength
  by_contra hnone
  simp only [not_exists, not_and, not_lt] at hnone
  refine h ⟨fun n hn => (Nat.le_trans ?_ hlength).trans (hnone n hn),
    fun n hn => (Nat.le_trans ?_ hlength).trans (hnone n hn)⟩
  · exact Nat.le_add_right _ _
  · split
    next hempty => simp [hempty]
    next => omega

/-- A text in which the scan meets a long number has more characters than digits are allowed. -/
theorem MeetsLongNumber.exists_lt (h : MeetsLongNumber v cs) :
    ∃ n ∈ v.digits.max?, n < cs.length := by
  induction h with
  | here _ h =>
    obtain ⟨k, -, -, hfits⟩ := h
    exact exists_lt_of_not_numberFits hfits
  | blank _ _ ih =>
    obtain ⟨n, hn, hlt⟩ := ih
    exact ⟨n, hn, Nat.lt_succ_of_lt hlt⟩
  | lexeme _ _ _ ih =>
    obtain ⟨n, hn, hlt⟩ := ih
    rw [List.length_drop] at hlt
    exact ⟨n, hn, by rw [List.length_cons]; omega⟩

/-- A scan that gives no tokens stops at a malformed token, at a stray digit or at a long number. -/
theorem scan_failsWithin (v : Vocabulary) (offset : Nat) (cs : List Char) :
    FailsWithin (fun f => (∃ e, f = .malformed e) ∨ f = .strayDigit ∨ v.digits.Raises f)
      (scan v offset cs) := by
  induction offset, cs using scan.induct with
  | case1 offset =>
    rw [scan_nil]
    exact .ok _
  | case2 offset c rest hblank ih => rwa [scan_blank _ _ _ hblank]
  | case3 offset c rest hblank ih =>
    rw [Bool.not_eq_true] at hblank
    cases hx : Lexeme.read v offset c rest with
    | error f =>
      rw [scan_fault _ _ hblank hx]
      exact .error ((read_eq_error hx).imp_right fun h => h.2.imp_left And.left)
    | ok x =>
      rw [scan_lexeme _ _ hblank hx]
      exact (ih x).map _

/-- A scan gives tokens or a malformed token, unless it meets a stray digit or a long number. -/
theorem scan_result (v : Vocabulary) (offset : Nat) (cs : List Char) :
    (¬MeetsStrayDigit v cs ∧ ¬MeetsLongNumber v cs ∧ ((∃ ts, scan v offset cs = .ok ts) ∨
      ∃ e, scan v offset cs = .error (.malformed e))) ∨
    (MeetsStrayDigit v cs ∧ scan v offset cs = .error .strayDigit) ∨
    (MeetsLongNumber v cs ∧ v.digits.Stops (scan v offset cs)) := by
  rw [meetsStrayDigit_iff offset, meetsLongNumber_iff offset]
  cases h : scan v offset cs with
  | ok ts => exact .inl ⟨nofun, DigitLimit.not_stops_ok, .inl ⟨ts, rfl⟩⟩
  | error f =>
    obtain ⟨e, rfl⟩ | rfl | hraises := scan_failsWithin v offset cs f h
    · refine .inl ⟨nofun, fun hstop => ?_, .inr ⟨e, rfl⟩⟩
      exact (DigitLimit.stops_error_iff.mp hstop).ne_malformed e rfl
    · exact .inr (.inl ⟨rfl, rfl⟩)
    · exact .inr (.inr ⟨⟨f, hraises, rfl⟩, ⟨f, hraises, rfl⟩⟩)

end

/-! ## The end of input -/

/-- The tokens of a text end with the end of input. -/
theorem endOfInput_mem_of_scan {v : Vocabulary} {offset : Nat} {cs : List Char} {ts : List Token}
    (h : scan v offset cs = .ok ts) : ∃ t ∈ ts, t.kind = .endOfInput := by
  obtain ⟨ws, -, rfl⟩ := scan_eq_ok_iff_cuts.mp h
  exact ⟨_, List.mem_append_right ws (List.mem_singleton_self _), rfl⟩

/-- The reader stops at the end of input, if there is one. -/
theorem State.run_append (s : State) {ts : List Token} (h : ∃ t ∈ ts, t.kind = .endOfInput)
    (more : List Token) : s.run (ts ++ more) = s.run ts := by
  induction ts generalizing s with
  | nil => simp at h
  | cons t ts ih =>
    rw [List.cons_append, State.run, State.run]
    split
    next => rfl
    next hkind =>
      cases s.step t with
      | error e => rfl
      | ok next =>
        obtain ⟨t', ht', hend⟩ := h
        obtain rfl | ht' := List.mem_cons.mp ht'
        · exact absurd hend hkind
        · exact ih next ⟨t', ht', hend⟩

/-- The expression of a list of tokens depends on no token after the end of input. -/
theorem Expr.ofTokens_append {ts : List Token} (h : ∃ t ∈ ts, t.kind = .endOfInput)
    (more : List Token) : Expr.ofTokens (ts ++ more) = Expr.ofTokens ts := by
  cases ts with
  | nil => simp at h
  | cons t ts =>
    have hrun := State.run_append .start h more
    obtain ⟨kind, text, offset⟩ := t
    cases kind <;> first | rfl | exact hrun

/-! ## Reading -/

/-- A text reads or is malformed, unless its scan meets a stray digit or a long number. -/
theorem Expr.ofString_result (s : Settings) (text : String) :
    (¬MeetsStrayDigit s.vocabulary text.toList ∧ ¬MeetsLongNumber s.vocabulary text.toList ∧
      ((∃ e, ofString s text = .ok e) ∨ ∃ error, ofString s text = .error (.malformed error))) ∨
    (MeetsStrayDigit s.vocabulary text.toList ∧ ofString s text = .error .strayDigit) ∨
    (MeetsLongNumber s.vocabulary text.toList ∧ s.digits.Stops (ofString s text)) := by
  unfold ofString Expr.parse tokenize
  refine (scan_result s.vocabulary 0 text.toList).imp (fun ⟨hstray, hlong, hscan⟩ => ?_)
    (.imp (fun ⟨hmeets, hstop⟩ => ⟨hmeets, by rw [hstop]; rfl⟩)
      fun ⟨hmeets, hstop⟩ => ⟨hmeets, hstop.bind _⟩)
  refine ⟨hstray, hlong, ?_⟩
  obtain ⟨ts, hts⟩ | ⟨e, he⟩ := hscan
  · rw [hts, ok_bind]
    cases ofTokens ts with
    | ok e => exact .inl ⟨e, rfl⟩
    | error e => exact .inr ⟨e, rfl⟩
  · exact .inr ⟨e, by rw [he]; rfl⟩

/-- Reading a text under any settings gives its expression and no report, or the error of a
malformed text and a report of it, and it stops exactly where the scan meets a stray digit, of which
the text then has one, or a number with more digits than are allowed. It looks at no token after the
end of input. -/
theorem readText_result (s : Settings) (text : String) :
    ((¬MeetsStrayDigit s.vocabulary text.toList ∧ ¬MeetsLongNumber s.vocabulary text.toList ∧
        ((∃ e, (readText s text).result = (.ok (.ok e), [])) ∨
          ∃ error, (readText s text).result = (.ok (.error error), [.malformed error]))) ∨
      (MeetsStrayDigit s.vocabulary text.toList ∧
        (readText s text).result = (.error .strayDigit, [])) ∨
      (MeetsLongNumber s.vocabulary text.toList ∧
        ∃ fault, s.digits.Raises fault ∧ (readText s text).result = (.error fault, []))) ∧
      (MeetsStrayDigit s.vocabulary text.toList → ∃ c ∈ text.toList, isStray c = true) ∧
      (MeetsLongNumber s.vocabulary text.toList → ∃ n ∈ s.digits.max?, n < text.length) ∧
      ∀ ts, tokenize s.vocabulary text.toList = .ok ts →
        ∀ more, Expr.ofTokens (ts ++ more) = Expr.ofTokens ts := by
  refine ⟨?_, fun hmeets => hmeets.exists_isStray, fun hmeets => hmeets.exists_lt,
    fun ts hts => Expr.ofTokens_append (endOfInput_mem_of_scan hts)⟩
  unfold readText
  obtain ⟨hstray, hlong, ⟨e, he⟩ | ⟨error, herror⟩⟩ | ⟨hmeets, hstop⟩ |
    ⟨hmeets, fault, hfault, hstop⟩ := Expr.ofString_result s text
  · exact .inl ⟨hstray, hlong, .inl ⟨e, by rw [he]; rfl⟩⟩
  · exact .inl ⟨hstray, hlong, .inr ⟨error, by rw [herror]; rfl⟩⟩
  · exact .inr (.inl ⟨hmeets, by rw [hstop]; rfl⟩)
  · refine .inr (.inr ⟨hmeets, fault, hfault, ?_⟩)
    obtain ⟨n, -, found, rfl⟩ := hfault
    rw [hstop]
    rfl

/-- A superscript two is a digit, so it starts a number, and has no value as one. -/
theorem readText_superscript : (readText .standard "²").result = (.error .strayDigit, []) := by
  have hmeets : MeetsStrayDigit Settings.standard.vocabulary "²".toList :=
    .here (by decide) ⟨by decide, by decide⟩
  have hstop : Expr.ofString .standard "²" = .error .strayDigit := by
    rw [Expr.ofString, Expr.parse, tokenize, (meetsStrayDigit_iff 0).mp hmeets]
    rfl
  rw [readText, hstop]
  rfl

end AlgebraicForm
