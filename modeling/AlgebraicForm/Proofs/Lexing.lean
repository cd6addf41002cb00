import AlgebraicForm.Proofs.Lexemes

/-!
# Texts and their tokens

`Cuts v offset cs ws` says that the text `cs`, which starts at an offset, is cut into the tokens
`ws`; the scan finds exactly these, and the end of input after them (`scan_eq_ok_iff_cuts`).
`Lexes v cs ks` says the same without regard to offsets, of what the tokens mean (`lexes_iff_cuts`).
Texts cannot be set side by side at will, but they can before a separator, which is an operator, a
bracket or a comma.

* `Lexes.append_separator`: a text followed by a text that starts with a separator.
* `Lexes.joinsCleanly`: two texts that join cleanly.
* `Lexes.digits`, `Lexes.word`: the digits of a whole number, and a reserved word.
* `IsIdentifierIn`: names that read back as themselves, which all names that occur in a text do, if
  they have no letter of their own (`Lexes.names`).
-/

namespace AlgebraicForm

open Text

section

variable {v : Vocabulary}

/-! ## The tokens of a text -/

/-- The token of a lexeme that starts with the character `c` at an offset. -/
def Lexeme.toToken (x : Lexeme) (offset : Nat) (c : Char) (rest : List Char) : Token :=
  ⟨x.kind, String.ofList (c :: rest.take x.tail), offset⟩

/-- The tokens of what follows an offset of a text, without the end of input. -/
inductive Cuts (v : Vocabulary) : Nat → List Char → List Token → Prop
  | nil {offset : Nat} : Cuts v offset [] []
  | blank {offset : Nat} {c : Char} {cs : List Char} {ws : List Token} :
      isBlank c = true → Cuts v (offset + 1) cs ws → Cuts v offset (c :: cs) ws
  | token {offset : Nat} {c : Char} {rest : List Char} {x : Lexeme} {ws : List Token} :
      isBlank c = false → LexemeAt v c rest x →
      Cuts v (offset + 1 + x.tail) (rest.drop x.tail) ws →
      Cuts v offset (c :: rest) (x.toToken offset c rest :: ws)

/-- Where the text ends, seen from a token and from what follows it. -/
theorem LexemeAt.end_eq {c : Char} {rest : List Char} {x : Lexeme} (h : LexemeAt v c rest x)
    (offset : Nat) :
    offset + 1 + x.tail + (rest.drop x.tail).length = offset + (c :: rest).length := by
  have := h.tail_le
  simp only [List.length_drop, List.length_cons]
  omega

/-- These are the tokens that the scan finds. -/
theorem scan_eq_ok_iff_cuts {offset : Nat} {cs : List Char} {ts : List Token} :
    scan v offset cs = .ok ts ↔
      ∃ ws, Cuts v offset cs ws ∧ ts = ws ++ [⟨.endOfInput, "", offset + cs.length⟩] := by
  constructor
  · intro h
    induction offset, cs using scan.induct generalizing ts with
    | case1 offset =>
      rw [scan_nil] at h
      exact ⟨[], .nil, (Except.ok.inj h).symm⟩
    | case2 offset c rest hblank ih =>
      rw [scan_blank _ _ _ hblank] at h
      obtain ⟨ws, hws, rfl⟩ := ih h
      exact ⟨ws, .blank hblank hws, by rw [List.length_cons, Nat.add_right_comm, Nat.add_assoc]⟩
    | case3 offset c rest hblank ih =>
      rw [Bool.not_eq_true] at hblank
      cases hx : Lexeme.read v offset c rest with
      | error f => simp [scan_fault _ _ hblank hx] at h
      | ok x =>
        have hlexeme := (read_eq_ok_iff offset).mp hx
        rw [scan_lexeme _ _ hblank hx] at h
        cases hlater : scan v (offset + 1 + x.tail) (rest.drop x.tail) with
        | error f => simp [hlater, Except.map] at h
        | ok later =>
          rw [hlater] at h
          obtain rfl := Except.ok.inj h
          obtain ⟨ws, hws, rfl⟩ := ih x hlater
          rw [hlexeme.end_eq offset]
          exact ⟨_, .token hblank hlexeme hws, rfl⟩
  · rintro ⟨ws, hws, rfl⟩
    induction hws with
    | nil => exact scan_nil _ _
    | blank hblank _ ih =>
      rw [scan_blank _ _ _ hblank, ih, List.length_cons, Nat.add_right_comm, Nat.add_assoc]
    | @token offset c rest x ws hblank hx _ ih =>
      rw [scan_lexeme _ _ hblank ((read_eq_ok_iff offset).mpr hx), ih, hx.end_eq offset]
      rfl

/-- The tokens of a text, as what they mean, without the end of input. -/
inductive Lexes (v : Vocabulary) : List Char → List TokenKind → Prop
  | nil : Lexes v [] []
  | blank {c : Char} {cs : List Char} {ks : List TokenKind} :
      isBlank c = true → Lexes v cs ks → Lexes v (c :: cs) ks
  | lexeme {c : Char} {rest : List Char} {x : Lexeme} {ks : List TokenKind} :
      isBlank c = false → LexemeAt v c rest x → Lexes v (rest.drop x.tail) ks →
      Lexes v (c :: rest) (x.kind :: ks)

/-- A text reads without regard to offsets as it does from any of them. -/
theorem lexes_iff_cuts (offset : Nat) {cs : List Char} {ks : List TokenKind} :
    Lexes v cs ks ↔ ∃ ws, Cuts v offset cs ws ∧ ks = ws.map (·.kind) := by
  constructor
  · intro h
    induction h generalizing offset with
    | nil => exact ⟨[], .nil, rfl⟩
    | blank hblank _ ih =>
      obtain ⟨ws, hws, rfl⟩ := ih (offset + 1)
      exact ⟨ws, .blank hblank hws, rfl⟩
    | @lexeme c rest x ks hblank hx _ ih =>
      obtain ⟨ws, hws, rfl⟩ := ih (offset + 1 + x.tail)
      exact ⟨_, .token hblank hx hws, rfl⟩
  · rintro ⟨ws, hws, rfl⟩
    induction hws with
    | nil => exact .nil
    | blank hblank _ ih => exact .blank hblank ih
    | token hblank hx _ ih => exact .lexeme hblank hx ih

theorem scan_eq_ok_iff (offset : Nat) {cs : List Char} {ls : List TokenKind} :
    (∃ ts, scan v offset cs = .ok ts ∧ ts.map (·.kind) = ls) ↔
      ∃ ks, Lexes v cs ks ∧ ls = ks ++ [.endOfInput] := by
  simp only [scan_eq_ok_iff_cuts, lexes_iff_cuts offset]
  constructor
  · rintro ⟨ts, ⟨ws, hws, rfl⟩, rfl⟩
    exact ⟨_, ⟨ws, hws, rfl⟩, List.map_append⟩
  · rintro ⟨ks, ⟨ws, hws, rfl⟩, rfl⟩
    exact ⟨_, ⟨ws, hws, rfl⟩, List.map_append⟩

theorem kinds_eq_ok_iff {cs : List Char} {ls : List TokenKind} :
    kinds v cs = .ok ls ↔ ∃ ks, Lexes v cs ks ∧ ls = ks ++ [.endOfInput] := by
  rw [← scan_eq_ok_iff 0]
  simp only [kinds, tokenize, bind_eq_ok_iff, pure_eq_ok, Except.ok.injEq]

theorem Lexes.unique {cs : List Char} {ks ls : List TokenKind} (h : Lexes v cs ks)
    (h' : Lexes v cs ls) : ks = ls := by
  have hk := kinds_eq_ok_iff.mpr ⟨ks, h, rfl⟩
  have hl := kinds_eq_ok_iff.mpr ⟨ls, h', rfl⟩
  exact List.append_cancel_right (Except.ok.inj (hk.symm.trans hl))

theorem Lexes.isStray_eq_false [v.IsAlphabetic] {cs : List Char} {ks : List TokenKind}
    (h : Lexes v cs ks) :
    ∀ c ∈ cs, isStray c = false := by
  induction h with
  | nil => simp
  | @blank c cs ks hblank _ ih =>
    exact List.forall_mem_cons.mpr ⟨isStray_of_isBlank hblank, ih⟩
  | @lexeme c rest x ks _ hx _ ih =>
    obtain ⟨hc, hrest⟩ := hx.chars
    rw [List.forall_mem_cons]
    refine ⟨hc, fun a ha => ?_⟩
    rw [← List.take_append_drop x.tail rest, List.mem_append] at ha
    exact ha.elim (hrest a) (ih a)

/-! ## Texts side by side -/

/-- A star in a text is an operator. -/
theorem Lexes.head?_star {cs : List Char} {ls : List TokenKind} (h : Lexes v ('*' :: cs) ls) :
    ∃ op, ls.head? = some (.operator op) := by
  cases h with
  | blank hblank _ => exact absurd hblank (by decide)
  | lexeme _ hx _ =>
    cases hx with
    | number hnum _ =>
      have hdigit : isDigit '*' = false := by decide
      simp [Lexeme.startsNumber, hdigit] at hnum
    | letter _ hname => exact absurd hname (by simp [symbolLetter?])
    | word _ _ halpha => exact absurd halpha (by decide)
    | doubledStar => exact ⟨_, rfl⟩
    | operator => exact ⟨_, rfl⟩
    | punctuation _ _ _ _ hop _ => exact absurd hop (by simp [operator?])

/-- An underscore starts no token. -/
theorem Lexes.head?_ne_underscore {cs : List Char} {ls : List TokenKind} (h : Lexes v cs ls) :
    cs.head? ≠ some '_' := by
  intro hhead
  obtain ⟨rest, rfl⟩ := List.head?_eq_some_iff.mp hhead
  cases h with
  | blank hblank _ => exact absurd hblank (by decide)
  | lexeme _ hx _ =>
    cases hx with
    | number hnum _ =>
      have hdigit : isDigit '_' = false := by decide
      simp [Lexeme.startsNumber, hdigit] at hnum
    | letter _ hname => exact absurd hname (by simp [symbolLetter?])
    | word _ _ halpha => exact absurd halpha (by decide)
    | doubledStar _ _ _ hstar => exact absurd hstar.1 (by decide)
    | operator _ _ _ _ hop => exact absurd hop (by simp [operator?])
    | punctuation _ _ _ _ _ hkind => exact absurd hkind (by simp [punctuation?])

/-- A text may be followed by one that starts with a separator. If that is a star, the first text
must not end with the token of a lone star. -/
theorem Lexes.append_separator [v.IsAlphabetic] {d : Char} {k : TokenKind}
    (hd : (d, k) ∈ separatorKinds) {cs ds : List Char} {ks ls : List TokenKind} (h : Lexes v cs ks)
    (hstar : d = '*' → ks.getLast? = some (.operator .times) → cs.getLast? ≠ some '*')
    (hds : Lexes v (d :: ds) ls) : Lexes v (cs ++ d :: ds) (ks ++ ls) := by
  induction h with
  | nil => exact hds
  | @blank c cs ks hblank _ ih =>
    refine .blank hblank (ih fun hd' hks hcs => hstar hd' hks ?_)
    simp [List.getLast?_cons, hcs]
  | @lexeme c rest x ks hblank hx hrest ih =>
    have hdrop : (rest ++ d :: ds).drop x.tail = rest.drop x.tail ++ d :: ds :=
      List.drop_append_of_le_length hx.tail_le
    have hlast : d = '*' → ks.getLast? = some (.operator .times) →
        (rest.drop x.tail).getLast? ≠ some '*' := by
      intro hd' hks hcs
      rw [List.getLast?_drop] at hcs
      split at hcs
      · simp at hcs
      · exact hstar hd' (by simp [List.getLast?_cons, hks]) (by simp [List.getLast?_cons, hcs])
    refine .lexeme hblank (hx.append (endsToken_separator hd) ds hrest.head?_ne_underscore ?_)
      (hdrop ▸ ih hlast)
    rintro ⟨rfl, rfl, hd'⟩
    -- a lone star is the last token
    obtain rfl : [] = ks := by
      rw [List.drop_nil] at hrest
      exact Lexes.nil.unique hrest
    have hstarAlone : LexemeAt v '*' [] ⟨.operator .times, 0⟩ :=
      lexemeAt_separator (by decide) (by simp)
    have hx' := (read_eq_ok_iff 0).mpr hx
    rw [(read_eq_ok_iff 0).mpr hstarAlone] at hx'
    obtain rfl := Except.ok.inj hx'
    exact hstar hd' rfl rfl

/-- A separator may be followed by any text, but a star by none that starts with a star. -/
theorem Lexes.cons_separator {d : Char} {k : TokenKind} (hd : (d, k) ∈ separatorKinds)
    {cs : List Char} {ks : List TokenKind} (h : Lexes v cs ks)
    (hstar : d = '*' → cs.head? ≠ some '*') : Lexes v (d :: cs) (k :: ks) :=
  .lexeme (separator_classes hd).2.2.2.1 (lexemeAt_separator hd hstar) h

/-- A text that starts with a star has an operator as its first token. -/
theorem Lexes.separator {d : Char} {k : TokenKind} (hd : (d, k) ∈ separatorKinds)
    {cs : List Char} {ks : List TokenKind} (h : Lexes v cs ks)
    (hstar : d = '*' → ∀ op, ks.head? ≠ some (.operator op)) : Lexes v (d :: cs) (k :: ks) := by
  refine h.cons_separator hd fun hd' hhead => ?_
  obtain ⟨rest, rfl⟩ := List.head?_eq_some_iff.mp hhead
  obtain ⟨op, hop⟩ := h.head?_star
  exact hstar hd' op hop

theorem Lexes.between [v.IsAlphabetic] {d : Char} {k : TokenKind} (hd : (d, k) ∈ separatorKinds)
    {cs ds : List Char} {ks ls : List TokenKind} (h : Lexes v cs ks) (h' : Lexes v ds ls)
    (hlast : d = '*' → ks.getLast? ≠ some (.operator .times))
    (hhead : d = '*' → ∀ op, ls.head? ≠ some (.operator op)) :
    Lexes v (cs ++ d :: ds) (ks ++ k :: ls) :=
  h.append_separator hd (fun hd' hks => absurd hks (hlast hd')) (h'.separator hd hhead)

theorem Lexes.brackets [v.IsAlphabetic] {cs : List Char} {ks : List TokenKind}
    (h : Lexes v cs ks) :
    Lexes v ('(' :: cs ++ [')']) (.leftParen :: ks ++ [.rightParen]) := by
  have hclosed : Lexes v (cs ++ [')']) (ks ++ [.rightParen]) :=
    h.between (d := ')') (by decide) .nil (by simp) (by simp)
  exact hclosed.separator (by decide) (by simp)

/-- Without stray digits a text reads or is malformed, or has a number that is too long. -/
theorem kinds_of_isStray_eq_false {cs : List Char} (h : ∀ c ∈ cs, isStray c = false) :
    (∃ ks, kinds v cs = .ok ks) ∨ (∃ e, kinds v cs = .error (.malformed e)) ∨
      v.digits.Stops (kinds v cs) := by
  suffices hscan : ∀ offset, (∃ ts, scan v offset cs = .ok ts) ∨
      (∃ e, scan v offset cs = .error (.malformed e)) ∨ v.digits.Stops (scan v offset cs) by
    obtain ⟨ts, hts⟩ | ⟨e, he⟩ | hstop := hscan 0
    · exact .inl ⟨ts.map (·.kind), by simp [kinds, tokenize, hts]⟩
    · exact .inr (.inl ⟨e, by simp [kinds, tokenize, he]⟩)
    · exact .inr (.inr (hstop.bind _))
  intro offset
  induction offset, cs using scan.induct with
  | case1 offset => exact .inl ⟨_, scan_nil _ _⟩
  | case2 offset c rest hblank ih =>
    rw [scan_blank _ _ _ hblank]
    exact ih fun a ha => h a (by simp [ha])
  | case3 offset c rest hblank ih =>
    rw [Bool.not_eq_true] at hblank
    cases hx : Lexeme.read v offset c rest with
    | error f =>
      rw [scan_fault _ _ hblank hx]
      obtain ⟨e, rfl⟩ | hraises := malformed_of_read_eq_error h hx
      · exact .inr (.inl ⟨e, rfl⟩)
      · exact .inr (.inr (DigitLimit.stops_error_iff.mpr hraises))
    | ok x =>
      rw [scan_lexeme _ _ hblank hx]
      obtain ⟨ts, hts⟩ | ⟨e, he⟩ | ⟨f, hf, heq⟩ :=
        ih x fun a ha => h a (by simp [List.mem_of_mem_drop ha])
      · exact .inl ⟨_, by rw [hts]; rfl⟩
      · exact .inr (.inl ⟨e, by rw [he]; rfl⟩)
      · exact .inr (.inr ⟨f, hf, by rw [heq]; rfl⟩)

/-- Two texts that read either join cleanly, and then read side by side, or do not, unless they
run together to a number that is too long. -/
theorem Lexes.joinsCleanly [v.IsAlphabetic] {cs ds : List Char} {ks ls : List TokenKind}
    (h : Lexes v cs ks) (h' : Lexes v ds ls) :
    v.digits.Gives (AlgebraicForm.joinsCleanly v cs ds) fun clean =>
      clean = true → Lexes v (cs ++ ds) (ks ++ ls) := by
  have hstray : ∀ c ∈ cs ++ ds, isStray c = false :=
    List.forall_mem_append.mpr ⟨h.isStray_eq_false, h'.isStray_eq_false⟩
  have hks := kinds_eq_ok_iff.mpr ⟨ks, h, rfl⟩
  have hls := kinds_eq_ok_iff.mpr ⟨ls, h', rfl⟩
  unfold AlgebraicForm.joinsCleanly
  rw [hks, hls]
  obtain ⟨joined, hjoined⟩ | ⟨e, he⟩ | ⟨f, hf, heq⟩ := @kinds_of_isStray_eq_false v _ hstray
  · refine .inl ⟨decide (joined = (ks ++ [TokenKind.endOfInput]).dropLast ++
      (ls ++ [.endOfInput])), by simp [hjoined], fun hclean => ?_⟩
    rw [decide_eq_true_eq, List.dropLast_concat, ← List.append_assoc] at hclean
    subst hclean
    obtain ⟨ms, hms, heq⟩ := kinds_eq_ok_iff.mp hjoined
    rwa [List.append_cancel_right heq]
  · exact .inl ⟨false, by simp [he], by simp⟩
  · refine .inr ⟨f, hf, ?_⟩
    obtain ⟨n, -, found, rfl⟩ := hf
    simp [heq]

end

/-! ## Numbers and names -/

/-- The digits of a whole number denote it. -/
theorem digitsValue_digits (n : Nat) : digitsValue (Decimal.digits n) = n := by
  have hfold : ∀ (ds : List Char) (k : Nat), (∀ c ∈ ds, c.isDigit = true) →
      ds.foldl (fun n c => 10 * n + (digitValue? c).getD 0) k = Nat.ofDigitChars 10 ds k := by
    intro ds
    induction ds with
    | nil => simp
    | cons d ds ih =>
      intro k hds
      rw [List.forall_mem_cons] at hds
      rw [List.foldl_cons, ih _ hds.2, Nat.ofDigitChars_cons, digitValue?_of_isDigit hds.1,
        Option.getD_some]
  have hdigits : ∀ c ∈ Nat.toDigits 10 n, c.isDigit = true :=
    fun c hc => Nat.isDigit_of_mem_toDigits (by decide) (by decide) hc
  rw [digitsValue, Decimal.digits, hfold _ 0 hdigits, Nat.ofDigitChars_ten_toDigits]

theorem isDecimalDigit_of_mem_digits {n : Nat} {c : Char} (h : c ∈ Decimal.digits n) :
    isDecimalDigit c = true := by
  have hdigit : c.isDigit = true := Nat.isDigit_of_mem_toDigits (by decide) (by decide) h
  simp [isDecimalDigit, digitValue?_of_isDigit hdigit]

theorem Lexes.digits {v : Vocabulary} {n : Nat}
    (hfits : v.digits.Allows (Decimal.digits n).length) :
    Lexes v (Decimal.digits n) [.number n] := by
  have hdecimal : ∀ c ∈ Decimal.digits n, isDecimalDigit c = true :=
    fun _ => isDecimalDigit_of_mem_digits
  have hsplit : splitNumber (Decimal.digits n) = (Decimal.digits n, []) := by
    simpa [numberText] using splitNumber_numberText hdecimal (List.forall_mem_nil _)
  have hvalue : decimalValue (Decimal.digits n) [] = n := by
    simp [decimalValue, digitsValue_digits]
  have hne : Decimal.digits n ≠ [] := Nat.toDigits_ne_nil
  obtain ⟨c, rest, hcs⟩ := List.exists_cons_of_ne_nil hne
  rw [hcs] at hdecimal hsplit hvalue hfits ⊢
  rw [List.forall_mem_cons] at hdecimal
  have hdigit : c.isDigit = true := Nat.isDigit_of_mem_toDigits (b := 10) (n := n) (by decide)
    (by decide) (show c ∈ Decimal.digits n by simp [hcs])
  have hblank : isBlank c = false := isBlank_of_isAlphanum (by simp [Char.isAlphanum, hdigit])
  have hx : LexemeAt v c rest ⟨.number n, rest.length⟩ := by
    refine .number ?_ (number_eq_ok_iff.mpr ?_)
    · simp [Lexeme.startsNumber, isDigit, hdecimal.1]
    · simpa [numberLength, NumberFits, hsplit, hvalue, DigitLimit.allows_of_le] using hfits
  have hnil : Lexes v (rest.drop rest.length) [] := by
    rw [List.drop_length]
    exact .nil
  exact Lexes.lexeme (x := ⟨.number n, rest.length⟩) hblank hx hnil

/-- A name that reads back as the symbol it names. -/
def IsIdentifierIn (v : Vocabulary) (name : String) : Prop :=
  kinds v name.toList = .ok [.identifier name, .endOfInput]

/-- A name that reads back as the symbol it names, in the standard vocabulary. -/
def IsIdentifier (name : String) : Prop :=
  IsIdentifierIn .standard name

theorem isIdentifierIn_iff {v : Vocabulary} {name : String} :
    IsIdentifierIn v name ↔ Lexes v name.toList [.identifier name] := by
  refine ⟨fun h => ?_, fun h => kinds_eq_ok_iff.mpr ⟨_, h, rfl⟩⟩
  obtain ⟨ks, hks, heq⟩ := kinds_eq_ok_iff.mp h
  obtain rfl : [TokenKind.identifier name] = ks := by
    change [TokenKind.identifier name] ++ [TokenKind.endOfInput] = ks ++ [.endOfInput] at heq
    exact List.append_cancel_right heq
  exact hks

section

variable {v : Vocabulary} (limit : DigitLimit)

instance [h : v.IsAlphabetic] : (v.within limit).IsAlphabetic :=
  ⟨h.nonempty, h.letters, h.longestFirst, h.functions⟩

instance {s : Settings} [h : s.vocabulary.IsAlphabetic] :
    (s.within limit).vocabulary.IsAlphabetic :=
  ⟨h.nonempty, h.letters, h.longestFirst, h.functions⟩

/-- The limit is no matter for a token that is no number. -/
theorem LexemeAt.within {c : Char} {rest : List Char} {x : Lexeme} (h : LexemeAt v c rest x)
    (hx : ∀ q, x.kind ≠ .number q) : LexemeAt (v.within limit) c rest x := by
  cases h with
  | number _ hnumber => exact absurd (number_eq_ok_iff.mp hnumber).2.2.2 (hx _)
  | letter hnum hname => exact .letter hnum hname
  | word hnum hname halpha => exact .word hnum hname halpha
  | doubledStar hnum hname halpha hstar => exact .doubledStar hnum hname halpha hstar
  | operator hnum hname halpha hstar hop => exact .operator hnum hname halpha hstar hop
  | punctuation hnum hname halpha hstar hop hkind =>
    exact .punctuation hnum hname halpha hstar hop hkind

theorem Lexes.within {cs : List Char} {ks : List TokenKind} (h : Lexes v cs ks)
    (hks : ∀ q, .number q ∉ ks) : Lexes (v.within limit) cs ks := by
  induction h with
  | nil => exact .nil
  | blank hblank _ ih => exact .blank hblank (ih hks)
  | lexeme hblank hx _ ih =>
    have hfirst : ∀ q, _ ≠ TokenKind.number q := fun q hq => hks q (hq ▸ List.mem_cons_self)
    exact .lexeme hblank (hx.within limit hfirst) (ih fun q hq => hks q (List.mem_cons_of_mem _ hq))

/-- Names are the same under any limit. -/
theorem isIdentifierIn_within {name : String} :
    IsIdentifierIn (v.within limit) name ↔ IsIdentifierIn v name := by
  rw [isIdentifierIn_iff, isIdentifierIn_iff]
  exact ⟨fun h => h.within v.digits (by simp), fun h => h.within limit (by simp)⟩

end

/-- A word reads as itself. -/
theorem Lexes.word {v : Vocabulary} [v.IsAlphabetic] {w : String} (hw : w ∈ v.words) :
    Lexes v w.toList [if v.functions.contains w then .function w else .identifier w] := by
  have hne : w.toList ≠ [] := by
    simpa using Vocabulary.IsAlphabetic.nonempty w hw
  obtain ⟨c, rest, hcs⟩ := List.exists_cons_of_ne_nil hne
  have hc := Vocabulary.IsAlphabetic.letters w hw c (by simp [hcs])
  obtain ⟨hnum, hletter, hblank⟩ := letter_classes hc rest
  have hlen : w.length - 1 = rest.length := by
    rw [← String.length_toList, hcs]
    rfl
  have hword : Lexeme.word v c rest =
      ⟨if v.functions.contains w then .function w else .identifier w, rest.length⟩ := by
    have hself := longestWord?_self hw
    rw [hcs] at hself
    simp only [Lexeme.word, hself, hlen]
  have hx : LexemeAt v c _ _ := .word hnum hletter hc
  rw [hword] at hx
  have hnil : Lexes v (rest.drop rest.length) [] := by
    rw [List.drop_length]
    exact .nil
  rw [hcs]
  exact Lexes.lexeme hblank hx hnil

theorem isIdentifierIn_letter {v : Vocabulary} {c : Char} (hc : c.isAlpha = true)
    (hnone : v.longestWord? [c] = none) : IsIdentifierIn v (String.ofList [c]) := by
  obtain ⟨hnum, hletter, hblank⟩ := letter_classes hc []
  have hword : Lexeme.word v c [] = ⟨.identifier (String.ofList [c]), 0⟩ := by
    simp [Lexeme.word, hnone, subscript?]
  have hx : LexemeAt v c [] ⟨.identifier (String.ofList [c]), 0⟩ :=
    hword ▸ .word hnum hletter hc
  rw [isIdentifierIn_iff, String.toList_ofList]
  exact .lexeme hblank hx .nil

theorem isIdentifierIn_subscript {v : Vocabulary} {c : Char} (hc : c.isAlpha = true)
    {inner : List Char} (hnone : v.longestWord? (c :: '_' :: inner) = none) (hne : inner ≠ [])
    (hinner : ∀ a ∈ inner, isSubscriptChar a = true) :
    IsIdentifierIn v (String.ofList (c :: '_' :: inner)) := by
  obtain ⟨hnum, hletter, hblank⟩ := letter_classes hc ('_' :: inner)
  have hword : Lexeme.word v c ('_' :: inner) =
      ⟨.identifier (String.ofList (c :: '_' :: inner)), inner.length + 1⟩ := by
    simp [Lexeme.word, hnone, subscript?_bare hne hinner]
  have hx : LexemeAt v c _ _ := .word hnum hletter hc
  rw [hword] at hx
  have hnil : Lexes v (('_' :: inner).drop (inner.length + 1)) [] := by
    simpa using Lexes.nil
  rw [isIdentifierIn_iff, String.toList_ofList]
  exact Lexes.lexeme hblank hx hnil

theorem isIdentifier_letter {c : Char} (hc : c.isAlpha = true) :
    IsIdentifier (String.ofList [c]) :=
  isIdentifierIn_letter hc (longestWord?_eq_none (by simp))

/-- A symbol that is no function reads back as itself. -/
theorem isIdentifierIn_word {v : Vocabulary} [v.IsAlphabetic] {w : String} (hw : w ∈ v.words)
    (hfun : w ∉ v.functions) : IsIdentifierIn v w := by
  have hlexes := Lexes.word hw
  rwa [if_neg (by simpa using hfun), ← isIdentifierIn_iff] at hlexes

/-- A symbol with a letter of its own is a standard symbol. -/
theorem isIdentifier_symbolLetter {c : Char} {name : String} (h : symbolLetter? c = some name) :
    IsIdentifier name := by
  have hstandard : ∀ name ∈ ["pi", "theta"], name ∈ Vocabulary.standard.words ∧
      name ∉ Vocabulary.standard.functions := by decide
  have hmem : name ∈ ["pi", "theta"] := by
    unfold symbolLetter? at h
    split at h <;> simp_all
  obtain ⟨hword, hfun⟩ := hstandard name hmem
  exact isIdentifierIn_word hword hfun

/-- A token names a function of the vocabulary, or a symbol that has a letter of its own or reads
back as itself. -/
theorem LexemeAt.names {v : Vocabulary} [v.IsAlphabetic] {c : Char} {rest : List Char} {x : Lexeme}
    (h : LexemeAt v c rest x) :
    (∀ name, x.kind = .identifier name →
      IsIdentifierIn v name ∨ ∃ a, symbolLetter? a = some name) ∧
      ∀ name, x.kind = .function name → name ∈ v.functions := by
  cases h with
  | number _ hx =>
    obtain ⟨-, -, -, hkind⟩ := number_eq_ok_iff.mp hx
    simp [hkind]
  | letter _ hname =>
    refine ⟨fun name hkind => ?_, by simp⟩
    obtain rfl := TokenKind.identifier.inj hkind
    exact .inr ⟨c, hname⟩
  | word _ _ halpha =>
    unfold Lexeme.word
    split
    next w hw =>
      have hmem := List.mem_of_find?_eq_some hw
      by_cases hfun : v.functions.contains w = true
      · simp only [hfun, ↓reduceIte, reduceCtorEq, IsEmpty.forall_iff, implies_true, true_and]
        rintro name hkind
        obtain rfl := TokenKind.function.inj hkind
        exact List.contains_iff_mem.mp hfun
      · simp only [hfun, Bool.false_eq_true, ↓reduceIte, reduceCtorEq, IsEmpty.forall_iff,
          implies_true, and_true]
        rintro name hkind
        obtain rfl := TokenKind.identifier.inj hkind
        exact .inl (isIdentifierIn_word hmem (mt List.contains_iff_mem.mpr hfun))
    next hnone =>
      split
      next inner n hsub =>
        obtain ⟨hne, hinner, -⟩ := subscript?_eq_some hsub
        refine ⟨fun name hkind => ?_, by simp⟩
        obtain rfl := TokenKind.identifier.inj hkind
        refine .inl (isIdentifierIn_subscript halpha
          (longestWord?_eq_none_of_letter hnone fun a ha => ?_) hne hinner)
        obtain rfl : '_' = a := by simpa using ha
        decide
      next =>
        refine ⟨fun name hkind => ?_, by simp⟩
        obtain rfl := TokenKind.identifier.inj hkind
        exact .inl (isIdentifierIn_letter halpha
          (longestWord?_eq_none_of_letter hnone (by simp)))
  | doubledStar => simp
  | operator => simp
  | punctuation _ _ _ _ _ hkind =>
    unfold punctuation? at hkind
    split at hkind
    · obtain rfl := Option.some.inj hkind
      simp
    · obtain rfl := Option.some.inj hkind
      simp
    · obtain rfl := Option.some.inj hkind
      simp
    · simp at hkind

/-- The functions in a text are those of the vocabulary, and its symbols have letters of their own
or read back as themselves. -/
theorem Lexes.names {v : Vocabulary} [v.IsAlphabetic] {cs : List Char} {ks : List TokenKind}
    (h : Lexes v cs ks) :
    (∀ name, .identifier name ∈ ks → IsIdentifierIn v name ∨ ∃ a, symbolLetter? a = some name) ∧
      ∀ name, .function name ∈ ks → name ∈ v.functions := by
  induction h with
  | nil => simp
  | blank _ _ ih => exact ih
  | lexeme _ hx _ ih =>
    refine ⟨fun name hname => ?_, fun name hname => ?_⟩
    · obtain hkind | hname := List.mem_cons.mp hname
      · exact hx.names.1 name hkind.symm
      · exact ih.1 name hname
    · obtain hkind | hname := List.mem_cons.mp hname
      · exact hx.names.2 name hkind.symm
      · exact ih.2 name hname

end AlgebraicForm
