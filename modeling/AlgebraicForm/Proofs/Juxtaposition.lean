import AlgebraicForm.Proofs.Spacing

/-!
# Texts set side by side

The printer writes factors one after the other and puts a star between two of them where they would
not read as the same tokens otherwise. It looks only at the text written so far and at the next
factor. `SideBySide kss ks` says that `ks` are the tokens `kss` of several texts in order, with at
most one star between the tokens of neighbours.

* `Lexes.star_between`: two texts with a star between them.
* `Lexes.juxtapose`: the loop over the texts, from what has been written so far.
* `juxtapose_tokens`: the tokens of texts set side by side.
-/

namespace AlgebraicForm

/-- The tokens of several texts in order, with at most one star between neighbours. -/
inductive SideBySide : List (List TokenKind) → List TokenKind → Prop
  | single (ks : List TokenKind) : SideBySide [ks] ks
  | join {ks ls ms : List TokenKind} {kss : List (List TokenKind)} :
      SideBySide (ls :: kss) ms → SideBySide (ks :: ls :: kss) (ks ++ ms)
  | star {ks ls ms : List TokenKind} {kss : List (List TokenKind)} :
      SideBySide (ls :: kss) ms → SideBySide (ks :: ls :: kss) (ks ++ .operator .times :: ms)

/-- What the tokens start with may be taken off the first text. -/
theorem SideBySide.exists_of_append {ks ls ms : List TokenKind} {kss : List (List TokenKind)}
    (h : SideBySide ((ks ++ ls) :: kss) ms) :
    ∃ ms', ms = ks ++ ms' ∧ SideBySide (ls :: kss) ms' := by
  cases h with
  | single => exact ⟨ls, rfl, .single ls⟩
  | join h => exact ⟨_, List.append_assoc _ _ _, .join h⟩
  | star h => exact ⟨_, List.append_assoc _ _ _, .star h⟩

section

variable {v : Vocabulary} [v.IsAlphabetic]

/-- Two texts of which neither has a star where they meet, with a star between them. -/
theorem Lexes.star_between {cs ds : List Char} {ks ls : List TokenKind} (h : Lexes v cs ks)
    (h' : Lexes v ds ls) (hlast : cs.getLast? ≠ some '*') (hhead : ds.head? ≠ some '*') :
    Lexes v (cs ++ '*' :: ds) (ks ++ .operator .times :: ls) :=
  h.append_separator (k := .operator .times) (by decide) (fun _ _ => hlast)
    (h'.cons_separator (by decide) fun _ => hhead)

/-- Texts set beside a text read as the tokens of all of them, with at most one star between
neighbours. -/
theorem Lexes.juxtapose {text : List Char} {ks : List TokenKind} (h : Lexes v text ks)
    (hlast : text.getLast? ≠ some '*') {pieces : List (List Char)} {kss : List (List TokenKind)}
    (hpieces : List.Forall₂ (Lexes v) pieces kss)
    (hstars : ∀ p ∈ pieces, p ≠ [] ∧ p.head? ≠ some '*' ∧ p.getLast? ≠ some '*') :
    v.digits.Gives (AlgebraicForm.juxtapose v text pieces) fun whole =>
      ∃ ms, Lexes v whole ms ∧ SideBySide (ks :: kss) ms := by
  induction hpieces generalizing text ks with
  | nil => exact .ok ⟨ks, h, .single ks⟩
  | @cons piece ls pieces kss hpiece _ ih =>
    rw [List.forall_mem_cons] at hstars
    obtain ⟨⟨hne, hfirst, hfinal⟩, hstars⟩ := hstars
    rw [AlgebraicForm.juxtapose]
    refine (h.joinsCleanly hpiece).bind fun clean _ hjoin => ?_
    cases clean with
    | true =>
      have hend : (text ++ piece).getLast? ≠ some '*' := by
        rwa [List.getLast?_append_of_ne_nil _ hne]
      refine (ih (hjoin rfl) hend hstars).mono fun whole _ ⟨ms, hms, hside⟩ => ?_
      obtain ⟨ms', rfl, hside'⟩ := hside.exists_of_append
      exact ⟨_, hms, .join hside'⟩
    | false =>
      have hend : (text ++ '*' :: piece).getLast? ≠ some '*' := by
        rwa [List.getLast?_append_of_ne_nil _ (List.cons_ne_nil _ _),
          List.getLast?_cons_of_ne_nil hne]
      refine (ih (h.star_between hpiece hlast hfirst) hend hstars).mono
        fun whole _ ⟨ms, hms, hside⟩ => ?_
      rw [List.append_cons] at hside
      obtain ⟨ms', rfl, hside'⟩ := hside.exists_of_append
      rw [← List.append_cons] at hms
      exact ⟨_, hms, .star hside'⟩

end

/-- The tokens of a text, its end aside. -/
theorem tokenize_iff_lexes {v : Vocabulary} {text : List Char} {ks : List TokenKind} :
    (∃ ts, tokenize v text = .ok ts ∧ (wordsOf ts).map (·.kind) = ks) ↔ Lexes v text ks := by
  rw [lexes_iff_cuts 0]
  constructor
  · rintro ⟨ts, hts, rfl⟩
    obtain ⟨ws, hws, rfl⟩ := scan_eq_ok_iff_cuts.mp hts
    exact ⟨ws, hws, by rw [hws.wordsOf_eq]⟩
  · rintro ⟨ws, hws, rfl⟩
    exact ⟨_, scan_eq_ok_iff_cuts.mpr ⟨ws, hws, rfl⟩, by rw [hws.wordsOf_eq]⟩

/-- Nonempty texts that have tokens, and no star at either end, have tokens when they are set side
by side: the tokens of all of them in order, with at most one star between neighbours. Only the
limit for digits can stop this, at a number that two of the texts make together. -/
theorem juxtapose_tokens {piece : List Char} {pieces : List (List Char)} {tss : List (List Token)}
    (htokens : List.Forall₂ (fun p ts => tokenize .standard p = .ok ts) (piece :: pieces) tss)
    (hstars : ∀ p ∈ piece :: pieces, p ≠ [] ∧ p.head? ≠ some '*' ∧ p.getLast? ≠ some '*') :
    DigitLimit.standard.Gives (juxtapose .standard piece pieces) fun text =>
      ∃ ts, tokenize .standard text = .ok ts ∧
        SideBySide (tss.map fun ts => (wordsOf ts).map (·.kind)) ((wordsOf ts).map (·.kind)) := by
  have hlexes : List.Forall₂ (Lexes .standard) (piece :: pieces)
      (tss.map fun ts => (wordsOf ts).map (·.kind)) :=
    List.forall₂_map_right_iff.mpr
      (htokens.imp fun _ ts hts => tokenize_iff_lexes.mp ⟨ts, hts, rfl⟩)
  rw [List.forall_mem_cons] at hstars
  obtain ⟨ks, kss, hpiece, hpieces, hkss⟩ := List.forall₂_cons_left_iff.mp hlexes
  refine (hpiece.juxtapose hstars.1.2.2 hpieces hstars.2).mono fun text _ ⟨ms, hms, hside⟩ => ?_
  obtain ⟨ts, hts, hkinds⟩ := tokenize_iff_lexes.mpr hms
  rw [hkss]
  exact ⟨ts, hts, hkinds ▸ hside⟩

/-- Digits before a point, letters that make a word, and digits behind a subscript are kept apart,
also where a star stands already. -/
theorem juxtapose_tokens_apart :
    let piece := "1".toList
    let pieces := [".5".toList, "s".toList, "in".toList, "x_1".toList, "2".toList]
    let tss : List (List Token) := [
      [⟨.number 1, "1", 0⟩, ⟨.endOfInput, "", 1⟩],
      [⟨.number (1 / 2), ".5", 0⟩, ⟨.endOfInput, "", 2⟩],
      [⟨.identifier "s", "s", 0⟩, ⟨.endOfInput, "", 1⟩],
      [⟨.identifier "i", "i", 0⟩, ⟨.identifier "n", "n", 1⟩, ⟨.endOfInput, "", 2⟩],
      [⟨.identifier "x_1", "x_1", 0⟩, ⟨.endOfInput, "", 3⟩],
      [⟨.number 2, "2", 0⟩, ⟨.endOfInput, "", 1⟩]]
    (List.Forall₂ (fun p ts => tokenize .standard p = .ok ts) (piece :: pieces) tss ∧
      (∀ p ∈ piece :: pieces, p ≠ [] ∧ p.head? ≠ some '*' ∧ p.getLast? ≠ some '*') ∧
      juxtapose .standard piece pieces = .ok "1*.5s*inx_1*2".toList) ∧
    DigitLimit.standard.Gives (juxtapose .standard piece pieces) fun text =>
      ∃ ts, tokenize .standard text = .ok ts ∧
        SideBySide (tss.map fun ts => (wordsOf ts).map (·.kind)) ((wordsOf ts).map (·.kind)) := by
  intro piece pieces tss
  have htokens :
      List.Forall₂ (fun p ts => tokenize .standard p = .ok ts) (piece :: pieces) tss := by
    decide +kernel
  have hstars : ∀ p ∈ piece :: pieces, p ≠ [] ∧ p.head? ≠ some '*' ∧ p.getLast? ≠ some '*' := by
    decide
  exact ⟨⟨htokens, hstars, by decide +kernel⟩, juxtapose_tokens htokens hstars⟩

/-- A number with as many digits as are allowed, and one digit more. Both have tokens, but whether
they would run together cannot be told. -/
theorem juxtapose_too_long :
    let ones := List.replicate 4300 '1'
    (∀ p ∈ [ones, ['1']], (∃ ts, tokenize .standard p = .ok ts) ∧
      p ≠ [] ∧ p.head? ≠ some '*' ∧ p.getLast? ≠ some '*') ∧
    juxtapose .standard ones [['1']] = .error (.tooManyDigits 4300 (some 4301)) := by
  intro ones
  have hpieces : ∀ p ∈ [ones, ['1']], (tokenize .standard p).toOption.isSome = true ∧
      p ≠ [] ∧ p.head? ≠ some '*' ∧ p.getLast? ≠ some '*' := by decide +kernel
  refine ⟨fun p hp => (hpieces p hp).imp_left fun hsome => ?_, by decide +kernel⟩
  obtain ⟨ts, hts⟩ := Option.isSome_iff_exists.mp hsome
  exact ⟨ts, eq_ok_of_toOption hts⟩

end AlgebraicForm
