import AlgebraicForm.Proofs.Lexing

/-!
# Texts that are cut off

A token is read from the characters it takes and perhaps the one after them, so cutting a text off
behind a token changes nothing about the token, whatever the words are. A text that is malformed
before the order of its tokens matters is therefore malformed at the first character that is in the
way: up to it the text has tokens, and with it the same error as the whole text. Only a number that
a point makes malformed is not yet counted. In front of the point it stands as a number, and may
have too many digits (`ReadsBefore`).

* `LexemeAt.take`: a token where the text is cut off behind it.
* `read_malformed_prefix`: the step, a token that does not read.
* `scan_malformed_prefix`: the run, a scan that stops.
* `tokenize_malformed_prefix`: the error of a text and the prefixes of the text.
* `tokenize_prefix_too_long`: a text that has no tokens before its error.
-/

namespace AlgebraicForm

open Text

/-! ## The parts of a token -/

theorem takeWhile_take (p : Char → Bool) (cs : List Char) (m : Nat) :
    (cs.take m).takeWhile p = (cs.takeWhile p).take m := by
  induction cs generalizing m with
  | nil => simp
  | cons c cs ih =>
    cases m with
    | zero => simp
    | succ m =>
      rw [List.take_succ_cons, List.takeWhile_cons, List.takeWhile_cons]
      split
      · rw [ih, List.take_succ_cons]
      · rfl

theorem head?_take_ne {a : Char} {cs : List Char} (h : cs.head? ≠ some a) (m : Nat) :
    (cs.take m).head? ≠ some a := by
  rw [List.head?_take]
  split <;> simp [h]

theorem fractionDigits_take {cs : List Char} {m : Nat}
    (h : fractionDigits cs ≠ [] → (fractionDigits cs).length + 1 ≤ m) :
    fractionDigits (cs.take m) = fractionDigits cs := by
  by_cases hhead : cs.head? = some '.'
  · obtain ⟨rest, rfl⟩ := List.head?_eq_some_iff.mp hhead
    have hrest : fractionDigits ('.' :: rest) = rest.takeWhile isDecimalDigit := rfl
    rw [hrest] at h ⊢
    by_cases hempty : rest.takeWhile isDecimalDigit = []
    · cases m with
      | zero => exact hempty.symm
      | succ m =>
        show (rest.take m).takeWhile isDecimalDigit = _
        rw [takeWhile_take, hempty, List.take_nil]
    · obtain ⟨k, rfl⟩ := Nat.exists_eq_add_of_le' (h hempty)
      show (rest.take (k + _)).takeWhile isDecimalDigit = _
      rw [takeWhile_take, List.take_of_length_le (Nat.le_add_left _ _)]
  · have hnone : ∀ {ds : List Char}, ds.head? ≠ some '.' → fractionDigits ds = [] := by
      intro ds hds
      unfold fractionDigits
      split <;> simp_all
    rw [hnone hhead, hnone (head?_take_ne hhead m)]

/-- A number splits the same if the text is cut off behind it. -/
theorem splitNumber_take {cs : List Char} {m : Nat} (h : numberLength cs ≤ m) :
    splitNumber (cs.take m) = splitNumber cs := by
  simp only [numberLength, splitNumber, List.isEmpty_iff] at h
  have hwhole : (cs.takeWhile isDecimalDigit).take m = cs.takeWhile isDecimalDigit :=
    List.take_of_length_le (by omega)
  simp only [splitNumber, takeWhile_take, hwhole, List.drop_take, Prod.mk.injEq, true_and]
  refine fractionDigits_take fun hne => ?_
  rw [if_neg hne] at h
  omega

theorem numberLength_take {cs : List Char} {m : Nat} (h : numberLength cs ≤ m) :
    numberLength (cs.take m) = numberLength cs := by
  rw [numberLength, splitNumber_take h, numberLength]

/-- A subscript reads the same if the text is cut off behind it, and cutting off makes none. -/
theorem subscript?_take {cs : List Char} {m : Nat}
    (h : ∀ inner n, subscript? cs = some (inner, n) → n ≤ m) :
    subscript? (cs.take m) = subscript? cs := by
  cases hsub : subscript? cs with
  | some r =>
    obtain ⟨inner, n⟩ := r
    have hm := h inner n hsub
    obtain ⟨hne, hinner, ⟨rfl, rest, rfl⟩ | ⟨rfl, rest, rfl⟩⟩ := subscript?_eq_some hsub
    · obtain ⟨k, rfl⟩ := Nat.exists_eq_add_of_le' hm
      have hbrace := head?_ne_brace hne hinner rest
      rw [subscript?_underscore hbrace] at hsub
      have hrun : (inner ++ rest).takeWhile isSubscriptChar = inner := by
        split at hsub
        next => simp at hsub
        next => exact (Prod.mk.inj (Option.some.inj hsub)).1
      show subscript? ('_' :: (inner ++ rest).take (k + inner.length)) = _
      rw [subscript?_underscore (head?_take_ne hbrace _), takeWhile_take, hrun,
        List.take_of_length_le (Nat.le_add_left _ _)]
      simp [hne]
    · obtain ⟨k, rfl⟩ := Nat.exists_eq_add_of_le' hm
      have htake : ('_' :: '\x7b' :: (inner ++ '\x7d' :: rest)).take (k + (inner.length + 3)) =
          '_' :: '\x7b' :: (inner ++ '\x7d' :: rest.take k) := by
        rw [show k + (inner.length + 3) = inner.length + (k + 1) + 1 + 1 by omega,
          List.take_succ_cons, List.take_succ_cons, List.take_length_add_append,
          List.take_succ_cons]
      rw [htake, subscript?_braced hne hinner]
  | none =>
    rw [Option.eq_none_iff_forall_not_mem]
    rintro ⟨inner, n⟩ hr
    obtain ⟨after, hcs⟩ := List.take_prefix m cs
    obtain ⟨hne, hinner, ⟨-, rest, htake⟩ | ⟨-, rest, htake⟩⟩ := subscript?_eq_some hr
    · rw [htake, List.cons_append, List.append_assoc] at hcs
      have hrun : ∃ a as, (inner ++ (rest ++ after)).takeWhile isSubscriptChar = a :: as := by
        obtain ⟨a, as, rfl⟩ := List.exists_cons_of_ne_nil hne
        exact ⟨a, _, List.takeWhile_cons_of_pos (hinner a List.mem_cons_self)⟩
      obtain ⟨a, as, hrun⟩ := hrun
      rw [← hcs, subscript?_underscore (head?_ne_brace hne hinner _), hrun] at hsub
      simp at hsub
    · rw [htake] at hcs
      simp only [List.cons_append, List.append_assoc] at hcs
      rw [← hcs, subscript?_braced hne hinner] at hsub
      simp at hsub

/-- A word is found the same if the text is cut off behind it, and cutting off makes no word fit. -/
theorem longestWord?_take {v : Vocabulary} {cs : List Char} {m : Nat}
    (h : ∀ w, v.longestWord? cs = some w → w.length ≤ m) :
    v.longestWord? (cs.take m) = v.longestWord? cs := by
  have hfits : ∀ w : String, (decide (w ≠ "") && w.toList.isPrefixOf (cs.take m)) = true →
      (decide (w ≠ "") && w.toList.isPrefixOf cs) = true := by
    intro w hw
    simp only [Bool.and_eq_true, List.isPrefixOf_iff_prefix] at hw ⊢
    exact ⟨hw.1, hw.2.trans (List.take_prefix m cs)⟩
  cases hfind : v.longestWord? cs with
  | none =>
    rw [Vocabulary.longestWord?, List.find?_eq_none] at hfind ⊢
    exact fun w hw => mt (hfits w) (hfind w hw)
  | some w =>
    obtain ⟨-, hne, hstart⟩ := longestWord?_eq_some hfind
    obtain ⟨-, before, after, hwords, hbefore⟩ := List.find?_eq_some_iff_append.mp hfind
    refine List.find?_eq_some_iff_append.mpr ⟨?_, before, after, hwords, fun other hother => ?_⟩
    · have hcut : w.toList <+: cs.take m :=
        List.prefix_take_iff.mpr ⟨hstart, by rw [String.length_toList]; exact h w hfind⟩
      simp [hne, hcut]
    · -- what did not fit the whole text does not fit the part
      have hno := hbefore other hother
      rw [Bool.not_eq_true'] at hno ⊢
      exact Bool.eq_false_iff.mpr fun htrue => Bool.eq_false_iff.mp hno (hfits other htrue)

/-! ## One token -/

section

variable {v : Vocabulary} {c : Char} {rest : List Char} {x : Lexeme}

theorem startsNumber_take (h : Lexeme.startsNumber c rest = false) (m : Nat) :
    Lexeme.startsNumber c (rest.take m) = false := by
  cases m with
  | zero => simp_all [Lexeme.startsNumber]
  | succ m => cases rest <;> simpa [Lexeme.startsNumber] using h

theorem word_take {m : Nat} (h : (Lexeme.word v c rest).tail ≤ m) :
    Lexeme.word v c (rest.take m) = Lexeme.word v c rest := by
  have hword : v.longestWord? (c :: rest.take m) = v.longestWord? (c :: rest) := by
    rw [← List.take_succ_cons]
    refine longestWord?_take fun w hw => ?_
    simp only [Lexeme.word, hw] at h
    omega
  cases hw : v.longestWord? (c :: rest) with
  | some w => simp only [Lexeme.word, hword, hw]
  | none =>
    have hsub : subscript? (rest.take m) = subscript? rest := by
      refine subscript?_take fun inner n hr => ?_
      simpa only [Lexeme.word, hw, hr] using h
    simp only [Lexeme.word, hword, hw, hsub]

/-- A token reads the same if the text is cut off behind it. -/
theorem LexemeAt.take (h : LexemeAt v c rest x) {m : Nat} (hm : x.tail ≤ m) :
    LexemeAt v c (rest.take m) x := by
  have hstar : ¬(c = '*' ∧ rest.head? = some '*') → ¬(c = '*' ∧ (rest.take m).head? = some '*') :=
    fun hno hboth => head?_take_ne (fun hhead => hno ⟨hboth.1, hhead⟩) m hboth.2
  cases h with
  | number _ hx =>
    obtain ⟨hlen, hpoint, hfits, hkind⟩ := number_eq_ok_iff.mp hx
    have hle : numberLength (c :: rest) ≤ m + 1 := by omega
    have hsplit := splitNumber_take hle
    have hlen' := numberLength_take hle
    rw [List.take_succ_cons] at hsplit hlen'
    refine .number (startsNumber_of_numberLength_pos (by omega))
      (number_eq_ok_iff.mpr
        ⟨hlen'.trans hlen, ?_, by rwa [NumberFits, hsplit], by rw [hsplit, hkind]⟩)
    rw [← List.take_succ_cons, List.drop_take]
    exact head?_take_ne hpoint _
  | letter hnum hname => exact .letter (startsNumber_take hnum m) hname
  | word hnum hname halpha =>
    rw [← word_take hm]
    exact .word (startsNumber_take hnum m) hname halpha
  | doubledStar hnum hname halpha hstar' =>
    refine .doubledStar (startsNumber_take hnum m) hname halpha ⟨hstar'.1, ?_⟩
    rw [List.head?_take, if_neg (Nat.one_le_iff_ne_zero.mp hm), hstar'.2]
  | operator hnum hname halpha hno hop =>
    exact .operator (startsNumber_take hnum m) hname halpha (hstar hno) hop
  | punctuation hnum hname halpha hno hop hkind =>
    exact .punctuation (startsNumber_take hnum m) hname halpha (hstar hno) hop hkind

/-- What is malformed is a number, or a character that starts no token, whatever follows it. -/
theorem read_eq_malformed {offset : Nat} {e : ParseError}
    (h : Lexeme.read v offset c rest = .error (.malformed e)) :
    Lexeme.number v.digits offset (c :: rest) = .error (.malformed e) ∨
      (e.offset = offset ∧
        ∀ m, Lexeme.read v offset c (rest.take m) = .error (.malformed e)) := by
  unfold Lexeme.read at h
  split at h
  next => exact .inl h
  next hnum =>
    rw [Bool.not_eq_true] at hnum
    split at h
    next => simp at h
    next hletter =>
      split_ifs at h with halpha hstar
      split at h
      next => simp at h
      next hop =>
        split at h
        next => simp at h
        next hkind =>
          obtain rfl := Fault.malformed.inj (Except.error.inj h)
          refine .inr ⟨rfl, fun m => ?_⟩
          have hstar' : ¬(c = '*' ∧ (rest.take m).head? = some '*') := fun hboth =>
            head?_take_ne (fun hhead => hstar ⟨hboth.1, hhead⟩) m hboth.2
          rw [Lexeme.read, if_neg (by simp [startsNumber_take hnum m]), hletter]
          simp only [if_neg halpha, if_neg hstar', hop, hkind]

/-- The text in front of an error has tokens, unless the error is a point behind a number that has
too many digits. -/
def ReadsBefore (limit : DigitLimit) (e : ParseError) (tokens : Except Fault (List Token)) : Prop :=
  (∃ ts, tokens = .ok ts) ∨
    ∃ literal, e.reason = .malformedNumber literal ∧ ¬NumberFits limit literal.toList ∧
      limit.Stops tokens

theorem ReadsBefore.map {limit : DigitLimit} {e : ParseError} {tokens : Except Fault (List Token)}
    (h : ReadsBefore limit e tokens) (f : List Token → List Token) :
    ReadsBefore limit e (tokens.map f) := by
  obtain ⟨ts, rfl⟩ | ⟨literal, hreason, hlong, fault, hfault, rfl⟩ := h
  · exact .inl ⟨f ts, rfl⟩
  · exact .inr ⟨literal, hreason, hlong, fault, hfault, rfl⟩

/-- A token that is malformed is so at a character up to which the text is read, and with which it
is malformed in the same way. -/
theorem read_malformed_prefix {offset : Nat} {e : ParseError} (hblank : isBlank c = false)
    (h : Lexeme.read v offset c rest = .error (.malformed e)) :
    ∃ k ≤ rest.length, e.offset = offset + k ∧
      ReadsBefore v.digits e (scan v offset ((c :: rest).take k)) ∧
      Lexeme.read v offset c (rest.take k) = .error (.malformed e) := by
  obtain hnumber | ⟨hoffset, hread⟩ := read_eq_malformed h
  · obtain ⟨k, hlen, hpoint, rfl⟩ := number_eq_malformed_iff.mp hnumber
    have hle : k + 1 ≤ rest.length := by
      by_contra hlt
      rw [List.drop_eq_nil_of_le (by rw [List.length_cons]; omega)] at hpoint
      simp at hpoint
    have hcut : ∀ m ≥ k, numberLength (c :: rest.take m) = k + 1 := by
      intro m hm
      rw [← List.take_succ_cons, numberLength_take (by omega), hlen]
    refine ⟨k + 1, hle, rfl, ?_, ?_⟩
    · -- the number itself is a token, unless it is too long
      have hstart : Lexeme.startsNumber c (rest.take k) = true :=
        startsNumber_of_numberLength_pos (by rw [hcut k le_rfl]; omega)
      have hend : ((c :: rest.take k).drop (k + 1)).head? ≠ some '.' := by simp
      rw [List.take_succ_cons]
      by_cases hfits : NumberFits v.digits (c :: rest.take k)
      · have hx : LexemeAt v c (rest.take k) ⟨.number _, k⟩ :=
          .number hstart (number_eq_ok_iff.mpr ⟨hcut k le_rfl, hend, hfits, rfl⟩)
        rw [scan_lexeme _ _ hblank ((read_eq_ok_iff offset).mpr hx),
          List.drop_take, Nat.sub_self, List.take_zero, scan_nil]
        exact .inl ⟨_, rfl⟩
      · obtain ⟨fault, hfault, hstop⟩ :=
          (number_stops_iff offset).mpr ⟨k, hcut k le_rfl, hend, hfits⟩
        have hread : Lexeme.read v offset c (rest.take k) = .error fault := by
          rw [Lexeme.read, if_pos hstart, hstop]
        rw [scan_fault _ _ hblank hread]
        refine .inr ⟨_, rfl, ?_, fault, hfault, rfl⟩
        rwa [String.toList_ofList]
    · have hlen' := hcut (k + 1) (Nat.le_succ k)
      rw [Lexeme.read, if_pos (startsNumber_of_numberLength_pos (by omega)),
        number_eq_malformed_iff]
      refine ⟨k, hlen', ?_, ?_⟩
      · rw [← List.take_succ_cons, List.drop_take, List.head?_take, if_neg (by omega), hpoint]
      · rw [← List.take_succ_cons, List.take_take, min_eq_left (by omega)]
  · exact ⟨0, Nat.zero_le _, hoffset, .inl ⟨_, scan_nil v offset⟩, hread 0⟩

end

/-! ## The whole text -/

/-- A scan that is malformed is so at a character up to which the text is read, and with which it is
malformed in the same way. -/
theorem scan_malformed_prefix {v : Vocabulary} {offset : Nat} {cs : List Char} {e : ParseError}
    (h : scan v offset cs = .error (.malformed e)) :
    ∃ k < cs.length, e.offset = offset + k ∧ ReadsBefore v.digits e (scan v offset (cs.take k)) ∧
      scan v offset (cs.take (k + 1)) = .error (.malformed e) := by
  induction offset, cs using scan.induct with
  | case1 offset => simp [scan_nil] at h
  | case2 offset c rest hblank ih =>
    rw [scan_blank _ _ _ hblank] at h
    obtain ⟨k, hk, hoffset, hbefore, herror⟩ := ih h
    refine ⟨k + 1, by simpa using hk, by omega, ?_, ?_⟩
    · rwa [List.take_succ_cons, scan_blank _ _ _ hblank]
    · rw [List.take_succ_cons, scan_blank _ _ _ hblank, herror]
  | case3 offset c rest hblank ih =>
    rw [Bool.not_eq_true] at hblank
    cases hx : Lexeme.read v offset c rest with
    | error f =>
      rw [scan_fault _ _ hblank hx] at h
      obtain rfl := Except.error.inj h
      obtain ⟨k, hk, hoffset, hts, herror⟩ := read_malformed_prefix hblank hx
      refine ⟨k, by rw [List.length_cons]; omega, hoffset, hts, ?_⟩
      rw [List.take_succ_cons, scan_fault _ _ hblank herror]
    | ok x =>
      have hlexeme := (read_eq_ok_iff offset).mp hx
      have hle := hlexeme.tail_le
      rw [scan_lexeme _ _ hblank hx] at h
      cases hlater : scan v (offset + 1 + x.tail) (rest.drop x.tail) with
      | ok ts => simp [hlater, Except.map] at h
      | error f =>
        obtain rfl : f = .malformed e := by
          rw [hlater] at h
          exact Except.error.inj h
        obtain ⟨k, hk, hoffset, hbefore, herror⟩ := ih x hlater
        rw [List.length_drop] at hk
        -- the token is read from every part of the text that holds it
        have hpart : ∀ j, scan v offset ((c :: rest).take (x.tail + j + 1)) =
            (scan v (offset + 1 + x.tail) ((rest.drop x.tail).take j)).map
              (⟨x.kind, String.ofList (c :: (rest.take (x.tail + j)).take x.tail), offset⟩ ::
                ·) := by
          intro j
          have hread := (read_eq_ok_iff offset).mpr
            (hlexeme.take (Nat.le_add_right x.tail j))
          rw [List.take_succ_cons, scan_lexeme _ _ hblank hread, List.drop_take,
            Nat.add_sub_cancel_left]
        refine ⟨x.tail + k + 1, by rw [List.length_cons]; omega, by omega, ?_, ?_⟩
        · rw [hpart]
          exact hbefore.map _
        · rw [Nat.add_assoc x.tail, hpart, herror]
          rfl

/-- The error of a text whose characters make no tokens points at the first character that is in the
way, whatever the reserved words are: the text up to it has the same error, and the text before it
has tokens, unless it is a number that has too many digits and only a point behind it kept from
being counted. -/
theorem tokenize_malformed_prefix {s : Settings} {text : List Char} {e : ParseError}
    (h : tokenize s.vocabulary text = .error (.malformed e)) :
    e.offset < text.length ∧
      ReadsBefore s.digits e (tokenize s.vocabulary (text.take e.offset)) ∧
      tokenize s.vocabulary (text.take (e.offset + 1)) = .error (.malformed e) := by
  obtain ⟨k, hk, hoffset, hbefore, herror⟩ := scan_malformed_prefix h
  rw [Nat.zero_add] at hoffset
  rw [hoffset]
  exact ⟨hk, hbefore, herror⟩

/-- A point behind a number, after tokens of every kind that looks ahead. -/
theorem tokenize_malformed_prefix_point :
    let text := "sinhx_\x7b1\x7d**.5.2+".toList
    let e : ParseError := ⟨.malformedNumber ".5", 13, none⟩
    tokenize Settings.standard.vocabulary text = .error (.malformed e) ∧
      e.offset < text.length ∧
      ReadsBefore Settings.standard.digits e
        (tokenize Settings.standard.vocabulary (text.take e.offset)) ∧
      tokenize Settings.standard.vocabulary (text.take (e.offset + 1)) = .error (.malformed e) := by
  intro text e
  have herror : tokenize Settings.standard.vocabulary text = .error (.malformed e) := by
    decide +kernel
  exact ⟨herror, tokenize_malformed_prefix herror⟩

/-- A number of 4301 digits is malformed before a point, and too long without it. -/
theorem tokenize_prefix_too_long :
    let ones := List.replicate 4301 '1'
    let e : ParseError := ⟨.malformedNumber (String.ofList ones), 4301, none⟩
    tokenize Settings.standard.vocabulary (ones ++ ['.']) = .error (.malformed e) ∧
      tokenize Settings.standard.vocabulary ((ones ++ ['.']).take e.offset) =
        .error (.tooManyDigits 4300 (some 4301)) := by
  intro ones e
  have hones : (ones ++ ['.']).take (4300 + 1) = ones := List.take_left' List.length_replicate
  have hnumber : Lexeme.number .standard 0 (ones ++ ['.']) = .error (.malformed e) :=
    number_eq_malformed_iff.mpr ⟨4300, by decide +kernel, by decide +kernel, by rw [hones]⟩
  refine ⟨scan_fault _ 0 (by decide) ?_, by decide +kernel⟩
  rw [Lexeme.read, if_pos (by decide +kernel)]
  exact hnumber

end AlgebraicForm
