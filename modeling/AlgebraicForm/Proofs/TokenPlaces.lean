import AlgebraicForm.Proofs.Lexing

/-!
# Where the tokens of a text are

The tokens of a text tile it: each has the text that stands at its offset, they follow one another
without overlapping, all that lies between them is blank, and the end of input stands at the end. A
token that starts with a letter is the longest reserved word that fits there, if one does.

* `Cuts.exists_lexeme`: each token is what is read at its place.
* `Cuts.pairwise`, `Cuts.exists_covers`: the tokens come one after the other, and leave out only
  blanks.
* `LexemeAt.isLongestWord`: the token that is read at a letter.
* `tokenize_tiles`: the tokens of a text tile it, whatever the words, if none of them is empty.
-/

namespace AlgebraicForm

open Text

/-! ## Places -/

/-- Where the text of a token ends. -/
def Token.stop (t : Token) : Nat :=
  t.offset + t.text.length

/-- The character at the index is one of the token. -/
def Token.Covers (t : Token) (i : Nat) : Prop :=
  t.offset ≤ i ∧ i < t.stop

/-- The token is not empty and has the text that stands at its offset. -/
def Token.IsSliceOf (t : Token) (text : List Char) : Prop :=
  t.text ≠ "" ∧ t.text.toList = (text.drop t.offset).take t.text.length

/-- The longest of the words that a text starts with. -/
structure IsLongestWord (words : List String) (cs : List Char) (w : String) : Prop where
  mem : w ∈ words
  starts : w.toList <+: cs
  longest : ∀ other ∈ words, other.toList <+: cs → other.length ≤ w.length

/-- The tokens tile the text. -/
structure Tiles (words : List String) (text : List Char) (ts : List Token) : Prop where
  /-- The last token is the end of input. -/
  last : ts.getLast? = some ⟨.endOfInput, "", text.length⟩
  /-- It is the only one. -/
  only : ∀ t ∈ ts.dropLast, t.kind ≠ .endOfInput
  slices : ∀ t ∈ ts.dropLast, t.IsSliceOf text
  ordered : ts.Pairwise fun a b => a.offset < b.offset ∧ a.stop ≤ b.offset
  blanks : ∀ i c, text[i]? = some c → (∀ t ∈ ts, ¬t.Covers i) → isBlank c = true
  longest : ∀ t ∈ ts, ∀ c ∈ t.text.toList.head?, c.isAlpha = true →
    (∃ w ∈ words, w.toList <+: text.drop t.offset) →
    IsLongestWord words (text.drop t.offset) t.text

/-- There is only one such word. -/
theorem IsLongestWord.unique {words : List String} {cs : List Char} {w x : String}
    (hw : IsLongestWord words cs w) (hx : IsLongestWord words cs x) : w = x := by
  have hlen : w.length = x.length :=
    le_antisymm (hx.longest w hw.mem hw.starts) (hw.longest x hx.mem hx.starts)
  rw [← String.toList_inj, List.prefix_iff_eq_take.mp hw.starts,
    List.prefix_iff_eq_take.mp hx.starts, String.length_toList, String.length_toList, hlen]

/-- A slice lies within the text. -/
theorem Token.IsSliceOf.bounds {t : Token} {text : List Char} (h : t.IsSliceOf text) :
    t.offset < t.stop ∧ t.stop ≤ text.length := by
  have hpos : t.text.length ≠ 0 := by simpa using h.1
  have hlen := congrArg List.length h.2
  rw [String.length_toList, List.length_take, List.length_drop] at hlen
  unfold stop
  omega

/-! ## One token -/

section

variable {v : Vocabulary} {c : Char} {rest : List Char} {x : Lexeme}

theorem LexemeAt.length_toToken (h : LexemeAt v c rest x) (offset : Nat) :
    (x.toToken offset c rest).text.length = x.tail + 1 := by
  rw [← String.length_toList, Lexeme.toToken, String.toList_ofList, List.length_cons,
    List.length_take, min_eq_left h.tail_le]

theorem LexemeAt.stop_toToken (h : LexemeAt v c rest x) (offset : Nat) :
    (x.toToken offset c rest).stop = offset + 1 + x.tail := by
  rw [Token.stop, h.length_toToken]
  exact (Nat.add_right_comm offset 1 x.tail).symm

theorem LexemeAt.isSliceOf (h : LexemeAt v c rest x) {text : List Char} {offset : Nat}
    (htext : text.drop offset = c :: rest) : (x.toToken offset c rest).IsSliceOf text := by
  refine ⟨by simp [Lexeme.toToken], ?_⟩
  show _ = (text.drop offset).take _
  rw [h.length_toToken, htext, List.take_succ_cons, Lexeme.toToken, String.toList_ofList]

/-- The end of input is not read from text. -/
theorem LexemeAt.kind_ne_endOfInput (h : LexemeAt v c rest x) : x.kind ≠ .endOfInput := by
  cases h with
  | number _ hx =>
    obtain ⟨-, -, hkind⟩ := number_eq_ok_iff.mp hx
    simp [hkind]
  | word =>
    unfold Lexeme.word
    split
    next w _ => cases v.functions.contains w <;> simp
    next => split <;> simp
  | punctuation _ _ _ _ _ hkind =>
    rintro rfl
    unfold punctuation? at hkind
    split at hkind <;> simp at hkind
  | letter | doubledStar | operator => simp

/-- At a letter a word is read. -/
theorem LexemeAt.eq_word (h : LexemeAt v c rest x) (hc : c.isAlpha = true) :
    x = Lexeme.word v c rest := by
  obtain ⟨hnum, hletter, -⟩ := letter_classes hc rest
  cases h with
  | word => rfl
  | number hstart => simp [hnum] at hstart
  | letter _ hname => simp [hletter] at hname
  | doubledStar _ _ halpha | operator _ _ halpha | punctuation _ _ halpha => simp [hc] at halpha

/-- If reserved words fit at a letter, the longest of them is read. -/
theorem LexemeAt.isLongestWord {s : Settings} (hwords : "" ∉ s.functionNames ++ s.symbolNames)
    (h : LexemeAt s.vocabulary c rest x) (hc : c.isAlpha = true) (offset : Nat)
    (hfits : ∃ w ∈ s.functionNames ++ s.symbolNames, w.toList <+: c :: rest) :
    IsLongestWord (s.functionNames ++ s.symbolNames) (c :: rest)
      (x.toToken offset c rest).text := by
  have hmem : ∀ w, w ∈ s.functionNames ++ s.symbolNames ↔ w ∈ s.vocabulary.words :=
    fun w => List.mem_append.trans Settings.mem_reservedWords.symm
  have hne : ∀ w ∈ s.functionNames ++ s.symbolNames, w ≠ "" :=
    fun w hw heq => hwords (heq ▸ hw)
  obtain ⟨w, hw, hstart⟩ := hfits
  obtain ⟨found, hfound⟩ := exists_longestWord? ((hmem w).mp hw) (hne w hw) hstart
  obtain ⟨hfoundWord, -, hfoundStart⟩ := longestWord?_eq_some hfound
  -- the text of the token is the word that is found
  have htext : (x.toToken offset c rest).text = found := by
    rw [← String.toList_inj, (toList_of_longestWord? hfound).2, h.eq_word hc, Lexeme.toToken,
      String.toList_ofList, Lexeme.word, hfound]
  rw [htext]
  exact ⟨(hmem found).mpr hfoundWord, hfoundStart, fun other hother hotherStart =>
    length_le_of_longestWord? s.longestFirst_reservedWords hfound ((hmem other).mp hother)
      (hne other hother) hotherStart⟩

end

/-! ## The tokens of a text -/

section

variable {v : Vocabulary} {offset : Nat} {cs : List Char} {ws : List Token}

/-- Each token is what is read at its place in the text. -/
theorem Cuts.exists_lexeme (h : Cuts v offset cs ws) (text : List Char)
    (htext : text.drop offset = cs) : ∀ t ∈ ws, ∃ c rest x, text.drop t.offset = c :: rest ∧
      LexemeAt v c rest x ∧ t = x.toToken t.offset c rest := by
  induction h with
  | nil => exact List.forall_mem_nil _
  | blank _ _ ih => exact ih (by rw [← List.drop_drop, htext, List.drop_one, List.tail_cons])
  | @token offset c rest x ws _ hx _ ih =>
    refine List.forall_mem_cons.mpr ⟨⟨c, rest, x, htext, hx, rfl⟩, ih ?_⟩
    rw [Nat.add_assoc, ← List.drop_drop, htext, Nat.add_comm, List.drop_succ_cons]

theorem Cuts.le_offset (h : Cuts v offset cs ws) : ∀ t ∈ ws, offset ≤ t.offset := by
  induction h with
  | nil => exact List.forall_mem_nil _
  | blank _ _ ih => exact fun t ht => Nat.le_of_succ_le (ih t ht)
  | token _ _ _ ih =>
    refine List.forall_mem_cons.mpr ⟨le_rfl, fun t ht => ?_⟩
    have := ih t ht
    omega

/-- A token ends before the next one starts. -/
theorem Cuts.pairwise (h : Cuts v offset cs ws) :
    ws.Pairwise fun a b => a.stop ≤ b.offset := by
  induction h with
  | nil => exact .nil
  | blank _ _ ih => exact ih
  | @token offset _ _ _ _ _ hx hrest ih =>
    refine .cons (fun t ht => ?_) ih
    rw [hx.stop_toToken offset]
    exact hrest.le_offset t ht

/-- Every character that is not blank is one of a token. -/
theorem Cuts.exists_covers (h : Cuts v offset cs ws) {i : Nat} {a : Char} (ha : cs[i]? = some a)
    (hblank : isBlank a = false) : ∃ t ∈ ws, t.Covers (offset + i) := by
  induction h generalizing i with
  | nil => simp at ha
  | blank hc _ ih =>
    cases i with
    | zero =>
      obtain rfl := Option.some.inj ha
      simp [hc] at hblank
    | succ i =>
      obtain ⟨t, ht, hcovers⟩ := ih ha
      exact ⟨t, ht, by rwa [Nat.add_assoc, Nat.add_comm 1] at hcovers⟩
  | @token offset c rest x ws _ hx _ ih =>
    by_cases hi : i ≤ x.tail
    · refine ⟨_, List.mem_cons_self, Nat.le_add_right offset i, ?_⟩
      rw [hx.stop_toToken]
      omega
    · -- past the token
      obtain ⟨j, rfl⟩ : ∃ j, i = x.tail + j + 1 := ⟨i - x.tail - 1, by omega⟩
      obtain ⟨t, ht, hcovers⟩ := ih (i := j) (by rwa [List.getElem?_drop])
      refine ⟨t, List.mem_cons_of_mem _ ht, ?_⟩
      rwa [show offset + (x.tail + j + 1) = offset + 1 + x.tail + j by omega]

end

/-- The tokens of a text tile it, whatever the reserved words are, if none of them is empty. -/
theorem tokenize_tiles {s : Settings} (hwords : "" ∉ s.functionNames ++ s.symbolNames)
    {text : List Char} {ts : List Token} (h : tokenize s.vocabulary text = .ok ts) :
    Tiles (s.functionNames ++ s.symbolNames) text ts := by
  obtain ⟨ws, hws, rfl⟩ := scan_eq_ok_iff_cuts.mp h
  rw [Nat.zero_add]
  have hlexeme := hws.exists_lexeme text rfl
  have hslice : ∀ t ∈ ws, t.IsSliceOf text := by
    intro t ht
    obtain ⟨c, rest, x, htext, hx, heq⟩ := hlexeme t ht
    exact heq ▸ hx.isSliceOf htext
  refine ⟨List.getLast?_concat, ?only, ?slices, ?ordered, ?blanks, ?longest⟩
  case only =>
    rw [List.dropLast_concat]
    intro t ht
    obtain ⟨c, rest, x, -, hx, heq⟩ := hlexeme t ht
    exact heq ▸ hx.kind_ne_endOfInput
  case slices => rwa [List.dropLast_concat]
  case ordered =>
    refine List.pairwise_append.mpr ⟨?_, List.pairwise_singleton _ _, fun a ha b hb => ?_⟩
    · refine hws.pairwise.imp_of_mem fun ha _ hstop => ⟨?_, hstop⟩
      exact (hslice _ ha).bounds.1.trans_le hstop
    · obtain rfl := List.mem_singleton.mp hb
      obtain ⟨hoffset, hstop⟩ := (hslice a ha).bounds
      exact ⟨hoffset.trans_le hstop, hstop⟩
  case blanks =>
    intro i c hc huncovered
    by_contra hblank
    obtain ⟨t, ht, hcovers⟩ := hws.exists_covers hc (Bool.eq_false_iff.mpr hblank)
    exact huncovered t (List.mem_append_left _ ht) (by rwa [Nat.zero_add] at hcovers)
  case longest =>
    intro t ht c hhead hc hfits
    obtain ht | ht := List.mem_append.mp ht
    · obtain ⟨a, rest, x, htext, hx, heq⟩ := hlexeme t ht
      obtain rfl : a = c := by
        rw [heq, Lexeme.toToken, String.toList_ofList] at hhead
        exact Option.some.inj hhead
      rw [htext] at hfits ⊢
      rw [heq]
      exact hx.isLongestWord hwords hc t.offset hfits
    · -- the end of input starts with no letter
      obtain rfl := List.mem_singleton.mp ht
      simp at hhead

/-- Of the words `a`, `ab` and `abc` the last is read, although `bcd` fits after `a`. -/
theorem tokenize_tiles_overlapping_words :
    let s : Settings :=
      { Settings.standard with functionNames := ["ab", "sin"], symbolNames := ["a", "bcd", "abc"] }
    let text := " abcd_1 .5**x_\x7b12\x7dπ".toList
    let ts : List Token := [⟨.identifier "abc", "abc", 1⟩, ⟨.identifier "d_1", "d_1", 4⟩,
      ⟨.number (1 / 2), ".5", 8⟩, ⟨.operator .power, "**", 10⟩,
      ⟨.identifier "x_12", "x_\x7b12\x7d", 12⟩, ⟨.identifier "pi", "π", 18⟩, ⟨.endOfInput, "", 19⟩]
    ("" ∉ s.functionNames ++ s.symbolNames ∧ tokenize s.vocabulary text = .ok ts) ∧
      Tiles (s.functionNames ++ s.symbolNames) text ts := by
  intro s text ts
  have hwords : "" ∉ s.functionNames ++ s.symbolNames := by decide
  have hts : tokenize s.vocabulary text = .ok ts := eq_ok_of_toOption (by decide +kernel)
  exact ⟨⟨hwords, hts⟩, tokenize_tiles hwords hts⟩
end AlgebraicForm
