import AlgebraicForm.Proofs.Prefixes
import AlgebraicForm.Proofs.TokenPlaces

/-!
# Texts with other blanks

How the tokens of a text are spaced does not matter: their texts with any blanks between them read
as the same tokens. What was read at a place has to be read again where other characters follow, and
a token ends before a blank as it does at the end of a text.

* `LexemeAt.before_blank`: a token reads the same before blanks.
* `Cuts.lexes_spaced`: the texts of the tokens, one after the other.
* `tokenize_spaced`: the tokens of a text, spaced in any way.
-/

namespace AlgebraicForm

open Text

/-- The tokens of a text without the end of input. -/
def wordsOf (ts : List Token) : List Token :=
  ts.filter fun t => t.kind ≠ .endOfInput

/-- The texts of tokens, each with a gap after it. -/
def spaced (ws : List Token) (gaps : List (List Char)) : List Char :=
  (List.zipWith (fun t gap => t.text.toList ++ gap) ws gaps).flatten

theorem spaced_cons (t : Token) (ws : List Token) (gap : List Char) (gaps : List (List Char)) :
    spaced (t :: ws) (gap :: gaps) = t.text.toList ++ (gap ++ spaced ws gaps) := by
  simp [spaced]

/-- Among the tokens of a text the end of input comes last, and nowhere else. -/
theorem Cuts.wordsOf_eq {v : Vocabulary} {cs : List Char} {ws : List Token} (h : Cuts v 0 cs ws)
    (stop : Nat) : wordsOf (ws ++ [⟨.endOfInput, "", stop⟩]) = ws := by
  have hkinds : ∀ t ∈ ws, t.kind ≠ .endOfInput := by
    intro t ht
    obtain ⟨c, rest, x, -, hx, heq⟩ := h.exists_lexeme cs rfl t ht
    exact heq ▸ hx.kind_ne_endOfInput
  simpa [wordsOf] using hkinds

/-! ## One token -/

section

variable {v : Vocabulary} {c : Char} {rest : List Char} {x : Lexeme}

/-- A token reads the same before blanks, and at the end of a text. -/
theorem LexemeAt.before_blank [v.IsAlphabetic] (h : LexemeAt v c rest x) {after : List Char}
    (hafter : ∀ d ∈ after.head?, isBlank d = true) :
    LexemeAt v c (rest.take x.tail ++ after) x := by
  have halone := h.take le_rfl
  cases after with
  | nil => rwa [List.append_nil]
  | cons d ds =>
    have hd := hafter d rfl
    refine halone.append (endsToken_blank hd) ds (by simp) ?_
    rintro ⟨-, -, rfl⟩
    exact absurd hd (by decide)

end

/-! ## All tokens -/

section

variable {v : Vocabulary}

theorem Lexes.blanks {gap cs : List Char} {ks : List TokenKind}
    (hgap : ∀ c ∈ gap, isBlank c = true) (h : Lexes v cs ks) : Lexes v (gap ++ cs) ks := by
  induction gap with
  | nil => exact h
  | cons c gap ih =>
    rw [List.forall_mem_cons] at hgap
    exact .blank hgap.1 (ih hgap.2)

/-- The texts of the tokens read as these tokens, with blanks between them. -/
theorem Cuts.lexes_spaced [v.IsAlphabetic] {offset : Nat} {cs : List Char} {ws : List Token}
    (h : Cuts v offset cs ws) {gaps : List (List Char)} (hlength : gaps.length = ws.length)
    (hgaps : ∀ gap ∈ gaps, ∀ c ∈ gap, isBlank c = true)
    (hbetween : ∀ gap ∈ gaps.dropLast, gap ≠ []) :
    Lexes v (spaced ws gaps) (ws.map (·.kind)) := by
  induction h generalizing gaps with
  | nil => exact .nil
  | blank _ _ ih => exact ih hlength hgaps hbetween
  | @token offset c rest x ws hblank hx _ ih =>
    obtain ⟨gap, gaps, rfl⟩ := List.exists_cons_of_length_eq_add_one hlength
    rw [List.forall_mem_cons] at hgaps
    have hlater : Lexes v (spaced ws gaps) (ws.map (·.kind)) := by
      refine ih (Nat.succ.inj hlength) hgaps.2 fun g hg => hbetween g ?_
      cases gaps with
      | nil => simp at hg
      | cons => exact List.mem_cons_of_mem _ hg
    -- only the last gap may be empty, and then no text follows
    have hafter : ∀ d ∈ (gap ++ spaced ws gaps).head?, isBlank d = true := by
      intro d hd
      cases gap with
      | cons a as =>
        obtain rfl := Option.some.inj hd
        exact hgaps.1 _ List.mem_cons_self
      | nil =>
        cases gaps with
        | nil => simp [spaced] at hd
        | cons => exact absurd rfl (hbetween [] List.mem_cons_self)
    have hdrop : (rest.take x.tail ++ (gap ++ spaced ws gaps)).drop x.tail =
        gap ++ spaced ws gaps := List.drop_left' (List.length_take_of_le hx.tail_le)
    rw [spaced_cons, Lexeme.toToken, String.toList_ofList, List.cons_append]
    refine .lexeme hblank (hx.before_blank hafter) ?_
    rw [hdrop]
    exact hlater.blanks hgaps.1

end

/-- The texts of the tokens of a text, with any blanks before, between and after them, read as the
same tokens. -/
theorem tokenize_spaced {text : List Char} {ts : List Token} (h : tokenize .standard text = .ok ts)
    {front : List Char} {gaps : List (List Char)} (hlength : gaps.length = (wordsOf ts).length)
    (hfront : ∀ c ∈ front, isBlank c = true) (hgaps : ∀ gap ∈ gaps, ∀ c ∈ gap, isBlank c = true)
    (hbetween : ∀ gap ∈ gaps.dropLast, gap ≠ []) :
    ∃ us, tokenize .standard (front ++ spaced (wordsOf ts) gaps) = .ok us ∧
      us.map (·.kind) = ts.map (·.kind) := by
  obtain ⟨ws, hws, rfl⟩ := scan_eq_ok_iff_cuts.mp h
  rw [hws.wordsOf_eq] at hlength ⊢
  rw [List.map_append]
  exact (scan_eq_ok_iff 0).mpr ⟨_, (hws.lexes_spaced hlength hgaps hbetween).blanks hfront, rfl⟩

/-- Tokens of every kind that looks ahead, moved apart. -/
theorem tokenize_spaced_apart :
    let text := "1.5sinhx_1**−π".toList
    let ts : List Token := [⟨.number (3 / 2), "1.5", 0⟩, ⟨.function "sinh", "sinh", 3⟩,
      ⟨.identifier "x_1", "x_1", 7⟩, ⟨.operator .power, "**", 10⟩, ⟨.operator .minus, "−", 12⟩,
      ⟨.identifier "pi", "π", 13⟩, ⟨.endOfInput, "", 14⟩]
    let front := [' ']
    let gaps := [[' '], ['\t', ' '], ['\n'], [' '], [' '], []]
    (tokenize .standard text = .ok ts ∧ gaps.length = (wordsOf ts).length ∧
      (∀ c ∈ front, isBlank c = true) ∧ (∀ gap ∈ gaps, ∀ c ∈ gap, isBlank c = true) ∧
      (∀ gap ∈ gaps.dropLast, gap ≠ []) ∧
      front ++ spaced (wordsOf ts) gaps = " 1.5 sinh\t x_1\n** − π".toList) ∧
    ∃ us, tokenize .standard (front ++ spaced (wordsOf ts) gaps) = .ok us ∧
      us.map (·.kind) = ts.map (·.kind) := by
  intro text ts front gaps
  have hts : tokenize .standard text = .ok ts := eq_ok_of_toOption (by decide +kernel)
  have hlength : gaps.length = (wordsOf ts).length := by decide +kernel
  have hfront : ∀ c ∈ front, isBlank c = true := List.all_eq_true.mp (by decide)
  have hall : ∀ gap ∈ gaps, gap.all isBlank = true := by decide
  have hgaps : ∀ gap ∈ gaps, ∀ c ∈ gap, isBlank c = true := by
    simpa only [List.all_eq_true] using hall
  have hbetween : ∀ gap ∈ gaps.dropLast, gap ≠ [] := by decide
  exact ⟨⟨hts, hlength, hfront, hgaps, hbetween, by decide +kernel⟩,
    tokenize_spaced hts hlength hfront hgaps hbetween⟩

end AlgebraicForm
