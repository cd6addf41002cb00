import AlgebraicForm.Proofs.Grammar
import AlgebraicForm.Proofs.Tree

/-!
# A phrase denotes one expression

The reader is a function, so the phrases that it takes denote one expression each. It refuses
functions without arguments, which have texts all the same. For these the missing argument is filled
in, in the tokens and in the expression: a symbol without a name stands for it, and every other
symbol gets one more letter, so that it has a name. What has been filled in is read
(`Derives.filled`), and nothing is lost by it (`Expr.fillBlanks_injective`).

* `Derives.unique`: the tokens of a sum denote one expression, whether its functions have arguments
  or not.
-/

namespace AlgebraicForm

open AlgebraicForm.Expr

/-! ## Filling in tokens -/

/-- The token with one more letter in the name of a symbol. -/
def TokenKind.named : TokenKind → TokenKind
  | identifier n => identifier ("x" ++ n)
  | k => k

/-- The tokens with a symbol without a name between brackets that enclose nothing. -/
def fillBrackets : List TokenKind → List TokenKind
  | [] => []
  | k :: ks =>
    k.named ::
      if k = .leftParen ∧ ks.head? = some .rightParen then .identifier "" :: fillBrackets ks
      else fillBrackets ks

section

variable {k : TokenKind} {ks ls : List TokenKind}

theorem fillBrackets_cons (h : k = .leftParen → ks.head? ≠ some .rightParen) :
    fillBrackets (k :: ks) = k.named :: fillBrackets ks := by
  rw [fillBrackets, if_neg fun hblank => h hblank.1 hblank.2]

/-- No blank lies between two parts if the first does not end with an opening bracket. -/
theorem fillBrackets_append (h : ks.getLast? ≠ some .leftParen) :
    fillBrackets (ks ++ ls) = fillBrackets ks ++ fillBrackets ls := by
  induction ks with
  | nil => rfl
  | cons k ks ih =>
    cases ks with
    | nil =>
      have hk : k ≠ .leftParen := by simpa using h
      rw [List.singleton_append, fillBrackets_cons fun heq => absurd heq hk,
        fillBrackets_cons fun heq => absurd heq hk]
      rfl
    | cons l ks =>
      rw [List.getLast?_cons_cons] at h
      rw [List.cons_append, fillBrackets, fillBrackets.eq_2 k, ih h, List.cons_append,
        List.cons_append, List.head?_cons, List.head?_cons]
      split <;> rfl

end

namespace Derives

variable {bare : Prop} {c : Category} {ks : List TokenKind} {es : List Expr}

theorem getLast?_ne_leftParen (h : Derives bare c ks es) : ks.getLast? ≠ some .leftParen := by
  obtain ⟨k, hlast, hk⟩ := h.last
  rw [hlast]
  rintro ⟨⟩
  exact hk

theorem fillBrackets_before (h : Derives bare c ks es) (ls : List TokenKind) :
    fillBrackets (ks ++ ls) = fillBrackets ks ++ fillBrackets ls :=
  fillBrackets_append h.getLast?_ne_leftParen

/-- A phrase in brackets. -/
theorem fillBrackets_group (h : Derives bare c ks es) :
    fillBrackets (.leftParen :: (ks ++ [.rightParen])) =
      .leftParen :: (fillBrackets ks ++ [.rightParen]) := by
  rw [fillBrackets_cons, h.fillBrackets_before]
  · rfl
  · obtain ⟨k, rest, rfl, hk⟩ := h.head
    rintro - ⟨⟩
    simp [StartsOperand] at hk

end Derives

/-! ## Filling in expressions -/

namespace Expr

mutual

/-- The expression with a symbol without a name as the argument of each function that has none. -/
def fillBlanks : Expr → Expr
  | number v => number v
  | symbol n => symbol ("x" ++ n)
  | sum ts => sum (fillAllBlanks ts)
  | product fs => product (fillAllBlanks fs)
  | power b p => power (fillBlanks b) (fillBlanks p)
  | negation e => negation (fillBlanks e)
  | call n es => call n (if es.isEmpty then [symbol ""] else fillAllBlanks es)
  | hole => hole

/-- The same for several expressions. -/
def fillAllBlanks : List Expr → List Expr
  | [] => []
  | e :: es => fillBlanks e :: fillAllBlanks es

end

theorem fillAllBlanks_eq_map (es : List Expr) : fillAllBlanks es = es.map fillBlanks := by
  induction es with
  | nil => rfl
  | cons e es ih => exact congrArg (e.fillBlanks :: ·) ih

theorem fillBlanks_sum (ts : List Expr) : (sum ts).fillBlanks = sum (ts.map fillBlanks) :=
  congrArg sum (fillAllBlanks_eq_map ts)

theorem fillBlanks_product (fs : List Expr) :
    (product fs).fillBlanks = product (fs.map fillBlanks) :=
  congrArg product (fillAllBlanks_eq_map fs)

theorem fillBlanks_call {n : String} {es : List Expr} (h : es ≠ []) :
    (call n es).fillBlanks = call n (es.map fillBlanks) := by
  rw [fillBlanks, fillAllBlanks_eq_map, if_neg (by simpa using h)]

theorem fillBlanks_ofTerms (ts : List Expr) :
    (ofTerms ts).fillBlanks = ofTerms (ts.map fillBlanks) := by
  obtain _ | ⟨t, _ | ⟨u, ts⟩⟩ := ts
  · rfl
  · rfl
  · exact fillBlanks_sum _

theorem fillBlanks_ofFactors (fs : List Expr) :
    (ofFactors fs).fillBlanks = ofFactors (fs.map fillBlanks) := by
  obtain _ | ⟨f, _ | ⟨g, fs⟩⟩ := fs
  · rfl
  · rfl
  · exact fillBlanks_product _

/-- Only a missing argument is a symbol without a name. -/
theorem fillBlanks_ne_blank (e : Expr) : e.fillBlanks ≠ symbol "" := by
  cases e <;> simp [fillBlanks]

/-- Several expressions are determined if each of them is. -/
theorem eq_of_map_fillBlanks_eq {ts us : List Expr}
    (hts : ∀ t ∈ ts, ∀ {u : Expr}, t.fillBlanks = u.fillBlanks → t = u)
    (h : ts.map fillBlanks = us.map fillBlanks) : ts = us := by
  induction ts generalizing us with
  | nil => exact (List.map_eq_nil_iff.mp h.symm).symm
  | cons t ts ih =>
    rw [List.forall_mem_cons] at hts
    obtain ⟨u, us, rfl, hu, hus⟩ := List.map_eq_cons_iff.mp h.symm
    rw [hts.1 hu.symm, ih hts.2 hus.symm]

/-- Nothing is lost by filling in. -/
theorem fillBlanks_injective {d e : Expr} (h : d.fillBlanks = e.fillBlanks) : d = e := by
  induction d generalizing e with
  | number v => cases e <;> simp_all [fillBlanks]
  | symbol n => cases e <;> simp_all [fillBlanks]
  | sum ts ih =>
    cases e with
    | sum us =>
      rw [fillBlanks_sum, fillBlanks_sum] at h
      rw [eq_of_map_fillBlanks_eq ih (sum.inj h)]
    | _ => simp [fillBlanks] at h
  | product fs ih =>
    cases e with
    | product gs =>
      rw [fillBlanks_product, fillBlanks_product] at h
      rw [eq_of_map_fillBlanks_eq ih (product.inj h)]
    | _ => simp [fillBlanks] at h
  | power b p ihb ihp =>
    cases e with
    | power c q =>
      obtain ⟨hb, hp⟩ := power.inj h
      rw [ihb hb, ihp hp]
    | _ => simp [fillBlanks] at h
  | negation d ih =>
    cases e with
    | negation e => rw [ih (negation.inj h)]
    | _ => simp [fillBlanks] at h
  | call n es ih =>
    cases e with
    | call m us =>
      obtain ⟨rfl, harguments⟩ := call.inj h
      rw [fillAllBlanks_eq_map, fillAllBlanks_eq_map] at harguments
      congr 1
      cases es with
      | nil =>
        cases us with
        | nil => rfl
        | cons u us => exact absurd (List.cons.inj harguments).1.symm u.fillBlanks_ne_blank
      | cons e es =>
        cases us with
        | nil => exact absurd (List.cons.inj harguments).1 e.fillBlanks_ne_blank
        | cons u us => exact eq_of_map_fillBlanks_eq ih harguments
    | _ => simp [fillBlanks] at h
  | hole => cases e <;> simp_all [fillBlanks]

end Expr

/-! ## Phrases -/

namespace Derives

variable {bare : Prop}

/-- A phrase with its blanks filled in is read. -/
theorem filled {c : Category} {ks : List TokenKind} {es : List Expr} (h : Derives bare c ks es) :
    Derives False c (fillBrackets ks) (es.map Expr.fillBlanks) := by
  induction h with
  | number q => exact .number q
  | identifier name => exact .identifier _
  | group hk ih =>
    rw [hk.fillBrackets_group, List.map_singleton, fillBlanks_ofTerms]
    exact .group ih
  | call name hk ih =>
    rw [fillBrackets_cons (by simp), hk.fillBrackets_group, List.map_singleton,
      fillBlanks_call hk.ne_nil]
    exact .call name ih
  | bareCall name _ =>
    exact .call name (.argument (.term (.factor (.unsigned (.atom (.identifier ""))))))
  | atom _ ih => exact .atom ih
  | power hk _ ihb ihp =>
    rw [hk.fillBrackets_before, fillBrackets_cons (by simp)]
    exact .power ihb ihp
  | unsigned _ ih => exact .unsigned ih
  | minus _ ih =>
    rw [fillBrackets_cons (by simp)]
    exact .minus ih
  | plus _ ih =>
    rw [fillBrackets_cons (by simp)]
    exact .plus ih
  | factor _ ih => exact .factor ih
  | times hk _ iht ihs =>
    rw [hk.fillBrackets_before, fillBrackets_cons (by simp), List.map_append]
    exact .times iht ihs
  | divide hk _ iht ihs =>
    rw [hk.fillBrackets_before, fillBrackets_cons (by simp), List.map_append]
    exact .divide iht ihs
  | juxtapose hk _ iht ihp =>
    rw [hk.fillBrackets_before, List.map_append]
    exact .juxtapose iht ihp
  | term _ ih =>
    rw [List.map_singleton, fillBlanks_ofFactors]
    exact .term ih
  | add hk _ ihs iht =>
    rw [hk.fillBrackets_before, fillBrackets_cons (by simp), List.map_append, List.map_singleton,
      fillBlanks_ofFactors]
    exact .add ihs iht
  | subtract hk _ ihs iht =>
    rw [hk.fillBrackets_before, fillBrackets_cons (by simp), List.map_append, List.map_singleton,
      Expr.fillBlanks, fillBlanks_ofFactors]
    exact .subtract ihs iht
  | argument _ ih =>
    rw [List.map_singleton, fillBlanks_ofTerms]
    exact .argument ih
  | comma hk _ iha ihs =>
    rw [hk.fillBrackets_before, fillBrackets_cons (by simp), List.map_append, List.map_singleton,
      fillBlanks_ofTerms]
    exact .comma iha ihs

/-- The tokens of a sum denote one expression. -/
theorem unique {ks : List TokenKind} {es ds : List Expr} (h : Derives bare .sum ks es)
    (h' : Derives bare .sum ks ds) : ofTerms es = ofTerms ds := by
  let ts : List Token := (fillBrackets ks ++ [TokenKind.endOfInput]).map (⟨·, "", 0⟩)
  have hts : ts.map (·.kind) = fillBrackets ks ++ [.endOfInput] := by
    simp [ts, Function.comp_def]
  have hread := h.filled.ofTokens hts
  rw [h'.filled.ofTokens hts, ← fillBlanks_ofTerms, ← fillBlanks_ofTerms] at hread
  exact (fillBlanks_injective (Except.ok.inj hread)).symm

end Derives

end AlgebraicForm
