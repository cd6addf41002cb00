import AlgebraicForm.Proofs.Arrangement

/-!
# Sums inside of sums

A sum is built of its own terms before it is taken apart again among the terms of a sum around it.
That keeps the totals, with one exception. If its terms cancel down to a single sum that is taken
once, the inner sum comes out as that sum, and its terms are scattered among the outer ones; had
the terms been there from the start, the sum would have been counted as one body.

So a sum may be flattened into the sum around it unless its terms come down to a lone sum
(`ComesToLoneSum`), and then it may not: `2(a+b) + (3(a+b) - 2(a+b))` has another normal form than
`2(a+b) + 3(a+b) - 2(a+b)`.

* `buildSum_nested`: a sum that is no lone sum is as good as its terms.
* `normalForm_of_flattened`: flattening such sums, anywhere, does not change the normal form.
* `normalForm_lone_sum`: flattening a lone sum may.
-/

namespace AlgebraicForm

open AlgebraicForm.Expr

/-! ## Taking a sum apart again -/

/-- All that is left of the terms is one sum, taken once. -/
def IsLoneSum (ts : List Expr) : Prop :=
  ∃ ws, SameTerms ts [sum ws]

/-- The sum of terms in order has these terms, unless it is one of them and a sum itself. -/
theorem sameTerms_ofSortedTerms {ts : List Expr} (h : ∀ ws, ts ≠ [sum ws]) :
    SameTerms (ofSortedTerms ts).terms ts := by
  intro w
  match ts, h with
  | [], _ => simp [ofSortedTerms, terms, zero]
  | [sum ws], h => exact absurd rfl (h ws)
  | [number _], _ | [symbol _], _ | [product _], _ | [power _ _], _ | [negation _], _
  | [call _ _], _ | [hole], _ => rfl
  | _ :: _ :: _, _ => rfl

theorem Totals.sameTerms {ts : List Expr} {k : Rat} {gs : List (Expr × Rat)}
    (h : Totals ts k gs) (hlone : ¬IsLoneSum ts) :
    SameTerms (ofSortedTerms (constantTerm k ++ groupTerms gs)).terms ts := by
  -- the terms in order have the totals; if the sum of them is one of them, it is a lone sum
  have hsame : SameTerms (constantTerm k ++ groupTerms gs) ts := by
    intro w
    rw [weighTerms_append, weighTerms_constantTerm, weighTerms_groupTerms h.built]
    exact h.weight w
  have hterms : SameTerms (ofSortedTerms (constantTerm k ++ groupTerms gs)).terms
      (constantTerm k ++ groupTerms gs) :=
    sameTerms_ofSortedTerms fun ws heq => hlone ⟨ws, heq ▸ hsame.symm⟩
  exact fun w => (hterms w).trans (hsame w)

/-- Among other operands, a sum that is no lone sum is as good as its own operands. -/
theorem buildSum_nested {bs cs ds : List Expr} {r : Expr} (hbs : ∀ b ∈ bs, b.IsTidy)
    (hcs : ∀ c ∈ cs, c.IsTidy) (hds : ∀ d ∈ ds, d.IsTidy) (hr : buildSum .unbounded cs = .ok r)
    (hlone : ¬IsLoneSum (cs.flatMap terms)) :
    buildSum .unbounded (bs ++ r :: ds) = buildSum .unbounded (bs ++ cs ++ ds) := by
  obtain ⟨k, gs, htotals, hsum⟩ := exists_buildSum hcs
  obtain rfl := Except.ok.inj (hsum.symm.trans hr)
  have hsame := htotals.sameTerms hlone
  refine buildSum_of_sameTerms ?_ ?_ ?_
  · simpa [or_imp, forall_and] using ⟨hbs, buildSum_isTidy hcs hr, hds⟩
  · simpa [or_imp, forall_and] using ⟨hbs, hcs, hds⟩
  · rw [List.flatMap_append, List.flatMap_cons, List.flatMap_append, List.flatMap_append,
      List.append_assoc]
    exact .append (fun _ => rfl) (.append hsame fun _ => rfl)

/-! ## Flattening -/

/-- After a pass over the terms, all that is left of them is one sum, taken once. -/
def ComesToLoneSum (ts : List Expr) : Prop :=
  ∃ cs, normalPassAll .unbounded ts = .ok cs ∧ IsLoneSum (cs.flatMap terms)

/-- A sum among the terms of a sum is replaced by its terms; they do not come to a lone sum. -/
inductive Flattens : Expr → Expr → Prop
  | sum (us : List Expr) {ts : List Expr} (vs : List Expr) : ¬ComesToLoneSum ts →
      Flattens (.sum (us ++ .sum ts :: vs)) (.sum (us ++ ts ++ vs))

/-- Sums that do not come to a lone sum are flattened, anywhere in the expression. -/
def Flattened : Expr → Expr → Prop :=
  Relation.ReflTransGen (Somewhere Flattens)

theorem Flattens.named {d e : Expr} (h : Flattens d e) (hd : d.Every IsNamedNode) :
    e.Every IsNamedNode := by
  cases h with
  | @sum us ts vs _ =>
    simp only [leafProperty_isNamedNode.every_sum_iff, List.forall_mem_append,
      List.forall_mem_cons] at hd ⊢
    exact ⟨⟨hd.1, hd.2.1⟩, hd.2.2⟩

theorem Flattens.normalPass_eq {d e : Expr} (h : Flattens d e) (hd : d.Every IsNamedNode) :
    normalPass .unbounded d = normalPass .unbounded e := by
  cases h with
  | @sum us ts vs hlone =>
    have hnamed := hd
    simp only [leafProperty_isNamedNode.every_sum_iff, List.forall_mem_append,
      List.forall_mem_cons] at hnamed
    obtain ⟨hus, hts, hvs⟩ := hnamed
    rw [normalPass, normalPass, normalPassAll_eq_mapM, normalPassAll_eq_mapM, List.mapM_append,
      List.mapM_append, List.mapM_append, List.mapM_cons, normalPass, normalPassAll_eq_mapM]
    -- a failing operand fails on both sides; else all are there
    cases hbs : us.mapM (normalPass .unbounded) with
    | error fault => rfl
    | ok bs =>
      cases hcs : ts.mapM (normalPass .unbounded) with
      | error fault => rfl
      | ok cs =>
        have hcs' := isTidy_of_mapM hts hcs
        obtain ⟨k, gs, -, hr⟩ := exists_buildSum hcs'
        cases hds : vs.mapM (normalPass .unbounded) with
        | error fault => simp [hr]
        | ok ds =>
          have hnested := buildSum_nested (isTidy_of_mapM hus hbs) hcs' (isTidy_of_mapM hvs hds) hr
            fun h => hlone ⟨cs, by rw [normalPassAll_eq_mapM, hcs], h⟩
          simpa [hr] using hnested

/-- Flattening sums that do not come to a lone sum, anywhere, does not change the normal form,
unless the limit for digits stops one of the two: the terms of an inner sum have to have texts,
although they may cancel in the outer one. -/
theorem normalForm_of_flattened {d e : Expr} (hd : d.Every IsNamedNode) (h : Flattened d e) :
    normalForm .standard d = normalForm .standard e ∨
      DigitLimit.standard.Stops (normalForm .standard d) ∨
      DigitLimit.standard.Stops (normalForm .standard e) := by
  have hagree := Somewhere.normalForm_agree (s := .unbounded) (by decide) (fun _ _ h => h.named)
    (fun _ _ h hd => .of_eq (h.normalPass_eq hd)) h hd
  have hrestricts := normalForm_restricts .standard d
  rw [show normalForm Settings.standard.unlimited d = normalForm Settings.standard.unlimited e from
    hagree.eq_of_unlimited] at hrestricts
  exact hrestricts.eq_or_stops (normalForm_restricts .standard e)

/-- The terms of the inner sum come to five times a sum. -/
theorem normalForm_of_flattened_multiple :
    let s := sum [symbol "a", symbol "b"]
    let d := sum [product [rat 2, s], sum [product [rat 3, s], product [rat 2, s]]]
    let e := sum [product [rat 2, s], product [rat 3, s], product [rat 2, s]]
    Flattened d e ∧ (normalForm .standard d = normalForm .standard e ∨
      DigitLimit.standard.Stops (normalForm .standard d) ∨
      DigitLimit.standard.Stops (normalForm .standard e)) ∧
      normalForm .standard d = .ok (product [rat 7, s]) ∧
      normalForm .standard e = .ok (product [rat 7, s]) := by
  intro s d e
  have ha : IsIdentifier "a" := isIdentifier_letter (c := 'a') (by decide)
  have hb : IsIdentifier "b" := isIdentifier_letter (c := 'b') (by decide)
  have hd : d.Every IsNamedNode := by simp [d, s, IsNamedNode, ha, hb]
  have hpass : ∀ q : Rat, returns (normalPass .unbounded (product [rat q, s])) (product [rat q, s])
      = true → normalPass .unbounded (product [rat q, s]) = .ok (product [rat q, s]) := by
    intro q
    have hnamed : (product [rat q, s]).Every IsNamedNode := by simp [s, IsNamedNode, ha, hb]
    exact eq_ok_of_returns (fun _ h => (normalPass_isTidy hnamed h).isExact) (by simp [s])
  have hlone : ¬ComesToLoneSum [product [rat 3, s], product [rat 2, s]] := by
    rintro ⟨cs, hcs, ws, hsame⟩
    rw [normalPassAll, normalPassAll, normalPassAll, hpass 3 (by decide +kernel),
      hpass 2 (by decide +kernel)] at hcs
    obtain rfl := Except.ok.inj hcs
    -- the body counts five times, and one sum taken once does not
    have hfive : (5 : Rat) = indicator (some s) (some (sum ws)) := by
      have h := hsame (indicator (some s))
      simp only [terms, List.flatMap_cons, List.flatMap_nil, List.append_nil,
        List.singleton_append, weighTerms_cons, weighTerms_nil, weigh, splitCoefficient,
        ofFactors, Number.ofInt, indicator] at h ⊢
      norm_num at h
      exact h
    unfold indicator at hfive
    split at hfive <;> norm_num at hfive
  have h : Flattened d e := .single (.here (.sum [product [rat 2, s]] [] hlone))
  exact ⟨h, normalForm_of_flattened hd h,
    normalForm_eq_ok_of_returns (isExact_of_named hd) (by simp [s]) (by decide +kernel),
    normalForm_eq_ok_of_returns (by simp [e, s]) (by simp [s]) (by decide +kernel)⟩

/-- The terms of the inner sum come to one sum, which is scattered among the outer terms. -/
theorem normalForm_lone_sum :
    let s := sum [symbol "a", symbol "b"]
    let t := product [rat 2, s]
    let ts := [product [rat 3, s], negation (product [rat 2, s])]
    normalForm .standard (sum ([t] ++ [sum ts])) = .ok (sum [symbol "a", t, symbol "b"]) ∧
      normalForm .standard (sum ([t] ++ ts)) = .ok (product [rat 3, s]) ∧
      normalForm .standard (sum ([t] ++ [sum ts])) ≠ normalForm .standard (sum ([t] ++ ts)) := by
  intro s t ts
  have hnested : normalForm .standard (sum ([t] ++ [sum ts])) =
      .ok (sum [symbol "a", t, symbol "b"]) :=
    normalForm_eq_ok_of_returns (by simp [t, ts, s]) (by simp [t, s]) (by decide +kernel)
  have hflat : normalForm .standard (sum ([t] ++ ts)) = .ok (product [rat 3, s]) :=
    normalForm_eq_ok_of_returns (by simp [t, ts, s]) (by simp [s]) (by decide +kernel)
  refine ⟨hnested, hflat, ?_⟩
  rw [hnested, hflat]
  simp

end AlgebraicForm
