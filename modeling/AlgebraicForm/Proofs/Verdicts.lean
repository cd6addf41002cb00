import AlgebraicForm.Answer.Comparison
import AlgebraicForm.Proofs.Printing
import AlgebraicForm.Proofs.Shape
import AlgebraicForm.Proofs.Signs

/-!
# Accepting by form is sound

Two answers with one form have representatives of one text. The representatives mean what the
answers mean, wherever those mean something, and one text reads as one expression; so the answers
agree wherever both are defined. It does not matter which stage found the forms equal.

* `representative_sound`: a representative is readable and refines its expression.
* `eq_of_form_eq`: expressions with one form agree.
-/

namespace AlgebraicForm

open AlgebraicForm.Expr

/-! ## Representatives -/

/-- A representative means what its expression means, and its text can be read back. -/
theorem representative_sound {s : Settings} {kind : FormKind} {e r : Expr} (he : e.IsReadable)
    (h : e.representative s kind = .ok r) : Refines e r ∧ r.IsReadable := by
  cases kind with
  | normal => exact ⟨(normalForm_rewrites he.isExact h).refines, normalForm_isReadable he h⟩
  | stripped =>
    have hleaf := leafProperty_isNamedNode.and leafProperty_hasArguments
    have hexact : ∀ d, IsNamedNode d ∧ HasArguments d → IsExactNode d :=
      fun _ hd => hd.1.isExactNode
    have hnames : e.Every fun d => IsNamedNode d ∧ HasArguments d :=
      fun d hd => ⟨he.named d hd, he.hasArguments d hd⟩
    obtain ⟨hrefines, hr⟩ := stripped_sound hleaf hexact hnames h
    refine ⟨hrefines, ?_⟩
    -- what is returned is a normal form once more
    simp only [representative, stripped, bind_eq_ok_iff] at h
    obtain ⟨c, hc, p, hp, d, hd, hform⟩ := h
    have hsigned := splitSigns_sound hleaf hexact
      ((normalForm_rewrites he.isExact hc).every hleaf hnames) hp
    have hd := (hsigned.rebuild hleaf hexact hd).2
    exact (normalForm_isBuilt (hd.mono hexact) hform).isReadable (hr.mono fun _ h => h.1)
      (hr.mono fun _ h => h.2)

theorem meaning_eq_of_print_eq {limit : DigitLimit} {c d : Expr} (hc : c.IsReadable)
    (hd : d.IsReadable) {text : String} (hcprint : c.print limit = .ok text)
    (hdprint : d.print limit = .ok text) (M : Interpretation) : c.meaning M = d.meaning M := by
  obtain ⟨fs, hread, hfs⟩ := (print_gives limit hc).of_ok hcprint
  obtain ⟨gs, hread', hgs⟩ := (print_gives limit hd).of_ok hdprint
  have hsame : ofFactors fs = ofFactors gs := Except.ok.inj (hread.symm.trans hread')
  rw [← hfs.meaning M, ← hgs.meaning M, ← meaning_ofFactors, ← meaning_ofFactors, hsame]

theorem eq_of_form_eq {s : Settings} {kind : FormKind} {e f : Expr} (he : e.IsReadable)
    (hf : f.IsReadable) {text : String} (heform : e.form s kind = .ok text)
    (hfform : f.form s kind = .ok text) {M : Interpretation} {x y : ℝ}
    (hx : e.meaning M = some x) (hy : f.meaning M = some y) : x = y := by
  obtain ⟨c, hc, hcprint⟩ := bind_eq_ok_iff.mp heform
  obtain ⟨d, hd, hdprint⟩ := bind_eq_ok_iff.mp hfform
  obtain ⟨hec, hcread⟩ := representative_sound he hc
  obtain ⟨hfd, hdread⟩ := representative_sound hf hd
  have hsame := meaning_eq_of_print_eq hcread hdread hcprint hdprint M
  rw [hec M x hx, hfd M y hy] at hsame
  exact Option.some_injective _ hsame

/-! ## Verdicts -/

section

variable {α β : Type}

/-- A computation goes on from the result of the one before, or stops at its fault. -/
theorem reporting_bind_run (x : Reporting α) (f : α → Reporting β) (rs : List Report) :
    (x >>= f).run.run rs = match x.run.run rs with
      | (.ok a, us) => (f a).run.run us
      | (.error e, us) => (.error e, us) := by
  rw [ExceptT.run_bind, StateT.run_bind]
  show (match x.run.run rs with | (r, us) => _) = _
  rcases x.run.run rs with ⟨_ | _, us⟩ <;> rfl

theorem reporting_bind_eq_ok_iff {x : Reporting α} {f : α → Reporting β} {rs ts : List Report}
    {b : β} : (x >>= f).run.run rs = (.ok b, ts) ↔
      ∃ a us, x.run.run rs = (.ok a, us) ∧ (f a).run.run us = (.ok b, ts) := by
  rw [reporting_bind_run]
  rcases x.run.run rs with ⟨e | a, us⟩
  · exact ⟨nofun, fun ⟨_, _, h, _⟩ => nomatch h⟩
  · refine ⟨fun h => ⟨a, us, rfl, h⟩, ?_⟩
    rintro ⟨_, _, h, hf⟩
    cases h
    exact hf

theorem reporting_ofExcept_eq_ok_iff {x : Except Fault α} {rs ts : List Report} {a : α} :
    (Reporting.ofExcept x).run.run rs = (.ok a, ts) ↔ x = .ok a ∧ rs = ts := by
  show (x, rs) = (.ok a, ts) ↔ _
  rw [Prod.mk.injEq]

theorem reporting_pure_eq_ok_iff {rs ts : List Report} {a b : α} :
    (pure a : Reporting α).run.run rs = (.ok b, ts) ↔ a = b ∧ rs = ts := by
  show ((.ok a : Except Fault α), rs) = (.ok b, ts) ↔ _
  rw [Prod.mk.injEq, Except.ok.injEq]

end

/-- Two expressions are found to have one form only if they do. -/
theorem form_eq_of_sameExprForm {s : Settings} {kind : FormKind} {e f : Expr}
    (h : sameExprForm s kind e f = .ok true) :
    ∃ text, e.form s kind = .ok text ∧ f.form s kind = .ok text := by
  obtain ⟨t, ht, h⟩ := bind_eq_ok_iff.mp h
  obtain ⟨u, hu, h⟩ := bind_eq_ok_iff.mp h
  obtain rfl : t = u := by simpa using h
  exact ⟨t, ht, hu⟩

theorem form_eq_of_verdict {s : Settings} {evidence : Evidence} {e f : Expr} {v : Verdict}
    {rs ts : List Report} (h : (compareExprs s evidence e f).run.run rs = (.ok v, ts))
    (hv : v = .sameForm ∨ v = .sameStrippedForm) :
    ∃ kind text, e.form s kind = .ok text ∧ f.form s kind = .ok text := by
  unfold compareExprs at h
  obtain ⟨normal, _, hnormal, h⟩ := reporting_bind_eq_ok_iff.mp h
  obtain ⟨hnormal, -⟩ := reporting_ofExcept_eq_ok_iff.mp hnormal
  cases normal with
  | true => exact ⟨.normal, form_eq_of_sameExprForm hnormal⟩
  | false =>
    rw [if_neg (by simp)] at h
    obtain ⟨stripped, _, hstripped, h⟩ := reporting_bind_eq_ok_iff.mp h
    obtain ⟨hstripped, -⟩ := reporting_ofExcept_eq_ok_iff.mp hstripped
    cases stripped with
    | true => exact ⟨.stripped, form_eq_of_sameExprForm hstripped⟩
    | false =>
      -- the later stages have verdicts of their own
      rw [if_neg (by simp)] at h
      obtain ⟨first, _, -, h⟩ := reporting_bind_eq_ok_iff.mp h
      obtain ⟨second, _, -, h⟩ := reporting_bind_eq_ok_iff.mp h
      have hlater : v = .differentValues ∨ v = .certified ∨ v = .uncertified := by
        split at h
        next => exact .inl (reporting_pure_eq_ok_iff.mp h).1.symm
        next =>
          obtain ⟨certified, _, -, h⟩ := reporting_bind_eq_ok_iff.mp h
          split at h
          next => exact .inr (.inl (reporting_pure_eq_ok_iff.mp h).1.symm)
          next => exact .inr (.inr (reporting_pure_eq_ok_iff.mp h).1.symm)
      obtain rfl | rfl := hv <;> simp at hlater

/-- A text that is read without an error is read as what it denotes. -/
theorem readText_eq_ok {s : Settings} {text : String} {e : Expr} {rs ts : List Report}
    (h : (readText s text).run.run rs = (.ok (.ok e), ts)) : ofString s text = .ok e := by
  unfold readText at h
  split at h
  next d hd =>
    have hde := (reporting_pure_eq_ok_iff.mp h).1
    rw [hd, Except.ok.inj hde]
  next =>
    obtain ⟨_, _, -, h⟩ := reporting_bind_eq_ok_iff.mp h
    simpa using (reporting_pure_eq_ok_iff.mp h).1
  next => cases h

/-- Texts that are compared by value are read first, both of them. -/
theorem compareExprs_of_compareTextsWith {s : Settings} {evidence : Evidence} {a b : String}
    {v : Verdict} (h : (compareTextsWith s evidence a b).result.1 = .ok v)
    (hv : ∀ side e, v ≠ .unreadable side e) :
    ∃ e f rs ts, ofString s a = .ok e ∧ ofString s b = .ok f ∧
      (compareExprs s evidence e f).run.run rs = (.ok v, ts) := by
  have hrun : (compareTextsWith s evidence a b).run.run [] =
      (.ok v, (compareTextsWith s evidence a b).result.2) := Prod.ext h rfl
  unfold compareTextsWith at hrun
  obtain ⟨first, rs, hfirst, hrun⟩ := reporting_bind_eq_ok_iff.mp hrun
  cases first with
  | error e => exact absurd (reporting_pure_eq_ok_iff.mp hrun).1.symm (hv _ _)
  | ok e =>
    obtain ⟨second, ts, hsecond, hrun⟩ := reporting_bind_eq_ok_iff.mp hrun
    cases second with
    | error e => exact absurd (reporting_pure_eq_ok_iff.mp hrun).1.symm (hv _ _)
    | ok f => exact ⟨e, f, ts, _, readText_eq_ok hfirst, readText_eq_ok hsecond, hrun⟩

/-- Two texts that are accepted by their forms, stripped or not, denote expressions with the same
value wherever both have one, whatever evidence the later stages would have. -/
theorem accepted_by_form {evidence : Evidence} {a b : String} {v : Verdict}
    (h : (compareTextsWith .standard evidence a b).result.1 = .ok v) (hequal : v.isEqual = true)
    (hstage : v.stage = "form" ∨ v.stage = "strip") :
    ∃ e f, ofString .standard a = .ok e ∧ ofString .standard b = .ok f ∧
      ∀ (M : Interpretation) (x y : ℝ), e.meaning M = some x → f.meaning M = some y → x = y := by
  have hv : v = .sameForm ∨ v = .sameStrippedForm := by
    cases v <;> simp_all [Verdict.stage, Verdict.isEqual]
  obtain ⟨e, f, rs, ts, he, hf, hrun⟩ := compareExprs_of_compareTextsWith h (by
    obtain rfl | rfl := hv <;> simp)
  obtain ⟨kind, text, heform, hfform⟩ := form_eq_of_verdict hrun hv
  exact ⟨e, f, he, hf, fun M x y hx hy =>
    eq_of_form_eq (ofString_isReadable he) (ofString_isReadable hf) heform hfform hx hy⟩

/-- In the second text the signs of both factors are turned around. No evidence is asked for. -/
theorem accepted_by_form_signs :
    let evidence : Evidence := ⟨fun _ _ => throw .notANumber, fun _ _ => .error .notANumber⟩
    (compareTextsWith .standard evidence "(x-1)y" "(1-x)(-y)").result.1 = .ok .sameStrippedForm ∧
    ∃ e f, ofString .standard "(x-1)y" = .ok e ∧ ofString .standard "(1-x)(-y)" = .ok f ∧
      ∀ (M : Interpretation) (x y : ℝ), e.meaning M = some x → f.meaning M = some y → x = y := by
  intro evidence
  have h : (compareTextsWith .standard evidence "(x-1)y" "(1-x)(-y)").result.1 =
      .ok .sameStrippedForm := by
    have hsome : (compareTextsWith .standard evidence "(x-1)y" "(1-x)(-y)").result.1.toOption =
        some .sameStrippedForm := by decide +kernel
    cases hresult : (compareTextsWith .standard evidence "(x-1)y" "(1-x)(-y)").result.1 with
    | error fault => simp [hresult, Except.toOption] at hsome
    | ok v => simpa [hresult, Except.toOption] using hsome
  exact ⟨h, accepted_by_form h rfl (.inr rfl)⟩

end AlgebraicForm
