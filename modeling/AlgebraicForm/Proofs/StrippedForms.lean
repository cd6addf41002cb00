import AlgebraicForm.Proofs.Decoding
import AlgebraicForm.Proofs.LimitedForms
import AlgebraicForm.Proofs.Verdicts

/-!
# Stripped forms merge plain ones

Answers are compared by text, but signs are taken out of trees. Normal forms with one text are one
tree, so whatever is done to the one is done to the other: texts with the same form are never told
apart by their stripped forms.

* `stripped_congr`: what is stripped depends on the normal form only.
* `sameForm_text_iff`: two texts have the same form if both read, and their forms are one text.
* `sameForm_stripped`: texts with the same form have the same stripped form.
-/

namespace AlgebraicForm

open AlgebraicForm.Expr

/-- Taking the signs out starts from the normal form. -/
theorem stripped_congr {s : Settings} {e f : Expr} (h : normalForm s e = normalForm s f) :
    stripped s e = stripped s f := by
  rw [stripped, stripped, h]

theorem readText_of_ok {s : Settings} {text : String} {e : Expr} (h : ofString s text = .ok e)
    (rs : List Report) : (readText s text).run.run rs = (.ok (.ok e), rs) := by
  unfold readText
  rw [h]
  rfl

/-- The form of a text that has one. -/
theorem form?_text_iff {s : Settings} {kind : FormKind} {text form : String}
    {rs ts : List Report} :
    ((Answer.text text).form? s kind).run.run rs = (.ok (some form), ts) ↔
      rs = ts ∧ ∃ e, ofString s text = .ok e ∧ e.form s kind = .ok form := by
  unfold Answer.form?
  constructor
  · intro h
    obtain ⟨read, us, hread, h⟩ := reporting_bind_eq_ok_iff.mp h
    cases read with
    | error e => exact absurd (reporting_pure_eq_ok_iff.mp h).1 nofun
    | ok e =>
      obtain ⟨f, vs, hf, h⟩ := reporting_bind_eq_ok_iff.mp h
      obtain ⟨heform, rfl⟩ := reporting_ofExcept_eq_ok_iff.mp hf
      obtain ⟨hform, rfl⟩ := reporting_pure_eq_ok_iff.mp h
      obtain rfl := Option.some.inj hform
      have he := readText_eq_ok hread
      rw [readText_of_ok he] at hread
      exact ⟨(Prod.mk.inj hread).2, e, he, heform⟩
  · rintro ⟨rfl, e, he, hform⟩
    exact reporting_bind_eq_ok_iff.mpr ⟨.ok e, rs, readText_of_ok he rs,
      reporting_bind_eq_ok_iff.mpr ⟨form, rs, reporting_ofExcept_eq_ok_iff.mpr ⟨hform, rfl⟩,
        reporting_pure_eq_ok_iff.mpr ⟨rfl, rfl⟩⟩⟩

/-- Two texts have the same form if both of them read, and have forms of one text. -/
theorem sameForm_text_iff {s : Settings} {kind : FormKind} {a b : String} :
    (Answer.sameForm s kind (.text a) (.text b)).result.1 = .ok true ↔
      ∃ e f form, ofString s a = .ok e ∧ ofString s b = .ok f ∧
        e.form s kind = .ok form ∧ f.form s kind = .ok form := by
  constructor
  · intro h
    have hrun : (Answer.sameForm s kind (.text a) (.text b)).run.run [] =
        (.ok true, (Answer.sameForm s kind (.text a) (.text b)).result.2) := Prod.ext h rfl
    unfold Answer.sameForm at hrun
    obtain ⟨first, rs, hfirst, hrun⟩ := reporting_bind_eq_ok_iff.mp hrun
    obtain ⟨second, ts, hsecond, hrun⟩ := reporting_bind_eq_ok_iff.mp hrun
    cases first with
    | none => exact absurd (reporting_pure_eq_ok_iff.mp hrun).1 nofun
    | some form =>
      cases second with
      | none => exact absurd (reporting_pure_eq_ok_iff.mp hrun).1 nofun
      | some form' =>
        obtain rfl : form = form' := by simpa using (reporting_pure_eq_ok_iff.mp hrun).1
        obtain ⟨-, e, he, heform⟩ := form?_text_iff.mp hfirst
        obtain ⟨-, f, hf, hfform⟩ := form?_text_iff.mp hsecond
        exact ⟨e, f, form, he, hf, heform, hfform⟩
  · rintro ⟨e, f, form, he, hf, heform, hfform⟩
    have hrun : (Answer.sameForm s kind (.text a) (.text b)).run.run [] = (.ok true, []) :=
      reporting_bind_eq_ok_iff.mpr ⟨some form, [], form?_text_iff.mpr ⟨rfl, e, he, heform⟩,
        reporting_bind_eq_ok_iff.mpr ⟨some form, [], form?_text_iff.mpr ⟨rfl, f, hf, hfform⟩,
          reporting_pure_eq_ok_iff.mpr ⟨by simp, rfl⟩⟩⟩
    exact (Prod.mk.inj hrun).1

/-- Where the first form is missing, so is the verdict. -/
theorem sameForm_text_of_error {s : Settings} {kind : FormKind} {a b : String} {e : Expr}
    {fault : Fault} (he : ofString s a = .ok e) (hform : e.form s kind = .error fault) :
    (Answer.sameForm s kind (.text a) (.text b)).result.1 = .error fault := by
  have hfirst : ((Answer.text a).form? s kind).run.run [] = (.error fault, []) := by
    rw [Answer.form?, reporting_bind_run, readText_of_ok he]
    show ((Reporting.ofExcept (e.form s kind) >>= fun f => pure (some f)).run.run []) = _
    rw [hform]
    rfl
  show ((Answer.sameForm s kind (.text a) (.text b)).run.run []).1 = _
  rw [Answer.sameForm, reporting_bind_run, hfirst]

/-- Expressions that have normal forms of one text have one normal form. -/
theorem normalForm_eq_of_form_eq {e f : Expr} (he : e.Every IsNamedNode) (hf : f.Every IsNamedNode)
    {form : String} (heform : e.form .standard .normal = .ok form)
    (hfform : f.form .standard .normal = .ok form) :
    normalForm .standard e = normalForm .standard f := by
  obtain ⟨c, hc, hctext⟩ := bind_eq_ok_iff.mp heform
  obtain ⟨d, hd, hdtext⟩ := bind_eq_ok_iff.mp hfform
  rw [show normalForm .standard e = .ok c from hc, show normalForm .standard f = .ok d from hd,
    eq_of_print_eq (normalForm_isTidy he (normalForm_unlimited hc))
      (normalForm_isTidy hf (normalForm_unlimited hd)) ((print_restricts _ c).eq_ok hctext)
      ((print_restricts _ d).eq_ok hdtext)]

/-- Texts with the same form have the same stripped form, if stripping returns for them. There is no
verdict on that only where the limit for digits stops the stripped form. -/
theorem sameForm_stripped {a b : String}
    (hsame : (Answer.sameForm .standard .normal (.text a) (.text b)).result.1 = .ok true)
    {r : Expr} (hstripped : ofString .standard a >>= stripped .standard = .ok r) :
    let outcome := (Answer.sameForm .standard .stripped (.text a) (.text b)).result.1
    ((∃ form, r.print = .ok form) → outcome = .ok true) ∧
      DigitLimit.standard.Gives outcome fun same => same = true := by
  intro outcome
  obtain ⟨e, f, form, he, hf, heform, hfform⟩ := sameForm_text_iff.mp hsame
  have hread := ofString_isReadable he
  have hsplit : stripped .standard e = stripped .standard f := stripped_congr
    (normalForm_eq_of_form_eq hread.named (ofString_isReadable hf).named heform hfform)
  rw [he, ok_bind] at hstripped
  have hrepresentative : e.representative .standard .stripped = .ok r := hstripped
  have heprint : e.form .standard .stripped = r.print := by
    rw [Expr.form, hrepresentative]
    rfl
  have hfprint : f.form .standard .stripped = r.print := by
    rw [← heprint, Expr.form, Expr.form, representative, representative, hsplit]
  have hprints : (∃ form, r.print = .ok form) → outcome = .ok true := by
    rintro ⟨form, hform⟩
    exact sameForm_text_iff.mpr ⟨e, f, form, he, hf, heprint.trans hform, hfprint.trans hform⟩
  refine ⟨hprints, ?_⟩
  obtain ⟨form, hform, -⟩ | ⟨fault, hfault, hform⟩ :=
    print_gives .standard (representative_sound hread hrepresentative).2
  · exact .inl ⟨true, hprints ⟨form, hform⟩, rfl⟩
  · exact .inr ⟨fault, hfault, sameForm_text_of_error he (heprint.trans hform)⟩

/-- The two texts have the form `(1-x)^3/sqrt(y)` and the stripped form `-((-1+x)^3/sqrt(y))`. -/
theorem sameForm_stripped_quotient :
    let a := "(1-x)^3/sqrt(y)"
    let b := "(1-x)(y^(-1/2))(1-x)^2"
    (Answer.sameForm .standard .normal (.text a) (.text b)).result.1 = .ok true ∧
      (∃ r, ofString .standard a >>= stripped .standard = .ok r ∧
        r.print = .ok "-((-1+x)^3/sqrt(y))") ∧
      (Answer.sameForm .standard .stripped (.text a) (.text b)).result.1 = .ok true := by
  intro a b
  have hsame : (Answer.sameForm .standard .normal (.text a) (.text b)).result.1 = .ok true :=
    eq_ok_of_toOption (by decide +kernel)
  have hprint : (ofString .standard a >>= stripped .standard >>= (·.print)).toOption =
      some "-((-1+x)^3/sqrt(y))" := by decide +kernel
  obtain ⟨r, hr, hprint⟩ := bind_eq_ok_iff.mp (eq_ok_of_toOption hprint)
  exact ⟨hsame, ⟨r, hr, hprint⟩, (sameForm_stripped hsame hr).1 ⟨_, hprint⟩⟩

/-- The constant of the form is `10^4300-1`. When the signs are out, the quotient beside it is one,
and their sum has a digit more than there may be in a text. -/
theorem sameForm_stripped_long_constant :
    let text := "(10^64)^64(10^64)^3(10^12)-1+(a-b)^2/(b-a)^2"
    (Answer.sameForm .standard .normal (.text text) (.text text)).result.1 = .ok true ∧
      ofString .standard text >>= stripped .standard = .ok (rat (10 ^ 4300)) ∧
      (Answer.sameForm .standard .stripped (.text text) (.text text)).result.1 =
        .error (.tooManyDigits 4300 none) := by
  intro text
  have hform : (ofString .standard text >>= fun e => e.form .standard .normal).toOption.isSome =
      true := by decide +kernel
  obtain ⟨form, hform⟩ := Option.isSome_iff_exists.mp hform
  obtain ⟨e, he, hform⟩ := bind_eq_ok_iff.mp (eq_ok_of_toOption hform)
  have hexact := (ofString_isReadable he).isExact
  have hstripped : ofString .standard text >>= stripped .standard = .ok (rat (10 ^ 4300)) := by
    refine eq_ok_of_returns (fun r hr => ?_) (isExact_rat _) (by decide +kernel)
    rw [he, ok_bind] at hr
    exact (stripped_sound leafProperty_isExactNode (fun _ hd => hd) hexact hr).2
  have hlong : (rat (10 ^ 4300)).print = .error (.tooManyDigits 4300 none) := by decide +kernel
  refine ⟨sameForm_text_iff.mpr ⟨e, e, form, he, he, hform, hform⟩, hstripped, ?_⟩
  rw [he, ok_bind] at hstripped
  refine sameForm_text_of_error he ?_
  rw [Expr.form, representative, hstripped, ok_bind]
  exact hlong

end AlgebraicForm
