import AlgebraicForm.Answer.Form
import AlgebraicForm.Proofs.LimitedTexts
import AlgebraicForm.Proofs.Tree

/-!
# Normal forms under a limit

Terms and factors are sorted by their texts, and of a sum and its negation the texts decide which
one stands for both. So the limit for digits can stop whatever is built. What it does not stop is
what it would be without a limit: step by step for the builders, and from them for a pass, for the
normal form, for the sign and the body of an expression, and for forms.

* `builders_restricts`, `normalForm_restricts`, `splitSigns_restricts`, `stripped_restricts`
* `normalForm_unlimited`, `stripped_unlimited`: a result under a limit is the result without one.
-/

namespace AlgebraicForm

open AlgebraicForm.Expr

section

variable (s : Settings)

/-! ## Builders -/

theorem keyedTerms_restricts (gs : List (Expr × Number)) :
    s.digits.Restricts (keyedTerms s gs) (keyedTerms s.unlimited gs) := by
  induction gs with
  | nil => exact .refl _
  | cons g gs ih =>
    rw [keyedTerms, keyedTerms]
    exact .ite ih ((text_restricts s.digits g.1).bind fun _ => ih.bind fun _ => .refl _)

theorem buildSum_restricts (es : List Expr) :
    s.digits.Restricts (buildSum s es) (buildSum s.unlimited es) :=
  (DigitLimit.Restricts.refl _).bind fun c => (keyedTerms_restricts s c.2).bind fun _ => .refl _

theorem mergeExponents_restricts (es : List Expr) :
    s.digits.Restricts (mergeExponents s es) (mergeExponents s.unlimited es) := by
  unfold mergeExponents
  split
  · exact .refl _
  · exact buildSum_restricts s _

theorem sortFactors_restricts (fs : List Expr) :
    s.digits.Restricts (sortFactors s fs) (sortFactors s.unlimited fs) :=
  (DigitLimit.Restricts.mapM fun f _ =>
    (factorKey_restricts s.digits f).bind fun _ => .refl _).bind fun _ => .refl _

variable {s} in
theorem buildBases_restricts {power power' : Expr → Expr → Except Fault Expr}
    (h : ∀ b p, s.digits.Restricts (power b p) (power' b p)) (c : Number) (fs : List Expr)
    (bs : List (Expr × List Expr)) :
    s.digits.Restricts (buildBases s power c fs bs) (buildBases s.unlimited power' c fs bs) := by
  induction bs generalizing c fs with
  | nil => exact .refl _
  | cons g bs ih =>
    rw [buildBases, buildBases]
    exact (mergeExponents_restricts s g.2).bind fun e => (h g.1 e).bind fun p =>
      (DigitLimit.Restricts.refl _).bind fun d => ih d.1 d.2

/-- Products and powers, by induction on the depth. -/
theorem builders_restricts (fuel : Nat) :
    (∀ es, s.digits.Restricts (buildProduct s fuel es) (buildProduct s.unlimited fuel es)) ∧
    (∀ b p, s.digits.Restricts (buildPower s fuel b p) (buildPower s.unlimited fuel b p)) := by
  induction fuel with
  | zero =>
    constructor
    · intro es
      rw [buildProduct, buildProduct]
      exact .refl _
    · intro b p
      unfold buildPower
      exact .refl _
  | succ fuel ih =>
    obtain ⟨hproduct, hpower⟩ := ih
    constructor
    · intro es
      rw [buildProduct, buildProduct]
      refine (DigitLimit.Restricts.refl _).bind fun collected => .ite (.refl _) ?_
      refine (buildBases_restricts hpower _ _ _).bind fun built => .ite (.refl _) ?_
      refine (sortFactors_restricts s _).bind fun gs => ?_
      split
      next => exact .refl _
      next ts =>
        exact .ite ((DigitLimit.Restricts.mapM fun t _ => hproduct _).bind
          fun us => buildSum_restricts s us) (.refl _)
      next => exact .refl _
    · intro b p
      unfold buildPower
      -- the limit is no matter for what literals decide
      rw [show literalPower? s.unlimited b p = literalPower? s b p from rfl]
      split
      next => exact .refl _
      next =>
        refine .ite ?_ (.refl _)
        split
        next => exact (hproduct _).bind fun q => hpower _ q
        next => exact (DigitLimit.Restricts.mapM fun f _ => hpower f p).bind hproduct
        next => exact .refl _

theorem product_restricts (es : List Expr) :
    s.digits.Restricts (s.product es) (s.unlimited.product es) :=
  (builders_restricts s _).1 es

theorem power_restricts (b p : Expr) :
    s.digits.Restricts (s.power b p) (s.unlimited.power b p) :=
  (builders_restricts s _).2 b p

/-! ## Passes -/

theorem normalPassAll_restricts {es : List Expr}
    (h : ∀ e ∈ es, s.digits.Restricts (normalPass s e) (normalPass s.unlimited e)) :
    s.digits.Restricts (normalPassAll s es) (normalPassAll s.unlimited es) := by
  induction es with
  | nil => exact .refl _
  | cons e es ih =>
    rw [List.forall_mem_cons] at h
    rw [normalPassAll, normalPassAll]
    exact h.1.bind fun c => (ih h.2).bind fun _ => .refl _

theorem normalPass_restricts (e : Expr) :
    s.digits.Restricts (normalPass s e) (normalPass s.unlimited e) := by
  induction e with
  | number | symbol | hole =>
    rw [normalPass, normalPass]
    exact .refl _
  | sum ts ih =>
    rw [normalPass, normalPass]
    exact (normalPassAll_restricts s ih).bind fun cs => buildSum_restricts s cs
  | product fs ih =>
    rw [normalPass, normalPass]
    exact (normalPassAll_restricts s ih).bind fun cs => product_restricts s cs
  | power b p ihb ihp =>
    rw [normalPass, normalPass]
    exact ihb.bind fun c => ihp.bind fun q => power_restricts s c q
  | negation e ih =>
    rw [normalPass, normalPass]
    refine ih.bind fun c => ?_
    split
    · exact .refl _
    · exact product_restricts s _
  | call n es ih =>
    rw [normalPass, normalPass]
    refine (normalPassAll_restricts s ih).bind fun cs => ?_
    split
    · exact .ite (power_restricts s _ _) (.refl _)
    · exact .refl _

theorem settle_restricts (e : Expr) (passes : Nat) :
    s.digits.Restricts (settle s e passes) (settle s.unlimited e passes) := by
  induction passes generalizing e with
  | zero => exact .refl _
  | succ passes ih =>
    rw [settle, settle]
    exact (normalPass_restricts s e).bind fun next => .ite (.refl _) (ih next)

theorem normalForm_restricts (e : Expr) :
    s.digits.Restricts (normalForm s e) (normalForm s.unlimited e) :=
  settle_restricts s e _

/-! ## Signs -/

theorem rebuild_restricts (p : Signed) :
    s.digits.Restricts (p.rebuild s) (p.rebuild s.unlimited) :=
  .ite (normalForm_restricts s _) (.refl _)

theorem splitSigns_restricts (n : Nat) (e : Expr) :
    s.digits.Restricts (splitSigns s n e) (splitSigns s.unlimited n e) := by
  induction n generalizing e with
  | zero => exact .refl _
  | succ n ih =>
    have hrebuilt : ∀ es : List Expr, s.digits.Restricts
        (es.mapM fun e => splitSigns s n e >>= fun p => p.rebuild s)
        (es.mapM fun e => splitSigns s.unlimited n e >>= fun p => p.rebuild s.unlimited) :=
      fun es => .mapM fun e _ => (ih e).bind fun p => rebuild_restricts s p
    cases e with
    | number | symbol | hole => exact .refl _
    | sum ts =>
      rw [splitSigns, splitSigns]
      refine (hrebuilt ts).bind fun _ => (normalForm_restricts s _).bind fun a => ?_
      split
      next us =>
        exact (normalForm_restricts s _).bind fun _ =>
          (orientationKey_restricts s.digits _).bind fun _ =>
            (orientationKey_restricts s.digits _).bind fun _ => .refl _
      next => exact ih _
    | product fs =>
      rw [splitSigns, splitSigns]
      exact (DigitLimit.Restricts.mapM fun f _ => ih f).bind fun _ =>
        (normalForm_restricts s _).bind fun _ => .refl _
    | power b p =>
      rw [splitSigns, splitSigns]
      refine (ih b).bind fun base => (ih p).bind fun signedExponent =>
        (rebuild_restricts s signedExponent).bind fun exponent => ?_
      split
      next => exact (normalForm_restricts s _).bind fun _ => .refl _
      next =>
        exact (rebuild_restricts s _).bind fun _ => (normalForm_restricts s _).bind fun _ =>
          .refl _
    | call n es =>
      rw [splitSigns, splitSigns]
      exact (hrebuilt es).bind fun _ => (normalForm_restricts s _).bind fun _ => .refl _
    | negation e =>
      rw [splitSigns, splitSigns]
      exact (ih e).bind fun _ => .refl _

theorem signed_restricts (e : Expr) :
    s.digits.Restricts (signed s e) (signed s.unlimited e) :=
  splitSigns_restricts s _ e

theorem stripped_restricts (e : Expr) :
    s.digits.Restricts (stripped s e) (stripped s.unlimited e) :=
  (normalForm_restricts s e).bind fun c => (signed_restricts s c).bind fun p =>
    (rebuild_restricts s p).bind fun r => normalForm_restricts s r

/-! ## Forms -/

theorem representative_restricts (kind : FormKind) (e : Expr) :
    s.digits.Restricts (e.representative s kind) (e.representative s.unlimited kind) := by
  cases kind with
  | normal => exact normalForm_restricts s e
  | stripped => exact stripped_restricts s e

theorem form_restricts (kind : FormKind) (e : Expr) :
    s.digits.Restricts (e.form s kind) (e.form s.unlimited kind) :=
  (representative_restricts s kind e).bind fun r => print_restricts s.digits r

/-! ## Results -/

variable {s} {e c : Expr}

/-- A normal form under a limit is the normal form without one. -/
theorem normalForm_unlimited (h : normalForm s e = .ok c) : normalForm s.unlimited e = .ok c :=
  (normalForm_restricts s e).eq_ok h

theorem stripped_unlimited (h : stripped s e = .ok c) : stripped s.unlimited e = .ok c :=
  (stripped_restricts s e).eq_ok h

theorem signed_unlimited {p : Signed} (h : signed s e = .ok p) : signed s.unlimited e = .ok p :=
  (signed_restricts s e).eq_ok h

end

end AlgebraicForm
