import AlgebraicForm.Proofs.Fuel
import Mathlib.Logic.Relation

/-!
# The order of operands does not matter

A pass over an expression gives the same tree, however the operands of its sums and products are
arranged: sums are known from the totals of their terms, products from their factors. So the normal
forms are the same as well, and where there is none, there is none for the same reason. Only if the
limit for digits stops them, it may stop them at another number.

* `normalForm_agree`: the first pass decides about the normal form.
* `Somewhere.normalPass_sameResult`: a change that a pass does not see is not seen from further up.
* `normalForm_of_rearranged`: rearranged expressions have the same normal form.
-/

namespace AlgebraicForm

open AlgebraicForm.Expr

/-! ## Passes -/

theorem isTidy_of_mapM {limit : DigitLimit} {es cs : List Expr}
    (hes : ∀ e ∈ es, e.Every IsNamedNode)
    (h : es.mapM (normalPass (Settings.standard.within limit)) = .ok cs) : ∀ c ∈ cs, c.IsTidy :=
  fun c hc => (isTidy_iff_within limit).mpr (isProper_of_mapM hes h c hc)

/-- Expressions that a pass makes into the same tree, or into none, have the same normal form,
unless the limit for digits stops both. -/
theorem normalForm_agree {s : Settings} (hpasses : 2 ≤ s.maxPasses) {d e : Expr}
    (hd : d.Every IsNamedNode) (he : e.Every IsNamedNode)
    (h : SameResult (normalPass s d) (normalPass s e)) :
    s.digits.Agree (normalForm s d) (normalForm s e) := by
  cases hpass : normalPass s d with
  | ok c =>
    exact .inl (normalForm_eq_of_normalPass_eq hpasses (isExact_of_named hd) (isExact_of_named he)
      (h.eq_of_ok hpass))
  | error fault =>
    -- then there is no first pass for the other one either, and only the limit stops a pass
    have hstops : ∀ {e : Expr}, e.Every IsNamedNode → (∀ c, normalPass s e ≠ .ok c) →
        s.digits.Stops (normalForm s e) := by
      intro e he hnone
      cases hpass : normalPass s e with
      | ok c => exact absurd hpass (hnone c)
      | error fault =>
        obtain ⟨n, hn⟩ : ∃ n, s.maxPasses.toNat = n + 1 := ⟨s.maxPasses.toNat - 1, by omega⟩
        refine ⟨fault, normalPass_failsWithin he fault hpass, ?_⟩
        rw [normalForm, hn, settle, hpass, error_bind]
    have hnone : ∀ c, normalPass s d ≠ .ok c := by simp [hpass]
    exact .inr ⟨hstops hd hnone, hstops he fun c hc => hnone c ((h c).mpr hc)⟩

/-! ## Changes at one place -/

/-- The second expression comes from the first by a change at one place. -/
inductive Somewhere (R : Expr → Expr → Prop) : Expr → Expr → Prop
  | here {d e : Expr} : R d e → Somewhere R d e
  | sum (ts : List Expr) {t u : Expr} (us : List Expr) :
      Somewhere R t u → Somewhere R (.sum (ts ++ t :: us)) (.sum (ts ++ u :: us))
  | product (fs : List Expr) {f g : Expr} (gs : List Expr) :
      Somewhere R f g → Somewhere R (.product (fs ++ f :: gs)) (.product (fs ++ g :: gs))
  | base {b c : Expr} (p : Expr) : Somewhere R b c → Somewhere R (.power b p) (.power c p)
  | exponent (b : Expr) {p q : Expr} : Somewhere R p q → Somewhere R (.power b p) (.power b q)
  | negation {d e : Expr} : Somewhere R d e → Somewhere R (.negation d) (.negation e)
  | call (n : String) (ds : List Expr) {d e : Expr} (es : List Expr) :
      Somewhere R d e → Somewhere R (.call n (ds ++ d :: es)) (.call n (ds ++ e :: es))

namespace Somewhere

variable {R : Expr → Expr → Prop}

/-- A property of symbols and calls is kept by a change that keeps it at its place. -/
theorem every {P : Expr → Prop} (hP : LeafProperty P)
    (hR : ∀ d e, R d e → d.Every P → e.Every P) {d e : Expr} (h : Somewhere R d e)
    (hd : d.Every P) : e.Every P := by
  induction h with
  | here h => exact hR _ _ h hd
  | sum ts us _ ih | product ts us _ ih =>
    simp only [hP.every_sum_iff, hP.every_product_iff, List.forall_mem_append,
      List.forall_mem_cons] at hd ⊢
    exact ⟨hd.1, ih hd.2.1, hd.2.2⟩
  | base p _ ih =>
    rw [hP.every_power_iff] at hd ⊢
    exact ⟨ih hd.1, hd.2⟩
  | exponent b _ ih =>
    rw [hP.every_power_iff] at hd ⊢
    exact ⟨hd.1, ih hd.2⟩
  | negation _ ih =>
    rw [hP.every_negation_iff] at hd ⊢
    exact ih hd
  | call n ds es _ ih =>
    rw [every_call, List.forall_mem_append, List.forall_mem_cons] at hd ⊢
    exact ⟨hP.call (by simp) hd.1, hd.2.1, ih hd.2.2.1, hd.2.2.2⟩

/-- One operand may be exchanged for another one that a pass makes into the same tree. -/
theorem mapM_operand {s : Settings} {t u : Expr} (h : SameResult (normalPass s t) (normalPass s u))
    (ts us : List Expr) :
    SameResult ((ts ++ t :: us).mapM (normalPass s)) ((ts ++ u :: us).mapM (normalPass s)) := by
  rw [List.mapM_append, List.mapM_append, List.mapM_cons, List.mapM_cons]
  exact (SameResult.refl _).bind fun _ _ => (h.bind fun _ _ => .refl _).bind fun _ _ => .refl _

/-- What a pass does not see at its place, it does not see from further up. -/
theorem normalPass_sameResult {s : Settings}
    (hR : ∀ d e, R d e → d.Every IsNamedNode → SameResult (normalPass s d) (normalPass s e))
    {d e : Expr} (h : Somewhere R d e) (hd : d.Every IsNamedNode) :
    SameResult (normalPass s d) (normalPass s e) := by
  induction h with
  | here h => exact hR _ _ h hd
  | sum ts us _ ih =>
    rw [normalPass, normalPass, normalPassAll_eq_mapM, normalPassAll_eq_mapM]
    exact (mapM_operand (ih ((every_sum.mp hd).2 _ (by simp))) ts us).bind fun _ _ => .refl _
  | product fs gs _ ih =>
    rw [normalPass, normalPass, normalPassAll_eq_mapM, normalPassAll_eq_mapM]
    exact (mapM_operand (ih ((every_product.mp hd).2 _ (by simp))) fs gs).bind fun _ _ => .refl _
  | base p _ ih =>
    rw [normalPass, normalPass]
    exact (ih (every_power.mp hd).2.1).bind fun _ _ => .refl _
  | exponent b _ ih =>
    rw [normalPass, normalPass]
    exact (SameResult.refl _).bind fun _ _ =>
      (ih (every_power.mp hd).2.2).bind fun _ _ => .refl _
  | negation _ ih =>
    rw [normalPass, normalPass]
    exact (ih (every_negation.mp hd).2).bind fun _ _ => .refl _
  | call n ds es _ ih =>
    rw [normalPass, normalPass, normalPassAll_eq_mapM, normalPassAll_eq_mapM]
    exact (mapM_operand (ih ((every_call.mp hd).2 _ (by simp))) ds es).bind fun _ _ => .refl _

/-- Any number of such changes does not show in the normal form, either. -/
theorem normalForm_agree {s : Settings} (hpasses : 2 ≤ s.maxPasses)
    (hnamed : ∀ d e, R d e → d.Every IsNamedNode → e.Every IsNamedNode)
    (hR : ∀ d e, R d e → d.Every IsNamedNode → SameResult (normalPass s d) (normalPass s e))
    {d e : Expr} (h : Relation.ReflTransGen (Somewhere R) d e) (hd : d.Every IsNamedNode) :
    s.digits.Agree (normalForm s d) (normalForm s e) := by
  induction h using Relation.ReflTransGen.head_induction_on with
  | refl => exact .refl _
  | head hstep _ ih =>
    have he := hstep.every leafProperty_isNamedNode hnamed hd
    exact (AlgebraicForm.normalForm_agree hpasses hd he (hstep.normalPass_sameResult hR hd)).trans
      (ih he)

end Somewhere

/-! ## Rearranging operands -/

/-- A sum or a product with its operands in another order. -/
inductive Reorders : Expr → Expr → Prop
  | sum {ts us : List Expr} : ts.Perm us → Reorders (.sum ts) (.sum us)
  | product {fs gs : List Expr} : fs.Perm gs → Reorders (.product fs) (.product gs)

/-- The operands of sums and products stand in another order, anywhere in the expression. -/
def Rearranged : Expr → Expr → Prop :=
  Relation.ReflTransGen (Somewhere Reorders)

theorem Reorders.named {d e : Expr} (h : Reorders d e) (hd : d.Every IsNamedNode) :
    e.Every IsNamedNode := by
  cases h with
  | sum h | product h =>
    simp only [leafProperty_isNamedNode.every_sum_iff, leafProperty_isNamedNode.every_product_iff]
      at hd ⊢
    exact fun e he => hd e (h.mem_iff.mpr he)

theorem Reorders.normalPass_sameResult {d e : Expr} (h : Reorders d e)
    (hd : d.Every IsNamedNode) (limit : DigitLimit) :
    SameResult (normalPass (Settings.standard.within limit) d)
      (normalPass (Settings.standard.within limit) e) := by
  cases h with
  | @sum ts us h =>
    rw [normalPass, normalPass, normalPassAll_eq_mapM, normalPassAll_eq_mapM]
    exact .bind_mapM_perm h fun cs ds hcs hperm =>
      buildSum_perm (isTidy_of_mapM (every_sum.mp hd).2 hcs) hperm limit
  | @product fs gs h =>
    rw [normalPass, normalPass, normalPassAll_eq_mapM, normalPassAll_eq_mapM]
    exact .bind_mapM_perm h fun cs ds hcs hperm =>
      product_perm (isTidy_of_mapM (every_product.mp hd).2 hcs) hperm limit

/-- Rearranged expressions have the same normal form, or both have none for the same reason. -/
theorem normalForm_of_rearranged {d e : Expr} (hd : d.Every IsNamedNode) (h : Rearranged d e) :
    DigitLimit.standard.Agree (normalForm .standard d) (normalForm .standard e) :=
  Somewhere.normalForm_agree (s := .standard) (by decide) (fun _ _ h => h.named)
    (fun _ _ h hd => h.normalPass_sameResult hd .standard) h hd

/-- Terms, and the terms inside of a factor, stand in another order. -/
theorem normalForm_of_rearranged_factor :
    let d := sum [symbol "x", product [sum [symbol "y", one], rat 2]]
    let e := sum [product [rat 2, sum [one, symbol "y"]], symbol "x"]
    let c := sum [product [rat 2, sum [one, symbol "y"]], symbol "x"]
    Rearranged d e ∧ DigitLimit.standard.Agree (normalForm .standard d) (normalForm .standard e) ∧
      normalForm .standard d = .ok c ∧ normalForm .standard e = .ok c := by
  intro d e c
  have hx : IsIdentifier "x" := isIdentifier_letter (c := 'x') (by decide)
  have hy : IsIdentifier "y" := isIdentifier_letter (c := 'y') (by decide)
  have hd : d.Every IsNamedNode := by simp [d, one, IsNamedNode, hx, hy]
  have hinner : Somewhere Reorders d
      (sum [symbol "x", product [sum [one, symbol "y"], rat 2]]) :=
    .sum [symbol "x"] [] (.product [] [rat 2] (.here (.sum (.swap one (symbol "y") []))))
  have hfactors : Somewhere Reorders (sum [symbol "x", product [sum [one, symbol "y"], rat 2]])
      (sum [symbol "x", product [rat 2, sum [one, symbol "y"]]]) :=
    .sum [symbol "x"] [] (.here (.product (.swap (rat 2) (sum [one, symbol "y"]) [])))
  have hterms : Somewhere Reorders (sum [symbol "x", product [rat 2, sum [one, symbol "y"]]]) e :=
    .here (.sum (.swap (product [rat 2, sum [one, symbol "y"]]) (symbol "x") []))
  have h : Rearranged d e := .tail (.tail (.single hinner) hfactors) hterms
  have he : e.IsExact := by simp [e, one]
  exact ⟨h, normalForm_of_rearranged hd h,
    normalForm_eq_ok_of_returns (isExact_of_named hd) (by simp [c, one]) (by decide +kernel),
    normalForm_eq_ok_of_returns he (by simp [c, one]) (by decide +kernel)⟩

end AlgebraicForm
