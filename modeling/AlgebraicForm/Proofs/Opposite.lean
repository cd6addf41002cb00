import AlgebraicForm.Proofs.Convergence
import AlgebraicForm.Proofs.Exponents
import AlgebraicForm.SignClass

/-!
# Opposites of normal forms

A normal form has an opposite that is a normal form as well, and one pass is enough to come to it:
the coefficient of a product changes its sign, and so do the coefficients of all terms of a sum.

* `Expr.IsKept`: the trees that passes keep, which normal forms are.
* `isKept_ofScaled`: a coefficient and factors of such a tree make up another one.
* `IsKept.opposite`, `opposite_opposite`: opposites are kept, and taken twice they are gone.
* `product_minusOne`, `normalPass_negation`: a pass makes the opposite of minus one times a normal
  form, and of its negation.
-/

namespace AlgebraicForm

open AlgebraicForm.Expr

/-! ## What passes keep -/

/-- A tidy tree that is settled at every node. -/
structure Expr.IsKept (e : Expr) : Prop where
  tidy : e.IsTidy
  settled : e.Every IsSettledNode

theorem normalForm_kept {e c : Expr} (he : e.Every IsNamedNode)
    (h : normalForm .unbounded e = .ok c) : c.IsKept :=
  ⟨normalForm_isTidy he h, normalForm_isSettled (isExact_of_named he) h⟩

@[simp] theorem isKept_rat (q : Rat) : (rat q).IsKept :=
  ⟨isTidy_rat q, every_number.mpr trivial⟩

namespace Expr.IsKept

variable {e : Expr}

theorem pass (h : e.IsKept) : normalPass .unbounded e = .ok e :=
  normalPass_of_settled h.tidy h.settled

theorem of_mem_sum {ts : List Expr} (h : (sum ts).IsKept) :
    ∀ t ∈ ts, t.IsKept ∧ t.isSum = false :=
  fun t ht => ⟨⟨h.tidy.of_mem_sum t ht, (every_sum.mp h.settled).2 t ht⟩,
    (every_sum.mp h.settled).1 t ht⟩

theorem of_mem_product {fs : List Expr} (h : (product fs).IsKept) : ∀ f ∈ fs, f.IsKept :=
  fun f hf => ⟨h.tidy.of_mem_product f hf, (every_product.mp h.settled).2 f hf⟩

theorem of_mem_call {n : String} {es : List Expr} (h : (call n es).IsKept) : ∀ e ∈ es, e.IsKept :=
  fun e he => ⟨h.tidy.of_mem_call e he, (every_call.mp h.settled).2 e he⟩

theorem of_power {b p : Expr} (h : (power b p).IsKept) : b.IsKept ∧ p.IsKept :=
  ⟨⟨h.tidy.base, (every_power.mp h.settled).2.1⟩,
    ⟨h.tidy.exponent, (every_power.mp h.settled).2.2⟩⟩

end Expr.IsKept

theorem Expr.IsFixed.isKept {e : Expr} (h : e.IsFixed .unbounded) (hnamed : e.Every IsNamedNode) :
    e.IsKept :=
  ⟨isTidy_iff_named.mpr ⟨h.built, hnamed⟩, h.kept.mono fun _ hd => hd.1⟩

/-- A power of kept trees that the builder leaves as it is. -/
theorem isKept_power {b p : Expr} (hb : b.IsKept) (hp : p.IsKept)
    (hnone : literalPower? .unbounded b p = none)
    (hshape : p.isIntegerNumber = true → (∀ c e, b ≠ power c e) ∧ ∀ fs, b ≠ product fs) :
    (power b p).IsKept :=
  ⟨isTidy_iff_named.mpr ⟨isBuilt_power.mpr
      ⟨⟨.inl hnone, hshape⟩, hb.tidy.isBuilt, hp.tidy.isBuilt⟩,
      every_power.mpr ⟨trivial, hb.tidy.named, hp.tidy.named⟩⟩,
    every_power.mpr ⟨trivial, hb.settled, hp.settled⟩⟩

/-- What a pass comes to is the normal form, if it is kept. -/
theorem normalForm_of_pass {e c : Expr} (h : normalPass .unbounded e = .ok c) (hc : c.IsKept) :
    normalForm .unbounded e = .ok c :=
  normalForm_of_fixpoint (by decide) hc.tidy.isExact h hc.pass

theorem Expr.IsKept.normalForm {e : Expr} (h : e.IsKept) : normalForm .unbounded e = .ok e :=
  normalForm_of_pass h.pass h

theorem normalPassAll_of_isKept {es : List Expr} (h : ∀ e ∈ es, e.IsKept) :
    normalPassAll .unbounded es = .ok es :=
  normalPassAll_eq_ok_iff.mpr (List.forall₂_same.mpr fun e he => (h e he).pass)

/-! ## Coefficients and factors -/

/-- A coefficient and factors whose product is kept. -/
structure KeptFactors (q : Rat) (gs : List Expr) : Prop where
  kept : ∀ g ∈ gs, g.IsKept
  factor : ∀ g ∈ gs, g.IsFactor
  distinct : DistinctBases gs
  ordered : gs.Pairwise FactorsInOrder
  sign : ∀ ts, ¬(q = -1 ∧ gs = [sum ts])

theorem KeptFactors.scale {q r : Rat} {gs : List Expr} (h : KeptFactors q gs)
    (hsign : ∀ ts, ¬(r = -1 ∧ gs = [sum ts])) : KeptFactors r gs :=
  ⟨h.kept, h.factor, h.distinct, h.ordered, hsign⟩

theorem Expr.IsKept.keptFactors {e : Expr} (h : e.IsKept) :
    KeptFactors (literalProduct e.factors) (otherFactors e.factors) := by
  have hfactor : ∀ f ∈ otherFactors e.factors, f.IsTidy ∧ f.IsFactor := h.tidy.of_mem_otherFactors
  refine ⟨fun f hf => ?_, fun f hf => (hfactor f hf).2, ?_, h.tidy.isBuilt.ordered_otherFactors,
    ?_⟩
  · have hmem := (mem_otherFactors.mp hf).1
    cases e with
    | product fs => exact h.of_mem_product f hmem
    | _ => exact List.mem_singleton.mp hmem ▸ h
  · cases e with
    | product fs => exact (every_product.mp h.settled).1.1
    | _ => exact (List.nodup_singleton _).sublist (List.filter_sublist.map _)
  · rintro ts ⟨hq, hgs⟩
    have hself := h.tidy.isBuilt.eq_ofScaled.1
    rw [hq, hgs] at hself
    rw [hself] at h
    exact (every_product.mp h.settled).1.2 ts rfl

theorem every_coefficientFactor {P : Expr → Prop} {q : Rat} (h : P (rat q)) :
    ∀ f ∈ coefficientFactor q, f.Every P := by
  unfold coefficientFactor
  split
  · exact List.forall_mem_nil _
  · exact List.forall_mem_singleton.mpr (every_number.mpr h)

/-- What holds of a coefficient, of factors and of the node above them holds of their product. -/
theorem every_ofScaled {P : Expr → Prop} {q : Rat} {gs : List Expr} (hq : P (rat q))
    (hnode : 2 ≤ (coefficientFactor q ++ gs).length → P (product (coefficientFactor q ++ gs)))
    (hgs : ∀ g ∈ gs, g.Every P) : (ofScaled q gs).Every P := by
  cases gs with
  | nil => exact every_number.mpr hq
  | cons g gs =>
    have hall : ∀ f ∈ coefficientFactor q ++ g :: gs, f.Every P :=
      List.forall_mem_append.mpr ⟨every_coefficientFactor hq, hgs⟩
    rw [ofScaled_eq (List.cons_ne_nil g gs)]
    unfold ofFactors
    split
    next f heq => exact hall f (heq ▸ List.mem_cons_self)
    next hsingle =>
      refine every_product.mpr ⟨hnode ?_, hall⟩
      match hlist : coefficientFactor q ++ g :: gs with
      | [] => simp at hlist
      | [f] => exact absurd hlist (hsingle f)
      | _ :: _ :: _ => simp

/-- The parts of a product of a coefficient and factors. -/
theorem factors_ofScaled (q : Rat) {gs : List Expr} (h : ∀ g ∈ gs, g.IsFactor) :
    literalProduct (ofScaled q gs).factors = q ∧ otherFactors (ofScaled q gs).factors = gs := by
  obtain ⟨hother, hone⟩ := otherFactors_eq_self fun g hg => (h g hg).1
  cases gs with
  | nil => exact ⟨by simp [ofScaled, factors], rfl⟩
  | cons g gs =>
    have hflat : ∀ f ∈ coefficientFactor q ++ g :: gs, f.isProduct = false := by
      rw [List.forall_mem_append]
      refine ⟨fun f hf => ?_, fun f hf => (h f hf).2⟩
      unfold coefficientFactor at hf
      split at hf <;> simp_all [isProduct]
    rw [ofScaled_eq (List.cons_ne_nil g gs), factors_ofFactors hflat, literalProduct_append,
      otherFactors_append, hone, hother]
    simp

/-- The product of a coefficient and such factors is kept. -/
theorem isKept_ofScaled {q : Rat} {gs : List Expr} (h : KeptFactors q gs) (hq : q ≠ 0) :
    (ofScaled q gs).IsKept := by
  by_cases hne : gs = []
  · subst hne
    exact isKept_rat q
  have hbuilt := withCoefficient_isBuilt hq hne ⟨h.factor, h.ordered⟩
    fun g hg => (h.kept g hg).tidy.isBuilt
  rw [withCoefficient_eq hne, ← ofScaled_eq hne] at hbuilt
  refine ⟨isTidy_iff_named.mpr ⟨hbuilt, ?_⟩, ?_⟩
  · exact every_ofScaled trivial (fun _ => trivial) fun g hg => (h.kept g hg).tidy.named
  · refine every_ofScaled trivial (fun _ => ?_) fun g hg => (h.kept g hg).settled
    obtain ⟨hother, hone⟩ := otherFactors_eq_self fun g hg => (h.factor g hg).1
    have hq' : literalProduct (coefficientFactor q ++ gs) = q := by simp [hone]
    have hgs : otherFactors (coefficientFactor q ++ gs) = gs := by simp [hother]
    refine ⟨hgs.symm ▸ h.distinct, fun ts hts => h.sign ts ?_⟩
    rw [hts] at hq' hgs
    rw [← hq', ← hgs]
    simp [minusOne, literalProduct, literalFactor, otherFactors, isNumber]

/-- Tidy operands with the same factors as a product that is kept have this product. -/
theorem buildProduct_of_keptFactors {q : Rat} {es gs : List Expr} (hes : ∀ e ∈ es, e.IsTidy)
    (h : KeptFactors q gs) (hfactors : SameFactors (es.flatMap factors) (rat q :: gs))
    (fuel : Nat) : buildProduct .unbounded (fuel + 2) es = .ok (ofScaled q gs) ∨
      q = 0 ∧ buildProduct .unbounded (fuel + 2) es = .ok zero := by
  obtain ⟨hother, hone⟩ := otherFactors_eq_self fun g hg => (h.factor g hg).1
  have hliteral := hfactors.literal
  have hperm := hfactors.other
  rw [literalProduct_cons_rat, hone, mul_one] at hliteral
  rw [otherFactors_cons_rat, hother] at hperm
  have hbuilt : ∀ e ∈ es, e.IsBuilt .unbounded := fun e he => (hes e he).isBuilt
  have hdistinct : DistinctBases (otherFactors (es.flatMap factors)) :=
    (hperm.map _).nodup_iff.mpr h.distinct
  by_cases hq : q = 0
  · exact .inr ⟨hq, buildProduct_zero hbuilt hdistinct (hliteral.trans hq) _⟩
  · have hsort : sortFactors .unbounded (otherFactors (es.flatMap factors)) = .ok gs := by
      rw [sortFactors_of_perm (isTidy_otherFactors hes) hperm]
      exact sortFactors_eq_ok (fun g hg => (h.kept g hg).tidy.isPrintable.exists_factorKey)
        h.ordered
    have hbuild := buildProduct_settled hbuilt hdistinct hsort (by rwa [hliteral])
      (by rw [hliteral]; exact h.sign) fuel
    rw [hliteral] at hbuild
    exact .inl hbuild

theorem normalForm_of_keptFactors {q : Rat} {es gs : List Expr} (hes : ∀ e ∈ es, e.IsKept)
    (h : KeptFactors q gs) (hq : q ≠ 0)
    (hfactors : SameFactors (es.flatMap factors) (rat q :: gs)) :
    normalForm .unbounded (product es) = .ok (ofScaled q gs) := by
  obtain ⟨fuel, hfuel⟩ := depthBound_eq (weightAll es)
  refine normalForm_of_pass ?_ (isKept_ofScaled h hq)
  rw [normalPass, normalPassAll_of_isKept hes, ok_bind, Settings.product, hfuel]
  exact (buildProduct_of_keptFactors (fun e he => (hes e he).tidy) h hfactors _).resolve_right
    fun hzero => hq hzero.1

/-! ## Terms and their bodies -/

theorem exists_of_isSum {e : Expr} (h : e.isSum = true) : ∃ ts, e = sum ts := by
  cases e with
  | sum ts => exact ⟨ts, rfl⟩
  | _ => cases h

/-- A coefficient and factors come to a sum only if that is all there is. -/
theorem isSum_ofScaled {q : Rat} {gs : List Expr} (h : ∀ g ∈ gs, g.IsFactor)
    (hsum : (ofScaled q gs).isSum = true) : q = 1 ∧ ∃ ts, gs = [sum ts] := by
  obtain ⟨ts, hts⟩ := exists_of_isSum hsum
  obtain ⟨hq, hgs⟩ := factors_ofScaled q h
  rw [hts] at hq hgs
  exact ⟨hq.symm.trans (by simp [factors, literalProduct, literalFactor]), ts, hgs.symm⟩

theorem Expr.splitCoefficient_ofScaled (q : Rat) {gs : List Expr} (hne : gs ≠ [])
    (h : ∀ g ∈ gs, g.IsFactor) :
    (ofScaled q gs).splitCoefficient = (.exact q, some (ofScaled 1 gs)) := by
  have hone : ofScaled 1 gs = ofFactors gs := ofScaled_eq hne
  rw [ofScaled_eq_scale q hne h, hone]
  refine splitCoefficient_scale (isBody_ofFactors hne h) ?_
  rw [factors_ofFactors fun g hg => (h g hg).2]

/-- The body of a term has all its factors but the coefficient. -/
theorem Expr.IsTidy.body_eq {t body : Expr} (h : t.IsTidy)
    (hbody : t.splitCoefficient.2 = some body) : literalProduct t.factors ≠ 0 ∧
      otherFactors t.factors ≠ [] ∧ body = ofScaled 1 (otherFactors t.factors) := by
  have hself := h.isBuilt.eq_ofScaled.1
  have hne : otherFactors t.factors ≠ [] := fun hnil => by
    rw [hself, hnil] at hbody
    cases hbody
  refine ⟨fun hzero => ?_, hne, ?_⟩
  · rw [h.isBuilt.eq_zero hzero] at hbody
    cases hbody
  · rw [hself, splitCoefficient_ofScaled _ hne fun f hf => (h.of_mem_otherFactors f hf).2] at hbody
    exact (Option.some.inj hbody).symm

theorem Expr.IsKept.body {t body : Expr} (h : t.IsKept)
    (hbody : t.splitCoefficient.2 = some body) : body.IsKept := by
  obtain ⟨-, -, rfl⟩ := h.tidy.body_eq hbody
  exact isKept_ofScaled (h.keptFactors.scale fun ts hts => by norm_num at hts) one_ne_zero

/-- A body that is left in a sum is that of one of its terms. -/
theorem Totals.exists_term {ts : List Expr} {k : Rat} {gs : List (Expr × Rat)}
    (h : Totals ts k gs) {g : Expr × Rat} (hg : g ∈ gs) :
    ∃ t ∈ ts, t.splitCoefficient.2 = some g.1 := by
  by_contra hno
  push Not at hno
  have hzero : weighTerms (indicator (some g.1)) ts = 0 := by
    refine List.sum_eq_zero (List.forall_mem_map.mpr fun t ht => ?_)
    unfold Expr.weigh
    split
    next c body heq =>
      have hne : body ≠ some g.1 := fun hbody => hno t ht (by rw [heq, hbody])
      rw [indicator, if_neg hne, mul_zero]
    next => rfl
  rw [← h.weight] at hzero
  obtain ⟨c, hc, hweight⟩ | ⟨hnew, -⟩ := weighGroups_indicator k h.built.distinct g.1
  · exact h.built.coefficient _ hc (hweight.symm.trans hzero)
  · exact hnew (List.mem_map_of_mem hg)

/-! ## Opposites -/

namespace Expr

/-- A term with the sign of its coefficient changed. -/
def negated (e : Expr) : Expr :=
  ofScaled (-literalProduct e.factors) (otherFactors e.factors)

/-- The opposite of a normal form. -/
def opposite : Expr → Expr
  | sum ts => sum (ts.map negated)
  | e => e.negated

@[simp] theorem negated_rat (q : Rat) : (rat q).negated = rat (-q) := by
  simp [negated, factors, ofScaled]

@[simp] theorem opposite_rat (q : Rat) : (rat q).opposite = rat (-q) :=
  negated_rat q

theorem opposite_of_isSum_eq_false {e : Expr} (h : e.isSum = false) : e.opposite = e.negated := by
  cases e with
  | sum => cases h
  | _ => rfl

theorem IsTidy.factors_negated {e : Expr} (h : e.IsTidy) :
    literalProduct e.negated.factors = -literalProduct e.factors ∧
      otherFactors e.negated.factors = otherFactors e.factors :=
  factors_ofScaled _ fun f hf => (h.of_mem_otherFactors f hf).2

theorem IsTidy.negated_negated {e : Expr} (h : e.IsTidy) : e.negated.negated = e := by
  rw [negated, h.factors_negated.1, h.factors_negated.2, neg_neg]
  exact h.isBuilt.eq_ofScaled.1.symm

/-- The opposite of a term that is no sum is none either, as it has the same factors. -/
theorem IsKept.negated {e : Expr} (h : e.IsKept) (hsum : e.isSum = false) :
    e.negated.IsKept ∧ e.negated.isSum = false := by
  have hself := h.tidy.isBuilt.eq_ofScaled.1
  by_cases hzero : literalProduct e.factors = 0
  · rw [h.tidy.isBuilt.eq_zero hzero, zero, negated_rat]
    exact ⟨isKept_rat _, rfl⟩
  refine ⟨isKept_ofScaled (h.keptFactors.scale ?_) (neg_ne_zero.mpr hzero), ?_⟩
  · rintro ts ⟨hq, hgs⟩
    rw [neg_inj.mp hq, hgs] at hself
    rw [hself] at hsum
    cases hsum
  · refine Bool.eq_false_iff.mpr fun htrue => ?_
    obtain ⟨hq, ts, hgs⟩ := isSum_ofScaled h.keptFactors.factor htrue
    exact h.keptFactors.sign ts ⟨by linarith, hgs⟩

end Expr

/-- Minus one times a term. -/
theorem buildProduct_minusOne {t : Expr} (ht : t.IsKept) (hsum : t.isSum = false) (fuel : Nat) :
    buildProduct .unbounded (fuel + 2) [minusOne, t] = .ok t.negated := by
  have htidy : ∀ e ∈ [minusOne, t], e.IsTidy := by simp [minusOne, ht.tidy]
  have hfactors : SameFactors ([minusOne, t].flatMap factors)
      (rat (-literalProduct t.factors) :: otherFactors t.factors) := by
    obtain ⟨hother, hone⟩ := otherFactors_eq_self fun f hf => (ht.keptFactors.factor f hf).1
    rw [List.flatMap_cons, List.flatMap_singleton]
    show SameFactors (rat (-1) :: t.factors) _
    refine ⟨?_, ?_⟩
    · rw [literalProduct_cons_rat, literalProduct_cons_rat, hone, mul_one, neg_one_mul]
    · rw [otherFactors_cons_rat, otherFactors_cons_rat, hother]
  have hkept : KeptFactors (-literalProduct t.factors) (otherFactors t.factors) := by
    refine ht.keptFactors.scale ?_
    rintro ts ⟨hq, hgs⟩
    have hself := ht.tidy.isBuilt.eq_ofScaled.1
    rw [neg_inj.mp hq, hgs] at hself
    rw [hself] at hsum
    cases hsum
  obtain hbuild | ⟨hzero, hbuild⟩ := buildProduct_of_keptFactors htidy hkept hfactors fuel
  · exact hbuild
  · rw [ht.tidy.isBuilt.eq_zero (neg_eq_zero.mp hzero)] at hbuild ⊢
    rw [hbuild, zero, negated_rat, neg_zero]

/-! ## Opposites of sums -/

/-- Bodies with the opposite coefficients. -/
def flipGroups (gs : List (Expr × Rat)) : List (Expr × Rat) :=
  gs.map fun g => (g.1, -g.2)

theorem scale_eq_ofScaled {body : Expr} (h : body.IsTidy) (hbody : body.IsBody) (c : Rat) :
    scale (.exact c) body = ofScaled c body.factors := by
  obtain ⟨hne, hfactors⟩ := builtFactors_of_isBody h.isBuilt hbody
  rw [ofScaled_eq_scale c hne hfactors.factor, h.isBuilt.ofFactors_factors]

theorem negated_scale {body : Expr} (h : body.IsTidy) (hbody : body.IsBody) (c : Rat) :
    (scale (.exact c) body).negated = scale (.exact (-c)) body := by
  obtain ⟨hliteral, hother⟩ :=
    factors_ofScaled c (builtFactors_of_isBody h.isBuilt hbody).2.factor
  rw [scale_eq_ofScaled h hbody, negated, hliteral, hother, scale_eq_ofScaled h hbody]

/-- Different bodies are in the order of their texts, whatever their coefficients. -/
theorem BuiltTerms.flip {gs : List (Expr × Rat)} (h : BuiltTerms gs)
    (htidy : ∀ g ∈ gs, g.1.IsTidy) : BuiltTerms (flipGroups gs) := by
  have hordered : gs.Pairwise fun g g' => TermsInOrder (g.1, -g.2) (g'.1, -g'.2) := by
    refine ((List.pairwise_map.mp h.distinct).and h.ordered).imp_of_mem ?_
    rintro g g' hg hg' ⟨hne, hle⟩ s t hs ht
    have htexts : s ≠ t := by
      rintro rfl
      exact hne (eq_of_text_eq (htidy g hg) (htidy g' hg') (hs.trans ht.symm))
    have hle := (termLe_exact s t _ _).mp (hle s t hs ht)
    exact (termLe_exact s t _ _).mpr (.inr (hle.resolve_left fun heq => htexts heq.1))
  refine ⟨?_, ?_, ?_, ?_, List.pairwise_map.mpr hordered⟩
  · exact List.forall_mem_map.mpr h.body
  · exact List.forall_mem_map.mpr h.whole
  · exact List.forall_mem_map.mpr fun g hg => neg_ne_zero.mpr (h.coefficient g hg)
  · rw [flipGroups, List.map_map]
    exact h.distinct

theorem map_negated {k : Rat} {gs : List (Expr × Rat)} (h : BuiltTerms gs)
    (htidy : ∀ g ∈ gs, g.1.IsTidy) : (constantTerm k ++ groupTerms gs).map negated =
      constantTerm (-k) ++ groupTerms (flipGroups gs) := by
  have hconstant : (constantTerm k).map negated = constantTerm (-k) := by
    by_cases hk : k = 0 <;> simp [constantTerm, hk]
  have hgroups : (groupTerms gs).map negated = groupTerms (flipGroups gs) := by
    rw [groupTerms, groupTerms, flipGroups, List.map_map, List.map_map]
    exact List.map_congr_left fun g hg => negated_scale (htidy g hg) (h.body g hg) g.2
  rw [List.map_append, hconstant, hgroups]

namespace Expr

/-- The terms of an opposite are the opposites of the terms. -/
theorem IsKept.opposite {e : Expr} (h : e.IsKept) : e.opposite.IsKept := by
  cases e with
  | sum ts =>
    have hnegated : ∀ u ∈ ts.map Expr.negated, u.IsKept ∧ u.isSum = false := by
      rw [List.forall_mem_map]
      exact fun t ht => (h.of_mem_sum t ht).1.negated (h.of_mem_sum t ht).2
    obtain ⟨k, gs, htotals, hts⟩ := exists_totals_sum h.tidy
    have hlen := (isBuilt_sum.mp h.tidy.isBuilt).1.1
    have hbuilt : (Expr.sum (ts.map Expr.negated)).IsBuilt .unbounded := by
      refine isBuilt_sum.mpr ⟨⟨by rwa [List.length_map], -k, flipGroups gs, ?_,
        htotals.built.flip htotals.tidy⟩, fun u hu => (hnegated u hu).1.tidy.isBuilt⟩
      rw [hts, map_negated htotals.built htotals.tidy]
    exact ⟨isTidy_iff_named.mpr ⟨hbuilt, every_sum.mpr ⟨trivial,
        fun u hu => (hnegated u hu).1.tidy.named⟩⟩,
      every_sum.mpr ⟨fun u hu => (hnegated u hu).2, fun u hu => (hnegated u hu).1.settled⟩⟩
  | _ => exact (h.negated rfl).1

theorem IsKept.opposite_opposite {e : Expr} (h : e.IsKept) : e.opposite.opposite = e := by
  cases e with
  | sum ts =>
    have hself : ts.map (Expr.negated ∘ Expr.negated) = ts := by
      conv_rhs => rw [← List.map_id ts]
      exact List.map_congr_left fun t ht => (h.of_mem_sum t ht).1.tidy.negated_negated
    rw [Expr.opposite, Expr.opposite, List.map_map, hself]
  | _ => exact (opposite_of_isSum_eq_false (h.negated rfl).2).trans h.tidy.negated_negated

theorem isSum_opposite {e : Expr} (h : e.IsKept) : e.opposite.isSum = e.isSum := by
  cases e with
  | sum ts => rfl
  | _ => exact (h.negated rfl).2

end Expr

/-- The negated terms of a sum add up to its opposite. -/
theorem buildSum_negated {fuel : Nat} {ts us : List Expr} {r : Expr} (h : (sum ts).IsKept)
    (hus : List.Forall₂ (fun t u => buildProduct .unbounded fuel [minusOne, t] = .ok u) ts us)
    (hr : buildSum .unbounded us = .ok r) : r = (sum ts).opposite := by
  obtain rfl : us = ts.map negated := by
    have hall := (List.forall₂_and_left ts us).mpr ⟨h.of_mem_sum, hus⟩
    rw [map_eq_map_of_forall₂ hall (g := id), List.map_id]
    rintro t u ⟨ht, htu⟩
    have hmore := (buildProduct_mono (Nat.le_add_right fuel 2) _).ok htu
    exact Except.ok.inj ((buildProduct_minusOne ht.1 ht.2 _).symm.trans hmore)
  have hopposite := h.opposite
  rw [buildSum_of_settled hopposite.tidy (every_sum.mp hopposite.settled).1] at hr
  exact (Except.ok.inj hr).symm

/-- Minus one times a normal form. -/
theorem product_minusOne {e : Expr} (h : e.IsKept) :
    Settings.unbounded.product [minusOne, e] = .ok e.opposite := by
  obtain ⟨fuel, hfuel⟩ := depthBound_eq (weightAll [minusOne, e])
  cases hsum : e.isSum with
  | false =>
    rw [Settings.product, hfuel, opposite_of_isSum_eq_false hsum]
    exact buildProduct_minusOne h hsum _
  | true =>
    obtain ⟨ts, rfl⟩ := exists_of_isSum hsum
    have hkept : ∀ e ∈ [minusOne, sum ts], e.IsKept := by simp [minusOne, h]
    obtain ⟨r, hr⟩ := exists_product fun e he => (hkept e he).tidy
    rw [hr]
    rw [Settings.product, hfuel] at hr
    have hliteral : literalProduct ([minusOne, sum ts].flatMap factors) = -1 := by
      simp [minusOne, factors, literalProduct, literalFactor]
    cases buildProduct_distinct (fun e he => (hkept e he).tidy.isBuilt)
      (List.nodup_singleton _) hr with
    | zero hq =>
      rw [hliteral] at hq
      norm_num at hq
    | literal _ hnil => cases hnil
    | @negated us vs _ _ hus hvs hbuild =>
      -- the sign goes to each term of the sum
      obtain rfl : ts = us := sum.inj (List.cons.inj hus).1
      rw [buildSum_negated h hvs hbuild]
    | plain _ hsort _ hnosum =>
      exact (hnosum ts ⟨hliteral, List.perm_singleton.mp (sortFactors_perm hsort)⟩).elim

/-- A pass negates what it makes of the operand. -/
theorem normalPass_negation {e c : Expr} (h : normalPass .unbounded e = .ok c) (hc : c.IsKept) :
    normalPass .unbounded (negation e) = .ok c.opposite := by
  rw [normalPass, h, ok_bind]
  cases c with
  | number v =>
    obtain ⟨q, rfl⟩ := hc.tidy.isExact.exists_rat
    rw [opposite_rat]
    rfl
  | _ => exact product_minusOne hc

end AlgebraicForm
