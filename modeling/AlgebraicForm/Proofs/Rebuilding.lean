import AlgebraicForm.Proofs.Shape

/-!
# What the builders make of operands that need nothing

Operands that are collected already come back as they were. Different bodies keep their coefficients
apart, different bases their exponents, and a power that cannot be decided or distributed is built
again from its parts. So the outcome of a product is known from the product of its literals and its
other factors alone, in whatever order and nesting they come (`SameFactors`).

* `buildSum_settled`: a sum of scaled bodies in order.
* `buildPower_splitPower`: the power that a factor is.
* `buildProduct_settled`: a product of factors with different bases.
-/

namespace AlgebraicForm

open AlgebraicForm.Expr

/-! ## Literals and other factors -/

/-- The product of the literals among factors. -/
def literalProduct (fs : List Expr) : Rat :=
  (fs.map literalFactor).prod

/-- The factors that are no literals. -/
def otherFactors (fs : List Expr) : List Expr :=
  fs.filter (!·.isNumber)

/-- The same factors up to their order and to literals with the same product. -/
structure SameFactors (fs gs : List Expr) : Prop where
  literal : literalProduct fs = literalProduct gs
  other : (otherFactors fs).Perm (otherFactors gs)

/-- The product of a coefficient and factors, of which there may be none. -/
def ofScaled (q : Rat) : List Expr → Expr
  | [] => rat q
  | fs => withCoefficient (.exact q) fs

@[simp] theorem literalProduct_nil : literalProduct [] = 1 :=
  rfl

@[simp] theorem literalProduct_cons_rat (q : Rat) (fs : List Expr) :
    literalProduct (rat q :: fs) = q * literalProduct fs := by
  simp [literalProduct, literalFactor]

theorem literalProduct_cons {f : Expr} (hf : f.isNumber = false) (fs : List Expr) :
    literalProduct (f :: fs) = literalProduct fs := by
  cases f <;> simp_all [literalProduct, literalFactor, isNumber]

@[simp] theorem literalProduct_append (fs gs : List Expr) :
    literalProduct (fs ++ gs) = literalProduct fs * literalProduct gs := by
  simp [literalProduct]

@[simp] theorem otherFactors_nil : otherFactors [] = [] :=
  rfl

@[simp] theorem otherFactors_cons_rat (q : Rat) (fs : List Expr) :
    otherFactors (rat q :: fs) = otherFactors fs :=
  rfl

theorem otherFactors_cons {f : Expr} (hf : f.isNumber = false) (fs : List Expr) :
    otherFactors (f :: fs) = f :: otherFactors fs := by
  simp [otherFactors, hf]

@[simp] theorem otherFactors_append (fs gs : List Expr) :
    otherFactors (fs ++ gs) = otherFactors fs ++ otherFactors gs := by
  simp [otherFactors]

theorem mem_otherFactors {f : Expr} {fs : List Expr} :
    f ∈ otherFactors fs ↔ f ∈ fs ∧ f.isNumber = false := by
  simp [otherFactors]

theorem otherFactors_eq_self {fs : List Expr} (h : ∀ f ∈ fs, f.isNumber = false) :
    otherFactors fs = fs ∧ literalProduct fs = 1 := by
  induction fs with
  | nil => exact ⟨rfl, rfl⟩
  | cons f fs ih =>
    rw [List.forall_mem_cons] at h
    rw [otherFactors_cons h.1, literalProduct_cons h.1, (ih h.2).1]
    exact ⟨rfl, (ih h.2).2⟩

/-- A coefficient that is left out is one. -/
@[simp] theorem literalProduct_coefficientFactor (q : Rat) :
    literalProduct (coefficientFactor q) = q := by
  by_cases hq : q = 1 <;> simp [coefficientFactor, hq]

@[simp] theorem otherFactors_coefficientFactor (q : Rat) :
    otherFactors (coefficientFactor q) = [] := by
  by_cases hq : q = 1 <;> simp [coefficientFactor, hq]

namespace SameFactors

theorem refl (fs : List Expr) : SameFactors fs fs :=
  ⟨rfl, .refl _⟩

theorem symm {fs gs : List Expr} (h : SameFactors fs gs) : SameFactors gs fs :=
  ⟨h.literal.symm, h.other.symm⟩

theorem trans {fs gs hs : List Expr} (h : SameFactors fs gs) (h' : SameFactors gs hs) :
    SameFactors fs hs :=
  ⟨h.literal.trans h'.literal, h.other.trans h'.other⟩

theorem append {fs gs fs' gs' : List Expr} (h : SameFactors fs gs) (h' : SameFactors fs' gs') :
    SameFactors (fs ++ fs') (gs ++ gs') := by
  refine ⟨?_, ?_⟩
  · rw [literalProduct_append, literalProduct_append, h.literal, h'.literal]
  · rw [otherFactors_append, otherFactors_append]
    exact h.other.append h'.other

theorem perm {fs gs : List Expr} (h : fs.Perm gs) : SameFactors fs gs :=
  ⟨(h.map _).prod_eq, h.filter _⟩

end SameFactors

section

variable {s : Settings}

/-- A product of the right shape is its coefficient and its other factors. -/
theorem Expr.IsBuilt.eq_ofScaled {e : Expr} (h : e.IsBuilt s) :
    e = ofScaled (literalProduct e.factors) (otherFactors e.factors) ∧
      ∀ f ∈ otherFactors e.factors, f.IsBuilt s ∧ f.IsFactor := by
  refine ⟨?_, fun f hf => ?_⟩
  · cases e with
    | number v =>
      obtain ⟨q, rfl⟩ := h.isExact.exists_rat
      simp [Expr.factors, ofScaled]
    | product fs =>
      obtain ⟨⟨hlen, q, gs, -, hne, rfl, hgs⟩, -⟩ := isBuilt_product.mp h
      obtain ⟨hother, hone⟩ := otherFactors_eq_self fun g hg => (hgs.factor g hg).1
      obtain ⟨g, gs, rfl⟩ := List.exists_cons_of_ne_nil hne
      show _ = ofScaled (literalProduct (coefficientFactor q ++ g :: gs))
        (otherFactors (coefficientFactor q ++ g :: gs))
      rw [literalProduct_append, otherFactors_append, hother, hone, mul_one,
        literalProduct_coefficientFactor, otherFactors_coefficientFactor, List.nil_append]
      show _ = withCoefficient (.exact q) (g :: gs)
      rw [withCoefficient_eq (by simp)]
      unfold ofFactors
      split
      next heq => simp [heq] at hlen
      next => rfl
    | _ => simp [Expr.factors, otherFactors, isNumber, ofScaled, withCoefficient, ofFactors,
        literalProduct, literalFactor]
  · rw [mem_otherFactors] at hf
    obtain ⟨hbuilt, hfactor⟩ := forall_mem_factors h f hf.1
    exact ⟨hbuilt, hfactor hf.2⟩

theorem Expr.IsBuilt.eq_zero {e : Expr} (h : e.IsBuilt s) (hzero : literalProduct e.factors = 0) :
    e = zero := by
  cases e with
  | number v =>
    obtain ⟨q, rfl⟩ := h.isExact.exists_rat
    rw [zero, show q = 0 by simpa [Expr.factors] using hzero]
  | product fs =>
    obtain ⟨⟨-, q, gs, hq, -, rfl, hgs⟩, -⟩ := isBuilt_product.mp h
    have hone := (otherFactors_eq_self fun g hg => (hgs.factor g hg).1).2
    exact absurd (by simpa [Expr.factors, hone] using hzero) hq
  | _ => simp [Expr.factors, literalProduct, literalFactor] at hzero

/-! ## Sums -/

theorem splitCoefficient_scale {q : Rat} {body : Expr} (hbody : body.IsBody)
    (hwhole : ofFactors body.factors = body) :
    (scale (.exact q) body).splitCoefficient = (.exact q, some body) := by
  unfold scale
  rw [Number.isOne_exact]
  by_cases hq : q = 1
  · subst hq
    simpa [IsBody, Number.ofInt] using hbody
  · simp [hq, splitCoefficient, hwhole]

/-- Scaled bodies that are all different are collected as they are. -/
theorem collectTerms_groupTerms (k : Rat) {hs gs : List (Expr × Rat)}
    (hgs : ∀ g ∈ gs, g.1.IsExact ∧ g.1.IsBody ∧ ofFactors g.1.factors = g.1)
    (hhs : ∀ g ∈ hs, g.1.IsExact)
    (hdistinct : ((hs ++ gs).map (·.1)).Nodup) :
    collectTerms (.exact k) (exactGroups hs) (groupTerms gs) =
      .ok (.exact k, exactGroups (hs ++ gs)) := by
  induction gs generalizing hs with
  | nil => simp [collectTerms]
  | cons g gs ih =>
    obtain ⟨body, c⟩ := g
    rw [List.forall_mem_cons] at hgs
    obtain ⟨⟨hexact, hbody, hwhole⟩, hgs⟩ := hgs
    rcases addCoefficient_cases c hexact hhs with ⟨pre, d, post, rfl, -⟩ | ⟨-, hadd⟩
    · -- a body that was collected before is not among the others
      simp [List.nodup_append] at hdistinct
    · have hrest := @ih (hs ++ [(body, c)]) hgs
        (by simpa [or_imp, forall_and, hexact] using hhs) (by simpa using hdistinct)
      rw [groupTerms_cons, collectTerms, splitCoefficient_scale hbody hwhole]
      simpa [hadd] using hrest

theorem sortedTerms_eq_self {gs : List (Expr × Rat)} (h : BuiltTerms gs)
    {ks : List ((List Char × Number) × Expr)} (hks : keyedTerms s (exactGroups gs) = .ok ks) :
    sortedTerms ks = groupTerms gs := by
  have hkeyed := keyedTerms_eq_ok hks
  have hall : gs.filter (·.2 ≠ 0) = gs := by
    rw [List.filter_eq_self]
    simpa using h.coefficient
  rw [hall] at hkeyed
  have hsorted : ks.Pairwise (fun a b => termLe a.1 b.1 = true) := by
    refine pairwise_of_forall₂ hkeyed.flip h.ordered ?_
    rintro ⟨⟨text, coefficient⟩, e⟩ g ⟨⟨text', coefficient'⟩, e'⟩ g' ⟨ht, rfl, -⟩ ⟨ht', rfl, -⟩ hle
    exact hle text text' (text_unlimited ht) (text_unlimited ht')
  rw [sortedTerms, sortBy_eq_self hsorted]
  exact (map_eq_map_of_forall₂ hkeyed.flip fun k g hk => hk.2.2).trans rfl

theorem BuiltTerms.isBuilt {gs : List (Expr × Rat)} (h : BuiltTerms gs)
    (hbuilt : ∀ t ∈ groupTerms gs, t.IsBuilt s) : ∀ g ∈ gs, g.1.IsBuilt s := by
  intro g hg
  have hterm := hbuilt (scale (.exact g.2) g.1) (List.mem_map_of_mem hg)
  exact (isBody_of_splitCoefficient hterm (splitCoefficient_scale (h.body g hg) (h.whole g hg))).1

theorem collectTerms_built {k : Rat} {gs : List (Expr × Rat)} (h : BuiltTerms gs)
    (hbuilt : ∀ t ∈ groupTerms gs, t.IsBuilt s) :
    collectTerms (.exact 0) [] (constantTerm k ++ groupTerms gs) =
      .ok (.exact k, exactGroups gs) := by
  have hgs : ∀ g ∈ gs, g.1.IsExact ∧ g.1.IsBody ∧ ofFactors g.1.factors = g.1 := fun g hg =>
    ⟨(h.isBuilt hbuilt g hg).isExact, h.body g hg, h.whole g hg⟩
  have hcollect : ∀ k : Rat, collectTerms (.exact k) (exactGroups []) (groupTerms gs) =
      .ok (.exact k, exactGroups ([] ++ gs)) := fun k =>
    collectTerms_groupTerms k hgs (by simp) h.distinct
  by_cases hk : k = 0
  · subst hk
    exact hcollect 0
  · rw [constantTerm, if_neg hk]
    show collectTerms (.exact 0) [] (rat k :: groupTerms gs) = _
    simpa [collectTerms, splitCoefficient, exactGroups] using hcollect k

/-- A sum comes back from terms that are its own. -/
theorem buildSum_settled {ts es : List Expr} (h : (sum ts).IsBuilt s)
    (hes : es.flatMap terms = ts) {r : Expr} (hr : buildSum s es = .ok r) : r = sum ts := by
  obtain ⟨⟨hlen, k, gs, rfl, hgs⟩, hts⟩ := isBuilt_sum.mp h
  have hcollect := collectTerms_built hgs (k := k) fun t ht =>
    hts t (List.mem_append_right _ ht)
  rw [← hes] at hcollect
  obtain ⟨ks, hks, rfl⟩ := (buildSum_eq_ok hcollect).mp hr
  rw [sortedTerms_eq_self hgs hks]
  match hlist : constantTerm k ++ groupTerms gs, hlen with
  | _ :: _ :: _, _ => rfl

/-! ## Powers -/

theorem buildPower_of_isBuilt {b p : Expr} (h : (power b p).IsBuilt s) (fuel : Nat) :
    buildPower s (fuel + 1) b p = .ok (power b p) := by
  obtain ⟨⟨hliteral, hwhole⟩, -, -⟩ := isBuilt_power.mp h
  unfold buildPower
  rcases hliteral with hnone | ⟨rfl, rfl⟩
  · rw [hnone]
    cases hint : p.isIntegerNumber with
    | true =>
      obtain ⟨hpower, hproduct⟩ := hwhole hint
      cases b with
      | power c e => exact absurd rfl (hpower c e)
      | product fs => exact absurd rfl (hproduct fs)
      | _ => rfl
    | false => rfl
  · -- zero to the power zero
    simp [literalPower?, zero]

theorem buildPower_splitPower {f : Expr} (h : f.IsBuilt s) (hf : f.IsFactor) (fuel : Nat) :
    buildPower s (fuel + 1) f.splitPower.1 f.splitPower.2 = .ok f := by
  have hone : f.isNumber = false → buildPower s (fuel + 1) f one = .ok f := by
    intro hnumber
    have hliteral : literalPower? s f one = some f := by
      cases f <;> simp_all [literalPower?, one, isNumber]
    unfold buildPower
    rw [hliteral]
  cases f with
  | power b p => exact buildPower_of_isBuilt h fuel
  | _ => exact hone hf.1

/-! ## Products -/

/-- A factor as the only power of its base. -/
def ownPower (f : Expr) : Expr × List Expr :=
  (f.splitPower.1, [f.splitPower.2])

/-- No two factors have the same base. -/
def DistinctBases (fs : List Expr) : Prop :=
  (fs.map fun f => f.splitPower.1).Nodup

/-- Factors with different bases keep their exponents apart. -/
theorem collectFactors_distinct {fs : List Expr} (hfs : ∀ f ∈ fs, f.IsExact)
    (h : DistinctBases (otherFactors fs)) : collectFactors (.exact 1) [] fs =
      .ok (.exact (literalProduct fs), (otherFactors fs).map ownPower) := by
  have hnodup : (((otherFactors fs).map ownPower).map (·.1)).Nodup := by
    rw [List.map_map]
    exact h
  obtain ⟨q, bs, hcollect, -, hq, hbs⟩ := collectFactors_invariant
    (I := fun q bs rest => q * literalProduct rest = literalProduct fs ∧
      bs ++ (otherFactors rest).map ownPower = (otherFactors fs).map ownPower)
    (fun q bs a rest ⟨hq, hbs⟩ => by
      rw [literalProduct_cons_rat, ← mul_assoc] at hq
      exact ⟨hq, hbs⟩)
    (fun q pre b es post f e rest hf hsplit ⟨_, hbs⟩ => by
      -- the base would be there twice
      rw [← hbs, otherFactors_cons hf] at hnodup
      simp [List.nodup_append, ownPower, hsplit] at hnodup)
    (fun q bs b f e rest hf hsplit _ ⟨hq, hbs⟩ => by
      rw [literalProduct_cons hf] at hq
      rw [otherFactors_cons hf] at hbs
      exact ⟨hq, by simpa [ownPower, hsplit] using hbs⟩)
    (q := 1) (List.forall_mem_nil fun g : Expr × List Expr => g.1.IsExact ∧ ∀ e ∈ g.2, e.IsExact)
    hfs ⟨one_mul _, rfl⟩
  rw [hcollect]
  simp only [literalProduct_nil, mul_one, otherFactors_nil, List.map_nil, List.append_nil] at hq hbs
  rw [hq, hbs]

/-- Factors that are built again from their own powers stay as they are. -/
theorem buildBases_ownPower {power : Expr → Expr → Except Fault Expr} {fs : List Expr}
    (h : ∀ f ∈ fs, f.IsFactor ∧ power f.splitPower.1 f.splitPower.2 = .ok f) (q : Number)
    (gs : List Expr) : buildBases s power q gs (fs.map ownPower) = .ok (q, gs ++ fs) := by
  induction fs generalizing gs with
  | nil => simp [buildBases]
  | cons f fs ih =>
    rw [List.forall_mem_cons] at h
    obtain ⟨⟨⟨hnumber, hproduct⟩, hpower⟩, hrest⟩ := h
    have habsorb : absorb q gs f.factors = .ok (q, gs ++ [f]) := by
      cases f <;> simp_all [absorb, Expr.factors, isNumber, isProduct]
    have hnext := ih hrest (gs ++ [f])
    rw [List.map_cons, ownPower, buildBases, mergeExponents]
    simpa [hpower, habsorb] using hnext

theorem isExact_flatMap_factors {es : List Expr} (hes : ∀ e ∈ es, e.IsBuilt s) :
    ∀ f ∈ es.flatMap factors, f.IsExact := by
  intro f hf
  obtain ⟨e, he, hef⟩ := List.mem_flatMap.mp hf
  exact (hes e he).isExact.factors f hef

theorem isBuilt_otherFactors {es : List Expr} (hes : ∀ e ∈ es, e.IsBuilt s) :
    ∀ f ∈ otherFactors (es.flatMap factors), f.IsBuilt s ∧ f.IsFactor := by
  intro f hf
  obtain ⟨hmem, hnumber⟩ := mem_otherFactors.mp hf
  obtain ⟨e, he, hef⟩ := List.mem_flatMap.mp hmem
  exact (forall_mem_factors (hes e he) f hef).imp_right fun h => h hnumber

/-- The factors of operands of the right shape that are no literals are built again. -/
theorem buildPower_otherFactors {es : List Expr} (hes : ∀ e ∈ es, e.IsBuilt s) (fuel : Nat) :
    ∀ f ∈ otherFactors (es.flatMap factors), f.IsFactor ∧
      buildPower s (fuel + 1) f.splitPower.1 f.splitPower.2 = .ok f := fun f hf =>
  have ⟨hbuilt, hfactor⟩ := isBuilt_otherFactors hes f hf
  ⟨hfactor, buildPower_splitPower hbuilt hfactor fuel⟩

/-- A product without a base twice comes from its literals and its other factors. -/
theorem productResult_of_distinct {fuel : Nat} {es : List Expr} (hes : ∀ e ∈ es, e.IsBuilt s)
    (hdistinct : DistinctBases (otherFactors (es.flatMap factors))) {r : Expr}
    (h : buildProduct s (fuel + 2) es = .ok r) :
    literalProduct (es.flatMap factors) = 0 ∧ r = zero ∨
      ProductResult s (fuel + 1) (literalProduct (es.flatMap factors))
        (otherFactors (es.flatMap factors)) r := by
  have hcollect := collectFactors_distinct (isExact_flatMap_factors hes) hdistinct
  refine (buildProduct_eq_ok hcollect h).imp_right ?_
  rintro ⟨-, c, fs, hbases, hresult⟩
  rw [buildBases_ownPower (buildPower_otherFactors hes fuel)] at hbases
  obtain ⟨rfl, rfl⟩ := Prod.mk.inj (Except.ok.inj hbases)
  exact hresult _ rfl

/-- A product with a literal zero among its factors and no base twice. -/
theorem buildProduct_zero {es : List Expr} (hes : ∀ e ∈ es, e.IsBuilt s)
    (hdistinct : DistinctBases (otherFactors (es.flatMap factors)))
    (hzero : literalProduct (es.flatMap factors) = 0) (fuel : Nat) :
    buildProduct s (fuel + 1) es = .ok zero := by
  have h1 : Number.ofInt 1 = .exact 1 := by simp [Number.ofInt]
  rw [buildProduct, h1, collectFactors_distinct (isExact_flatMap_factors hes) hdistinct, hzero,
    ok_bind]
  simp [zero]

/-- A product is what the powers of its bases make of its coefficient, sorted. -/
theorem buildProduct_of_buildBases {fuel : Nat} {es fs gs : List Expr} {q r : Rat}
    {bs : List (Expr × List Expr)}
    (hcollect : collectFactors (.exact 1) [] (es.flatMap factors) = .ok (.exact q, bs))
    (hq : q ≠ 0)
    (hbases : buildBases s (buildPower s fuel) (.exact q) [] bs = .ok (.exact r, fs))
    (hr : r ≠ 0) (hsort : sortFactors s fs = .ok gs)
    (hsign : ∀ ts, ¬(r = -1 ∧ gs = [sum ts])) :
    buildProduct s (fuel + 1) es = .ok (ofScaled r gs) := by
  have h1 : Number.ofInt 1 = .exact 1 := by simp [Number.ofInt]
  rw [buildProduct, h1, hcollect, ok_bind]
  simp only [Number.isZero_exact, hq, hr, decide_false, Bool.false_eq_true, ↓reduceIte, hbases,
    hsort, ok_bind]
  split
  next => rfl
  next ts =>
    have hne : r ≠ -1 := fun h => hsign ts ⟨h, rfl⟩
    simp [Number.isMinusOne_exact, hne, ofScaled]
  next hne _ =>
    unfold ofScaled
    split
    next => exact absurd rfl hne
    next => rfl

/-- A product of factors with different bases is its literals and its other factors, sorted. -/
theorem buildProduct_settled {es gs : List Expr} (hes : ∀ e ∈ es, e.IsBuilt s)
    (hdistinct : DistinctBases (otherFactors (es.flatMap factors)))
    (hsort : sortFactors s (otherFactors (es.flatMap factors)) = .ok gs)
    (hzero : literalProduct (es.flatMap factors) ≠ 0)
    (hsign : ∀ ts, ¬(literalProduct (es.flatMap factors) = -1 ∧ gs = [sum ts])) (fuel : Nat) :
    buildProduct s (fuel + 2) es = .ok (ofScaled (literalProduct (es.flatMap factors)) gs) :=
  buildProduct_of_buildBases (collectFactors_distinct (isExact_flatMap_factors hes) hdistinct) hzero
    (buildBases_ownPower (buildPower_otherFactors hes fuel) _ []) hzero hsort hsign

end

end AlgebraicForm
