import AlgebraicForm.Proofs.BuilderLaws
import AlgebraicForm.Proofs.Ordering
import AlgebraicForm.Proofs.Readable

/-!
# The shape of what a pass builds

Whatever a pass returns has the shape `IsBuilt`: the terms of a sum are a constant and scaled
bodies, all different and in order; the factors of a product are a coefficient and factors in order
that are neither literals nor products; no power can be decided by its literals or distributed;
negations and one-argument square roots are gone. The builders keep this shape of their operands, by
induction on the depth.

A sum of this shape may still hold a sum, and a product equal bases; a further pass takes care of
them.

* `normalPass_isBuilt`, `normalForm_isBuilt`: a pass and the normal form.
* `normalForm_isProper`: the normal form of a tree with names of the notation has such names, too.
* `normalForm_isReadable`: the normal form of a readable expression is readable.
-/

namespace AlgebraicForm

open AlgebraicForm.Expr

/-! ## Shapes -/

namespace Expr

/-- Neither a literal nor a product. -/
def IsFactor (e : Expr) : Prop :=
  e.isNumber = false ∧ e.isProduct = false

/-- A term that has no coefficient of its own. -/
def IsBody (e : Expr) : Prop :=
  e.splitCoefficient = (.ofInt 1, some e)

end Expr

/-- Different bodies with coefficients, in order. -/
structure BuiltTerms (gs : List (Expr × Rat)) : Prop where
  body : ∀ g ∈ gs, g.1.IsBody
  whole : ∀ g ∈ gs, ofFactors g.1.factors = g.1
  coefficient : ∀ g ∈ gs, g.2 ≠ 0
  distinct : (gs.map (·.1)).Nodup
  ordered : gs.Pairwise TermsInOrder

/-- Factors in order. -/
structure BuiltFactors (fs : List Expr) : Prop where
  factor : ∀ f ∈ fs, f.IsFactor
  ordered : fs.Pairwise FactorsInOrder

/-- The shape of a node. -/
def IsBuiltNode (s : Settings) : Expr → Prop
  | number (.exact _) | symbol _ => True
  | number (.approx _) | negation _ | hole => False
  | sum ts => 2 ≤ ts.length ∧ ∃ k gs, ts = constantTerm k ++ groupTerms gs ∧ BuiltTerms gs
  | product fs => 2 ≤ fs.length ∧ ∃ q gs, q ≠ 0 ∧ gs ≠ [] ∧ fs = coefficientFactor q ++ gs ∧
      BuiltFactors gs
  | power b p => (literalPower? s b p = none ∨ b = zero ∧ p = zero) ∧
      (p.isIntegerNumber = true → (∀ c e, b ≠ power c e) ∧ ∀ fs, b ≠ product fs)
  | call n es => n = "sqrt" → es.length ≠ 1

/-- The shape of what a pass returns. -/
def Expr.IsBuilt (s : Settings) (e : Expr) : Prop :=
  e.Every (IsBuiltNode s)

section

variable {s : Settings}

@[simp] theorem isBuilt_rat (q : Rat) : (rat q).IsBuilt s :=
  every_number.mpr trivial

theorem isBuilt_sum {ts : List Expr} : (sum ts).IsBuilt s ↔ (2 ≤ ts.length ∧
    ∃ k gs, ts = constantTerm k ++ groupTerms gs ∧ BuiltTerms gs) ∧ ∀ t ∈ ts, t.IsBuilt s :=
  every_sum

theorem isBuilt_product {fs : List Expr} : (product fs).IsBuilt s ↔ (2 ≤ fs.length ∧
    ∃ q gs, q ≠ 0 ∧ gs ≠ [] ∧ fs = coefficientFactor q ++ gs ∧ BuiltFactors gs) ∧
      ∀ f ∈ fs, f.IsBuilt s :=
  every_product

theorem isBuilt_power {b p : Expr} : (power b p).IsBuilt s ↔
    ((literalPower? s b p = none ∨ b = zero ∧ p = zero) ∧
      (p.isIntegerNumber = true → (∀ c e, b ≠ power c e) ∧ ∀ fs, b ≠ product fs)) ∧
      b.IsBuilt s ∧ p.IsBuilt s :=
  every_power

theorem isBuilt_call {n : String} {es : List Expr} : (call n es).IsBuilt s ↔
    (n = "sqrt" → es.length ≠ 1) ∧ ∀ e ∈ es, e.IsBuilt s :=
  every_call

theorem not_isBuilt_negation {e : Expr} : ¬(negation e).IsBuilt s :=
  fun h => (every_negation.mp h).1

theorem Expr.IsBuilt.isExact {e : Expr} (h : e.IsBuilt s) : e.IsExact := by
  refine h.mono fun d hd => ?_
  cases d with
  | number v => cases v <;> simp_all [IsBuiltNode, IsExactNode]
  | hole => simp [IsBuiltNode] at hd
  | _ => trivial

/-! ## Factors -/

theorem withCoefficient_eq {q : Rat} {fs : List Expr} (hfs : fs ≠ []) :
    withCoefficient (.exact q) fs = ofFactors (coefficientFactor q ++ fs) := by
  unfold withCoefficient coefficientFactor
  rw [Number.isOne_exact]
  by_cases hq : q = 1
  · simp [hq]
  · obtain ⟨f, fs, rfl⟩ := List.exists_cons_of_ne_nil hfs
    simp [hq, ofFactors]

theorem Expr.IsBuilt.ofFactors_factors {e : Expr} (h : e.IsBuilt s) : ofFactors e.factors = e := by
  cases e with
  | product fs =>
    obtain ⟨⟨hlen, -⟩, -⟩ := isBuilt_product.mp h
    match fs, hlen with
    | _ :: _ :: _, _ => rfl
  | _ => rfl

/-- Factors in order, with a coefficient in front, are a product of the right shape. -/
theorem withCoefficient_isBuilt {q : Rat} {fs : List Expr} (hq : q ≠ 0) (hne : fs ≠ [])
    (hfs : BuiltFactors fs) (hbuilt : ∀ f ∈ fs, f.IsBuilt s) :
    (withCoefficient (.exact q) fs).IsBuilt s := by
  rw [withCoefficient_eq hne]
  unfold ofFactors
  split
  next e heq =>
    have hmem : e ∈ fs := by
      have hlast := congrArg List.getLast? heq
      rw [List.getLast?_append_of_ne_nil _ hne] at hlast
      exact List.mem_of_getLast? hlast
    exact hbuilt e hmem
  next hsingle =>
    refine isBuilt_product.mpr ⟨⟨?_, q, fs, hq, hne, rfl, hfs⟩, ?_⟩
    · match h : coefficientFactor q ++ fs with
      | [] => simp [hne] at h
      | [e] => exact absurd h (hsingle e)
      | _ :: _ :: _ => simp
    · rw [List.forall_mem_append]
      refine ⟨?_, hbuilt⟩
      unfold coefficientFactor
      split <;> simp

/-- The factors of a product of the right shape other than its coefficient. -/
theorem forall_mem_factors {e : Expr} (h : e.IsBuilt s) :
    ∀ f ∈ e.factors, f.IsBuilt s ∧ (f.isNumber = false → f.IsFactor) := by
  cases e with
  | product fs =>
    obtain ⟨⟨-, q, gs, -, -, rfl, hgs⟩, hfs⟩ := isBuilt_product.mp h
    refine fun f hf => ⟨hfs f hf, fun hnumber => ?_⟩
    obtain hf | hf := List.mem_append.mp hf
    · unfold coefficientFactor at hf
      split at hf
      · simp at hf
      · rw [List.mem_singleton.mp hf] at hnumber
        simp [isNumber] at hnumber
    · exact hgs.factor f hf
  | _ => simpa [Expr.factors, IsFactor, isProduct] using h

/-! ## Bodies -/

theorem Expr.IsFactor.isBody {e : Expr} (h : e.IsFactor) : e.IsBody := by
  obtain ⟨hnumber, hproduct⟩ := h
  cases e <;> simp_all [isNumber, isProduct, IsBody, splitCoefficient]

theorem isBody_ofFactors {fs : List Expr} (hne : fs ≠ []) (h : ∀ f ∈ fs, f.IsFactor) :
    (ofFactors fs).IsBody := by
  obtain ⟨f, fs, rfl⟩ := List.exists_cons_of_ne_nil hne
  have hf := h f (by simp)
  unfold ofFactors
  split
  next heq =>
    obtain rfl := (List.cons.inj heq).1
    exact hf.isBody
  next =>
    obtain ⟨hnumber, -⟩ := hf
    cases f <;> simp_all [isNumber, IsBody, splitCoefficient]

theorem isBody_of_splitCoefficient {t body : Expr} {c : Number} (h : t.IsBuilt s)
    (hsplit : t.splitCoefficient = (c, some body)) : body.IsBuilt s ∧ body.IsBody := by
  obtain ⟨rest, rfl, rfl⟩ | ⟨rfl, rfl⟩ := splitCoefficient_eq_some hsplit
  · obtain ⟨⟨hlen, q, gs, hq, hne, heq, hgs⟩, hbuilt⟩ := isBuilt_product.mp h
    -- the literal in front is the coefficient, as a factor is no literal
    obtain rfl : rest = gs := by
      unfold coefficientFactor at heq
      split at heq
      next =>
        have hmem : number c ∈ gs := by
          rw [← List.nil_append gs, ← heq]
          exact List.mem_cons_self
        have hfactor := hgs.factor (number c) hmem
        simp [IsFactor, isNumber] at hfactor
      next => exact (List.cons.inj heq).2
    refine ⟨?_, isBody_ofFactors hne hgs.factor⟩
    have hone : ofFactors rest = withCoefficient (.exact 1) rest := by
      simp [withCoefficient_eq hne, coefficientFactor]
    rw [hone]
    exact withCoefficient_isBuilt one_ne_zero hne hgs fun f hf => hbuilt f (by simp [hf])
  · exact ⟨h, hsplit⟩

/-- A body has its factors in order. -/
theorem builtFactors_of_isBody {e : Expr} (h : e.IsBuilt s) (hbody : e.IsBody) :
    e.factors ≠ [] ∧ BuiltFactors e.factors := by
  cases e with
  | product fs =>
    obtain ⟨⟨hlen, q, gs, -, hne, rfl, hgs⟩, -⟩ := isBuilt_product.mp h
    have hone : q = 1 := by
      by_contra hq
      simp [IsBody, splitCoefficient, coefficientFactor, Number.ofInt, hq] at hbody
    subst hone
    exact ⟨hne, hgs⟩
  | number v => simp [IsBody, splitCoefficient] at hbody
  | _ => exact ⟨by simp [Expr.factors], by simp [Expr.factors, IsFactor, isNumber, isProduct],
      by simp [Expr.factors]⟩

/-- A scaled body is a body or a product with its coefficient in front. -/
theorem scale_eq {q : Rat} {body : Expr} (hbody : body.IsBuilt s) :
    scale (.exact q) body = withCoefficient (.exact q) body.factors := by
  unfold scale withCoefficient
  split
  · exact hbody.ofFactors_factors.symm
  · rfl

theorem scale_isBuilt {q : Rat} {body : Expr} (hq : q ≠ 0) (h : body.IsBuilt s)
    (hbody : body.IsBody) : (scale (.exact q) body).IsBuilt s := by
  obtain ⟨hne, hfactors⟩ := builtFactors_of_isBody h hbody
  rw [scale_eq h]
  exact withCoefficient_isBuilt hq hne hfactors fun f hf => (forall_mem_factors h f hf).1

/-! ## Sums -/

/-- Terms of the right shape are collected into different bodies. -/
theorem collectTerms_isBuilt {ts : List Expr} (hts : ∀ t ∈ ts, t.IsBuilt s) :
    ∃ (k : Rat) (gs : List (Expr × Rat)),
      collectTerms (.exact 0) [] ts = .ok (.exact k, exactGroups gs) ∧
      (∀ g ∈ gs, g.1.IsBuilt s ∧ g.1.IsBody) ∧ (gs.map (·.1)).Nodup := by
  obtain ⟨k, gs, hcollect, -, hgs, hdistinct, -⟩ := collectTerms_invariant
    (I := fun _ (gs : List (Expr × Rat)) ts =>
      (∀ g ∈ gs, g.1.IsBuilt s ∧ g.1.IsBody) ∧ (gs.map fun g : Expr × Rat => g.1).Nodup ∧
      ∀ t ∈ ts, t.IsBuilt s)
    (fun k gs a ts ⟨hgs, hdistinct, hts⟩ => ⟨hgs, hdistinct, (List.forall_mem_cons.mp hts).2⟩)
    (fun k pre body d post t c ts _ ⟨hgs, hdistinct, hts⟩ => by
      refine ⟨?_, by simpa using hdistinct, (List.forall_mem_cons.mp hts).2⟩
      simpa [or_imp, forall_and] using hgs)
    (fun k gs body t c ts hsplit hnew ⟨hgs, hdistinct, hts⟩ => by
      rw [List.forall_mem_cons] at hts
      refine ⟨?_, ?_, hts.2⟩
      · rw [List.forall_mem_append, List.forall_mem_singleton]
        exact ⟨hgs, isBody_of_splitCoefficient hts.1 hsplit⟩
      · rw [List.map_append, List.nodup_append]
        refine ⟨hdistinct, by simp, ?_⟩
        simpa using fun e c hmem => hnew (e, c) hmem)
    (k := 0) (List.forall_mem_nil fun g : Expr × Rat => g.1.IsExact)
    (fun t ht => (hts t ht).isExact)
    ⟨by simp, by simp, hts⟩
  exact ⟨k, gs, hcollect, hgs, hdistinct⟩

theorem forall_mem_terms {e : Expr} (h : e.IsBuilt s) : ∀ t ∈ e.terms, t.IsBuilt s := by
  cases e with
  | sum ts => exact (isBuilt_sum.mp h).2
  | _ => exact List.forall_mem_singleton.mpr h

/-- Collected terms whose coefficients are not zero, in order. -/
theorem exists_builtTerms {gs : List (Expr × Rat)} {ks : List ((List Char × Number) × Expr)}
    (hgs : ∀ g ∈ gs, g.1.IsBuilt s ∧ g.1.IsBody) (hdistinct : (gs.map (·.1)).Nodup)
    (hks : keyedTerms s (exactGroups gs) = .ok ks) : ∃ hs : List (Expr × Rat), BuiltTerms hs ∧
      hs.Perm (gs.filter (·.2 ≠ 0)) ∧ sortedTerms ks = groupTerms hs := by
  obtain ⟨hs, hperm, hordered, hsorted⟩ := keyedTerms_sorted hks
  have hmem : ∀ g ∈ hs, g ∈ gs ∧ g.2 ≠ 0 := by
    intro g hg
    simpa using hperm.mem_iff.mp hg
  refine ⟨hs, ⟨fun g hg => (hgs g (hmem g hg).1).2, fun g hg => ?_, fun g hg => (hmem g hg).2, ?_,
    hordered⟩, hperm, hsorted⟩
  · exact (hgs g (hmem g hg).1).1.ofFactors_factors
  · exact (hperm.map _).nodup_iff.mpr (hdistinct.sublist (List.filter_sublist.map _))

theorem buildSum_isBuilt {es : List Expr} (hes : ∀ e ∈ es, e.IsBuilt s) {r : Expr}
    (h : buildSum s es = .ok r) : r.IsBuilt s := by
  have hterms : ∀ t ∈ es.flatMap terms, t.IsBuilt s := by
    intro t ht
    obtain ⟨e, he, het⟩ := List.mem_flatMap.mp ht
    exact forall_mem_terms (hes e he) t het
  obtain ⟨k, gs, hcollect, hgs, hdistinct⟩ := collectTerms_isBuilt hterms
  obtain ⟨ks, hks, rfl⟩ := (buildSum_eq_ok hcollect).mp h
  obtain ⟨hs, hbuilt, hperm, hsorted⟩ := exists_builtTerms hgs hdistinct hks
  have hall : ∀ t ∈ constantTerm k ++ sortedTerms ks, t.IsBuilt s := by
    rw [hsorted, groupTerms, List.forall_mem_append, List.forall_mem_map]
    refine ⟨?_, fun g hg => ?_⟩
    · unfold constantTerm
      split <;> simp
    · have hmem : g ∈ gs ∧ g.2 ≠ 0 := by simpa using hperm.mem_iff.mp hg
      exact scale_isBuilt hmem.2 (hgs g hmem.1).1 (hgs g hmem.1).2
  unfold ofSortedTerms
  split
  next => exact isBuilt_rat 0
  next heq => exact hall _ (by simp [heq])
  next hnil hsingle =>
    refine isBuilt_sum.mpr ⟨⟨?_, k, hs, by rw [hsorted], hbuilt⟩, hall⟩
    match hlist : constantTerm k ++ sortedTerms ks with
    | [] => exact absurd hlist hnil
    | [e] => exact absurd hlist (hsingle e)
    | _ :: _ :: _ => simp

/-! ## Products and powers -/

theorem mergeExponents_isBuilt {es : List Expr} (hes : ∀ e ∈ es, e.IsBuilt s) {e : Expr}
    (h : mergeExponents s es = .ok e) : e.IsBuilt s := by
  unfold mergeExponents at h
  split at h
  next d =>
    obtain rfl : d = e := by simpa using h
    exact hes d (by simp)
  next => exact buildSum_isBuilt hes h

/-- The base and the exponent of a factor keep the shape. -/
theorem splitPower_isBuilt {f : Expr} (hf : f.IsBuilt s) :
    f.splitPower.1.IsBuilt s ∧ f.splitPower.2.IsBuilt s := by
  cases f with
  | power b p => exact (isBuilt_power.mp hf).2
  | _ => exact ⟨hf, isBuilt_rat 1⟩

theorem collectFactors_isBuilt {fs : List Expr} (hfs : ∀ f ∈ fs, f.IsBuilt s) :
    ∃ (q : Rat) (bs : List (Expr × List Expr)),
      collectFactors (.exact 1) [] fs = .ok (.exact q, bs) ∧
      ∀ g ∈ bs, g.1.IsBuilt s ∧ ∀ e ∈ g.2, e.IsBuilt s := by
  have hsplit : ∀ {f b e : Expr}, f.IsBuilt s → f.splitPower = (b, e) →
      b.IsBuilt s ∧ e.IsBuilt s := by
    intro f b e hf hsplit
    obtain ⟨rfl, rfl⟩ := Prod.mk.inj hsplit
    exact splitPower_isBuilt hf
  obtain ⟨q, bs, hcollect, -, hbs, -⟩ := collectFactors_invariant
    (I := fun _ bs fs => (∀ g ∈ bs, g.1.IsBuilt s ∧ ∀ e ∈ g.2, e.IsBuilt s) ∧
      ∀ f ∈ fs, f.IsBuilt s)
    (fun q bs a fs ⟨hbs, hfs⟩ => ⟨hbs, (List.forall_mem_cons.mp hfs).2⟩)
    (fun q pre b es post f e fs _ hf ⟨hbs, hfs⟩ => by
      rw [List.forall_mem_cons] at hfs
      refine ⟨?_, hfs.2⟩
      simp only [List.forall_mem_append, List.forall_mem_cons] at hbs ⊢
      exact ⟨hbs.1, ⟨hbs.2.1.1, hbs.2.1.2, (hsplit hfs.1 hf).2, by simp⟩, hbs.2.2⟩)
    (fun q bs b f e fs _ hf _ ⟨hbs, hfs⟩ => by
      rw [List.forall_mem_cons] at hfs
      refine ⟨?_, hfs.2⟩
      rw [List.forall_mem_append, List.forall_mem_singleton, List.forall_mem_singleton]
      exact ⟨hbs, hsplit hfs.1 hf⟩)
    (q := 1) (List.forall_mem_nil fun g : Expr × List Expr => g.1.IsExact ∧ ∀ e ∈ g.2, e.IsExact)
    (fun f hf => (hfs f hf).isExact) ⟨by simp, hfs⟩
  exact ⟨q, bs, hcollect, hbs⟩

/-- What a product comes to, if the builders below keep the shape. -/
theorem ProductResult.isBuilt {fuel : Nat} {q : Rat} {fs : List Expr} {r : Expr}
    (h : ProductResult s fuel q fs r) (hfs : ∀ f ∈ fs, f.IsBuilt s ∧ f.IsFactor)
    (hproduct : ∀ {es : List Expr} {r : Expr}, (∀ e ∈ es, e.IsBuilt s) →
      buildProduct s fuel es = .ok r → r.IsBuilt s) : r.IsBuilt s := by
  cases h with
  | zero => exact isBuilt_rat 0
  | literal => exact isBuilt_rat q
  | @negated ts us _ _ hsum hus hr =>
    subst hsum
    have hts := (isBuilt_sum.mp (hfs (sum ts) (by simp)).1).2
    refine buildSum_isBuilt (fun u hu => ?_) hr
    obtain ⟨t, ht, htu⟩ := exists_mem_of_forall₂ hus hu
    exact hproduct (by simp [minusOne, hts t ht]) htu
  | @plain gs hq hsort hne _ =>
    have hmem : ∀ g ∈ gs, g ∈ fs := fun g hg => (sortFactors_perm hsort).mem_iff.mp hg
    exact withCoefficient_isBuilt hq hne
      ⟨fun g hg => (hfs g (hmem g hg)).2, sortFactors_pairwise hsort⟩
      fun g hg => (hfs g (hmem g hg)).1

/-- What a power comes to, if the builders below keep the shape. -/
theorem PowerResult.isBuilt {fuel : Nat} {b p r : Expr} (h : PowerResult s fuel b p r)
    (hb : b.IsBuilt s) (hp : p.IsBuilt s)
    (hproduct : ∀ {es : List Expr} {r : Expr}, (∀ e ∈ es, e.IsBuilt s) →
      buildProduct s fuel es = .ok r → r.IsBuilt s)
    (hpower : ∀ {b p r : Expr}, b.IsBuilt s → p.IsBuilt s →
      buildPower s fuel b p = .ok r → r.IsBuilt s) : r.IsBuilt s := by
  cases h with
  | literal h =>
    cases h with
    | zero_zero =>
      refine isBuilt_power.mpr ⟨⟨.inr ⟨rfl, rfl⟩, fun _ => ⟨?_, ?_⟩⟩, hb, hp⟩ <;> simp [zero]
    | power_zero => exact isBuilt_rat 1
    | power_one => exact hb
    | one_power => exact isBuilt_rat 1
    | zero_power => exact isBuilt_rat 0
    | fold => exact isBuilt_rat _
  | nested k _ hq hr =>
    obtain ⟨-, hc, he⟩ := isBuilt_power.mp hb
    exact hpower hc (hproduct (by simp [he]) hq) hr
  | distributed k _ hgs hr =>
    obtain ⟨-, hfs⟩ := isBuilt_product.mp hb
    refine hproduct (fun g hg => ?_) hr
    obtain ⟨f, hf, hfg⟩ := exists_mem_of_forall₂ hgs hg
    exact hpower (hfs f hf) (isBuilt_rat k) hfg
  | plain hnone hwhole => exact isBuilt_power.mpr ⟨⟨.inl hnone, hwhole⟩, hb, hp⟩

/-- The builders of products and powers keep the shape, by induction on the depth. -/
theorem builders_isBuilt (s : Settings) (fuel : Nat) :
    (∀ {es : List Expr} {r : Expr}, (∀ e ∈ es, e.IsBuilt s) →
      buildProduct s fuel es = .ok r → r.IsBuilt s) ∧
    (∀ {b p r : Expr}, b.IsBuilt s → p.IsBuilt s →
      buildPower s fuel b p = .ok r → r.IsBuilt s) := by
  induction fuel with
  | zero =>
    refine ⟨fun _ h => ?_, fun _ _ h => ?_⟩
    · simp [buildProduct] at h
    · unfold buildPower at h
      simp at h
  | succ fuel ih =>
    obtain ⟨hproduct, hpower⟩ := ih
    refine ⟨fun {es r} hes h => ?_, fun hb hp h => ?_⟩
    · have hfactors : ∀ f ∈ es.flatMap factors, f.IsBuilt s := by
        intro f hf
        obtain ⟨e, he, hef⟩ := List.mem_flatMap.mp hf
        exact (forall_mem_factors (hes e he) f hef).1
      obtain ⟨q, bs, hcollect, hbs⟩ := collectFactors_isBuilt hfactors
      obtain ⟨-, rfl⟩ | ⟨-, c, fs, hbases, hresult⟩ := buildProduct_eq_ok hcollect h
      · exact isBuilt_rat 0
      · have hpowers : ∀ g ∈ bs, ∀ e p, mergeExponents s g.2 = .ok e →
            buildPower s fuel g.1 e = .ok p → p.IsBuilt s := fun g hg e p he hp =>
          hpower (hbs g hg).1 (mergeExponents_isBuilt (hbs g hg).2 he) hp
        obtain ⟨q', fs', heq, -, hfs⟩ := buildBases_invariant
          (J := fun _ fs rest => (∀ g ∈ rest, g ∈ bs) ∧ ∀ f ∈ fs, f.IsBuilt s ∧ f.IsFactor)
          (fun q fs b es rest e p he hp hinv => by
            obtain ⟨hrest, hfs⟩ := hinv
            rw [List.forall_mem_cons] at hrest
            have hbuilt := forall_mem_factors (hpowers _ hrest.1 e p he hp)
            refine ⟨hrest.2, List.forall_mem_append.mpr ⟨hfs, fun f hf => ?_⟩⟩
            simp only [List.mem_filter, Bool.not_eq_true'] at hf
            exact ⟨(hbuilt f hf.1).1, (hbuilt f hf.1).2 hf.2⟩)
          (fun g hg e p he hp => (hpowers g hg e p he hp).isExact)
          hbases ⟨fun g hg => hg, by simp⟩
        obtain ⟨rfl, rfl⟩ := Prod.mk.inj heq
        exact (hresult q' rfl).isBuilt hfs hproduct
    · exact (buildPower_eq_ok hb.isExact hp.isExact h).isBuilt hb hp hproduct hpower

/-! ## Passes -/

/-- What a pass returns has the right shape. -/
theorem normalPass_isBuilt {e c : Expr} (he : e.IsExact) (h : normalPass s e = .ok c) :
    c.IsBuilt s := by
  have hproduct : ∀ {es r}, (∀ e ∈ es, e.IsBuilt s) → s.product es = .ok r → r.IsBuilt s :=
    fun hes hr => (builders_isBuilt s _).1 hes hr
  have hpower : ∀ {b p r}, b.IsBuilt s → p.IsBuilt s → s.power b p = .ok r → r.IsBuilt s :=
    fun hb hp hr => (builders_isBuilt s _).2 hb hp hr
  have hall : ∀ {es cs : List Expr},
      (∀ e ∈ es, ∀ {c}, e.IsExact → normalPass s e = .ok c → c.IsBuilt s) →
      (∀ e ∈ es, e.IsExact) → normalPassAll s es = .ok cs → ∀ c ∈ cs, c.IsBuilt s := by
    intro es cs ih hes hcs c hc
    obtain ⟨e, he, hec⟩ := exists_mem_of_forall₂ (normalPassAll_eq_ok_iff.mp hcs) hc
    exact ih e he (hes e he) hec
  induction e generalizing c with
  | number v =>
    obtain ⟨q, rfl⟩ := he.exists_rat
    rw [normalPass] at h
    obtain rfl : rat q = c := by simpa using h
    exact isBuilt_rat q
  | symbol n =>
    rw [normalPass] at h
    obtain rfl : symbol n = c := by simpa using h
    simp [IsBuilt, IsBuiltNode]
  | sum ts ih =>
    rw [normalPass] at h
    obtain ⟨cs, hcs, h⟩ := bind_eq_ok_iff.mp h
    exact buildSum_isBuilt (hall ih (isExact_sum.mp he) hcs) h
  | product fs ih =>
    rw [normalPass] at h
    obtain ⟨cs, hcs, h⟩ := bind_eq_ok_iff.mp h
    exact hproduct (hall ih (isExact_product.mp he) hcs) h
  | power b p ihb ihp =>
    rw [isExact_power] at he
    rw [normalPass] at h
    obtain ⟨base, hb, h⟩ := bind_eq_ok_iff.mp h
    obtain ⟨exponent, hp, h⟩ := bind_eq_ok_iff.mp h
    exact hpower (ihb he.1 hb) (ihp he.2 hp) h
  | negation e ih =>
    rw [isExact_negation] at he
    rw [normalPass] at h
    obtain ⟨d, hd, h⟩ := bind_eq_ok_iff.mp h
    have hbuilt := ih he hd
    split at h
    next v =>
      obtain ⟨q, rfl⟩ := hbuilt.isExact.exists_rat
      obtain rfl : rat (-q) = c := by simpa using h
      exact isBuilt_rat (-q)
    next => exact hproduct (by simp [minusOne, hbuilt]) h
  | call n es ih =>
    rw [normalPass] at h
    obtain ⟨cs, hcs, h⟩ := bind_eq_ok_iff.mp h
    have hbuilt := hall ih (isExact_call.mp he) hcs
    split at h
    next d =>
      split at h
      next =>
        rw [Number.half_eq] at h
        exact hpower (hbuilt d (by simp)) (isBuilt_rat _) h
      next hname =>
        obtain rfl : call n [d] = c := by simpa using h
        exact isBuilt_call.mpr ⟨fun h => absurd h hname, hbuilt⟩
    next hsingle =>
      obtain rfl : call n cs = c := by simpa using h
      refine isBuilt_call.mpr ⟨fun _ hlen => ?_, hbuilt⟩
      obtain ⟨d, rfl⟩ := List.length_eq_one_iff.mp hlen
      exact hsingle d rfl
  | hole => simp at he

/-- The normal form has the right shape. -/
theorem normalForm_isBuilt {e c : Expr} (he : e.IsExact) (h : normalForm s e = .ok c) :
    c.IsBuilt s :=
  normalForm_induction (motive := fun e c => e.IsExact → c.IsBuilt s)
    (fun hpass _ he => normalPass_isBuilt he hpass)
    (fun hpass ih he => ih ((normalPass_rewrites he hpass).isExact he)) h he

end

/-! ## Names -/

/-- The names in this node are names of the notation, and the literals are fractions. -/
def IsNamedNode : Expr → Prop
  | number (.approx _) | hole => False
  | symbol n => IsIdentifier n
  | call n _ => n ∈ Settings.standardFunctions
  | _ => True

/-- A function in this node has arguments. -/
def HasArguments : Expr → Prop
  | call _ es => es ≠ []
  | _ => True

/-- No law makes a name. -/
theorem leafProperty_isNamedNode : LeafProperty IsNamedNode where
  rat _ := trivial
  sum _ := trivial
  product _ := trivial
  power _ _ := trivial
  negation _ := trivial
  call _ h := h

/-- No law leaves out arguments. -/
theorem leafProperty_hasArguments : LeafProperty HasArguments where
  rat _ := trivial
  sum _ := trivial
  product _ := trivial
  power _ _ := trivial
  negation _ := trivial
  call hlen h hnil := by
    rw [hnil] at hlen
    exact h (List.length_eq_zero_iff.mp hlen)

/-- Where all names are names of the notation, the literals are fractions. -/
theorem IsNamedNode.isExactNode {d : Expr} (h : IsNamedNode d) : IsExactNode d := by
  cases d with
  | number v =>
    cases v with
    | exact q => trivial
    | approx x => exact h.elim
  | hole => exact h.elim
  | _ => trivial

@[inherit_doc IsNamedNode.isExactNode]
theorem Expr.isExact_of_named {e : Expr} (h : e.Every IsNamedNode) : e.IsExact :=
  h.mono fun _ hd => hd.isExactNode

theorem Expr.IsPrintable.named {e : Expr} (h : e.IsPrintable) : e.Every IsNamedNode := by
  refine h.mono fun d hd => ?_
  cases d with
  | number v => cases v <;> simp_all [IsReadableNode, IsNamedNode]
  | hole => simp [IsReadableNode] at hd
  | symbol n => exact hd
  | call n es => exact hd.1
  | _ => trivial

theorem Expr.IsReadable.named {e : Expr} (h : e.IsReadable) : e.Every IsNamedNode :=
  h.printable.named

theorem Expr.IsReadable.hasArguments {e : Expr} (h : e.IsReadable) : e.Every HasArguments := by
  refine h.mono fun d hd => ?_
  cases d with
  | call n es => exact hd.2
  | _ => trivial

/-- The names in this node are names of the dialect, and functions have the arguments that they need
there. -/
def HasNamesOf (D : Dialect) : Expr → Prop
  | symbol n => D.symbol n
  | call n es => D.function n ∧ (es = [] → D.bare)
  | _ => True

/-- No law makes a name of any dialect. -/
theorem leafProperty_hasNamesOf (D : Dialect) : LeafProperty (HasNamesOf D) where
  rat _ := trivial
  sum _ := trivial
  product _ := trivial
  power _ _ := trivial
  negation _ := trivial
  call hlen h := by
    refine ⟨h.1, fun hnil => h.2 ?_⟩
    rw [hnil] at hlen
    exact List.length_eq_zero_iff.mp hlen

theorem Expr.IsReadableIn.names {D : Dialect} {e : Expr} (h : e.IsReadableIn D) :
    e.Every (HasNamesOf D) := by
  refine h.mono fun d hd => ?_
  cases d with
  | symbol n => exact hd
  | call n es => exact hd
  | _ => trivial

/-- With names of the dialect, what a pass returns is readable, if roots may be written. -/
theorem Expr.IsBuilt.isReadableIn {s : Settings} {D : Dialect} (hroots : D.roots) {e : Expr}
    (h : e.IsBuilt s) (hexact : e.IsExact) (hnames : e.Every (HasNamesOf D)) :
    e.IsReadableIn D := by
  intro d hd
  have hshape := h d hd
  have hexactd := hexact d hd
  have hname := hnames d hd
  cases d with
  | number v => cases v <;> simp_all [IsReadableNode, IsExactNode]
  | symbol n => exact hname
  | call n es => exact hname
  | sum ts | product ts =>
    show ts ≠ []
    rintro rfl
    simp [IsBuiltNode] at hshape
  | power => exact fun _ => hroots
  | negation => trivial
  | hole => simp [IsExactNode] at hexactd

/-- With names of the notation, what a pass returns has a text. -/
theorem Expr.IsBuilt.isPrintable {s : Settings} {e : Expr} (h : e.IsBuilt s)
    (hnamed : e.Every IsNamedNode) : e.IsPrintable := by
  refine h.isReadableIn (show "sqrt" ∈ Settings.standardFunctions by decide)
    (isExact_of_named hnamed) (hnamed.mono fun d hd => ?_)
  cases d with
  | symbol n => exact hd
  | call n es => exact ⟨hd, fun _ => trivial⟩
  | _ => trivial

/-- If functions have arguments as well, it can be read back. -/
theorem Expr.IsBuilt.isReadable {s : Settings} {e : Expr} (h : e.IsBuilt s)
    (hnamed : e.Every IsNamedNode) (harguments : e.Every HasArguments) : e.IsReadable := by
  refine h.isReadableIn (show "sqrt" ∈ Settings.standardFunctions by decide)
    (isExact_of_named hnamed) fun d hd => ?_
  cases d with
  | symbol n => exact hnamed _ hd
  | call n es => exact ⟨hnamed _ hd, harguments _ hd⟩
  | _ => trivial

/-- A tree of the shape that a pass returns, with names of the notation. -/
structure Expr.IsProper (s : Settings) (e : Expr) : Prop where
  built : e.IsBuilt s
  named : e.Every IsNamedNode

/-- The limit for digits is no matter for the shape. -/
theorem isProper_within {s : Settings} {e : Expr} (limit : DigitLimit) :
    e.IsProper (s.within limit) ↔ e.IsProper s :=
  ⟨fun h => ⟨h.built, h.named⟩, fun h => ⟨h.built, h.named⟩⟩

section

variable {s : Settings}

@[simp] theorem isProper_rat (q : Rat) : (rat q).IsProper s :=
  ⟨isBuilt_rat q, every_number.mpr trivial⟩

namespace Expr.IsProper

variable {e : Expr}

theorem isExact (h : e.IsProper s) : e.IsExact :=
  h.built.isExact

theorem isPrintable (h : e.IsProper s) : e.IsPrintable :=
  h.built.isPrintable h.named

theorem of_mem_sum {ts : List Expr} (h : (sum ts).IsProper s) : ∀ t ∈ ts, t.IsProper s :=
  fun t ht => ⟨(isBuilt_sum.mp h.built).2 t ht, (every_sum.mp h.named).2 t ht⟩

theorem of_mem_product {fs : List Expr} (h : (product fs).IsProper s) : ∀ f ∈ fs, f.IsProper s :=
  fun f hf => ⟨(isBuilt_product.mp h.built).2 f hf, (every_product.mp h.named).2 f hf⟩

theorem of_power {b p : Expr} (h : (power b p).IsProper s) : b.IsProper s ∧ p.IsProper s :=
  have hbuilt := (isBuilt_power.mp h.built).2
  have hnamed := (every_power.mp h.named).2
  ⟨⟨hbuilt.1, hnamed.1⟩, ⟨hbuilt.2, hnamed.2⟩⟩

theorem splitPower (h : e.IsProper s) : e.splitPower.1.IsProper s ∧ e.splitPower.2.IsProper s := by
  cases e with
  | power b p => exact h.of_power
  | _ => exact ⟨h, isProper_rat 1⟩

theorem terms (h : e.IsProper s) : ∀ t ∈ e.terms, t.IsProper s := by
  cases e with
  | sum ts => exact h.of_mem_sum
  | _ => exact List.forall_mem_singleton.mpr h

theorem factors (h : e.IsProper s) : ∀ f ∈ e.factors, f.IsProper s := by
  cases e with
  | product fs => exact h.of_mem_product
  | _ => exact List.forall_mem_singleton.mpr h

end Expr.IsProper

theorem buildSum_isProper {es : List Expr} {r : Expr} (hes : ∀ e ∈ es, e.IsProper s)
    (h : buildSum s es = .ok r) : r.IsProper s :=
  ⟨buildSum_isBuilt (fun e he => (hes e he).built) h,
    (buildSum_rewrites (fun e he => (hes e he).isExact) h).every leafProperty_isNamedNode
      (leafProperty_isNamedNode.every_sum_iff.mpr fun e he => (hes e he).named)⟩

theorem buildProduct_isProper {fuel : Nat} {es : List Expr} {r : Expr}
    (hes : ∀ e ∈ es, e.IsProper s) (h : buildProduct s fuel es = .ok r) : r.IsProper s :=
  ⟨(builders_isBuilt s fuel).1 (fun e he => (hes e he).built) h,
    (buildProduct_rewrites (fun e he => (hes e he).isExact) h).every leafProperty_isNamedNode
      (leafProperty_isNamedNode.every_product_iff.mpr fun e he => (hes e he).named)⟩

theorem buildPower_isProper {fuel : Nat} {b p r : Expr} (hb : b.IsProper s) (hp : p.IsProper s)
    (h : buildPower s fuel b p = .ok r) : r.IsProper s :=
  ⟨(builders_isBuilt s fuel).2 hb.built hp.built h,
    (buildPower_rewrites hb.isExact hp.isExact h).every leafProperty_isNamedNode
      (leafProperty_isNamedNode.every_power_iff.mpr ⟨hb.named, hp.named⟩)⟩

theorem normalPass_isProper {e c : Expr} (he : e.Every IsNamedNode)
    (h : normalPass s e = .ok c) : c.IsProper s :=
  have hexact := isExact_of_named he
  ⟨normalPass_isBuilt hexact h, (normalPass_rewrites hexact h).every leafProperty_isNamedNode he⟩

theorem normalForm_isProper {e c : Expr} (he : e.Every IsNamedNode)
    (h : normalForm s e = .ok c) : c.IsProper s :=
  have hexact := isExact_of_named he
  ⟨normalForm_isBuilt hexact h, (normalForm_rewrites hexact h).every leafProperty_isNamedNode he⟩

end

/-- The normal form of a readable expression is readable, if roots may be written. -/
theorem normalForm_isReadableIn {s : Settings} {D : Dialect} (hroots : D.roots) {e c : Expr}
    (he : e.IsReadableIn D) (h : normalForm s e = .ok c) : c.IsReadableIn D := by
  have hrewrites := normalForm_rewrites he.isExact h
  exact (normalForm_isBuilt he.isExact h).isReadableIn hroots (hrewrites.isExact he.isExact)
    (hrewrites.every (leafProperty_hasNamesOf D) he.names)

@[inherit_doc normalForm_isReadableIn]
theorem normalForm_isReadable {s : Settings} {e c : Expr} (he : e.IsReadable)
    (h : normalForm s e = .ok c) : c.IsReadable :=
  normalForm_isReadableIn (show "sqrt" ∈ Settings.standardFunctions by decide) he h

end AlgebraicForm
