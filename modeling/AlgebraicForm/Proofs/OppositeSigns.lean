import AlgebraicForm.Proofs.SignSplitting

/-!
# Opposites have one body

A normal form and its opposite give the same body when their signs are taken out, with opposite
signs. For products this is a matter of the coefficient. For a sum, its terms come to opposites, and
the sums of these have to be normalized side by side: minus one in front of a sum is distributed
only by the next pass, so that the passes over one sum are not the opposites of the passes over the
other one (`Mirrors`).

* `normalForm_sum_opposites`: the normal form of a sum of opposites is the opposite.
* `splits_ofScaled`: the parts of a product are those of its factors.
* `splitSigns_opposite`: opposites have one body, by induction on the depth.
-/

namespace AlgebraicForm

open AlgebraicForm.Expr

/-! ## Passes -/

/-- Passes over an expression come to a tree that they keep. -/
inductive Reaches : Expr → Expr → Prop
  | kept {d : Expr} : d.IsKept → Reaches d d
  | pass {e c d : Expr} : normalPass .unbounded e = .ok c → Reaches c d → Reaches e d

theorem reaches_normalForm {e d : Expr} (he : e.Every IsNamedNode)
    (h : normalForm .unbounded e = .ok d) : Reaches e d := by
  exact normalForm_induction (motive := fun e d => d.IsKept → Reaches e d)
    (fun hpass _ hd => .pass hpass (.kept hd)) (fun hpass ih hd => .pass hpass (ih hd)) h
    (normalForm_kept he h)

namespace Reaches

theorem eq_of_kept {d e : Expr} (h : Reaches d e) (hd : d.IsKept) : e = d := by
  induction h with
  | kept => rfl
  | pass hc _ ih =>
    obtain rfl := Except.ok.inj (hd.pass.symm.trans hc)
    exact ih hd

theorem of_pass {e c d : Expr} (h : Reaches e d) (hc : normalPass .unbounded e = .ok c) :
    Reaches c d := by
  cases h with
  | kept hd => exact Except.ok.inj (hd.pass.symm.trans hc) ▸ .kept hd
  | pass hc' h => exact Except.ok.inj (hc'.symm.trans hc) ▸ h

end Reaches

/-! ## Sums of opposites -/

theorem Expr.IsTidy.weigh_negated {t : Expr} (h : t.IsTidy) (w : Option Expr → Rat) :
    t.negated.weigh w = -t.weigh w := by
  cases hnumber : t.isNumber with
  | true =>
    obtain ⟨q, rfl⟩ | hother := h.isExact.rat_or_isNumber_eq_false
    · rw [negated_rat, weigh_rat, weigh_rat, neg_mul]
    · cases hnumber.symm.trans hother
  | false =>
    obtain ⟨body, q, htotals, rfl⟩ := exists_totals_scale h hnumber
    have hbody := htotals.built.body _ List.mem_cons_self
    have hsplit : ∀ c : Rat, (scale (.exact c) body).weigh w = c * w (some body) := fun c =>
      weigh_of_splitCoefficient
        (splitCoefficient_scale hbody (htotals.built.whole _ List.mem_cons_self))
    rw [negated_scale (htotals.tidy _ List.mem_cons_self) hbody, hsplit, hsplit, neg_mul]

theorem Expr.terms_of_isSum_eq_false {e : Expr} (h : e.isSum = false) : e.terms = [e] := by
  cases e with
  | sum => cases h
  | _ => rfl

/-- The terms of an opposite weigh the opposite. -/
theorem weighTerms_opposite {e : Expr} (h : e.IsKept) (w : Option Expr → Rat) :
    weighTerms w e.opposite.terms = -weighTerms w e.terms := by
  cases hsum : e.isSum with
  | true =>
    obtain ⟨ts, rfl⟩ := exists_of_isSum hsum
    show weighTerms w (ts.map negated) = -weighTerms w ts
    have hts := h.tidy.of_mem_sum
    clear h hsum
    induction ts with
    | nil => simp
    | cons t ts ih =>
      rw [List.forall_mem_cons] at hts
      rw [List.map_cons, weighTerms_cons, weighTerms_cons, hts.1.weigh_negated, ih hts.2, neg_add]
  | false =>
    rw [terms_of_isSum_eq_false (isSum_opposite h ▸ hsum), terms_of_isSum_eq_false hsum,
      opposite_of_isSum_eq_false hsum, weighTerms_cons, weighTerms_cons, h.tidy.weigh_negated]
    simp

theorem weighTerms_opposites {zs : List Expr} (h : ∀ z ∈ zs, z.IsKept) (w : Option Expr → Rat) :
    weighTerms w ((zs.map opposite).flatMap terms) = -weighTerms w (zs.flatMap terms) := by
  induction zs with
  | nil => simp
  | cons z zs ih =>
    rw [List.forall_mem_cons] at h
    rw [List.map_cons, List.flatMap_cons, List.flatMap_cons, weighTerms_append, weighTerms_append,
      weighTerms_opposite h.1, ih h.2, neg_add]

/-- A sum of opposites has the same bodies with the opposite totals. -/
theorem exists_buildSum_opposites {zs : List Expr} (h : ∀ z ∈ zs, z.IsKept) :
    ∃ k gs, Totals (zs.flatMap terms) k gs ∧
      buildSum .unbounded zs = .ok (ofSortedTerms (constantTerm k ++ groupTerms gs)) ∧
      buildSum .unbounded (zs.map opposite) =
        .ok (ofSortedTerms (constantTerm (-k) ++ groupTerms (flipGroups gs))) := by
  obtain ⟨k, gs, hg, hsum⟩ := exists_buildSum fun z hz => (h z hz).tidy
  have hopposites : ∀ e ∈ zs.map opposite, e.IsTidy :=
    List.forall_mem_map.mpr fun z hz => (h z hz).opposite.tidy
  obtain ⟨l, hs, hh, hsum'⟩ := exists_buildSum hopposites
  have hflip : Totals ((zs.map opposite).flatMap terms) (-k) (flipGroups gs) := by
    refine ⟨hg.built.flip hg.tidy, List.forall_mem_map.mpr hg.tidy, fun w => ?_⟩
    rw [weighTerms_opposites h, ← hg.weight, weighGroups, weighGroups, flipGroups, List.map_map,
      neg_add, neg_mul, List.sum_neg, List.map_map]
    simp [Function.comp_def]
  obtain ⟨rfl, rfl⟩ := hh.unique hflip fun _ => rfl
  exact ⟨k, gs, hg, hsum, hsum'⟩

/-- A pass makes opposites of two terms. -/
def PassesToOpposites (t u : Expr) : Prop :=
  ∃ z : Expr, z.IsKept ∧ normalPass .unbounded t = .ok z ∧ normalPass .unbounded u = .ok z.opposite

theorem passesToOpposites_of_kept {z : Expr} (h : z.IsKept) : PassesToOpposites z z.opposite :=
  ⟨z, h, h.pass, h.opposite.pass⟩

theorem normalPass_minusOne {e : Expr} (h : e.IsKept) :
    normalPass .unbounded (product [minusOne, e]) = .ok e.opposite := by
  rw [normalPass, normalPassAll_of_isKept (by simp [minusOne, h]), ok_bind, product_minusOne h]

/-- Opposite coefficients make opposites of a body, if only after a pass: minus one in front of a
sum goes to its terms. -/
theorem passesToOpposites_scale {body : Expr} (h : body.IsKept) (hbody : body.IsBody) {c : Rat}
    (hc : c ≠ 0) : PassesToOpposites (scale (.exact c) body) (scale (.exact (-c)) body) := by
  obtain ⟨hne, hbuilt⟩ := builtFactors_of_isBody h.tidy.isBuilt hbody
  have hfactors := h.keptFactors
  rw [(otherFactors_eq_self fun f hf => (hbuilt.factor f hf).1).1] at hfactors
  by_cases hlone : (c = 1 ∨ c = -1) ∧ ∃ ts, body.factors = [sum ts]
  · obtain ⟨hc, ts, hts⟩ := hlone
    obtain rfl : body = sum ts := by rw [← h.tidy.isBuilt.ofFactors_factors, hts]; rfl
    have hone : scale (.exact 1) (sum ts) = sum ts := by simp [scale]
    have hminus : scale (.exact (-1)) (sum ts) = product [minusOne, sum ts] := by
      rw [scale_eq_ofScaled h.tidy hbody]
      rfl
    obtain rfl | rfl := hc
    · rw [hone, hminus]
      exact ⟨_, h, h.pass, normalPass_minusOne h⟩
    · rw [neg_neg, hone, hminus]
      exact ⟨_, h.opposite, normalPass_minusOne h, by rw [h.opposite_opposite, h.pass]⟩
  · -- the multiple is no sum and stays as it is
    have hkept : (scale (.exact c) body).IsKept := scale_eq_ofScaled h.tidy hbody c ▸
      isKept_ofScaled (hfactors.scale fun ts hts => hlone ⟨.inr hts.1, ts, hts.2⟩) hc
    have hsum : (scale (.exact c) body).isSum = false := Bool.eq_false_iff.mpr fun htrue => by
      rw [scale_eq_ofScaled h.tidy hbody] at htrue
      obtain ⟨rfl, hts⟩ := isSum_ofScaled hbuilt.factor htrue
      exact hlone ⟨.inl rfl, hts⟩
    rw [← negated_scale h.tidy hbody, ← opposite_of_isSum_eq_false hsum]
    exact passesToOpposites_of_kept hkept

/-- Two expressions of which passes make opposites: terms, or sums of such terms. -/
inductive Mirrors : Expr → Expr → Prop
  | term {t u : Expr} : PassesToOpposites t u → Mirrors t u
  | sum {ts us : List Expr} : List.Forall₂ PassesToOpposites ts us → Mirrors (.sum ts) (.sum us)

theorem mirrors_ofSortedTerms {ts us : List Expr} (h : List.Forall₂ PassesToOpposites ts us) :
    Mirrors (ofSortedTerms ts) (ofSortedTerms us) := by
  cases h with
  | nil => exact .term ⟨zero, isKept_rat 0, (isKept_rat 0).pass, by
      rw [zero, opposite_rat, neg_zero]
      exact (isKept_rat 0).pass⟩
  | cons ht hts =>
    cases hts with
    | nil => exact .term ht
    | cons hu hus => exact .sum (.cons ht (.cons hu hus))

/-- The sum of expressions that are kept and that of their opposites mirror each other. -/
theorem mirrors_buildSum {zs : List Expr} (h : ∀ z ∈ zs, z.IsKept) :
    ∃ r s, buildSum .unbounded zs = .ok r ∧ buildSum .unbounded (zs.map opposite) = .ok s ∧
      Mirrors r s := by
  obtain ⟨k, gs, htotals, hsum, hsum'⟩ := exists_buildSum_opposites h
  refine ⟨_, _, hsum, hsum', mirrors_ofSortedTerms (List.rel_append ?_ ?_)⟩
  · by_cases hk : k = 0
    · simp [constantTerm, hk]
    · simpa [constantTerm, hk] using passesToOpposites_of_kept (isKept_rat k)
  · rw [groupTerms, groupTerms, flipGroups, List.map_map, List.forall₂_map_left_iff,
      List.forall₂_map_right_iff]
    refine List.forall₂_same.mpr fun g hg => ?_
    -- a body that is left is that of a term, which is kept
    obtain ⟨t, ht, hbody⟩ := htotals.exists_term hg
    obtain ⟨z, hz, htz⟩ := List.mem_flatMap.mp ht
    have hkept : t.IsKept := by
      cases z with
      | sum ts => exact ((h _ hz).of_mem_sum t htz).1
      | _ => exact List.mem_singleton.mp htz ▸ h _ hz
    exact passesToOpposites_scale (hkept.body hbody) (htotals.built.body g hg)
      (htotals.built.coefficient g hg)

/-- A pass over sums that mirror each other. -/
theorem mirrors_normalPass {ts us : List Expr} (h : List.Forall₂ PassesToOpposites ts us) :
    ∃ r s, normalPass .unbounded (sum ts) = .ok r ∧ normalPass .unbounded (sum us) = .ok s ∧
      Mirrors r s := by
  obtain ⟨zs, hzs, hts, hus⟩ : ∃ zs : List Expr, (∀ z ∈ zs, z.IsKept) ∧
      normalPassAll .unbounded ts = .ok zs ∧
      normalPassAll .unbounded us = .ok (zs.map opposite) := by
    simp only [normalPassAll_eq_ok_iff]
    induction h with
    | nil => exact ⟨[], List.forall_mem_nil _, .nil, .nil⟩
    | cons ht _ ih =>
      obtain ⟨z, hz, ht, hu⟩ := ht
      obtain ⟨zs, hzs, hts, hus⟩ := ih
      exact ⟨z :: zs, List.forall_mem_cons.mpr ⟨hz, hzs⟩, .cons ht hts, .cons hu hus⟩
  rw [normalPass, normalPass, hts, hus, ok_bind, ok_bind]
  exact mirrors_buildSum hzs

/-- What mirrors a tree that is kept comes to its opposite, and so does what mirrors an expression
on the way to that tree, by induction on the passes. -/
theorem Mirrors.reaches {e f d d' : Expr} (h : Mirrors e f) (he : Reaches e d)
    (hf : Reaches f d') : d' = d.opposite := by
  have hterm : ∀ {t u d d' : Expr}, PassesToOpposites t u → Reaches t d → Reaches u d' →
      d' = d.opposite := by
    rintro t u d d' ⟨z, hz, ht, hu⟩ hd hd'
    rw [(hd.of_pass ht).eq_of_kept hz, (hd'.of_pass hu).eq_of_kept hz.opposite]
  induction he generalizing f with
  | @kept d hd =>
    cases h with
    | term h => exact hterm h (.kept hd) hf
    | @sum ts us h =>
      -- the terms are kept as well, so that the other ones pass to their opposites at once
      have hus : normalPassAll .unbounded us = .ok (ts.map negated) := by
        rw [normalPassAll_eq_ok_iff, List.forall₂_map_right_iff]
        refine (((List.forall₂_and_left ts us).mpr ⟨hd.of_mem_sum, h⟩).imp ?_).flip
        rintro t u ⟨⟨ht, hsum⟩, z, -, htz, huz⟩
        obtain rfl := Except.ok.inj (ht.pass.symm.trans htz)
        rwa [opposite_of_isSum_eq_false hsum] at huz
      have hpass : normalPass .unbounded (.sum us) = .ok (Expr.sum ts).opposite := by
        rw [normalPass, hus, ok_bind, Expr.opposite]
        exact buildSum_of_settled hd.opposite.tidy (every_sum.mp hd.opposite.settled).1
      rw [(hf.of_pass hpass).eq_of_kept hd.opposite]
  | pass hc hd ih =>
    cases h with
    | term h => exact hterm h (.pass hc hd) hf
    | sum h =>
      obtain ⟨r, s, hr, hs, hmirrors⟩ := mirrors_normalPass h
      obtain rfl := Except.ok.inj (hr.symm.trans hc)
      exact ih hmirrors (hf.of_pass hs)

/-- The normal form of a sum of opposites. -/
theorem normalForm_sum_opposites {rs : List Expr} (h : ∀ r ∈ rs, r.IsKept) {a b : Expr}
    (ha : normalForm .unbounded (sum rs) = .ok a)
    (hb : normalForm .unbounded (sum (rs.map opposite)) = .ok b) : b = a.opposite := by
  have hnamed : ∀ {es : List Expr}, (∀ e ∈ es, e.IsKept) → (sum es).Every IsNamedNode :=
    fun hes => every_sum.mpr ⟨trivial, fun e he => (hes e he).tidy.named⟩
  have hopposites : ∀ r ∈ rs.map opposite, r.IsKept :=
    List.forall_mem_map.mpr fun r hr => (h r hr).opposite
  refine Mirrors.reaches (.sum ?_) (reaches_normalForm (hnamed h) ha)
    (reaches_normalForm (hnamed hopposites) hb)
  rw [List.forall₂_map_right_iff]
  exact List.forall₂_same.mpr fun r hr => passesToOpposites_of_kept (h r hr)

/-! ## Parts -/

/-- The signs of an expression come out of it at some depth. -/
def Splits (e : Expr) (p : Signed) : Prop :=
  ∃ n, splitSigns .unbounded n e = .ok p

theorem Splits.unique {e : Expr} {p q : Signed} (hp : Splits e p) (hq : Splits e q) : p = q := by
  obtain ⟨n, hp⟩ := hp
  obtain ⟨m, hq⟩ := hq
  exact splitSigns_unique hp hq

theorem Splits.isKept {e : Expr} {p : Signed} (he : e.IsKept) (h : Splits e p) : p.body.IsKept :=
  h.elim fun _ h => splitSigns_isKept he.tidy.named h

theorem forall₂_splits_unique {es : List Expr} {ps qs : List Signed}
    (hp : List.Forall₂ Splits es ps) (hq : List.Forall₂ Splits es qs) : ps = qs := by
  induction hp generalizing qs with
  | nil => cases hq; rfl
  | cons hp _ ih =>
    cases hq with
    | cons hq hqs => rw [hp.unique hq, ih hqs]

theorem forall₂_splits {n : Nat} {es : List Expr} {ps : List Signed}
    (h : List.Forall₂ (fun e p => splitSigns .unbounded n e = .ok p) es ps) :
    List.Forall₂ Splits es ps :=
  h.imp fun _ _ h => ⟨n, h⟩

/-- Products of kept factors with the same powers have the same normal form. -/
theorem normalForm_product_of_samePowers {es ds : List Expr} (hes : ∀ e ∈ es, e.IsKept)
    (hds : ∀ d ∈ ds, d.IsKept) (h : SamePowers (es.flatMap factors) (ds.flatMap factors)) :
    normalForm .unbounded (product es) = normalForm .unbounded (product ds) := by
  have hexact : ∀ {es : List Expr}, (∀ e ∈ es, e.IsKept) → (product es).IsExact := fun hes =>
    every_product.mpr ⟨trivial, fun e he => (hes e he).tidy.isExact⟩
  refine normalForm_eq_of_normalPass_eq (by decide) (hexact hes) (hexact hds) ?_
  rw [normalPass, normalPass, normalPassAll_of_isKept hes, normalPassAll_of_isKept hds, ok_bind,
    ok_bind]
  exact product_of_samePowers (fun e he => (hes e he).tidy) (fun d hd => (hds d hd).tidy) h

/-- One in front of kept factors makes no difference. -/
theorem normalForm_one_product {es : List Expr} (h : ∀ e ∈ es, e.IsKept) :
    normalForm .unbounded (product (rat 1 :: es)) = normalForm .unbounded (product es) := by
  refine normalForm_product_of_samePowers (List.forall_mem_cons.mpr ⟨isKept_rat 1, h⟩) h
    (SameFactors.samePowers ⟨?_, ?_⟩)
  · rw [List.flatMap_cons]
    exact (literalProduct_cons_rat 1 _).trans (one_mul _)
  · rw [List.flatMap_cons]
    exact .of_eq (otherFactors_cons_rat 1 _)

theorem normalForm_one {e : Expr} (h : e.IsKept) :
    normalForm .unbounded (product [rat 1, e]) = .ok e := by
  rw [normalForm_one_product (List.forall_mem_singleton.mpr h)]
  by_cases hzero : literalProduct e.factors = 0
  · obtain rfl := h.tidy.isBuilt.eq_zero hzero
    obtain ⟨fuel, hfuel⟩ := depthBound_eq (weightAll [zero])
    refine normalForm_of_pass ?_ (isKept_rat 0)
    rw [normalPass, normalPassAll_of_isKept (by simp [zero]), ok_bind, Settings.product, hfuel]
    simpa [zero] using buildProduct_literals .unbounded (fuel + 3) [0]
  · conv_rhs => rw [h.tidy.isBuilt.eq_ofScaled.1]
    refine normalForm_of_keptFactors (List.forall_mem_singleton.mpr h) h.keptFactors hzero ?_
    rw [List.flatMap_singleton]
    exact (sameFactors_split (.refl _)).symm

theorem forall_mem_bodies {es : List Expr} {ps : List Signed} (hes : ∀ e ∈ es, e.IsKept)
    (h : List.Forall₂ Splits es ps) : ∀ e ∈ ps.map (·.body), e.IsKept := by
  refine List.forall_mem_map.mpr fun p hp => ?_
  obtain ⟨e, -, he, hep⟩ := exists_mem_of_forall₂ ((List.forall₂_and_left es ps).mpr ⟨hes, h⟩) hp
  exact hep.isKept he

theorem splits_product {fs : List Expr} {p : Signed} (h : Splits (product fs) p) :
    ∃ ps, List.Forall₂ Splits fs ps ∧ p.negative = signOf ps ∧
      normalForm .unbounded (product (ps.map (·.body))) = .ok p.body := by
  obtain ⟨n, h⟩ := h
  cases n with
  | zero => cases h
  | succ n =>
    obtain ⟨ps, hps, body, hbody, rfl⟩ := splitSigns_product_iff.mp h
    exact ⟨ps, forall₂_splits hps, rfl, hbody⟩

/-- The parts of a normal form that is no sum: the sign of its coefficient and those of its other
factors come out together. -/
theorem splits_ofScaled {q : Rat} {gs : List Expr} {p : Signed} (h : KeptFactors q gs)
    (hp : Splits (ofScaled q gs) p) : ∃ ps, List.Forall₂ Splits gs ps ∧
      p.negative = (decide (q < 0) ^^ signOf ps) ∧
      normalForm .unbounded (product (rat |q| :: ps.map (·.body))) = .ok p.body := by
  have hrat : Splits (rat q) ⟨decide (q < 0), rat |q|⟩ := ⟨1, splitSigns_rat 0 q⟩
  by_cases hne : gs = []
  · subst hne
    obtain rfl := hp.unique hrat
    exact ⟨[], .nil, by simp [signOf],
      (normalForm_one_product (List.forall_mem_singleton.mpr (isKept_rat _))).symm.trans
        (normalForm_one (isKept_rat _))⟩
  have hpositive : decide ((1 : Rat) < 0) = false := by simp
  rw [ofScaled_eq hne] at hp
  unfold coefficientFactor at hp
  split at hp
  next hone =>
    subst hone
    rw [List.nil_append] at hp
    unfold ofFactors at hp
    split at hp
    next g =>
      refine ⟨[p], .cons hp .nil, by rw [hpositive]; simp [signOf], ?_⟩
      simpa using normalForm_one (hp.isKept (h.kept g List.mem_cons_self))
    next =>
      obtain ⟨ps, hps, hnegative, hbody⟩ := splits_product hp
      refine ⟨ps, hps, by rw [hnegative, hpositive, Bool.false_xor], ?_⟩
      rw [abs_one, normalForm_one_product (forall_mem_bodies h.kept hps), hbody]
  next hone =>
    obtain ⟨g, gs, rfl⟩ := List.exists_cons_of_ne_nil hne
    have hp : Splits (product (rat q :: g :: gs)) p := hp
    obtain ⟨ps, hps, hnegative, hbody⟩ := splits_product hp
    cases hps with
    | cons hcoefficient hps =>
      obtain rfl := hcoefficient.unique hrat
      exact ⟨_, hps, hnegative.trans (signOf_cons _ _), hbody⟩

/-! ## Opposites -/

theorem zero_opposite : zero.opposite = zero := by
  rw [zero, opposite_rat, neg_zero]

theorem Signed.value_of_body_eq_zero {p : Signed} (h : p.body = zero) : p.value = zero := by
  rw [Signed.value, h, zero_opposite, ite_self]

theorem Signed.value_opposite {p q : Signed} (hp : p.body.IsKept) (hbody : q.body = p.body)
    (hsign : p.body = zero ∨ q.negative = !p.negative) : q.value = p.value.opposite := by
  obtain hzero | hsign := hsign
  · rw [Signed.value_of_body_eq_zero hzero, Signed.value_of_body_eq_zero (hbody.trans hzero),
      zero_opposite]
  · rw [Signed.value, Signed.value, hbody, hsign]
    cases p.negative with
    | true => exact hp.opposite_opposite.symm
    | false => rfl

/-- No sum is its own opposite, as it has a term. -/
theorem sum_ne_opposite {ts : List Expr} (h : (sum ts).IsKept) : sum ts ≠ (sum ts).opposite := by
  intro heq
  obtain ⟨k, gs, htotals, hts⟩ := exists_totals_sum h.tidy
  have hzero : SameTerms ts [rat 0] := fun w => by
    have hweight := weighTerms_opposite h w
    rw [← heq] at hweight
    have : weighTerms w ts = 0 := self_eq_neg.mp hweight
    simpa using this
  obtain ⟨rfl, rfl⟩ := htotals.unique (totals_rat 0) hzero
  have hlen := (isBuilt_sum.mp h.tidy.isBuilt).1.1
  rw [hts] at hlen
  simp [constantTerm] at hlen

theorem splits_negated {e : Expr} {p q : Signed} (he : e.IsKept) (hsum : e.isSum = false)
    (hp : Splits e p) (hq : Splits e.negated q) :
    q.body = p.body ∧ (p.body = zero ∨ q.negative = !p.negative) := by
  have hself := he.tidy.isBuilt.eq_ofScaled.1
  have hfactors := (he.negated hsum).1.keptFactors
  rw [he.tidy.factors_negated.1, he.tidy.factors_negated.2] at hfactors
  by_cases hzero : literalProduct e.factors = 0
  · obtain rfl := he.tidy.isBuilt.eq_zero hzero
    rw [zero, negated_rat, neg_zero] at hq
    obtain rfl := hq.unique hp
    obtain rfl := hp.unique ⟨1, splitSigns_rat 0 0⟩
    exact ⟨rfl, .inl (by simp [zero])⟩
  · rw [hself] at hp
    obtain ⟨ps, hps, hnegative, hbody⟩ := splits_ofScaled he.keptFactors hp
    obtain ⟨qs, hqs, hnegative', hbody'⟩ := splits_ofScaled hfactors hq
    obtain rfl := forall₂_splits_unique hps hqs
    rw [abs_neg] at hbody'
    refine ⟨Except.ok.inj (hbody'.symm.trans hbody), .inr ?_⟩
    rw [hnegative, hnegative', ← Bool.not_xor]
    congr 1
    by_cases hneg : literalProduct e.factors < 0
    · simp [hneg, hneg.le]
    · simp [hneg, lt_of_le_of_ne (not_lt.mp hneg) (Ne.symm hzero)]

/-- Elements with results in two lists, of which the second ones are determined by the first. -/
theorem eq_map_of_forall₂ {α β γ : Type} {R : α → β → Prop} {S : α → γ → Prop} {f : β → γ}
    {xs : List α} {ys : List β} {zs : List γ} (hR : List.Forall₂ R xs ys)
    (hS : List.Forall₂ S xs zs) (h : ∀ x ∈ xs, ∀ y z, R x y → S x z → z = f y) :
    zs = ys.map f := by
  induction hR generalizing zs with
  | nil => cases hS; rfl
  | cons hy _ ih =>
    cases hS with
    | cons hz hzs =>
      rw [List.forall_mem_cons] at h
      rw [List.map_cons, h.1 _ _ hy hz, ih hzs h.2]

theorem RebuildsAs.exists_value {n : Nat} {e r : Expr} (he : e.IsKept)
    (h : RebuildsAs .unbounded n e r) :
    ∃ p, splitSigns .unbounded n e = .ok p ∧ p.body.IsKept ∧ r = p.value := by
  obtain ⟨p, hp, hr⟩ := h
  have hkept := splitSigns_isKept he.tidy.named hp
  exact ⟨p, hp, hkept, Except.ok.inj (hr.symm.trans (Signed.rebuild_eq hkept))⟩

/-- Of a sum and its opposite, both give the same one as the body. -/
theorem ChoosesSign.opposite {n m : Nat} {ts : List Expr} {p q : Signed} (h : (sum ts).IsKept)
    (hp : ChoosesSign .unbounded n (sum ts) p) (hq : ChoosesSign .unbounded m (sum ts).opposite q) :
    q.body = p.body ∧ q.negative = !p.negative := by
  obtain ⟨flipped, hflipped, l, hl, k, hk, rfl⟩ := hp
  obtain ⟨flipped', hflipped', l', hl', k', hk', rfl⟩ := hq
  obtain rfl := Except.ok.inj ((normalForm_minusOne h).symm.trans hflipped)
  obtain rfl := Except.ok.inj ((normalForm_minusOne h.opposite).symm.trans hflipped')
  rw [h.opposite_opposite] at hl' ⊢
  obtain rfl := Except.ok.inj (hl'.symm.trans hk)
  obtain rfl := Except.ok.inj (hk'.symm.trans hl)
  cases hlt : orientationLt k' l' with
  | true =>
    rw [orientationLt_asymm hlt]
    exact ⟨rfl, rfl⟩
  | false =>
    cases hgt : orientationLt l' k' with
    | true => exact ⟨rfl, rfl⟩
    | false =>
      -- there is no tie, as the sum and its opposite differ
      refine absurd (eq_opposite_of_comesFirst h (fun k l hk hl => ?_) fun l k hl hk => ?_)
        (sum_ne_opposite h)
      · rwa [← Except.ok.inj (hl'.symm.trans hk), ← Except.ok.inj (hk'.symm.trans hl)]
      · rw [h.opposite_opposite] at hk
        rwa [← Except.ok.inj (hl'.symm.trans hk), ← Except.ok.inj (hk'.symm.trans hl)]

/-- The signs of opposites are opposite, and their bodies are the same, by induction on the depth:
a sum whose terms collapse is taken up again as what it has become. -/
theorem splitSigns_opposite {n : Nat} {e : Expr} {p q : Signed} (he : e.IsKept)
    (hp : splitSigns .unbounded n e = .ok p) (hq : Splits e.opposite q) :
    q.body = p.body ∧ (p.body = zero ∨ q.negative = !p.negative) := by
  induction n generalizing e p q with
  | zero => cases hp
  | succ n ih =>
    cases hsum : e.isSum with
    | false =>
      rw [opposite_of_isSum_eq_false hsum] at hq
      exact splits_negated he hsum ⟨n + 1, hp⟩ hq
    | true =>
      obtain ⟨ts, rfl⟩ := exists_of_isSum hsum
      obtain ⟨m, hq⟩ := hq
      cases m with
      | zero => cases hq
      | succ m =>
        obtain ⟨rs, hrs, a, ha, hp⟩ := splitSigns_sum_iff.mp hp
        obtain ⟨us, hus, b, hb, hq⟩ := splitSigns_sum_iff.mp hq
        have hkept : ∀ r ∈ rs, r.IsKept := by
          intro r hr
          obtain ⟨t, ht, htr⟩ := exists_mem_of_forall₂ hrs hr
          obtain ⟨p, -, hbody, rfl⟩ := htr.exists_value (he.of_mem_sum t ht).1
          exact Signed.value_isKept hbody
        -- the terms come to opposites
        obtain rfl : us = rs.map opposite := by
          refine eq_map_of_forall₂ hrs (List.forall₂_map_left_iff.mp hus) fun t ht r u hr hu => ?_
          obtain ⟨htkept, htsum⟩ := he.of_mem_sum t ht
          obtain ⟨p, hp, hbody, rfl⟩ := hr.exists_value htkept
          obtain ⟨q, hq, -, rfl⟩ := hu.exists_value (htkept.negated htsum).1
          rw [← opposite_of_isSum_eq_false htsum] at hq
          obtain ⟨hsame, hsign⟩ := ih htkept hp ⟨m, hq⟩
          exact Signed.value_opposite hbody hsame hsign
        obtain rfl := normalForm_sum_opposites hkept ha hb
        have hakept : a.IsKept := normalForm_kept
          (every_sum.mpr ⟨trivial, fun r hr => (hkept r hr).tidy.named⟩) ha
        cases hasum : a.isSum with
        | true =>
          obtain ⟨as, rfl⟩ := exists_of_isSum hasum
          exact (hp.opposite hakept hq).imp_right .inr
        | false =>
          rw [choosesSign_iff hasum] at hp
          rw [choosesSign_iff (isSum_opposite hakept ▸ hasum)] at hq
          exact ih hakept hp ⟨m, hq⟩

end AlgebraicForm
