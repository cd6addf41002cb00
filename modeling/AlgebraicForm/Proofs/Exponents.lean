import AlgebraicForm.Proofs.Depth

/-!
# A product is known from the totals of its exponents

A product adds up the exponents of each base, so it does not matter how a total is spread over the
factors: `x^2 * x^3` and `x^4 * x` are the same. A base whose exponents cancel may as well be absent
(`SamePowers`), unless it is a literal, since zero to the power zero is no one.

* `basePower_of_new`: a base without exponents has the power one.
* `product_of_samePowers`: products with the same powers are the same.
-/

namespace AlgebraicForm

open AlgebraicForm.Expr

/-! ## The powers of bases -/

theorem buildSum_singleton {e : Expr} (h : e.IsTidy) : buildSum .unbounded [e] = .ok e := by
  obtain ⟨k, gs, htotals, hself⟩ := exists_totals h
  obtain ⟨l, hs, htotals', hsum⟩ := exists_buildSum (List.forall_mem_singleton.mpr h)
  obtain ⟨rfl, rfl⟩ := htotals'.unique htotals fun w => by simp
  rw [hsum, ← hself]

/-- A single exponent is its own sum. -/
theorem mergeExponents_eq_buildSum {es : List Expr} (h : ∀ e ∈ es, e.IsTidy) :
    mergeExponents .unbounded es = buildSum .unbounded es := by
  unfold mergeExponents
  split
  next e => exact (buildSum_singleton (h e List.mem_cons_self)).symm
  next => rfl

/-- The power of a base to the sum of its exponents among factors, which is one if there are none
and the base is no literal. -/
noncomputable def basePower (power : Expr → Expr → Except Fault Expr) (fs : List Expr) (b : Expr) :
    Except Fault Expr := do
  let exponent ← buildSum .unbounded (exponentsOf b fs)
  power b exponent

theorem isTidy_exponentsOf {fs : List Expr} (hfs : ∀ f ∈ fs, f.IsTidy) (b : Expr) :
    ∀ e ∈ exponentsOf b fs, e.IsTidy := by
  intro e he
  obtain ⟨f, hf, rfl⟩ := List.mem_map.mp he
  exact (splitPower_isTidy (hfs f (List.mem_of_mem_filter hf))).2

theorem basePower_of_new {fs : List Expr} {b : Expr} (hnew : b ∉ fs.map fun f => f.splitPower.1)
    (hb : b.isNumber = false) (fuel : Nat) :
    basePower (buildPower .unbounded (fuel + 1)) fs b = .ok one := by
  have hzero : literalPower? .unbounded b zero = some one := by
    unfold literalPower?
    cases b <;> simp_all [isNumber, zero]
  have hsum : buildSum .unbounded [] = .ok zero := buildSum_literals []
  rw [basePower, exponentsOf_eq_nil hnew, hsum, ok_bind]
  unfold buildPower
  rw [hzero]

/-- The groups of a product are powers of its bases. -/
theorem Collects.mapM_basePower {power : Expr → Expr → Except Fault Expr} {fs : List Expr}
    {bs : List (Expr × List Expr)} (h : Collects fs bs) (hfs : ∀ f ∈ fs, f.IsTidy) :
    bs.mapM (groupPower .unbounded power) = (bs.map (·.1)).mapM (basePower power fs) := by
  conv_lhs => rw [h.eq_map, List.mapM_map]
  exact mapM_congr fun b hb => by
    show groupPower .unbounded power (b, exponentsOf b fs) = basePower power fs b
    rw [groupPower, basePower, mergeExponents_eq_buildSum (isTidy_exponentsOf hfs b)]

/-! ## Products -/

/-- How a product comes from the powers of its bases. -/
theorem exists_productResult {s : Settings} {fuel : Nat} {es : List Expr}
    (hes : ∀ e ∈ es, e.IsBuilt s) {r : Expr} (h : buildProduct s (fuel + 1) es = .ok r) :
    ∃ bs, Collects (otherFactors (es.flatMap factors)) bs ∧
      (literalProduct (es.flatMap factors) = 0 ∧ r = zero ∨
        literalProduct (es.flatMap factors) ≠ 0 ∧
        ∃ ps, bs.mapM (groupPower s (buildPower s fuel)) = .ok ps ∧
          ProductResult s fuel
            (literalProduct (es.flatMap factors) * literalProduct (ps.flatMap factors))
            (otherFactors (ps.flatMap factors)) r) := by
  obtain ⟨bs, hcollect, hbs⟩ := exists_collects (isExact_flatMap_factors hes)
  have hgroup := hbs.isBuilt fun f hf => (isBuilt_otherFactors hes f hf).1
  refine ⟨bs, hbs, (buildProduct_eq_ok hcollect h).imp_right ?_⟩
  rintro ⟨hq, c, fs, hbases, hresult⟩
  rw [buildBases_eq fun g hg p hp => (groupPower_isBuilt (hgroup g hg) hp).isExact] at hbases
  obtain ⟨ps, hps, hbases⟩ := bind_eq_ok_iff.mp hbases
  obtain ⟨rfl, rfl⟩ := Prod.mk.inj (Except.ok.inj hbases)
  exact ⟨hq, ps, hps, hresult _ rfl⟩

/-- Ones do not count as factors. -/
theorem sameFactors_filter_one (ps : List Expr) [DecidableEq Expr] :
    SameFactors (ps.flatMap factors) ((ps.filter (· ≠ one)).flatMap factors) := by
  induction ps with
  | nil => exact .refl _
  | cons p ps ih =>
    by_cases hp : p = one
    · subst hp
      rw [List.filter_cons_of_neg (by simp), List.flatMap_cons]
      refine ⟨?_, ?_⟩
      · rw [literalProduct_append, ← ih.literal]
        simp [factors, one]
      · rw [otherFactors_append]
        simpa [factors, one] using ih.other
    · rw [List.filter_cons_of_pos (by simpa using hp), List.flatMap_cons, List.flatMap_cons]
      exact .append (.refl _) ih

/-- Two lists of factors with the same literals and the same total exponent of each base. A literal
as a base is either on both sides or on none. -/
structure SamePowers (fs gs : List Expr) : Prop where
  literal : literalProduct fs = literalProduct gs
  exponents : ∀ b, SameTerms ((exponentsOf b (otherFactors fs)).flatMap terms)
    ((exponentsOf b (otherFactors gs)).flatMap terms)
  number : ∀ b : Expr, b.isNumber = true → (b ∈ (otherFactors fs).map (fun f => f.splitPower.1) ↔
    b ∈ (otherFactors gs).map fun f => f.splitPower.1)

theorem SameFactors.samePowers {fs gs : List Expr} (h : SameFactors fs gs) : SamePowers fs gs :=
  ⟨h.literal, fun b => .perm ((exponentsOf_perm h.other b).flatMap_right _),
    fun _ _ => (h.other.map _).mem_iff⟩

theorem SamePowers.basePower_eq {power : Expr → Expr → Except Fault Expr} {fs gs : List Expr}
    (h : SamePowers fs gs) (hfs : ∀ f ∈ otherFactors fs, f.IsTidy)
    (hgs : ∀ g ∈ otherFactors gs, g.IsTidy) (b : Expr) :
    basePower power (otherFactors fs) b = basePower power (otherFactors gs) b := by
  rw [basePower, basePower, buildSum_of_sameTerms (isTidy_exponentsOf hfs b)
    (isTidy_exponentsOf hgs b) (h.exponents b)]

/-- The powers of the bases are the same, up to ones and up to their order. -/
theorem SamePowers.sameFactors {fuel : Nat} {fs gs : List Expr} (h : SamePowers fs gs)
    (hfs : ∀ f ∈ otherFactors fs, f.IsTidy) (hgs : ∀ g ∈ otherFactors gs, g.IsTidy)
    {bs cs : List (Expr × List Expr)} (hbs : Collects (otherFactors fs) bs)
    (hcs : Collects (otherFactors gs) cs) {ps qs : List Expr}
    (hps : bs.mapM (groupPower .unbounded (buildPower .unbounded (fuel + 1))) = .ok ps)
    (hqs : cs.mapM (groupPower .unbounded (buildPower .unbounded (fuel + 1))) = .ok qs) :
    SameFactors (ps.flatMap factors) (qs.flatMap factors) := by
  classical
  -- each base has one result on both sides
  let result (b : Expr) : Expr :=
    (basePower (buildPower .unbounded (fuel + 1)) (otherFactors fs) b).toOption.getD one
  rw [hbs.mapM_basePower hfs, mapM_eq_ok_iff] at hps
  rw [hcs.mapM_basePower hgs, mapM_eq_ok_iff] at hqs
  simp only [← h.basePower_eq hfs hgs] at hqs
  obtain rfl : (bs.map (·.1)).map result = ps := map_getD_of_forall₂ one hps
  obtain rfl : (cs.map (·.1)).map result = qs := map_getD_of_forall₂ one hqs
  have hone : ∀ b, basePower (buildPower .unbounded (fuel + 1)) (otherFactors fs) b = .ok one →
      result b = one := fun b hb => by simp only [result, hb]; rfl
  have hmem : ∀ b : Expr, result b ≠ one → (b ∈ (otherFactors fs).map (fun f => f.splitPower.1) ↔
      b ∈ (otherFactors gs).map fun f => f.splitPower.1) := by
    intro b hb
    cases hnumber : b.isNumber with
    | true => exact h.number b hnumber
    | false =>
      -- on a side where it is no base, its power is one
      refine iff_of_true (by_contra fun hnew => hb (hone b ?_))
        (by_contra fun hnew => hb (hone b ?_))
      · exact basePower_of_new hnew hnumber fuel
      · rw [h.basePower_eq hfs hgs, basePower_of_new hnew hnumber]
  have hperm : ((bs.map (·.1)).filter (result · ≠ one)).Perm
      ((cs.map (·.1)).filter (result · ≠ one)) := by
    refine (List.perm_ext_iff_of_nodup (hbs.distinct.filter _) (hcs.distinct.filter _)).mpr ?_
    intro b
    rw [List.mem_filter, List.mem_filter, decide_eq_true_eq, hbs.bases, hcs.bases]
    exact and_congr_left (hmem b)
  have hfilter : ∀ as : List Expr, (as.map result).filter (· ≠ one) =
      (as.filter (result · ≠ one)).map result := fun as => List.filter_map
  refine (sameFactors_filter_one _).trans (.trans ?_ (sameFactors_filter_one _).symm)
  rw [hfilter, hfilter]
  exact .perm ((hperm.map result).flatMap_right factors)

/-- A product of tidy operands has a result. -/
theorem exists_product {es : List Expr} (hes : ∀ e ∈ es, e.IsTidy) :
    ∃ r, Settings.unbounded.product es = .ok r := by
  cases hr : Settings.unbounded.product es with
  | ok r => exact ⟨r, rfl⟩
  | error fault =>
    have hfuel := (builders_needOnlyFuel .unbounded _).1 (fun e he => (hes e he).isProper) fault hr
    exact absurd (hfuel ▸ hr) (product_hasFuel .unbounded es)

/-- Products of tidy operands with the same powers are the same. -/
theorem product_of_samePowers {es ds : List Expr} (hes : ∀ e ∈ es, e.IsTidy)
    (hds : ∀ d ∈ ds, d.IsTidy) (h : SamePowers (es.flatMap factors) (ds.flatMap factors)) :
    Settings.unbounded.product es = Settings.unbounded.product ds := by
  obtain ⟨r, hr⟩ := exists_product hes
  obtain ⟨r', hr'⟩ := exists_product hds
  rw [hr, hr', Except.ok.injEq]
  -- both results at one depth
  unfold Settings.product at hr hr'
  obtain ⟨fuel, hfuel⟩ : ∃ fuel, fuel + 2 =
      max (depthBound (weightAll es)) (depthBound (weightAll ds)) := by
    obtain ⟨n, hn⟩ := depthBound_eq (weightAll es)
    exact ⟨max (depthBound (weightAll es)) (depthBound (weightAll ds)) - 2, by omega⟩
  have hr := (buildProduct_mono (hfuel ▸ le_max_left ..) es).ok hr
  have hr' := (buildProduct_mono (hfuel ▸ le_max_right ..) ds).ok hr'
  obtain ⟨bs, hbs, hproduct⟩ :=
    exists_buildProduct_eq (fuel + 1) fun e he => (hes e he).isBuilt
  obtain ⟨cs, hcs, hproduct'⟩ :=
    exists_buildProduct_eq (fuel + 1) fun d hd => (hds d hd).isBuilt
  have hgroup := hbs.isTidy (isTidy_otherFactors hes)
  rw [hproduct, h.literal] at hr
  rw [hproduct'] at hr'
  split at hr
  next hzero =>
    rw [if_pos hzero] at hr'
    exact Except.ok.inj (hr.symm.trans hr')
  next hzero =>
    rw [if_neg hzero] at hr'
    obtain ⟨ps, hps, hr⟩ := bind_eq_ok_iff.mp hr
    obtain ⟨qs, hqs, hr'⟩ := bind_eq_ok_iff.mp hr'
    have hsame := h.sameFactors (isTidy_otherFactors hes) (isTidy_otherFactors hds) hbs hcs hps hqs
    have htidy : ∀ p ∈ ps, p.IsTidy :=
      forall_mem_of_mapM (fun g hg _ => groupPower_isTidy (hgroup g hg)) hps
    rw [finishProduct, hsame.literal,
      sortFactors_of_perm (isTidy_otherFactors htidy) hsame.other] at hr
    exact Except.ok.inj (hr.symm.trans hr')

end AlgebraicForm
