import AlgebraicForm.Proofs.Expansion
import Mathlib.Logic.Function.Basic

/-!
# The normal form decides whether Laurent polynomials are equal

A tree that is multiplied out is known from the polynomial it stands for. The factors of a reduced
term are known from its exponents, since each symbol is the base of one factor at most and the
factors are in order. So a weight of bodies is a weight of exponents, and trees that stand for one
polynomial have terms with the same totals.

* `factors_of_exponents`: factors with the same exponents are the same.
* `eq_of_laurent_eq`: trees that are multiplied out and stand for one polynomial are the same.
* `print_normalForm_eq_iff`: normal forms of Laurent polynomials have the same text exactly if the
  polynomials are the same. Only the limit for digits can leave one of them without a text.
-/

namespace AlgebraicForm

open AlgebraicForm.Expr

/-! ## Exponents -/

/-- The exponents of a whole power of a symbol. -/
noncomputable def Expr.exponents (f : Expr) : String →₀ ℤ :=
  match f.splitPower with
  | (symbol n, number (.exact q)) => Finsupp.single n q.num
  | _ => 0

/-- The exponents of a product of factors. -/
noncomputable def totalExponents (fs : List Expr) : String →₀ ℤ :=
  (fs.map exponents).sum

/-- Factors of a reduced term other than its coefficient, in order. -/
structure AreSymbolPowers (fs : List Expr) : Prop where
  simple : ∀ f ∈ fs, f.IsSimple ∧ f.isNumber = false
  tidy : ∀ f ∈ fs, f.IsTidy
  distinct : DistinctBases fs
  ordered : fs.Pairwise FactorsInOrder

theorem exponents_of_splitPower {f : Expr} {n : String} {k : ℤ}
    (h : f.splitPower = (symbol n, rat k)) : f.exponents = Finsupp.single n k := by
  rw [exponents, h]
  show Finsupp.single n (k : ℚ).num = _
  rw [Rat.num_intCast]

theorem totalExponents_cons (f : Expr) (fs : List Expr) :
    totalExponents (f :: fs) = f.exponents + totalExponents fs := by
  rw [totalExponents, List.map_cons, List.sum_cons, totalExponents]

/-- A power of a symbol that a pass has built has an exponent other than zero. -/
theorem Expr.IsSimple.exponent_ne_zero {f : Expr} (h : f.IsSimple) (htidy : f.IsTidy) {n : String}
    {k : ℤ} (hsplit : f.splitPower = (.symbol n, rat k)) : k ≠ 0 := by
  rintro rfl
  cases h with
  | literal v => cases hsplit
  | symbol m => simp [Expr.splitPower, one] at hsplit
  | power m j =>
    have hexponent : rat j = zero := by simpa [zero] using (Prod.mk.inj hsplit).2
    cases (isNormalPower_of_isBuilt htidy.isBuilt).base_of_zero hexponent

section

variable {fs gs : List Expr} {n : String}

/-- A symbol that is the base of no factor has the exponent zero. -/
theorem totalExponents_of_absent (hfs : ∀ f ∈ fs, f.IsSimple ∧ f.isNumber = false)
    (hn : symbol n ∉ fs.map fun f => f.splitPower.1) : totalExponents fs n = 0 := by
  induction fs with
  | nil => rfl
  | cons f fs ih =>
    rw [List.forall_mem_cons] at hfs
    rw [List.map_cons, List.mem_cons, not_or] at hn
    obtain ⟨m, k, hsplit⟩ := hfs.1.1.splitPower hfs.1.2
    have hne : m ≠ n := by
      rintro rfl
      exact hn.1 (by rw [hsplit])
    rw [totalExponents_cons, exponents_of_splitPower hsplit, Finsupp.add_apply, ih hfs.2 hn.2,
      Finsupp.single_eq_of_ne hne.symm, add_zero]

theorem totalExponents_of_mem (hfs : ∀ f ∈ fs, f.IsSimple ∧ f.isNumber = false)
    (hdistinct : DistinctBases fs) {f : Expr} (hf : f ∈ fs) {k : ℤ}
    (hsplit : f.splitPower = (symbol n, rat k)) : totalExponents fs n = k := by
  induction fs with
  | nil => cases hf
  | cons g fs ih =>
    rw [List.forall_mem_cons] at hfs
    obtain ⟨hnew, hdistinct⟩ : g.splitPower.1 ∉ (fs.map fun f => f.splitPower.1) ∧
        DistinctBases fs := List.nodup_cons.mp hdistinct
    rw [totalExponents_cons, Finsupp.add_apply]
    rcases List.mem_cons.mp hf with rfl | hf
    · rw [hsplit] at hnew
      rw [exponents_of_splitPower hsplit, Finsupp.single_eq_same,
        totalExponents_of_absent hfs.2 hnew, add_zero]
    · obtain ⟨m, j, hsplit'⟩ := hfs.1.1.splitPower hfs.1.2
      have hne : m ≠ n := by
        rintro rfl
        exact hnew (List.mem_map.mpr ⟨f, hf, by rw [hsplit, hsplit']⟩)
      rw [exponents_of_splitPower hsplit', Finsupp.single_eq_of_ne hne.symm, zero_add,
        ih hfs.2 hdistinct hf]

theorem mem_of_totalExponents_eq (hfs : AreSymbolPowers fs) (hgs : AreSymbolPowers gs)
    (h : totalExponents fs = totalExponents gs) : ∀ f ∈ fs, f ∈ gs := by
  intro f hf
  obtain ⟨n, k, hsplit⟩ := (hfs.simple f hf).1.splitPower (hfs.simple f hf).2
  -- the exponent is not zero, so that the symbol is the base of a factor on the other side as well
  have hk := totalExponents_of_mem hfs.simple hfs.distinct hf hsplit
  have hne : k ≠ 0 := (hfs.simple f hf).1.exponent_ne_zero (hfs.tidy f hf) hsplit
  rw [h] at hk
  by_cases hmem : symbol n ∈ gs.map fun g => g.splitPower.1
  · obtain ⟨g, hg, hbase⟩ := List.mem_map.mp hmem
    obtain ⟨m, j, hsplit'⟩ := (hgs.simple g hg).1.splitPower (hgs.simple g hg).2
    obtain rfl : m = n := by
      rw [hsplit'] at hbase
      exact symbol.inj hbase
    obtain rfl := (totalExponents_of_mem hgs.simple hgs.distinct hg hsplit').symm.trans hk
    rw [eq_of_splitPower_eq (hfs.tidy f hf) (hgs.tidy g hg) (hsplit.trans hsplit'.symm)]
    exact hg
  · exact absurd (hk.symm.trans (totalExponents_of_absent hgs.simple hmem)) hne

/-- Factors in order with the same exponents are the same. -/
theorem factors_of_exponents (hfs : AreSymbolPowers fs) (hgs : AreSymbolPowers gs)
    (h : totalExponents fs = totalExponents gs) : fs = gs := by
  have hperm : fs.Perm gs :=
    (List.perm_ext_iff_of_nodup hfs.distinct.of_map hgs.distinct.of_map).mpr fun f =>
      ⟨mem_of_totalExponents_eq hfs hgs h f, mem_of_totalExponents_eq hgs hfs h.symm f⟩
  exact hperm.eq_of_pairwise
    (fun f g hf hg => FactorsInOrder.antisymm (hfs.tidy f hf) (hgs.tidy g hg))
    hfs.ordered hgs.ordered

end

/-! ## Reduced terms -/

theorem laurent_of_isSimple {f : Expr} (h : f.IsSimple) (hnumber : f.isNumber = false) :
    f.laurent = Laurent.monomial f.exponents 1 := by
  cases h with
  | literal v => cases hnumber
  | symbol n =>
    rw [exponents_of_splitPower (n := n) (k := 1) (by simp [Expr.splitPower, one]), laurent_symbol]
  | power n k =>
    rw [exponents_of_splitPower (f := power (symbol n) (rat k)) rfl,
      laurent_power (exponent?_rat_intCast k), laurent_symbol,
      Laurent.power_monomial _ (fun h => absurd h one_ne_zero), one_zpow, Finsupp.smul_single,
      smul_eq_mul, mul_one]

/-- A product of simple factors is a monomial: its coefficient is the product of the literals, and
its exponents come from the other factors. -/
theorem prod_laurent {fs : List Expr} (hfs : ∀ f ∈ fs, f.IsSimple ∧ f.IsExact) :
    (fs.map laurent).prod =
      Laurent.monomial (totalExponents (otherFactors fs)) (literalProduct fs) := by
  induction fs with
  | nil => rfl
  | cons f fs ih =>
    rw [List.forall_mem_cons] at hfs
    obtain ⟨⟨hsimple, hexact⟩, hfs⟩ := hfs
    rw [List.map_cons, List.prod_cons, ih hfs]
    rcases hexact.rat_or_isNumber_eq_false with ⟨q, rfl⟩ | hnumber
    · rw [laurent_rat, Laurent.monomial_mul, zero_add, otherFactors_cons_rat,
        literalProduct_cons_rat]
    · rw [laurent_of_isSimple hsimple hnumber, Laurent.monomial_mul, one_mul,
        otherFactors_cons hnumber, literalProduct_cons hnumber, totalExponents_cons]

theorem laurent_eq_prod_factors (e : Expr) : e.laurent = (e.factors.map laurent).prod := by
  cases e with
  | product fs => rw [laurent_product, factors]
  | _ => rw [factors_of_isProduct_eq_false rfl, List.map_singleton, List.prod_singleton]

theorem laurent_eq_sum_terms (e : Expr) : e.laurent = (e.terms.map laurent).sum := by
  cases e with
  | sum ts => rw [laurent_sum, terms]
  | _ => exact (List.sum_singleton).symm

section

variable {t : Expr}

theorem laurent_of_isReducedTerm (h : t.IsReducedTerm) (htidy : t.IsTidy) :
    t.laurent =
      Laurent.monomial (totalExponents (otherFactors t.factors)) (literalProduct t.factors) := by
  rw [laurent_eq_prod_factors]
  exact prod_laurent fun f hf => ⟨h.simple f hf, htidy.isExact.factors f hf⟩

theorem areSymbolPowers_of_isReducedTerm (h : t.IsReducedTerm) (htidy : t.IsTidy) :
    AreSymbolPowers (otherFactors t.factors) where
  simple f hf := ⟨h.simple f (mem_otherFactors.mp hf).1, (mem_otherFactors.mp hf).2⟩
  tidy f hf := (htidy.of_mem_otherFactors f hf).1
  distinct := h.distinct
  ordered := htidy.isBuilt.ordered_otherFactors

end

/-- The body that factors make; without factors there is none. -/
def bodyOf : List Expr → Option Expr
  | [] => none
  | fs => some (ofFactors fs)

theorem splitCoefficient_ofScaled (q : Rat) {fs : List Expr} (hfs : ∀ f ∈ fs, f.IsFactor) :
    (ofScaled q fs).splitCoefficient = (.exact q, bodyOf fs) := by
  cases fs with
  | nil => rfl
  | cons f fs =>
    show (withCoefficient (.exact q) (f :: fs)).splitCoefficient = _
    unfold withCoefficient
    rw [Number.isOne_exact]
    split
    next hq =>
      obtain rfl : q = 1 := by simpa using hq
      rw [isBody_ofFactors (List.cons_ne_nil f fs) hfs]
      simp [Number.ofInt, bodyOf]
    next => rfl

/-! ## Weights -/

/-- The weight of a polynomial: each coefficient times the weight of its exponents. -/
noncomputable def Laurent.weigh (w : (String →₀ ℤ) → ℚ) (f : Laurent) : ℚ :=
  f.coeff.sum fun v q => q * w v

theorem Laurent.weigh_monomial (w : (String →₀ ℤ) → ℚ) (v : String →₀ ℤ) (q : ℚ) :
    Laurent.weigh w (Laurent.monomial v q) = q * w v :=
  Finsupp.sum_single_index (zero_mul _)

theorem Laurent.weigh_add (w : (String →₀ ℤ) → ℚ) (f g : Laurent) :
    Laurent.weigh w (f + g) = Laurent.weigh w f + Laurent.weigh w g :=
  Finsupp.sum_add_index' (fun _ => zero_mul _) fun _ _ _ => add_mul _ _ _

/-- The weight of exponents that corresponds to a weight of bodies. -/
noncomputable def weightOfExponents (w : Option Expr → Rat) : (String →₀ ℤ) → ℚ :=
  Function.extend (fun fs : {fs // AreSymbolPowers fs} => totalExponents fs.1)
    (fun fs => w (bodyOf fs.1)) 0

theorem weightOfExponents_eq (w : Option Expr → Rat) {fs : List Expr} (h : AreSymbolPowers fs) :
    weightOfExponents w (totalExponents fs) = w (bodyOf fs) := by
  have hinjective : Function.Injective
      fun fs : {fs // AreSymbolPowers fs} => totalExponents fs.1 := fun fs gs heq =>
    Subtype.ext (factors_of_exponents fs.2 gs.2 heq)
  exact hinjective.extend_apply _ _ ⟨fs, h⟩

theorem weigh_of_isReducedTerm (w : Option Expr → Rat) {t : Expr} (h : t.IsReducedTerm)
    (htidy : t.IsTidy) : t.weigh w = t.laurent.weigh (weightOfExponents w) := by
  have hfactor : ∀ f ∈ otherFactors t.factors, f.IsFactor := fun f hf =>
    (htidy.of_mem_otherFactors f hf).2
  have hsplit := splitCoefficient_ofScaled (literalProduct t.factors) hfactor
  rw [← htidy.isBuilt.eq_ofScaled.1] at hsplit
  rw [weigh_of_splitCoefficient hsplit, laurent_of_isReducedTerm h htidy, Laurent.weigh_monomial,
    weightOfExponents_eq w (areSymbolPowers_of_isReducedTerm h htidy)]

theorem weighTerms_of_isReducedTerm (w : Option Expr → Rat) {ts : List Expr}
    (h : ∀ t ∈ ts, t.IsReducedTerm ∧ t.IsTidy) :
    weighTerms w ts = (ts.map laurent).sum.weigh (weightOfExponents w) := by
  induction ts with
  | nil => exact Finsupp.sum_zero_index.symm
  | cons t ts ih =>
    rw [List.forall_mem_cons] at h
    rw [weighTerms_cons, List.map_cons, List.sum_cons, Laurent.weigh_add, ih h.2,
      weigh_of_isReducedTerm w h.1.1 h.1.2]

/-! ## Equality -/

/-- Trees that are multiplied out and stand for one polynomial are the same. -/
theorem eq_of_laurent_eq {c d : Expr} (hc : c.IsExpanded) (hd : d.IsExpanded) (hct : c.IsTidy)
    (hdt : d.IsTidy) (h : c.laurent = d.laurent) : c = d := by
  have hterms : ∀ {e : Expr}, e.IsExpanded → e.IsTidy → ∀ t ∈ e.terms, t.IsReducedTerm ∧ t.IsTidy :=
    fun he htidy t ht => ⟨he t ht, isTidy_flatMap_terms (List.forall_mem_singleton.mpr htidy) t
      (by simpa using ht)⟩
  -- whatever the bodies weigh, the terms weigh what their common polynomial does
  refine eq_of_sameTerms hct hdt fun w => ?_
  rw [weighTerms_of_isReducedTerm w (hterms hc hct), weighTerms_of_isReducedTerm w (hterms hd hdt),
    ← laurent_eq_sum_terms, ← laurent_eq_sum_terms, h]

/-- A Laurent polynomial has a normal form with a text, unless the limit for digits stops it, and
this is the text that a tree has which is multiplied out and stands for the same polynomial. -/
theorem form_gives_expanded {p : Expr} (hp : IsLaurent (FoldsTo .standard) p) :
    DigitLimit.standard.Gives (p.form .standard .normal) fun text =>
      ∃ c : Expr, c.IsTidy ∧ c.IsExpanded ∧ c.laurent = p.laurent ∧
        c.print .unlimited = .ok text := by
  obtain ⟨c, hpc, hc, hcx, hcp⟩ := exists_normalForm_isExpanded hp
  obtain ⟨text, htext⟩ := hc.isPrintable.exists_print
  have hform : p.form .unbounded .normal = .ok text := bind_eq_ok_iff.mpr ⟨c, hpc, htext⟩
  exact (form_restricts .standard .normal p).gives hform ⟨c, hc, hcx, hcp, htext⟩

/-- Laurent polynomials have normal forms with texts, unless the limit for digits stops them, and
these have the same text exactly if the polynomials are the same. -/
theorem print_normalForm_eq_iff {p q : Expr} (hp : IsLaurent (FoldsTo .standard) p)
    (hq : IsLaurent (FoldsTo .standard) q) :
    DigitLimit.standard.Gives (p.form .standard .normal) (fun _ => True) ∧
      DigitLimit.standard.Gives (q.form .standard .normal) (fun _ => True) ∧
      ∀ s t, p.form .standard .normal = .ok s → q.form .standard .normal = .ok t →
        (s = t ↔ p.laurent = q.laurent) := by
  have hpform := form_gives_expanded hp
  have hqform := form_gives_expanded hq
  refine ⟨hpform.mono fun _ _ _ => trivial, hqform.mono fun _ _ _ => trivial, ?_⟩
  intro s t hs ht
  obtain ⟨c, hc, hcx, hcp, hctext⟩ := hpform.of_ok hs
  obtain ⟨d, hd, hdx, hdq, hdtext⟩ := hqform.of_ok ht
  rw [← hcp, ← hdq]
  constructor
  · rintro rfl
    rw [eq_of_print_eq hc hd hctext hdtext]
  · intro hlaurent
    obtain rfl := eq_of_laurent_eq hcx hdx hc hd hlaurent
    exact Except.ok.inj (hctext.symm.trans hdtext)

/-- A power of a product, and the product of the powers. As their texts are the same, so are the
polynomials. -/
theorem print_normalForm_eq_iff_power :
    let p := power (product [rat 2, symbol "x"]) (rat (-2))
    let q := product [rat (1 / 4), power (symbol "x") (negation (rat 2))]
    (IsLaurent (FoldsTo .standard) p ∧ IsLaurent (FoldsTo .standard) q ∧
      p.form .standard .normal = .ok "1/(4x^2)" ∧ q.form .standard .normal = .ok "1/(4x^2)") ∧
      p.laurent = q.laurent := by
  intro p q
  have hx : IsMonomial (FoldsTo .standard) (symbol "x") :=
    .symbol (isIdentifier_letter (c := 'x') (by decide))
  have hfolds : FoldsTo .standard (-2) := by decide
  have hp : IsLaurent (FoldsTo .standard) p := by
    refine .monomial (.power (k := -2) (.product ?_) (by decide) hfolds ?_)
    · exact List.forall_mem_cons.mpr ⟨.literal 2, List.forall_mem_singleton.mpr hx⟩
    · have hbase : (product [rat 2, symbol "x"]).laurent =
          Laurent.monomial (Finsupp.single "x" 1) 2 := by
        simp [laurent_product, laurent_rat, laurent_symbol, Laurent.monomial_mul]
      rw [hbase, Laurent.monomial_eq_zero_iff]
      exact fun h => absurd h two_ne_zero
  have hq : IsLaurent (FoldsTo .standard) q := by
    refine .monomial (.product (List.forall_mem_cons.mpr ⟨.literal _, ?_⟩))
    refine List.forall_mem_singleton.mpr (.power (k := -2) hx (by decide) hfolds ?_)
    rw [laurent_symbol, Laurent.monomial_eq_zero_iff]
    exact fun h => absurd h one_ne_zero
  have hpform : p.form .standard .normal = .ok "1/(4x^2)" := by decide +kernel
  have hqform : q.form .standard .normal = .ok "1/(4x^2)" := by decide +kernel
  exact ⟨⟨hp, hq, hpform, hqform⟩,
    ((print_normalForm_eq_iff hp hq).2.2 _ _ hpform hqform).mp rfl⟩

/-- The value of a power of a power of literals may be too long for a text. -/
theorem form_long_literal :
    let p := power (power (rat 20) (rat 64)) (rat 64)
    IsLaurent (FoldsTo .standard) p ∧
      p.form .standard .normal = .error (.tooManyDigits 4300 none) := by
  intro p
  have hfolds : FoldsTo .standard 64 := by decide
  have hinner : IsMonomial (FoldsTo .standard) (power (rat 20) (rat 64)) :=
    .power (k := 64) (.literal 20) (by decide) hfolds fun _ => by decide
  exact ⟨.monomial (.power (k := 64) hinner (by decide) hfolds fun _ => by decide),
    by decide +kernel⟩

end AlgebraicForm
