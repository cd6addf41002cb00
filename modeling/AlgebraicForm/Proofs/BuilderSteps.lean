import AlgebraicForm.NormalForm.Builder
import AlgebraicForm.Proofs.Computation
import AlgebraicForm.Proofs.Tree

/-!
# What the builders do, step by step

The builders go through lists of operands. For each loop this module says once what a step does to
exact operands, as a rule for invariants: a relation between the state of the loop and the operands
still to come that every step keeps holds at the end. Nothing after this module unfolds a builder.

* `collectTerms_invariant`, `collectFactors_invariant`, `buildBases_invariant`: the loops.
* `keyedTerms_eq_ok`, `sortFactors_eq_ok`: the keys by which operands are sorted.
* `buildSum_eq_ok`, `buildProduct_eq_ok`, `buildPower_eq_ok`: how a builder arrives at its result.
-/

namespace AlgebraicForm

open AlgebraicForm.Expr

namespace Expr

/-- Whether an expression is a literal. -/
def isNumber : Expr → Bool
  | number _ => true
  | _ => false

theorem isProduct_of_isNumber {e : Expr} (h : e.isNumber = true) : e.isProduct = false := by
  cases e with
  | number v => rfl
  | _ => cases h

theorem factors_of_isProduct_eq_false {e : Expr} (h : e.isProduct = false) : e.factors = [e] := by
  cases e with
  | product => cases h
  | _ => rfl

/-- An exact expression is a literal fraction or no literal. -/
theorem IsExact.rat_or_isNumber_eq_false {e : Expr} (h : e.IsExact) :
    (∃ a, e = rat a) ∨ e.isNumber = false := by
  cases e with
  | number v =>
    obtain ⟨a, rfl⟩ := h.exists_rat
    exact .inl ⟨a, rfl⟩
  | _ => exact .inr rfl

theorem isExact_ofFactors {fs : List Expr} : (ofFactors fs).IsExact ↔ ∀ f ∈ fs, f.IsExact := by
  unfold ofFactors
  split <;> simp

theorem IsExact.factors {e : Expr} (h : e.IsExact) : ∀ f ∈ e.factors, f.IsExact := by
  cases e <;> simp_all [Expr.factors]

theorem IsExact.terms {e : Expr} (h : e.IsExact) : ∀ t ∈ e.terms, t.IsExact := by
  cases e <;> simp_all [Expr.terms]

theorem IsExact.splitPower {e : Expr} (h : e.IsExact) :
    e.splitPower.1.IsExact ∧ e.splitPower.2.IsExact := by
  cases e <;> simp_all [Expr.splitPower, one]

/-- A term with a body is a product with its coefficient in front, or has no coefficient. -/
theorem splitCoefficient_eq_some {t body : Expr} {c : Number}
    (h : t.splitCoefficient = (c, some body)) :
    (∃ rest, t = product (number c :: rest) ∧ body = ofFactors rest) ∨
      (c = .ofInt 1 ∧ body = t) := by
  unfold splitCoefficient at h
  split at h
  next => cases h
  next v rest =>
    cases h
    exact .inl ⟨rest, rfl, rfl⟩
  next =>
    cases h
    exact .inr ⟨rfl, rfl⟩

theorem splitCoefficient_cases {t : Expr} (h : t.IsExact) :
    (∃ a, t = rat a) ∨ ∃ a body, t.splitCoefficient = (.exact a, some body) ∧ body.IsExact := by
  unfold splitCoefficient
  split
  next v =>
    obtain ⟨a, rfl⟩ := h.exists_rat
    exact .inl ⟨a, rfl⟩
  next v rest =>
    rw [isExact_product, List.forall_mem_cons] at h
    obtain ⟨a, rfl⟩ := h.1.exists_rat
    exact .inr ⟨a, ofFactors rest, rfl, isExact_ofFactors.mpr h.2⟩
  next => exact .inr ⟨1, t, by simp [Number.ofInt], h⟩

end Expr

/-! ## Collecting terms -/

/-- Bodies with their coefficients, as the builder keeps them. -/
def exactGroups (gs : List (Expr × Rat)) : List (Expr × Number) :=
  gs.map fun g => (g.1, .exact g.2)

/-- A coefficient goes to the group of its body, or to a new group at the end. -/
theorem addCoefficient_cases {body : Expr} (c : Rat) {gs : List (Expr × Rat)}
    (hbody : body.IsExact) (hgs : ∀ g ∈ gs, g.1.IsExact) :
    (∃ pre d post, gs = pre ++ (body, d) :: post ∧
      addCoefficient body (.exact c) (exactGroups gs) =
        .ok (exactGroups (pre ++ (body, d + c) :: post))) ∨
    ((∀ g ∈ gs, g.1 ≠ body) ∧
      addCoefficient body (.exact c) (exactGroups gs) = .ok (exactGroups (gs ++ [(body, c)]))) := by
  induction gs with
  | nil => exact .inr ⟨by simp, by simp [addCoefficient, exactGroups, Number.ofInt]⟩
  | cons g gs ih =>
    obtain ⟨other, d⟩ := g
    rw [List.forall_mem_cons] at hgs
    by_cases h : other = body
    · subst h
      have hsame := (same_iff_eq hgs.1 other hgs.1).mpr rfl
      exact .inl ⟨[], d, gs, rfl, by simp [addCoefficient, exactGroups, hsame]⟩
    · have hsame : ¬other.same body = true := fun hs => h ((same_iff_eq hgs.1 body hbody).mp hs)
      obtain ⟨pre, e, post, rfl, heq⟩ | ⟨hne, heq⟩ := ih hgs.2
      · refine .inl ⟨(other, d) :: pre, e, post, rfl, ?_⟩
        simp only [exactGroups, List.map_append, List.map_cons] at heq ⊢
        simp [addCoefficient, hsame, heq]
      · refine .inr ⟨by simpa [h] using hne, ?_⟩
        simp only [exactGroups, List.map_append, List.map_cons] at heq ⊢
        simp [addCoefficient, hsame, heq]

/-- The loop over terms: an invariant that each literal and each body keeps holds at the end. -/
theorem collectTerms_invariant {I : Rat → List (Expr × Rat) → List Expr → Prop}
    (literal : ∀ k gs a ts, I k gs (rat a :: ts) → I (k + a) gs ts)
    (known : ∀ k pre body d post t c ts, t.splitCoefficient = (.exact c, some body) →
      I k (pre ++ (body, d) :: post) (t :: ts) → I k (pre ++ (body, d + c) :: post) ts)
    (new : ∀ k gs body t c ts, t.splitCoefficient = (.exact c, some body) →
      (∀ g ∈ gs, g.1 ≠ body) → I k gs (t :: ts) → I k (gs ++ [(body, c)]) ts)
    {k : Rat} {gs : List (Expr × Rat)} {ts : List Expr}
    (hgs : ∀ g ∈ gs, g.1.IsExact) (hts : ∀ t ∈ ts, t.IsExact) (h : I k gs ts) :
    ∃ k' gs', collectTerms (.exact k) (exactGroups gs) ts = .ok (.exact k', exactGroups gs') ∧
      (∀ g ∈ gs', g.1.IsExact) ∧ I k' gs' [] := by
  induction ts generalizing k gs with
  | nil => exact ⟨k, gs, rfl, hgs, h⟩
  | cons t ts ih =>
    rw [List.forall_mem_cons] at hts
    obtain ⟨a, rfl⟩ | ⟨c, body, hsplit, hbody⟩ := splitCoefficient_cases hts.1
    · obtain ⟨k', gs', heq, hgs', h'⟩ := ih hgs hts.2 (literal k gs a ts h)
      exact ⟨k', gs', by simpa [collectTerms, splitCoefficient] using heq, hgs', h'⟩
    · obtain ⟨pre, d, post, rfl, hadd⟩ | ⟨hne, hadd⟩ := addCoefficient_cases c hbody hgs
      · have hgs₁ : ∀ g ∈ pre ++ (body, d + c) :: post, g.1.IsExact := by
          simpa [or_imp, forall_and] using hgs
        obtain ⟨k', gs', heq, hgs', h'⟩ :=
          ih hgs₁ hts.2 (known k pre body d post t c ts hsplit h)
        exact ⟨k', gs', by simpa [collectTerms, hsplit, hadd] using heq, hgs', h'⟩
      · have hgs₁ : ∀ g ∈ gs ++ [(body, c)], g.1.IsExact := by
          simpa [or_imp, forall_and, hbody] using hgs
        obtain ⟨k', gs', heq, hgs', h'⟩ := ih hgs₁ hts.2 (new k gs body t c ts hsplit hne h)
        exact ⟨k', gs', by simpa [collectTerms, hsplit, hadd] using heq, hgs', h'⟩

/-- The terms that are left of groups, with the keys they are sorted by. -/
theorem keyedTerms_eq_ok {s : Settings} {gs : List (Expr × Rat)}
    {ks : List ((List Char × Number) × Expr)}
    (h : keyedTerms s (exactGroups gs) = .ok ks) :
    List.Forall₂ (fun g k => g.1.text s.digits = .ok k.1.1 ∧ k.1.2 = .exact g.2 ∧
      k.2 = scale (.exact g.2) g.1) (gs.filter (·.2 ≠ 0)) ks := by
  induction gs generalizing ks with
  | nil =>
    obtain rfl : [] = ks := by simpa [keyedTerms, exactGroups] using h
    exact .nil
  | cons g gs ih =>
    obtain ⟨body, c⟩ := g
    simp only [exactGroups, List.map_cons, keyedTerms, Number.isZero_exact] at h
    by_cases hc : c = 0
    · rw [if_pos (by simpa using hc)] at h
      rw [List.filter_cons_of_neg (by simpa using hc)]
      exact ih h
    · rw [if_neg (by simpa using hc)] at h
      rw [List.filter_cons_of_pos (by simpa using hc)]
      obtain ⟨key, hkey, h⟩ := bind_eq_ok_iff.mp h
      obtain ⟨later, hlater, h⟩ := bind_eq_ok_iff.mp h
      obtain rfl : _ = ks := by simpa using h
      exact .cons ⟨hkey, rfl, rfl⟩ (ih hlater)

/-! ## Collecting factors -/

/-- An exponent goes to those of its base, or to a new base at the end. -/
theorem addExponent_cases {base : Expr} (e : Expr) {bs : List (Expr × List Expr)}
    (hbase : base.IsExact) (hbs : ∀ g ∈ bs, g.1.IsExact) :
    (∃ pre es post, bs = pre ++ (base, es) :: post ∧
      addExponent base e bs = pre ++ (base, es ++ [e]) :: post) ∨
    ((∀ g ∈ bs, g.1 ≠ base) ∧ addExponent base e bs = bs ++ [(base, [e])]) := by
  induction bs with
  | nil => exact .inr ⟨by simp, rfl⟩
  | cons g bs ih =>
    obtain ⟨other, es⟩ := g
    rw [List.forall_mem_cons] at hbs
    by_cases h : other = base
    · subst h
      have hsame := (same_iff_eq hbs.1 other hbs.1).mpr rfl
      exact .inl ⟨[], es, bs, rfl, by simp [addExponent, hsame]⟩
    · have hsame : ¬other.same base = true := fun hs => h ((same_iff_eq hbs.1 base hbase).mp hs)
      obtain ⟨pre, ds, post, rfl, heq⟩ | ⟨hne, heq⟩ := ih hbs.2
      · exact .inl ⟨(other, es) :: pre, ds, post, rfl, by simp [addExponent, hsame, heq]⟩
      · exact .inr ⟨by simpa [h] using hne, by simp [addExponent, hsame, heq]⟩

/-- The loop over factors: an invariant that each literal and each power keeps holds at the end. -/
theorem collectFactors_invariant {I : Rat → List (Expr × List Expr) → List Expr → Prop}
    (literal : ∀ q bs a fs, I q bs (rat a :: fs) → I (q * a) bs fs)
    (known : ∀ q pre b es post f e fs, f.isNumber = false → f.splitPower = (b, e) →
      I q (pre ++ (b, es) :: post) (f :: fs) → I q (pre ++ (b, es ++ [e]) :: post) fs)
    (new : ∀ q bs b f e fs, f.isNumber = false → f.splitPower = (b, e) → (∀ g ∈ bs, g.1 ≠ b) →
      I q bs (f :: fs) → I q (bs ++ [(b, [e])]) fs)
    {q : Rat} {bs : List (Expr × List Expr)} {fs : List Expr}
    (hbs : ∀ g ∈ bs, g.1.IsExact ∧ ∀ e ∈ g.2, e.IsExact) (hfs : ∀ f ∈ fs, f.IsExact)
    (h : I q bs fs) :
    ∃ q' bs', collectFactors (.exact q) bs fs = .ok (.exact q', bs') ∧
      (∀ g ∈ bs', g.1.IsExact ∧ ∀ e ∈ g.2, e.IsExact) ∧ I q' bs' [] := by
  induction fs generalizing q bs with
  | nil => exact ⟨q, bs, rfl, hbs, h⟩
  | cons f fs ih =>
    rw [List.forall_mem_cons] at hfs
    obtain ⟨a, rfl⟩ | hf := hfs.1.rat_or_isNumber_eq_false
    · obtain ⟨q', bs', heq, hbs', h'⟩ := ih hbs hfs.2 (literal q bs a fs h)
      exact ⟨q', bs', by simpa [collectFactors] using heq, hbs', h'⟩
    · obtain ⟨hbase, hexponent⟩ := hfs.1.splitPower
      have hstep : ∀ bs, collectFactors (.exact q) bs (f :: fs) =
          collectFactors (.exact q) (addExponent f.splitPower.1 f.splitPower.2 bs) fs := by
        intro bs
        cases f with
        | number v => cases hf
        | _ => rfl
      rw [hstep]
      obtain ⟨pre, es, post, rfl, hadd⟩ | ⟨hne, hadd⟩ :=
        addExponent_cases f.splitPower.2 hbase fun g hg => (hbs g hg).1
      · rw [hadd]
        refine ih ?_ hfs.2 (known q pre f.splitPower.1 es post f f.splitPower.2 fs hf rfl h)
        simp only [List.forall_mem_append, List.forall_mem_cons] at hbs ⊢
        exact ⟨hbs.1, ⟨hbase, hbs.2.1.2, hexponent, by simp⟩, hbs.2.2⟩
      · rw [hadd]
        refine ih ?_ hfs.2 (new q bs f.splitPower.1 f f.splitPower.2 fs hf rfl hne h)
        simp only [List.forall_mem_append, List.forall_mem_singleton]
        exact ⟨hbs, hbase, hexponent⟩

/-- The value of a literal among factors; other factors count as one. -/
def literalFactor : Expr → Rat
  | number (.exact a) => a
  | _ => 1

/-- Literals go into the coefficient, and other factors are appended. -/
theorem absorb_exact (q : Rat) (fs : List Expr) {es : List Expr} (hes : ∀ e ∈ es, e.IsExact) :
    absorb (.exact q) fs es =
      .ok (.exact (q * (es.map literalFactor).prod), fs ++ es.filter (!·.isNumber)) := by
  induction es generalizing q fs with
  | nil => simp [absorb]
  | cons e es ih =>
    rw [List.forall_mem_cons] at hes
    obtain ⟨a, rfl⟩ | he := hes.1.rat_or_isNumber_eq_false
    · simp [absorb, ih _ _ hes.2, literalFactor, isNumber, mul_assoc]
    · have hstep : absorb (.exact q) fs (e :: es) = absorb (.exact q) (fs ++ [e]) es := by
        cases e with
        | number v => cases he
        | _ => rfl
      have hlit : literalFactor e = 1 := by
        cases e with
        | number v => cases he
        | _ => rfl
      simp [hstep, ih _ _ hes.2, hlit, he]

/-- The loop over bases: an invariant that each power keeps holds at the end. -/
theorem buildBases_invariant {s : Settings} {J : Rat → List Expr → List (Expr × List Expr) → Prop}
    {power : Expr → Expr → Except Fault Expr}
    (step : ∀ q fs b es rest e p, mergeExponents s es = .ok e → power b e = .ok p →
      J q fs ((b, es) :: rest) →
      J (q * (p.factors.map literalFactor).prod) (fs ++ p.factors.filter (!·.isNumber)) rest)
    {bs : List (Expr × List Expr)}
    (hexact : ∀ g ∈ bs, ∀ e p, mergeExponents s g.2 = .ok e → power g.1 e = .ok p → p.IsExact)
    {q : Rat} {fs : List Expr} {r : Number × List Expr}
    (h : buildBases s power (.exact q) fs bs = .ok r) (hJ : J q fs bs) :
    ∃ q' fs', r = (.exact q', fs') ∧ J q' fs' [] := by
  induction bs generalizing q fs with
  | nil =>
    obtain rfl : _ = r := by simpa [buildBases] using h
    exact ⟨q, fs, rfl, hJ⟩
  | cons g bs ih =>
    obtain ⟨b, es⟩ := g
    rw [List.forall_mem_cons] at hexact
    rw [buildBases] at h
    obtain ⟨e, he, h⟩ := bind_eq_ok_iff.mp h
    obtain ⟨p, hp, h⟩ := bind_eq_ok_iff.mp h
    rw [absorb_exact q fs (hexact.1 e p he hp).factors] at h
    exact ih hexact.2 h (step q fs b es bs e p he hp hJ)

/-! ## Sorting factors -/

/-- Sorted factors are the factors, arranged by their keys. -/
theorem sortFactors_eq_ok_iff {s : Settings} {fs gs : List Expr} :
    sortFactors s fs = .ok gs ↔
      ∃ ks : List ((List Char × List Char) × Expr),
        List.Forall₂ (fun f k => f.factorKey s.digits = .ok k.1 ∧ k.2 = f) fs ks ∧
        (sortBy (fun a b => factorLe a.1 b.1) ks).map (·.2) = gs := by
  have hkey : ∀ (f : Expr) (k : (List Char × List Char) × Expr),
      (∃ key, f.factorKey s.digits = .ok key ∧ (key, f) = k) ↔
        f.factorKey s.digits = .ok k.1 ∧ k.2 = f := by
    rintro f ⟨key, g⟩
    simp only [Prod.mk.injEq]
    constructor
    · rintro ⟨_, hf, rfl, rfl⟩
      exact ⟨hf, rfl⟩
    · rintro ⟨hf, rfl⟩
      exact ⟨key, hf, rfl, rfl⟩
  simp only [sortFactors, bind_eq_ok_iff, mapM_eq_ok_iff, pure_eq_ok, Except.ok.injEq, hkey]

theorem sortFactors_perm {s : Settings} {fs gs : List Expr} (h : sortFactors s fs = .ok gs) :
    gs.Perm fs := by
  obtain ⟨ks, hks, rfl⟩ := sortFactors_eq_ok_iff.mp h
  have hfs : fs.map id = ks.map (·.2) := map_eq_map_of_forall₂ hks fun f k hk => hk.2.symm
  rw [List.map_id] at hfs
  exact hfs ▸ (sortBy_perm _ ks).map _

/-! ## How a builder arrives at its result -/

/-- The constant in front of a sum, which is left out if it is zero. -/
def constantTerm (k : Rat) : List Expr :=
  if k = 0 then [] else [rat k]

/-- Terms in the order of their keys. -/
def sortedTerms (ks : List ((List Char × Number) × Expr)) : List Expr :=
  (sortBy (fun a b => termLe a.1 b.1) ks).map (·.2)

theorem buildSum_eq_ok {s : Settings} {es : List Expr} {k : Rat} {gs : List (Expr × Rat)} {r : Expr}
    (hcollect : collectTerms (.exact 0) [] (es.flatMap Expr.terms) =
      .ok (.exact k, exactGroups gs)) :
    buildSum s es = .ok r ↔ ∃ ks, keyedTerms s (exactGroups gs) = .ok ks ∧
      ofSortedTerms (constantTerm k ++ sortedTerms ks) = r := by
  have h0 : Number.ofInt 0 = .exact 0 := by simp [Number.ofInt]
  rw [buildSum, h0, hcollect, ok_bind]
  simp only [bind_eq_ok_iff, pure_eq_ok, Except.ok.injEq, constantTerm, sortedTerms,
    Number.isZero_exact, decide_eq_true_eq]
  by_cases hk : k = 0 <;> simp [hk]

/-- How a product comes from its coefficient and its factors. -/
inductive ProductResult (s : Settings) (fuel : Nat) (q : Rat) (fs : List Expr) : Expr → Prop
  | zero : q = 0 → ProductResult s fuel q fs zero
  | literal : q ≠ 0 → fs = [] → ProductResult s fuel q fs (rat q)
  | negated {ts us : List Expr} {r : Expr} : q = -1 → fs = [sum ts] →
      List.Forall₂ (fun t u => buildProduct s fuel [minusOne, t] = .ok u) ts us →
      buildSum s us = .ok r → ProductResult s fuel q fs r
  | plain {gs : List Expr} : q ≠ 0 → sortFactors s fs = .ok gs → gs ≠ [] →
      (∀ ts, ¬(q = -1 ∧ gs = [sum ts])) → ProductResult s fuel q fs (withCoefficient (.exact q) gs)

/-- The product of collected factors: zero if the coefficient is, and else what the powers of the
bases make of it. -/
theorem buildProduct_eq_ok {s : Settings} {fuel : Nat} {es : List Expr} {q : Rat}
    {bs : List (Expr × List Expr)} {r : Expr}
    (hcollect : collectFactors (.exact 1) [] (es.flatMap Expr.factors) = .ok (.exact q, bs))
    (h : buildProduct s (fuel + 1) es = .ok r) :
    (q = 0 ∧ r = zero) ∨ (q ≠ 0 ∧ ∃ c fs, buildBases s (buildPower s fuel) (.exact q) [] bs =
      .ok (c, fs) ∧ ∀ q', c = .exact q' → ProductResult s fuel q' fs r) := by
  have h1 : Number.ofInt 1 = .exact 1 := by simp [Number.ofInt]
  rw [buildProduct, h1, hcollect, ok_bind] at h
  by_cases hq : q = 0
  · obtain rfl : zero = r := by simpa [hq] using h
    exact .inl ⟨hq, rfl⟩
  · simp only [Number.isZero_exact, hq, decide_false, Bool.false_eq_true, ↓reduceIte] at h
    obtain ⟨⟨c, fs⟩, hbases, h⟩ := bind_eq_ok_iff.mp h
    refine .inr ⟨hq, c, fs, hbases, ?_⟩
    rintro q' rfl
    by_cases hq' : q' = 0
    · obtain rfl : zero = r := by simpa [hq'] using h
      exact .zero hq'
    · simp only [Number.isZero_exact, hq', decide_false, Bool.false_eq_true, ↓reduceIte] at h
      obtain ⟨gs, hsort, h⟩ := bind_eq_ok_iff.mp h
      have hperm := sortFactors_perm hsort
      split at h
      next =>
        obtain rfl : rat q' = r := by simpa using h
        exact .literal hq' (List.nil_perm.mp hperm)
      next ts =>
        simp only [Number.isMinusOne_exact, decide_eq_true_eq] at h
        split at h
        next hneg =>
          obtain ⟨us, hus, h⟩ := bind_eq_ok_iff.mp h
          exact .negated hneg (List.singleton_perm.mp hperm).symm (mapM_eq_ok_iff.mp hus) h
        next hneg =>
          obtain rfl : _ = r := by simpa using h
          exact .plain hq' hsort (by simp) fun _ h => hneg h.1
      next hne hnosum =>
        obtain rfl : _ = r := by simpa using h
        exact .plain hq' hsort hne fun ts h => hnosum ts h.2

/-- A power of fractions that folds is a whole power or a square root. -/
theorem foldPower?_eq_some {s : Settings} {x y z : Rat} (h : foldPower? s x y = some z) :
    (∃ k : Int, y = k ∧ k.natAbs ≤ s.maxFoldExponent ∧ ¬(x = 0 ∧ k < 0) ∧ z = x ^ k) ∨
      (y = 1 / 2 ∧ sqrt? x = some z) := by
  unfold foldPower? at h
  split at h
  next hk =>
    obtain ⟨hden, hmax, hzero⟩ := hk
    refine .inl ⟨y.num, ?_, hmax, hzero, (Option.some.inj h).symm⟩
    exact ((Rat.den_eq_one_iff y).mp hden).symm
  next =>
    split at h
    next hy => exact .inr ⟨by simpa [Rat.mkRat_eq_div] using hy, h⟩
    next => simp at h

/-- How a power comes from its literals alone. -/
inductive LiteralPower (s : Settings) : Expr → Expr → Expr → Prop
  | zero_zero : LiteralPower s zero zero (power zero zero)
  | power_zero {b : Expr} : b ≠ zero → LiteralPower s b zero one
  | power_one (b : Expr) : LiteralPower s b one b
  | one_power (p : Expr) : LiteralPower s one p one
  | zero_power {q : Rat} : 0 < q → LiteralPower s zero (rat q) zero
  | fold {x y z : Rat} : foldPower? s x y = some z → LiteralPower s (rat x) (rat y) (rat z)

theorem literalPower?_eq_some {s : Settings} {b p r : Expr} (hb : b.IsExact) (hp : p.IsExact)
    (h : literalPower? s b p = some r) : LiteralPower s b p r := by
  unfold literalPower? at h
  split at h
  next v w =>
    obtain ⟨x, rfl⟩ := hb.exists_rat
    obtain ⟨y, rfl⟩ := hp.exists_rat
    simp only [Number.isZero_exact, Number.isOne_exact, Number.isPositive_exact,
      decide_eq_true_eq, Bool.and_eq_true] at h
    split_ifs at h with hy hx hy hx hzero
    · obtain rfl := Option.some.inj h
      subst hx hy
      exact .zero_zero
    · obtain rfl := Option.some.inj h
      subst hy
      exact .power_zero fun hx' => hx (by simpa [zero] using hx')
    · obtain rfl := Option.some.inj h
      subst hy
      exact .power_one _
    · obtain rfl := Option.some.inj h
      subst hx
      exact .one_power _
    · obtain rfl := Option.some.inj h
      obtain ⟨rfl, hy⟩ := hzero
      exact .zero_power hy
    · obtain ⟨z, hz, rfl⟩ := Option.map_eq_some_iff.mp h
      exact .fold hz
  next w hv =>
    obtain ⟨y, rfl⟩ := hp.exists_rat
    simp only [Number.isZero_exact, Number.isOne_exact, decide_eq_true_eq] at h
    split_ifs at h with hy hy
    · obtain rfl := Option.some.inj h
      subst hy
      exact .power_zero fun hb' => hv _ hb'
    · obtain rfl := Option.some.inj h
      subst hy
      exact .power_one _
  next v hw =>
    obtain ⟨x, rfl⟩ := hb.exists_rat
    simp only [Number.isOne_exact, decide_eq_true_eq, Option.ite_none_right_eq_some,
      Option.some.injEq] at h
    obtain ⟨rfl, rfl⟩ := h
    exact .one_power _
  next => simp at h

theorem Expr.isIntegerNumber_iff {p : Expr} (hp : p.IsExact) :
    p.isIntegerNumber = true ↔ ∃ k : Int, p = rat k := by
  obtain ⟨a, rfl⟩ | hp' := hp.rat_or_isNumber_eq_false
  · simp [isIntegerNumber, Number.isInteger_exact_iff]
  · cases p <;> simp_all [isIntegerNumber, isNumber]

theorem Expr.isIntegerNumber_intCast (k : Int) : (rat k).isIntegerNumber = true :=
  (isIntegerNumber_iff (isExact_rat _)).mpr ⟨k, rfl⟩

/-- How a power comes from its base and its exponent: by its literals, by distributing a whole
exponent over a power or a product, or as it stands. -/
inductive PowerResult (s : Settings) (fuel : Nat) : Expr → Expr → Expr → Prop
  | literal {b p r : Expr} : LiteralPower s b p r → PowerResult s fuel b p r
  | nested {c e q r : Expr} (k : Int) : literalPower? s (power c e) (rat k) = none →
      buildProduct s fuel [e, rat k] = .ok q → buildPower s fuel c q = .ok r →
      PowerResult s fuel (power c e) (rat k) r
  | distributed {fs gs : List Expr} {r : Expr} (k : Int) :
      literalPower? s (product fs) (rat k) = none →
      List.Forall₂ (fun f g => buildPower s fuel f (rat k) = .ok g) fs gs →
      buildProduct s fuel gs = .ok r → PowerResult s fuel (product fs) (rat k) r
  | plain {b p : Expr} : literalPower? s b p = none →
      (p.isIntegerNumber = true → (∀ c e, b ≠ power c e) ∧ ∀ fs, b ≠ product fs) →
      PowerResult s fuel b p (power b p)

theorem buildPower_eq_ok {s : Settings} {fuel : Nat} {b p r : Expr} (hb : b.IsExact)
    (hp : p.IsExact) (h : buildPower s (fuel + 1) b p = .ok r) : PowerResult s fuel b p r := by
  unfold buildPower at h
  split at h
  next e he =>
    obtain rfl : e = r := by simpa using h
    exact .literal (literalPower?_eq_some hb hp he)
  next hnone =>
    split at h
    next hint =>
      obtain ⟨k, rfl⟩ := (isIntegerNumber_iff hp).mp hint
      split at h
      next c e =>
        obtain ⟨q, hq, h⟩ := bind_eq_ok_iff.mp h
        exact .nested k hnone hq h
      next fs =>
        obtain ⟨gs, hgs, h⟩ := bind_eq_ok_iff.mp h
        exact .distributed k hnone (mapM_eq_ok_iff.mp hgs) h
      next hpow hprod =>
        obtain rfl : _ = r := by simpa using h
        exact .plain hnone fun _ => ⟨fun c e => hpow c e, fun fs => hprod fs⟩
    next hint =>
      obtain rfl : _ = r := by simpa using h
      exact .plain hnone fun h => absurd h hint

end AlgebraicForm
