import AlgebraicForm.Proofs.Convergence
import AlgebraicForm.Proofs.LaurentPolynomial
import AlgebraicForm.Proofs.NormalShape

/-!
# Laurent polynomials are multiplied out

One pass over a Laurent polynomial multiplies it out (`IsExpanded`): each term is a product of a
literal and of whole powers of different symbols (`IsReducedTerm`). The builders keep such terms, as
long as literals are raised to exponents within the bound on folding. A tree of such terms is
settled at every node, so that the first pass over a Laurent polynomial comes to its normal form.

* `buildProduct_isReducedTerm`, `buildPower_isReducedTerm`, `buildSum_isExpanded`: the builders.
* `normalPass_isExpanded`: one pass.
* `exists_normalForm_isExpanded`: the normal form, which stands for the same polynomial.
-/

namespace AlgebraicForm

open AlgebraicForm.Expr

namespace Expr

/-! ## Terms that are multiplied out -/

/-- A literal, a symbol or a whole power of a symbol. -/
inductive IsSimple : Expr → Prop
  | literal (v : Number) : IsSimple (number v)
  | symbol (n : String) : IsSimple (symbol n)
  | power (n : String) (k : ℤ) : IsSimple (power (.symbol n) (rat k))

/-- Literals and whole powers of different symbols. -/
structure AreReduced (fs : List Expr) : Prop where
  simple : ∀ f ∈ fs, f.IsSimple
  distinct : DistinctBases (otherFactors fs)

/-- A literal, a whole power of a symbol, or a product of such factors of different symbols. -/
def IsReducedTerm (t : Expr) : Prop :=
  AreReduced t.factors

/-- A reduced term, or a sum of such terms. -/
def IsExpanded (e : Expr) : Prop :=
  ∀ t ∈ e.terms, t.IsReducedTerm

namespace IsSimple

variable {f : Expr}

theorem isProduct (h : f.IsSimple) : f.isProduct = false := by
  cases h <;> rfl

theorem isSum (h : f.IsSimple) : f.isSum = false := by
  cases h <;> rfl

theorem splitPower (h : f.IsSimple) (hnumber : f.isNumber = false) :
    ∃ (n : String) (k : ℤ), f.splitPower = (.symbol n, rat k) := by
  cases h with
  | literal v => cases hnumber
  | symbol n => exact ⟨n, 1, by simp [Expr.splitPower, one]⟩
  | power n k => exact ⟨n, k, rfl⟩

theorem isReducedTerm (h : f.IsSimple) : f.IsReducedTerm := by
  rw [IsReducedTerm, factors_of_isProduct_eq_false h.isProduct]
  refine ⟨List.forall_mem_singleton.mpr h, ?_⟩
  have hsublist := (List.filter_sublist (p := fun g : Expr => !g.isNumber) (l := [f])).map
    fun g => g.splitPower.1
  exact hsublist.nodup (List.nodup_singleton _)

end IsSimple

namespace AreReduced

variable {fs gs : List Expr}

theorem perm (h : AreReduced fs) (hperm : gs.Perm fs) : AreReduced gs :=
  ⟨fun g hg => h.simple g (hperm.mem_iff.mp hg),
    ((hperm.filter _).map _).nodup_iff.mpr h.distinct⟩

theorem cons_number (v : Number) (h : AreReduced fs) : AreReduced (number v :: fs) :=
  ⟨List.forall_mem_cons.mpr ⟨.literal v, h.simple⟩, h.distinct⟩

theorem of_cons_number {v : Number} (h : AreReduced (number v :: fs)) : AreReduced fs :=
  ⟨(List.forall_mem_cons.mp h.simple).2, h.distinct⟩

theorem ofFactors (h : AreReduced fs) : (ofFactors fs).IsReducedTerm := by
  rwa [IsReducedTerm, factors_ofFactors fun f hf => (h.simple f hf).isProduct]

theorem withCoefficient (v : Number) (h : AreReduced fs) :
    (withCoefficient v fs).IsReducedTerm := by
  unfold AlgebraicForm.withCoefficient
  split
  · exact h.ofFactors
  · exact h.cons_number v

end AreReduced

namespace IsReducedTerm

variable {t : Expr}

theorem literal (v : Number) : (number v).IsReducedTerm :=
  (IsSimple.literal v).isReducedTerm

theorem isSimple (h : t.IsReducedTerm) (hproduct : t.isProduct = false) : t.IsSimple := by
  rw [IsReducedTerm, factors_of_isProduct_eq_false hproduct] at h
  exact h.simple t List.mem_cons_self

theorem isSum (h : t.IsReducedTerm) : t.isSum = false := by
  cases t with
  | product fs => rfl
  | _ => exact (h.isSimple rfl).isSum

theorem isExpanded (h : t.IsReducedTerm) : t.IsExpanded := by
  cases t with
  | sum ts => cases h.isSum
  | _ => exact List.forall_mem_singleton.mpr h

end IsReducedTerm

/-- The coefficient of a term plays no part. -/
theorem termProperty_isReducedTerm : TermProperty IsReducedTerm where
  number := .literal
  body {t body c} h hsplit := by
    obtain ⟨rest, rfl, rfl⟩ | ⟨-, rfl⟩ := splitCoefficient_eq_some hsplit
    · exact (AreReduced.of_cons_number h).ofFactors
    · exact h
  scale c body h := by
    unfold scale
    split
    · exact h
    · exact h.cons_number c

theorem IsSimple.isSettled {f : Expr} (h : f.IsSimple) : f.Every IsSettledNode := by
  cases h with
  | literal v => exact every_number.mpr trivial
  | symbol n => exact every_symbol.mpr trivial
  | power n k =>
    exact every_power.mpr ⟨trivial, every_symbol.mpr trivial, every_number.mpr trivial⟩

theorem IsReducedTerm.isSettled {t : Expr} (h : t.IsReducedTerm) : t.Every IsSettledNode := by
  cases t with
  | product fs =>
    have hfs : ∀ f ∈ fs, f.IsSimple := h.simple
    refine every_product.mpr ⟨⟨h.distinct, ?_⟩, fun f hf => (hfs f hf).isSettled⟩
    rintro ts rfl
    cases (hfs (sum ts) (by simp)).isSum
  | _ => exact (h.isSimple rfl).isSettled

theorem IsExpanded.isSettled {e : Expr} (h : e.IsExpanded) : e.Every IsSettledNode := by
  cases e with
  | sum ts =>
    have hts : ∀ t ∈ ts, t.IsReducedTerm := h
    exact every_sum.mpr ⟨fun t ht => (hts t ht).isSum, fun t ht => (hts t ht).isSettled⟩
  | _ => exact (List.forall_mem_singleton.mp h).isSettled

end Expr

/-! ## The builders -/

/-- A sum of expanded sums is expanded. -/
theorem buildSum_isExpanded {es : List Expr} {r : Expr} (hes : ∀ e ∈ es, e.IsExpanded)
    (h : buildSum .unbounded es = .ok r) : r.IsExpanded := by
  obtain ⟨ts, rfl, hts⟩ := (buildSum_ends termProperty_isReducedTerm hes).result r h
  unfold ofSortedTerms
  split
  · exact (IsReducedTerm.literal _).isExpanded
  · exact (hts _ List.mem_cons_self).isExpanded
  · exact hts

/-- A whole power of a symbol is simple, and if it is no literal it has that symbol as its base. -/
theorem buildPower_symbol {s : Settings} {fuel : Nat} {n : String} {k : ℤ} {r : Expr}
    (h : buildPower s fuel (symbol n) (rat k) = .ok r) :
    r.IsSimple ∧ (r.isNumber = false → r.splitPower.1 = symbol n) := by
  cases fuel with
  | zero => simp [buildPower] at h
  | succ fuel =>
    cases buildPower_eq_ok (isExact_symbol n) (isExact_rat _) h with
    | literal h =>
      generalize rat k = p at h
      cases h with
      | power_zero => exact ⟨.literal _, fun h => by cases h⟩
      | power_one => exact ⟨.symbol n, fun _ => rfl⟩
    | plain => exact ⟨.power n k, fun _ => rfl⟩

/-- The exponents of one symbol add up to a whole literal. -/
theorem mergeExponents_whole {s : Settings} {es : List Expr} {e : Expr}
    (hes : ∀ e ∈ es, ∃ k : ℤ, e = rat k) (h : mergeExponents s es = .ok e) :
    ∃ k : ℤ, e = rat k := by
  have hexact : ∀ e ∈ es, e.IsExact := by
    intro e he
    obtain ⟨k, rfl⟩ := hes e he
    exact isExact_rat _
  unfold mergeExponents at h
  split at h
  next e' =>
    cases h
    exact hes e List.mem_cons_self
  next =>
    have hr := isIntegerNumber_of_buildSum hexact
      (fun e he => (isIntegerNumber_iff (hexact e he)).mpr (hes e he)) h
    exact (isIntegerNumber_iff ((buildSum_rewrites hexact h).isExact
      (isExact_sum.mpr hexact))).mp hr

/-- The groups of simple factors are symbols with whole exponents. -/
theorem Collects.symbol {fs : List Expr} {bs : List (Expr × List Expr)} (h : Collects fs bs)
    (hfs : ∀ f ∈ fs, f.IsSimple ∧ f.isNumber = false) {g : Expr × List Expr} (hg : g ∈ bs) :
    ∃ n, g.1 = symbol n ∧ ∀ e ∈ g.2, ∃ k : ℤ, e = rat k := by
  have hsplit : ∀ f ∈ fs, ∃ (n : String) (k : ℤ), f.splitPower = (Expr.symbol n, rat k) :=
    fun f hf => (hfs f hf).1.splitPower (hfs f hf).2
  obtain ⟨f, hf, hbase⟩ := List.mem_map.mp ((h.bases g.1).mp (List.mem_map_of_mem hg))
  obtain ⟨n, k, hnk⟩ := hsplit f hf
  refine ⟨n, by rw [← hbase, hnk], fun e he => ?_⟩
  rw [h.exponents g hg, exponentsOf] at he
  obtain ⟨f', hf', rfl⟩ := List.mem_map.mp he
  obtain ⟨n', k', hnk'⟩ := hsplit f' (List.mem_filter.mp hf').1
  exact ⟨k', by rw [hnk']⟩

/-- The powers of symbols are simple, and at most one of them has each symbol as its base. -/
theorem mapM_groupPower_simple {s : Settings} {fuel : Nat} {bs : List (Expr × List Expr)}
    {ps : List Expr} (hbs : ∀ g ∈ bs, ∃ n, g.1 = symbol n ∧ ∀ e ∈ g.2, ∃ k : ℤ, e = rat k)
    (h : bs.mapM (groupPower s (buildPower s fuel)) = .ok ps) :
    (∀ p ∈ ps, p.IsSimple) ∧
      ((otherFactors ps).map fun p => p.splitPower.1).Sublist (bs.map (·.1)) := by
  have hpowers := mapM_eq_ok_iff.mp h
  clear h
  induction hpowers with
  | nil => exact ⟨List.forall_mem_nil _, .slnil⟩
  | @cons g p bs ps hp _ ih =>
    rw [List.forall_mem_cons] at hbs
    obtain ⟨⟨n, hn, hwhole⟩, hbs⟩ := hbs
    obtain ⟨hps, hsublist⟩ := ih hbs
    obtain ⟨e, hmerge, hraise⟩ := bind_eq_ok_iff.mp hp
    obtain ⟨k, rfl⟩ := mergeExponents_whole hwhole hmerge
    rw [hn] at hraise
    obtain ⟨hsimple, hbase⟩ := buildPower_symbol hraise
    refine ⟨List.forall_mem_cons.mpr ⟨hsimple, hps⟩, ?_⟩
    -- an exponent of zero makes a literal, which leaves no base behind
    cases hnumber : p.isNumber with
    | true =>
      have hother : otherFactors (p :: ps) = otherFactors ps := by simp [otherFactors, hnumber]
      rw [hother, List.map_cons]
      exact hsublist.cons _
    | false =>
      rw [otherFactors_cons hnumber, List.map_cons, List.map_cons, hbase hnumber, hn]
      exact hsublist.cons_cons _

theorem finishProduct_isReducedTerm {fuel : Nat} {v : Number} {fs : List Expr} {r : Expr}
    (hfs : AreReduced fs) (h : finishProduct .unbounded fuel v fs = .ok r) : r.IsReducedTerm := by
  unfold finishProduct at h
  split at h
  next =>
    cases h
    exact .literal _
  next =>
    obtain ⟨gs, hsort, h⟩ := bind_eq_ok_iff.mp h
    have hgs := hfs.perm (sortFactors_perm hsort)
    split at h
    next =>
      cases h
      exact .literal _
    -- a sum is not simple, so that there is no sign to distribute
    next ts => cases (hgs.simple (sum ts) List.mem_cons_self).isSum
    next =>
      cases h
      exact hgs.withCoefficient v

/-- A product of simple factors is a reduced term. -/
theorem buildProduct_isReducedTerm {fuel : Nat} {es : List Expr} {r : Expr}
    (hes : ∀ e ∈ es, e.IsTidy) (hsimple : ∀ e ∈ es, ∀ f ∈ e.factors, f.IsSimple)
    (h : buildProduct .unbounded fuel es = .ok r) : r.IsReducedTerm := by
  cases fuel with
  | zero => simp [buildProduct] at h
  | succ fuel =>
    obtain ⟨bs, hbs, hproduct⟩ := exists_buildProduct_eq fuel fun e he => (hes e he).isBuilt
    rw [hproduct] at h
    split at h
    next =>
      cases h
      exact .literal _
    next =>
      obtain ⟨ps, hraise, h⟩ := bind_eq_ok_iff.mp h
      -- each base is a symbol of its own, and so is the base of the power that is built of it
      have hfactor : ∀ f ∈ otherFactors (es.flatMap factors), f.IsSimple ∧ f.isNumber = false := by
        intro f hf
        obtain ⟨hmem, hnumber⟩ := mem_otherFactors.mp hf
        obtain ⟨e, he, hfe⟩ := List.mem_flatMap.mp hmem
        exact ⟨hsimple e he f hfe, hnumber⟩
      obtain ⟨hps, hsublist⟩ :=
        mapM_groupPower_simple (fun g hg => hbs.symbol hfactor hg) hraise
      rw [flatMap_factors_eq_self fun p hp => (hps p hp).isProduct] at h
      refine finishProduct_isReducedTerm ⟨fun f hf => hps f (mem_otherFactors.mp hf).1, ?_⟩ h
      rw [(otherFactors_eq_self fun f hf => (mem_otherFactors.mp hf).2).1]
      exact hsublist.nodup hbs.distinct

/-- A power that its literals decide is its base or a literal, but for zero to the power zero. -/
theorem LiteralPower.eq_base_or_number {s : Settings} {b p r : Expr} (h : LiteralPower s b p r)
    (hzero : b = zero → p ≠ zero) : r = b ∨ ∃ v, r = number v := by
  cases h with
  | zero_zero => exact absurd rfl (hzero rfl)
  | power_one => exact .inl rfl
  | power_zero | one_power | zero_power | fold => exact .inr ⟨_, rfl⟩

/-- The exponents up to which powers of literals are folded. -/
def FoldsTo (s : Settings) (k : ℤ) : Prop :=
  k.natAbs ≤ s.maxFoldExponent

instance (s : Settings) (k : ℤ) : Decidable (FoldsTo s k) :=
  inferInstanceAs (Decidable (k.natAbs ≤ s.maxFoldExponent))

/-- Within the bound, a power of a literal is always decided. -/
theorem not_isBuilt_power {s : Settings} {q : Rat} {k : ℤ} (hk : FoldsTo s k)
    (hzero : q = 0 → 0 < k) : ¬(power (rat q) (rat k)).IsBuilt s := by
  intro h
  have hnormal := isNormalPower_of_isBuilt h
  by_cases hq : q = 0
  · subst hq
    have hpos : (0 : ℚ) < k := by exact_mod_cast hzero rfl
    exact absurd (hnormal.zero_base rfl k rfl) (not_le.mpr hpos)
  · exact absurd hk (not_le.mpr (hnormal.folded q k rfl rfl hq))

section

variable {fuel : Nat} {k : ℤ} {r : Expr}

theorem buildPower_isSimple {f : Expr} (hf : f.IsSimple) (htidy : f.IsTidy)
    (hk : FoldsTo .unbounded k) (hzero : f = zero → 0 < k)
    (h : buildPower .unbounded fuel f (rat k) = .ok r) : r.IsSimple := by
  cases fuel with
  | zero => simp [buildPower] at h
  | succ fuel =>
    have hbuilt := (builders_isBuilt .unbounded (fuel + 1)).2 htidy.isBuilt (isBuilt_rat _) h
    have hdefined : f = zero → rat k ≠ zero := by
      intro hf hrat
      have hcast : (k : ℚ) = 0 := by simpa [zero] using hrat
      rw [Int.cast_eq_zero] at hcast
      have hpos := hzero hf
      omega
    cases hf with
    | literal v =>
      obtain ⟨q, rfl⟩ := htidy.isExact.exists_rat
      cases buildPower_eq_ok htidy.isExact (isExact_rat _) h with
      | literal h =>
        rcases h.eq_base_or_number hdefined with rfl | ⟨v, rfl⟩ <;> exact .literal _
      | plain => exact absurd hbuilt (not_isBuilt_power hk fun hq => hzero (by rw [hq, zero]))
    | symbol n => exact (buildPower_symbol h).1
    | power n j =>
      cases buildPower_eq_ok htidy.isExact (isExact_rat _) h with
      | literal h =>
        rcases h.eq_base_or_number hdefined with rfl | ⟨v, rfl⟩
        · exact .power n j
        · exact .literal v
      -- the exponents multiply to a whole literal, and the base is the symbol again
      | nested i _ hexponent hr =>
        obtain rfl := eq_of_buildProduct_literals hexponent
        rw [← Int.cast_mul] at hr
        exact (buildPower_symbol hr).1
      | plain _ hwhole => exact absurd rfl ((hwhole (isIntegerNumber_intCast k)).1 _ _)

theorem buildPower_isReducedTerm {b : Expr} (hb : b.IsReducedTerm) (htidy : b.IsTidy)
    (hk : FoldsTo .unbounded k) (hzero : b = zero → 0 < k)
    (h : buildPower .unbounded fuel b (rat k) = .ok r) : r.IsReducedTerm := by
  cases fuel with
  | zero => simp [buildPower] at h
  | succ fuel =>
    cases b with
    | product fs =>
      -- a product has no coefficient of zero, so that each factor may be raised to any exponent
      have hnonzero : ∀ f ∈ fs, f ≠ zero := by
        rintro f hf rfl
        cases htidy.isBuilt.eq_zero (List.prod_eq_zero (List.mem_map_of_mem hf))
      cases buildPower_eq_ok htidy.isExact (isExact_rat _) h with
      | literal h =>
        rcases h.eq_base_or_number (fun hfs => by cases hfs) with rfl | ⟨v, rfl⟩
        · exact hb
        · exact .literal v
      | @distributed _ gs _ _ _ hraise hr =>
        have hgs : ∀ g ∈ gs, g.IsTidy ∧ g.IsSimple := by
          intro g hg
          obtain ⟨f, hf, hfg⟩ := exists_mem_of_forall₂ hraise hg
          have hftidy := htidy.of_mem_product f hf
          exact ⟨buildPower_isTidy hftidy (isTidy_rat _) hfg, buildPower_isSimple (hb.simple f hf)
            hftidy hk (fun hzero => absurd hzero (hnonzero f hf)) hfg⟩
        refine buildProduct_isReducedTerm (fun g hg => (hgs g hg).1) (fun g hg => ?_) hr
        exact (hgs g hg).2.isReducedTerm.simple
      | plain _ hwhole => exact absurd rfl ((hwhole (isIntegerNumber_intCast k)).2 _)
    | _ => exact (buildPower_isSimple (hb.isSimple rfl) htidy hk hzero h).isReducedTerm

end

theorem buildProduct_minusOne_isReducedTerm {fuel : Nat} {t r : Expr} (ht : t.IsReducedTerm)
    (htidy : t.IsTidy) (h : buildProduct .unbounded fuel [minusOne, t] = .ok r) :
    r.IsReducedTerm := by
  refine buildProduct_isReducedTerm (List.forall_mem_cons.mpr ⟨isTidy_rat _, ?_⟩)
    (List.forall_mem_cons.mpr ⟨?_, ?_⟩) h
  · exact List.forall_mem_singleton.mpr htidy
  · exact List.forall_mem_singleton.mpr (.literal _)
  · exact List.forall_mem_singleton.mpr ht.simple

/-- The opposite of an expanded sum is expanded: its sign goes to the terms. -/
theorem buildProduct_minusOne_isExpanded {fuel : Nat} {e r : Expr} (he : e.IsExpanded)
    (htidy : e.IsTidy) (h : buildProduct .unbounded (fuel + 2) [minusOne, e] = .ok r) :
    r.IsExpanded := by
  cases e with
  | sum ts =>
    have hts : ∀ t ∈ ts, t.IsReducedTerm := he
    have hbuilt : ∀ d ∈ [minusOne, sum ts], d.IsBuilt .unbounded := by
      simp [minusOne, htidy.isBuilt]
    have hliteral : literalProduct ([minusOne, sum ts].flatMap factors) = -1 := by
      simp [minusOne, factors, literalProduct, literalFactor]
    have hother : otherFactors ([minusOne, sum ts].flatMap factors) = [sum ts] := rfl
    have hresult := buildProduct_distinct hbuilt (List.nodup_singleton _) h
    rw [hliteral, hother] at hresult
    cases hresult with
    | zero hq => norm_num at hq
    | literal _ hnil => cases hnil
    | @negated ts' us _ _ hsum hus hr =>
      obtain rfl : ts = ts' := by simpa using hsum
      refine buildSum_isExpanded (fun u hu => ?_) hr
      obtain ⟨t, ht, htu⟩ := exists_mem_of_forall₂ hus hu
      exact (buildProduct_minusOne_isReducedTerm (hts t ht) (htidy.of_mem_sum t ht) htu).isExpanded
    -- minus one and a lone sum are never left as they are
    | plain _ hsort _ hsign =>
      exact absurd ⟨rfl, List.perm_singleton.mp (sortFactors_perm hsort)⟩ (hsign ts)
  | _ =>
    exact (buildProduct_minusOne_isReducedTerm (List.forall_mem_singleton.mp he) htidy
      h).isExpanded

/-! ## One pass -/

theorem exponent?_named {p : Expr} {k : ℤ} (h : p.exponent? = some k) : p.Every IsNamedNode := by
  rcases exponent?_eq_some h with rfl | rfl
  · exact every_number.mpr trivial
  · exact every_negation.mpr ⟨trivial, every_number.mpr trivial⟩

theorem normalPass_exponent {s : Settings} {p : Expr} {k : ℤ} (h : p.exponent? = some k) :
    normalPass s p = .ok (rat k) := by
  rcases exponent?_eq_some h with rfl | rfl
  · rw [normalPass, Number.canonical_exact]
  · rw [normalPass, normalPass, Number.canonical_exact]
    simp [Number.neg]

section

variable {allowed : ℤ → Prop} {e c : Expr}

theorem Expr.IsMonomial.named (h : IsMonomial allowed e) : e.Every IsNamedNode := by
  induction h with
  | literal q => exact every_number.mpr trivial
  | symbol hn => exact every_symbol.mpr hn
  | negation _ ih => exact every_negation.mpr ⟨trivial, ih⟩
  | product _ ih => exact every_product.mpr ⟨trivial, ih⟩
  | power _ hp _ _ ih => exact every_power.mpr ⟨trivial, ih, exponent?_named hp⟩

theorem Expr.IsLaurent.named (h : IsLaurent allowed e) : e.Every IsNamedNode := by
  induction h with
  | monomial h => exact h.named
  | negation _ ih => exact every_negation.mpr ⟨trivial, ih⟩
  | sum _ ih => exact every_sum.mpr ⟨trivial, ih⟩

/-- A pass that takes a Laurent polynomial to another one does not change what it stands for. -/
theorem laurent_of_normalPass {allowed' : ℤ → Prop} {s : Settings} (he : IsLaurent allowed e)
    (hc : IsLaurent allowed' c) (h : normalPass s e = .ok c) : c.laurent = e.laurent := by
  refine Laurent.ext_eval fun x => ?_
  have hmeaning := (normalPass_rewrites (isExact_of_named he.named) h).refines (.ofPoint x) _
    (meaning_of_isLaurent he)
  rw [meaning_of_isLaurent hc, Option.some.injEq] at hmeaning
  exact hmeaning

end

theorem normalPass_isReducedTerm {e c : Expr} (he : IsMonomial (FoldsTo .unbounded) e)
    (h : normalPass .unbounded e = .ok c) : c.IsReducedTerm := by
  induction he generalizing c with
  | literal q =>
    rw [normalPass] at h
    cases h
    exact .literal _
  | @symbol n =>
    rw [normalPass] at h
    cases h
    exact (IsSimple.symbol n).isReducedTerm
  | negation hd ih =>
    rw [normalPass] at h
    obtain ⟨b, hb, h⟩ := bind_eq_ok_iff.mp h
    split at h
    next v =>
      cases h
      exact .literal _
    next => exact buildProduct_minusOne_isReducedTerm (ih hb) (normalPass_isTidy hd.named hb) h
  | product hfs ih =>
    rw [normalPass] at h
    obtain ⟨cs, hcs, h⟩ := bind_eq_ok_iff.mp h
    have hpass : ∀ c ∈ cs, c.IsTidy ∧ c.IsReducedTerm := by
      intro c hc
      obtain ⟨f, hf, hfc⟩ := exists_mem_of_forall₂ (normalPassAll_eq_ok_iff.mp hcs) hc
      exact ⟨normalPass_isTidy (hfs f hf).named hfc, ih f hf hfc⟩
    exact buildProduct_isReducedTerm (fun c hc => (hpass c hc).1)
      (fun c hc => (hpass c hc).2.simple) h
  | power hb hp hk hzero ih =>
    rw [normalPass, normalPass_exponent hp] at h
    obtain ⟨d, hd, h⟩ := bind_eq_ok_iff.mp h
    rw [ok_bind] at h
    refine buildPower_isReducedTerm (ih hd) (normalPass_isTidy hb.named hd) hk ?_ h
    -- a base that comes to zero stands for zero
    rintro rfl
    have hliteral : IsLaurent (FoldsTo .unbounded) zero := .monomial (.literal 0)
    refine hzero ?_
    rw [← laurent_of_normalPass (.monomial hb) hliteral hd, zero, laurent_rat,
      Laurent.monomial_zero_right]

/-- A pass over a Laurent polynomial multiplies it out. -/
theorem normalPass_isExpanded {e c : Expr} (he : IsLaurent (FoldsTo .unbounded) e)
    (h : normalPass .unbounded e = .ok c) : c.IsExpanded := by
  induction he generalizing c with
  | monomial he => exact (normalPass_isReducedTerm he h).isExpanded
  | negation hd ih =>
    rw [normalPass] at h
    obtain ⟨b, hb, h⟩ := bind_eq_ok_iff.mp h
    split at h
    next v =>
      cases h
      exact (IsReducedTerm.literal _).isExpanded
    next =>
      obtain ⟨fuel, hfuel⟩ := depthBound_eq (weightAll [minusOne, b])
      rw [Settings.product, hfuel] at h
      exact buildProduct_minusOne_isExpanded (ih hb) (normalPass_isTidy hd.named hb) h
  | sum _ ih =>
    rw [normalPass] at h
    obtain ⟨cs, hcs, h⟩ := bind_eq_ok_iff.mp h
    refine buildSum_isExpanded (fun c hc => ?_) h
    obtain ⟨t, ht, htc⟩ := exists_mem_of_forall₂ (normalPassAll_eq_ok_iff.mp hcs) hc
    exact ih t ht htc

/-! ## The normal form -/

section

variable {e : Expr}

theorem Expr.IsSimple.isMonomial (h : e.IsSimple) (htidy : e.IsTidy) :
    IsMonomial (fun _ => True) e := by
  cases h with
  | literal v =>
    obtain ⟨q, rfl⟩ := htidy.isExact.exists_rat
    exact .literal q
  | symbol n => exact .symbol (every_symbol.mp htidy.named)
  | power n k =>
    refine .power (.symbol (every_symbol.mp htidy.base.named)) (exponent?_rat_intCast k) trivial ?_
    rw [laurent_symbol, Laurent.monomial_eq_zero_iff]
    exact fun h => absurd h one_ne_zero

theorem Expr.IsReducedTerm.isMonomial (h : e.IsReducedTerm) (htidy : e.IsTidy) :
    IsMonomial (fun _ => True) e := by
  cases e with
  | product fs =>
    exact .product fun f hf => (h.simple f hf).isMonomial (htidy.of_mem_product f hf)
  | _ => exact (h.isSimple rfl).isMonomial htidy

theorem Expr.IsExpanded.isLaurent (h : e.IsExpanded) (htidy : e.IsTidy) :
    IsLaurent (fun _ => True) e := by
  cases e with
  | sum ts => exact .sum fun t ht => .monomial ((h t ht).isMonomial (htidy.of_mem_sum t ht))
  | _ => exact .monomial ((List.forall_mem_singleton.mp h).isMonomial htidy)

/-- A Laurent polynomial has a normal form, which is multiplied out and stands for the same
polynomial. -/
theorem exists_normalForm_isExpanded (h : IsLaurent (FoldsTo .unbounded) e) :
    ∃ c, normalForm .unbounded e = .ok c ∧ c.IsTidy ∧ c.IsExpanded ∧ c.laurent = e.laurent := by
  obtain ⟨c, hpass, htidy⟩ := exists_normalPass h.named
  have hexpanded := normalPass_isExpanded h hpass
  have hkept := normalPass_of_settled htidy hexpanded.isSettled
  exact ⟨c, normalForm_of_fixpoint (by decide) htidy.isExact hpass hkept, htidy, hexpanded,
    laurent_of_normalPass h (hexpanded.isLaurent htidy) hpass⟩

end

end AlgebraicForm
