import AlgebraicForm.Proofs.Printing
import AlgebraicForm.Proofs.Settled

/-!
# Trees that their texts bring back

A tree is stable if it has the shape of a normal form at every node, has a text, and holds no
`1/sqrt(q)` for the square `q` of a fraction (`IsStableNode`): such a root is a literal as soon as
it is read back. This module says what the builders make of the parts that a stable tree is read
back as.

* `product_of_sameFactors`: operands with the factors of a stable tree multiply to it, if different
  bases have different texts.
* `power_flipped`: a factor below the line is the reciprocal of what is written there.
* `divide_flipped`: so are several of them with a denominator.
-/

namespace AlgebraicForm

open AlgebraicForm.Expr

/-! ## Stable trees -/

/-- Whether a node is the reciprocal square root of the square of a fraction. -/
def Expr.isReciprocalRoot : Expr → Bool
  | power (number (.exact q)) (number (.exact v)) => q ≠ 0 && v = -1 / 2 && (sqrt? q).isSome
  | _ => false

/-- The shape of a node that its text brings back. -/
structure IsStableNode (e : Expr) : Prop where
  built : IsBuiltNode .unbounded e
  settled : IsSettledNode e
  printable : IsReadableNode (.written .standard True) e
  root : e.isReciprocalRoot = false

/-- The shape of trees that their texts bring back. -/
def Expr.IsStable (e : Expr) : Prop :=
  e.Every IsStableNode

namespace Expr.IsStable

variable {e : Expr}

theorem isBuilt (h : e.IsStable) : e.IsBuilt .unbounded :=
  h.mono fun _ hd => hd.built

theorem isPrintable (h : e.IsStable) : e.IsPrintable :=
  h.mono fun _ hd => hd.printable

theorem isExact (h : e.IsStable) : e.IsExact :=
  h.isBuilt.isExact

end Expr.IsStable

@[simp] theorem isStable_rat (q : Rat) : (rat q).IsStable := by
  refine every_number.mpr ⟨trivial, trivial, trivial, ?_⟩
  simp [isReciprocalRoot]

theorem Expr.IsStable.of_mem_sum {ts : List Expr} (h : (sum ts).IsStable) :
    ∀ t ∈ ts, t.IsStable :=
  (every_sum.mp h).2

theorem Expr.IsStable.of_mem_product {fs : List Expr} (h : (product fs).IsStable) :
    ∀ f ∈ fs, f.IsStable :=
  (every_product.mp h).2

theorem Expr.IsStable.of_mem_call {n : String} {es : List Expr} (h : (call n es).IsStable) :
    ∀ e ∈ es, e.IsStable :=
  (every_call.mp h).2

theorem isStable_power {b p : Expr} (h : (power b p).IsStable) : b.IsStable ∧ p.IsStable :=
  (every_power.mp h).2

theorem Expr.IsPrintable.exists_text {e : Expr} (h : e.IsPrintable) :
    ∃ cs, e.text .unlimited = .ok cs := by
  obtain ⟨b, cs, ks, fs, hprints⟩ := exists_prints h
  exact ⟨cs, hprints.text⟩

theorem Expr.IsPrintable.exists_print {e : Expr} (h : e.IsPrintable) :
    ∃ text, e.print .unlimited = .ok text := by
  obtain ⟨cs, hcs⟩ := h.exists_text
  exact ⟨String.ofList cs, by rw [print, hcs]; rfl⟩

theorem Expr.IsPrintable.exists_factorKey {f : Expr} (h : f.IsPrintable) :
    ∃ k, f.factorKey .unlimited = .ok k := by
  have hsplit : f.splitPower.1.IsPrintable ∧ f.splitPower.2.IsPrintable := by
    cases f with
    | power b p => exact isPrintable_power.mp h
    | _ => exact ⟨h, isPrintable_rat 1⟩
  obtain ⟨base, hbase⟩ := hsplit.1.exists_text
  obtain ⟨exponent, hexponent⟩ := hsplit.2.exists_text
  exact ⟨(base, exponent), by rw [factorKey, hbase, ok_bind, hexponent]; rfl⟩

theorem exists_sortFactors (s : Settings) {fs : List Expr} (h : ∀ f ∈ fs, f.IsPrintable) :
    ∃ gs, sortFactors s.unlimited fs = .ok gs :=
  exists_sorted fun f hf => (h f hf).exists_factorKey

/-! ## Products -/

/-- The factors of a stable tree: its coefficient, and factors in order with different bases. -/
structure StableFactors (q : Rat) (gs : List Expr) : Prop where
  stable : ∀ g ∈ gs, g.IsStable
  factor : ∀ g ∈ gs, g.IsFactor
  distinct : DistinctBases gs
  ordered : gs.Pairwise FactorsInOrder
  sign : ∀ ts, ¬(q = -1 ∧ gs = [sum ts])

theorem Expr.IsStable.stableFactors {e : Expr} (h : e.IsStable) :
    StableFactors (literalProduct e.factors) (otherFactors e.factors) := by
  have hsingle : e.factors = [e] → e.isProduct = false →
      StableFactors (literalProduct e.factors) (otherFactors e.factors) := by
    intro hfactors hproduct
    rw [hfactors]
    cases hnumber : e.isNumber with
    | true =>
      have hother : otherFactors [e] = [] := by simp [otherFactors, hnumber]
      rw [hother]
      exact ⟨by simp, by simp, by simp [DistinctBases], .nil, by simp⟩
    | false =>
      rw [otherFactors_cons hnumber, literalProduct_cons hnumber]
      exact ⟨by simpa using h, by simpa using ⟨hnumber, hproduct⟩, by simp [DistinctBases],
        List.pairwise_singleton _ _, by simp; norm_num⟩
  cases e with
  | product fs =>
    obtain ⟨⟨-, q, gs, -, -, rfl, hgs⟩, -⟩ := isBuilt_product.mp h.isBuilt
    obtain ⟨hdistinct, hsign⟩ := (every_product.mp h).1.settled
    obtain ⟨hother, hone⟩ := otherFactors_eq_self fun g hg => (hgs.factor g hg).1
    show StableFactors (literalProduct (coefficientFactor q ++ gs))
      (otherFactors (coefficientFactor q ++ gs))
    have hq : literalProduct (coefficientFactor q ++ gs) = q := by simp [hone]
    have hfs : otherFactors (coefficientFactor q ++ gs) = gs := by simp [hother]
    rw [hfs] at hdistinct
    rw [hq, hfs]
    refine ⟨fun g hg => h.of_mem_product g (by simp [hg]), hgs.factor, hdistinct, hgs.ordered, ?_⟩
    rintro ts ⟨rfl, rfl⟩
    refine hsign ts ?_
    rw [coefficientFactor, if_neg (by norm_num)]
    rfl
  | _ => exact hsingle rfl rfl

theorem ofScaled_eq {q : Rat} {gs : List Expr} (hne : gs ≠ []) :
    ofScaled q gs = ofFactors (coefficientFactor q ++ gs) := by
  rw [← withCoefficient_eq hne]
  unfold ofScaled
  split
  · exact absurd rfl hne
  · rfl

/-- The product of stable factors is stable and has them as its factors. -/
theorem isStable_ofScaled {q : Rat} {gs : List Expr} (h : StableFactors q gs) (hq : q ≠ 0) :
    (ofScaled q gs).IsStable ∧ literalProduct (ofScaled q gs).factors = q ∧
      otherFactors (ofScaled q gs).factors = gs := by
  obtain ⟨hother, hone⟩ := otherFactors_eq_self fun g hg => (h.factor g hg).1
  by_cases hne : gs = []
  · subst hne
    exact ⟨isStable_rat q, by simp [ofScaled, factors], by simp [ofScaled, factors]⟩
  · have hbuilt := withCoefficient_isBuilt hq hne ⟨h.factor, h.ordered⟩
      fun g hg => (h.stable g hg).isBuilt
    rw [withCoefficient_eq hne] at hbuilt
    have hq' : literalProduct (coefficientFactor q ++ gs) = q := by simp [hone]
    have hgs : otherFactors (coefficientFactor q ++ gs) = gs := by simp [hother]
    rw [ofScaled_eq hne]
    unfold ofFactors at hbuilt ⊢
    split at hbuilt
    next g heq =>
      -- a single factor is its own product
      obtain ⟨hnil, rfl⟩ : coefficientFactor q = [] ∧ gs = [g] := by
        cases hc : coefficientFactor q with
        | nil => exact ⟨rfl, by rw [← heq, hc]; rfl⟩
        | cons c cs => simp [hc, hne] at heq
      have hone' : q = 1 := by rw [← hq', hnil, List.nil_append, hone]
      rw [factors_of_isProduct_eq_false (h.factor g (by simp)).2]
      exact ⟨h.stable g (by simp), hone.trans hone'.symm, hother⟩
    next hsingle =>
      refine ⟨every_product.mpr ⟨⟨hbuilt.self, ⟨?_, ?_⟩,
        by simp [IsReadableNode, hne], ?_⟩, ?_⟩, hq', hgs⟩
      · exact hgs.symm ▸ h.distinct
      · intro ts hts
        have hminus : literalProduct (coefficientFactor q ++ gs) = -1 := by
          rw [hts]
          simp [minusOne, literalProduct, literalFactor]
        have hsum : otherFactors (coefficientFactor q ++ gs) = [sum ts] := by
          rw [hts]
          rfl
        exact h.sign ts ⟨hq'.symm.trans hminus, hgs.symm.trans hsum⟩
      · simp [isReciprocalRoot]
      · rw [List.forall_mem_append]
        refine ⟨?_, h.stable⟩
        unfold coefficientFactor
        split
        · simp
        · exact List.forall_mem_singleton.mpr (isStable_rat q)

/-- Where a sign can be taken out, it is that of the coefficient. -/
theorem Expr.IsBuilt.splitSign_eq {s : Settings} {e m : Expr} (h : e.IsBuilt s)
    (hsplit : e.splitSign = (true, m)) : literalProduct e.factors < 0 ∧
      m = ofScaled (-literalProduct e.factors) (otherFactors e.factors) := by
  cases e with
  | number v =>
    obtain ⟨q, rfl⟩ := h.isExact.exists_rat
    have hq : q < 0 := by
      by_contra hq
      simp [splitSign, hq] at hsplit
    obtain rfl : rat (-q) = m := by simpa [splitSign, hq] using hsplit
    simpa [factors, ofScaled] using hq
  | product fs =>
    obtain ⟨⟨-, q, gs, -, hne, rfl, hgs⟩, hfs⟩ := isBuilt_product.mp h
    obtain ⟨hother, hone⟩ := otherFactors_eq_self fun g hg => (hgs.factor g hg).1
    have hq' : literalProduct (product (coefficientFactor q ++ gs)).factors = q := by
      simp [factors, hone]
    have hgs' : otherFactors (product (coefficientFactor q ++ gs)).factors = gs := by
      simp [factors, hother]
    have hremaining : ∀ es : List Expr, es ≠ [] → ofRemaining es = ofFactors es := by
      intro es hes
      obtain _ | ⟨e, _ | ⟨f, es⟩⟩ := es
      · exact absurd rfl hes
      · rfl
      · rfl
    rw [hq', hgs', ofScaled_eq hne]
    obtain ⟨g, gs, rfl⟩ := List.exists_cons_of_ne_nil hne
    by_cases hq : q = 1
    · -- then the first factor is neither a literal nor a negation
      have hg := hgs.factor g (by simp)
      have hbuilt := hfs g (by simp)
      cases g <;> simp_all [coefficientFactor, splitSign, IsFactor, isNumber, not_isBuilt_negation]
    · rw [coefficientFactor, if_neg hq] at hsplit
      have hneg : q < 0 := by
        by_contra hneg
        simp [splitSign, hneg] at hsplit
      refine ⟨hneg, ?_⟩
      simp only [List.cons_append, List.nil_append, splitSign, Number.isNegative_exact, hneg,
        decide_true, ↓reduceIte, Number.isMinusOne_exact, decide_eq_true_eq, Prod.mk.injEq,
        true_and] at hsplit
      rw [← hsplit, coefficientFactor]
      by_cases hminus : q = -1
      · rw [if_pos hminus, if_pos (by rw [hminus]; norm_num)]
        exact hremaining _ (by simp)
      · rw [if_neg hminus, if_neg fun h => hminus (by linarith)]
        rfl
  | negation d => exact absurd h not_isBuilt_negation
  | _ => simp [splitSign] at hsplit

/-- Taking out a sign changes the sign of the coefficient. -/
theorem Expr.IsStable.magnitude {e m : Expr} (h : e.IsStable) (hsplit : e.splitSign = (true, m)) :
    m.IsStable ∧ literalProduct m.factors = -literalProduct e.factors ∧
      otherFactors m.factors = otherFactors e.factors := by
  have hfactors := h.stableFactors
  obtain ⟨hneg, rfl⟩ := h.isBuilt.splitSign_eq hsplit
  refine isStable_ofScaled ⟨hfactors.stable, hfactors.factor, hfactors.distinct,
    hfactors.ordered, ?_⟩ (by linarith)
  rintro ts ⟨hone, -⟩
  linarith

/-- Different factors of a tree have bases with different texts. -/
def KeysDiffer (e : Expr) : Prop :=
  ∀ f ∈ otherFactors e.factors, ∀ g ∈ otherFactors e.factors,
    f.splitPower.1.text .unlimited = g.splitPower.1.text .unlimited →
      f.splitPower.1 = g.splitPower.1

/-- Two factors that are each in order before the other have bases with the same text. -/
theorem FactorsInOrder.text_eq {f g : Expr} (hf : f.IsPrintable) (hg : g.IsPrintable)
    (h : FactorsInOrder f g) (h' : FactorsInOrder g f) :
    f.splitPower.1.text .unlimited = g.splitPower.1.text .unlimited := by
  have hbase : ∀ {e : Expr} {k : List Char × List Char}, e.factorKey .unlimited = .ok k →
      e.splitPower.1.text .unlimited = .ok k.1 := by
    intro e k hk
    obtain ⟨base, hbase, hk⟩ := bind_eq_ok_iff.mp hk
    obtain ⟨exponent, -, hk⟩ := bind_eq_ok_iff.mp hk
    rw [hbase, ← Except.ok.inj hk]
  obtain ⟨k, hk⟩ := hf.exists_factorKey
  obtain ⟨l, hl⟩ := hg.exists_factorKey
  rw [hbase hk, hbase hl, factorLe_antisymm (h k l hk hl) (h' l k hl hk)]

/-- Operands with the factors of a stable tree multiply to it. -/
theorem product_of_sameFactors {e : Expr} (he : e.IsStable) (hkeys : KeysDiffer e)
    {es : List Expr} (hes : ∀ d ∈ es, d.IsBuilt .unbounded)
    (hsame : SameFactors (es.flatMap factors) e.factors) (fuel : Nat) :
    buildProduct .unbounded (fuel + 2) es = .ok e := by
  obtain ⟨hstable, hfactor, hdistinct, hordered, hsign⟩ := he.stableFactors
  have hdistinct' : DistinctBases (otherFactors (es.flatMap factors)) :=
    (hsame.other.map _).nodup_iff.mpr hdistinct
  by_cases hzero : literalProduct e.factors = 0
  · rw [buildProduct_zero hes hdistinct' (hsame.literal.trans hzero) (fuel + 1),
      he.isBuilt.eq_zero hzero]
  · obtain ⟨gs, hgs⟩ := exists_sortFactors .standard fun f hf =>
      (hstable f (hsame.other.mem_iff.mp hf)).isPrintable
    have hperm := (sortFactors_perm hgs).trans hsame.other
    -- both are in order, and factors with the same keys have the same base
    have hself : gs = otherFactors e.factors := by
      refine hperm.eq_of_pairwise ?_ (sortFactors_pairwise hgs) hordered
      intro f g hf hg hle hge
      have hf := hperm.mem_iff.mp hf
      have htext := hle.text_eq (hstable f hf).isPrintable (hstable g hg).isPrintable hge
      exact List.inj_on_of_nodup_map hdistinct hf hg (hkeys f hf g hg htext)
    subst hself
    have hbuild := buildProduct_settled hes hdistinct' hgs (by rwa [hsame.literal])
      (by rwa [hsame.literal]) fuel
    rw [hbuild, hsame.literal, ← he.isBuilt.eq_ofScaled.1]

/-! ## Factors below the line -/

/-- What is written below the line of a factor with a negative exponent. -/
def Expr.flipped : Expr → Expr
  | power b (number (.exact v)) => if v = -1 then b else power b (rat (-v))
  | e => e

/-- A base that is no literal is decided by an exponent of zero or one only. -/
theorem literalPower?_of_isNumber_eq_false {s : Settings} {b : Expr} {v : Rat}
    (hb : b.isNumber = false) (hzero : v ≠ 0) (hone : v ≠ 1) :
    literalPower? s b (rat v) = none := by
  cases b <;> simp_all [literalPower?, isNumber]

theorem literalPower?_rat {s : Settings} {x v : Rat} (hx : x ≠ 0) (hx' : x ≠ 1) (hzero : v ≠ 0)
    (hone : v ≠ 1) : literalPower? s (rat x) (rat v) = (foldPower? s x v).map rat := by
  simp [literalPower?, hx, hx', hzero, hone]

/-- Where a negative power does not fold, the positive one does not, unless it is a root. -/
theorem foldPower?_neg {s : Settings} {x v : Rat} (hx : x ≠ 0) (hroot : v = -1 / 2 → sqrt? x = none)
    (h : foldPower? s x v = none) : foldPower? s x (-v) = none := by
  unfold foldPower? at h ⊢
  split at h
  next => simp at h
  next hwhole =>
    rw [if_neg]
    · split
      next hhalf =>
        apply hroot
        rw [Rat.mkRat_eq_div] at hhalf
        push_cast at hhalf
        linarith
      next => rfl
    · simpa [hx] using hwhole

/-- The power below the line has the shape of what is built, and the same base. -/
theorem flipped_isBuilt {b : Expr} {v : Rat} (h : (power b (rat v)).IsStable) (hv : v < 0)
    (hb : b.isZeroNumber = false) :
    (power b (rat v)).flipped.IsBuilt .unbounded ∧ (power b (rat v)).flipped.IsPrintable ∧
      (power b (rat v)).flipped.IsFactor ∧ (power b (rat v)).flipped.splitPower.1 = b := by
  obtain ⟨hbs, -⟩ := isStable_power h
  obtain ⟨⟨hliteral, hwhole⟩, -, -⟩ := isBuilt_power.mp h.isBuilt
  have hnone : literalPower? .unbounded b (rat v) = none := by
    rcases hliteral with hnone | ⟨rfl, -⟩
    · exact hnone
    · simp [isZeroNumber, zero] at hb
  have hroot : (power b (rat v)).isReciprocalRoot = false := (every_power.mp h).1.root
  -- for a literal base, neither this power nor the one below the line folds
  have hfold : ∀ x, b = rat x → x ≠ 0 ∧ x ≠ 1 ∧ foldPower? .unbounded x v = none := by
    rintro x rfl
    have hx : x ≠ 0 := by simpa [isZeroNumber] using hb
    have hx' : x ≠ 1 := by
      rintro rfl
      simp [literalPower?, hv.ne, (hv.trans one_pos).ne] at hnone
    rw [literalPower?_rat hx hx' hv.ne (hv.trans one_pos).ne, Option.map_eq_none_iff] at hnone
    exact ⟨hx, hx', hnone⟩
  by_cases hone : v = -1
  · have hflip : (power b (rat v)).flipped = b := by simp [flipped, hone]
    rw [hflip]
    have hinteger : (rat v).isIntegerNumber = true :=
      (isIntegerNumber_iff (isExact_rat v)).mpr ⟨-1, by rw [hone]; norm_num⟩
    obtain ⟨hpower, hproduct⟩ := hwhole hinteger
    refine ⟨hbs.isBuilt, hbs.isPrintable, ⟨?_, ?_⟩, ?_⟩
    · rcases hbs.isExact.rat_or_isNumber_eq_false with ⟨x, rfl⟩ | hnumber
      · obtain ⟨hx, -, hnone⟩ := hfold x rfl
        have hsome : foldPower? .unbounded x v = some (x ^ (-1 : ℤ)) := by
          rw [hone]
          simp [foldPower?, hx]
        rw [hsome] at hnone
        simp at hnone
      · exact hnumber
    · cases b <;> simp_all [isProduct]
    · cases b <;> simp_all [splitPower]
  · have hflip : (power b (rat v)).flipped = power b (rat (-v)) := by simp [flipped, hone]
    rw [hflip]
    have hpos : -v ≠ 0 := by linarith
    have hne : -v ≠ 1 := fun h => hone (by linarith)
    refine ⟨isBuilt_power.mpr ⟨⟨.inl ?_, fun hinteger => hwhole ?_⟩, hbs.isBuilt, isBuilt_rat _⟩,
      isPrintable_power.mpr ⟨hbs.isPrintable, isPrintable_rat _⟩, ⟨rfl, rfl⟩, rfl⟩
    · rcases hbs.isExact.rat_or_isNumber_eq_false with ⟨x, rfl⟩ | hnumber
      · obtain ⟨hx, hx', hnone⟩ := hfold x rfl
        rw [literalPower?_rat hx hx' hpos hne, Option.map_eq_none_iff]
        refine foldPower?_neg hx (fun hhalf => ?_) hnone
        simpa [isReciprocalRoot, hx, hhalf] using hroot
      · exact literalPower?_of_isNumber_eq_false hnumber hpos hne
    · obtain ⟨k, hk⟩ := (isIntegerNumber_iff (isExact_rat _)).mp hinteger
      refine (isIntegerNumber_iff (isExact_rat _)).mpr ⟨-k, ?_⟩
      have hk : -v = k := by simpa using hk
      rw [Int.cast_neg, ← hk, neg_neg]

/-- A factor below the line is the reciprocal of what is written there. -/
theorem power_flipped {b : Expr} {v : Rat} (h : (power b (rat v)).IsStable) (fuel : Nat) :
    buildPower .unbounded (fuel + 3) (power b (rat v)).flipped minusOne =
      .ok (power b (rat v)) := by
  by_cases hone : v = -1
  · subst hone
    exact buildPower_of_isBuilt h.isBuilt (fuel + 2)
  · have hflip : (power b (rat v)).flipped = power b (rat (-v)) := by simp [flipped, hone]
    have hnone : literalPower? .unbounded (power b (rat (-v))) minusOne = none :=
      literalPower?_of_isNumber_eq_false rfl (by norm_num) (by norm_num)
    have hinteger : minusOne.isIntegerNumber = true :=
      (isIntegerNumber_iff (isExact_rat _)).mpr ⟨-1, by norm_num [minusOne]⟩
    have hproduct : buildProduct .unbounded (fuel + 2) [rat (-v), minusOne] = .ok (rat v) := by
      have hlit := buildProduct_literals .unbounded (fuel + 1) [-v, -1]
      simpa [minusOne] using hlit
    rw [hflip]
    unfold buildPower
    simp only [hnone, hinteger, if_true, hproduct, ok_bind]
    exact buildPower_of_isBuilt h.isBuilt (fuel + 1)

/-- The product of a coefficient and factors with different bases, in some order. -/
theorem buildProduct_coefficient {q : Rat} {fs : List Expr} (hq : q ≠ 0) (hsign : q ≠ -1)
    (hfs : ∀ f ∈ fs, f.IsBuilt .unbounded ∧ f.IsPrintable ∧ f.IsFactor)
    (hdistinct : DistinctBases fs) (fuel : Nat) :
    ∃ gs, gs.Perm fs ∧ gs.Pairwise FactorsInOrder ∧
      buildProduct .unbounded (fuel + 2) (coefficientFactor q ++ fs) = .ok (ofScaled q gs) := by
  obtain ⟨hother, hone⟩ := otherFactors_eq_self fun f hf => (hfs f hf).2.2.1
  have hflat : (coefficientFactor q ++ fs).flatMap factors = coefficientFactor q ++ fs := by
    apply flatMap_factors_eq_self
    rw [List.forall_mem_append]
    refine ⟨?_, fun f hf => (hfs f hf).2.2.2⟩
    unfold coefficientFactor
    split <;> simp [isProduct]
  have hlit : literalProduct ((coefficientFactor q ++ fs).flatMap factors) = q := by
    rw [hflat]
    simp [hone]
  have hgs : otherFactors ((coefficientFactor q ++ fs).flatMap factors) = fs := by
    rw [hflat]
    simp [hother]
  obtain ⟨gs, hsort⟩ := exists_sortFactors .standard fun f hf => (hfs f hf).2.1
  have hbuilt : ∀ f ∈ coefficientFactor q ++ fs, f.IsBuilt .unbounded := by
    rw [List.forall_mem_append]
    refine ⟨?_, fun f hf => (hfs f hf).1⟩
    unfold coefficientFactor
    split <;> simp
  refine ⟨gs, sortFactors_perm hsort, sortFactors_pairwise hsort, ?_⟩
  have hbuild := buildProduct_settled hbuilt (by rwa [hgs]) (by rwa [hgs]) (by rwa [hlit])
    (fun ts h => hsign (hlit.symm.trans h.1)) fuel
  rwa [hlit] at hbuild

theorem ofScaled_of_singleton {q : Rat} {fs gs : List Expr} {x : Expr} (hperm : gs.Perm fs)
    (h : coefficientFactor q ++ fs = [x]) : ofScaled q gs = x := by
  by_cases hq : q = 1
  · subst hq
    obtain rfl : fs = [x] := by simpa [coefficientFactor] using h
    rw [List.perm_singleton.mp hperm, ofScaled_eq (by simp)]
    simp [coefficientFactor, ofFactors]
  · rw [coefficientFactor, if_neg hq] at h
    obtain ⟨rfl, rfl⟩ := List.cons.inj h
    rw [List.perm_nil.mp hperm, ofScaled]

theorem power_rat_minusOne {d : Rat} (hd : 0 < d) (fuel : Nat) :
    buildPower .unbounded (fuel + 1) (rat d) minusOne = .ok (rat d⁻¹) := by
  by_cases hone : d = 1
  · subst hone
    simp [buildPower, literalPower?, minusOne, one]
  · have hliteral : literalPower? .unbounded (rat d) minusOne = some (rat d⁻¹) := by
      rw [minusOne, literalPower?_rat hd.ne' hone (by norm_num) (by norm_num)]
      simp [foldPower?, hd.ne']
    unfold buildPower
    rw [hliteral]

/-- The exponent minus one is distributed over powers below the line. -/
theorem divide_product {d : Rat} (hd : 0 < d) {fs : List Expr}
    (hfs : ∀ f ∈ fs, f.IsStable ∧ f.isDivided = true) (hdistinct : DistinctBases fs)
    (fuel : Nat) : ∃ r, SameFactors r.factors (rat d⁻¹ :: fs) ∧
      buildPower .unbounded (fuel + 4) (product (coefficientFactor d ++ fs.map flipped)) minusOne =
        .ok r := by
  have hinv : 0 < d⁻¹ := inv_pos.mpr hd
  have hfactor : ∀ f ∈ fs, f.IsFactor := by
    intro f hf
    obtain ⟨b, v, rfl, -⟩ := divided_of_isDivided (hfs f hf).1.isExact (hfs f hf).2
    exact ⟨rfl, rfl⟩
  have hpowers : List.Forall₂ (fun g f => buildPower .unbounded (fuel + 3) g minusOne = .ok f)
      (coefficientFactor d ++ fs.map flipped) (coefficientFactor d⁻¹ ++ fs) := by
    refine List.rel_append ?_ ?_
    · unfold coefficientFactor
      by_cases hone : d = 1
      · simp [hone]
      · rw [if_neg hone, if_neg (by simpa using hone)]
        exact .cons (power_rat_minusOne hd _) .nil
    · rw [List.forall₂_map_left_iff, List.forall₂_same]
      intro f hf
      obtain ⟨b, v, rfl, -⟩ := divided_of_isDivided (hfs f hf).1.isExact (hfs f hf).2
      exact power_flipped (hfs _ hf).1 fuel
  obtain ⟨gs, hperm, hordered, hbuild⟩ := buildProduct_coefficient hinv.ne' (by linarith)
    (fun f hf => ⟨(hfs f hf).1.isBuilt, (hfs f hf).1.isPrintable, hfactor f hf⟩) hdistinct
    (fuel + 1)
  have hmem : ∀ g ∈ gs, g ∈ fs := fun g hg => hperm.mem_iff.mp hg
  obtain ⟨-, hlit, hother⟩ := isStable_ofScaled (q := d⁻¹)
    ⟨fun g hg => (hfs g (hmem g hg)).1, fun g hg => hfactor g (hmem g hg),
      (hperm.map _).nodup_iff.mpr hdistinct, hordered, fun ts h => by linarith [h.1]⟩ hinv.ne'
  refine ⟨ofScaled d⁻¹ gs, ⟨?_, ?_⟩, ?_⟩
  · rw [hlit, literalProduct_cons_rat,
      (otherFactors_eq_self fun f hf => (hfactor f hf).1).2, mul_one]
  · rw [hother, otherFactors_cons_rat, (otherFactors_eq_self fun f hf => (hfactor f hf).1).1]
    exact hperm
  · have hnone : literalPower? .unbounded (product (coefficientFactor d ++ fs.map flipped))
        minusOne = none :=
      literalPower?_of_isNumber_eq_false rfl (by norm_num) (by norm_num)
    have hinteger : minusOne.isIntegerNumber = true :=
      (isIntegerNumber_iff (isExact_rat _)).mpr ⟨-1, by norm_num [minusOne]⟩
    unfold buildPower
    simp only [hnone, hinteger, if_true, mapM_eq_ok_iff.mpr hpowers, ok_bind]
    exact hbuild

/-- What is written below the line, and what its reciprocal is. -/
theorem divide_flipped {d : Rat} (hd : 0 < d) {fs : List Expr}
    (hfs : ∀ f ∈ fs, f.IsStable ∧ f.isDivided = true) (hdistinct : DistinctBases fs)
    (fuel : Nat) :
    ∃ c, buildProduct .unbounded (fuel + 2) (coefficientFactor d ++ fs.map flipped) = .ok c ∧
      (∀ x, coefficientFactor d ++ fs.map flipped = [x] → c = x) ∧
      ∀ fuel', ∃ r, SameFactors r.factors (rat d⁻¹ :: fs) ∧
        buildPower .unbounded (fuel' + 4) c minusOne = .ok r := by
  have hflipped : ∀ f ∈ fs, f.flipped.IsBuilt .unbounded ∧ f.flipped.IsPrintable ∧
      f.flipped.IsFactor ∧ f.flipped.splitPower.1 = f.splitPower.1 := by
    intro f hf
    obtain ⟨b, v, rfl, hv, hb, -⟩ := divided_of_isDivided (hfs f hf).1.isExact (hfs f hf).2
    exact flipped_isBuilt (hfs _ hf).1 hv hb
  have hbases : DistinctBases (fs.map flipped) := by
    unfold DistinctBases
    rw [List.map_map, List.map_congr_left (g := fun f => f.splitPower.1)]
    · exact hdistinct
    · exact fun f hf => (hflipped f hf).2.2.2
  obtain ⟨gs, hperm, -, hbuild⟩ := buildProduct_coefficient hd.ne' (by linarith)
    (List.forall_mem_map.mpr fun f hf => ⟨(hflipped f hf).1, (hflipped f hf).2.1,
      (hflipped f hf).2.2.1⟩) hbases fuel
  obtain ⟨hs, hgs, hhs⟩ := List.perm_comp_forall₂ hperm
    (show List.Forall₂ (fun g f => g = f.flipped) (fs.map flipped) fs by simp)
  obtain rfl : gs = hs.map flipped := by
    simpa using map_eq_map_of_forall₂ (f := id) hgs fun g f hg => hg
  have hmem : ∀ f ∈ hs, f.IsStable ∧ f.isDivided = true := fun f hf => hfs f (hhs.mem_iff.mp hf)
  have hsame : SameFactors (rat d⁻¹ :: hs) (rat d⁻¹ :: fs) := .perm (hhs.cons _)
  have hsingle : ∀ x, coefficientFactor d ++ fs.map flipped = [x] →
      ofScaled d (hs.map flipped) = x :=
    fun x hx => ofScaled_of_singleton hperm hx
  suffices hpower : ∀ fuel', ∃ r, SameFactors r.factors (rat d⁻¹ :: hs) ∧
      buildPower .unbounded (fuel' + 4) (ofScaled d (hs.map flipped)) minusOne = .ok r by
    refine ⟨_, hbuild, hsingle, fun fuel' => ?_⟩
    obtain ⟨r, hr, hbuildr⟩ := hpower fuel'
    exact ⟨r, hr.trans hsame, hbuildr⟩
  intro fuel'
  have hdistinct' : DistinctBases hs := (hhs.map _).nodup_iff.mpr hdistinct
  match hs, hmem, hdistinct' with
  | [], _, _ => exact ⟨rat d⁻¹, by simpa [factors] using .refl _, power_rat_minusOne hd _⟩
  | f :: hs, hmem, hdistinct' =>
    rw [ofScaled_eq (by simp)]
    by_cases hlone : d = 1 ∧ hs = []
    · -- a single power, which needs no product
      obtain ⟨rfl, rfl⟩ := hlone
      obtain ⟨hf, hdivided⟩ := hmem f (by simp)
      obtain ⟨b, v, rfl, -⟩ := divided_of_isDivided hf.isExact hdivided
      refine ⟨power b (rat v), ?_, ?_⟩
      · refine ⟨?_, ?_⟩
        · simp [factors]
        · exact .refl _
      · simpa [coefficientFactor, ofFactors] using power_flipped (hmem _ (by simp)).1 (fuel' + 1)
    · have hproduct : ofFactors (coefficientFactor d ++ (f :: hs).map flipped) =
          product (coefficientFactor d ++ (f :: hs).map flipped) := by
        unfold ofFactors
        split
        next x hx =>
          by_cases hone : d = 1
          · simp [coefficientFactor, hone] at hx
            exact absurd ⟨hone, hx.2⟩ hlone
          · simp [coefficientFactor, hone] at hx
        next => rfl
      rw [hproduct]
      exact divide_product hd hmem hdistinct' fuel'

end AlgebraicForm
