import AlgebraicForm.Proofs.Orientation

/-!
# What is left when the signs are out faces forward

When the signs are out of the operands, a sum or a product of them is normalized once more, which
can turn a sum round only where one comes up that was not an operand before. In sums it does not
matter. In products and powers no such sum comes up as long as powers are collected and distributed
and no two roots of one base meet, which is what the conditions on nodes are about: the bodies of
the factors have different bases where these cannot be raised (`rootBases`), and what is raised to
a whole power is a base, whose own factors can be raised again.

* `buildSum_isCombination`: sums of terms with oriented bodies.
* `builders_isPowerProduct`: products of powers stay such products, by induction on the depth, and
  keep their roots.
* `splitSigns_isRepresentative`: where nodes are steady, the body faces forward.
* `stripped_stripped`: then stripping twice makes no difference.
-/

namespace AlgebraicForm

open AlgebraicForm.Expr

/-! ## Passes -/

/-- What the first pass makes and the others keep holds of the normal form. -/
theorem normalForm_invariant {s : Settings} {P : Expr → Prop} {e c : Expr}
    (first : ∀ d, normalPass s e = .ok d → P d)
    (later : ∀ d r, P d → normalPass s d = .ok r → P r) (h : normalForm s e = .ok c) : P c :=
  normalForm_induction (motive := fun e c => (∀ d, normalPass s e = .ok d → P d) → P c)
    (fun hpass _ first => first _ hpass)
    (fun hpass ih first => ih fun r => later _ r (first _ hpass)) h first

namespace Expr

/-! ## Combinations of representatives -/

/-- What a term multiplies is a representative, if it is no constant. -/
def HasForwardBody (t : Expr) : Prop :=
  ∀ body, t.splitCoefficient.2 = some body → body.IsRepresentative

theorem hasForwardBody_rat (q : Rat) : (rat q).HasForwardBody :=
  nofun

/-- A sum on the way to its normal form, whose terms are multiples of representatives. -/
structure IsCombination (e : Expr) : Prop where
  tidy : e.IsTidy
  body : ∀ t ∈ e.terms, t.HasForwardBody

/-- A term is a constant, or a coefficient with the factors of its body. -/
theorem IsTidy.constant_or_scaled {t : Expr} (h : t.IsTidy) (hbody : t.HasForwardBody) :
    (∃ q, t = rat q) ∨ ∃ q gs, q ≠ 0 ∧ gs ≠ [] ∧ t = ofScaled q gs ∧ KeptFactors 1 gs ∧
      ∀ g ∈ gs, g.IsRepresentative := by
  have hself := h.isBuilt.eq_ofScaled.1
  have hfactor : ∀ g ∈ otherFactors t.factors, g.IsFactor := fun g hg =>
    (h.of_mem_otherFactors g hg).2
  by_cases hzero : literalProduct t.factors = 0
  · exact .inl ⟨0, h.isBuilt.eq_zero hzero⟩
  by_cases hne : otherFactors t.factors = []
  · rw [hne] at hself
    exact .inl ⟨_, hself⟩
  · -- the body has the same factors
    have hrepresentative : (ofScaled 1 (otherFactors t.factors)).IsRepresentative := by
      refine hbody _ ?_
      rw [hself, splitCoefficient_ofScaled _ hne hfactor, ← hself]
    obtain ⟨hone, hgs⟩ := factors_ofScaled 1 hfactor
    have hkept := hrepresentative.oriented.kept.keptFactors
    rw [hone, hgs] at hkept
    exact .inr ⟨_, _, hzero, hne, hself, hkept, hgs ▸ hrepresentative.of_mem_factors⟩

/-- A pass makes an oriented tree of such a term, which may have been the negation of a sum. -/
theorem IsTidy.exists_pass {t : Expr} (h : t.IsTidy) (hbody : t.HasForwardBody) :
    ∃ c, normalPass .unbounded t = .ok c ∧ c.IsOriented := by
  obtain ⟨q, rfl⟩ | ⟨q, gs, hq, -, rfl, hkept, hgs⟩ := h.constant_or_scaled hbody
  · exact ⟨_, (isKept_rat q).pass, isOriented_rat q⟩
  · by_cases hsign : q = -1 ∧ ∃ ts, gs = [sum ts]
    · obtain ⟨rfl, ts, rfl⟩ := hsign
      have hsum := (hgs (sum ts) List.mem_cons_self).oriented
      refine ⟨_, ?_, hsum.opposite⟩
      show normalPass .unbounded (product [minusOne, sum ts]) = _
      rw [normalPass, normalPassAll_of_isKept (by simp [minusOne, hsum.kept]), ok_bind,
        product_minusOne hsum.kept]
    · have horiented := isOriented_ofScaled
        (hkept.scale fun ts hts => hsign ⟨hts.1, ts, hts.2⟩) hq hgs
      exact ⟨_, horiented.kept.pass, horiented⟩

/-- The body of a term of an oriented sum is a representative. -/
theorem IsOriented.hasForwardBody {t : Expr} (h : t.IsOriented) (hsum : t.isSum = false) :
    t.HasForwardBody := by
  intro body hbody
  obtain ⟨-, -, rfl⟩ := h.kept.tidy.body_eq hbody
  exact isRepresentative_ofScaled (h.kept.keptFactors.scale fun ts hts => by norm_num at hts)
    one_pos (h.of_mem_otherFactors fun htrue => by simp [hsum] at htrue)

theorem IsOriented.isCombination {e : Expr} (h : e.IsOriented) : e.IsCombination := by
  refine ⟨h.kept.tidy, ?_⟩
  cases e with
  | sum ts => exact fun t ht => (h.of_mem_sum t ht).hasForwardBody (h.kept.of_mem_sum t ht).2
  | _ => exact List.forall_mem_singleton.mpr (h.hasForwardBody rfl)

/-- A combination that passes keep is oriented. -/
theorem IsCombination.isOriented {e : Expr} (h : e.IsCombination) (hkept : e.IsKept) :
    e.IsOriented := by
  have hterm : ∀ t : Expr, t.IsKept → t.HasForwardBody → t.IsOriented := fun t ht hbody => by
    obtain ⟨c, hc, horiented⟩ := ht.tidy.exists_pass hbody
    rwa [Except.ok.inj (ht.pass.symm.trans hc)]
  cases e with
  | sum ts =>
    exact ⟨hkept, every_sum.mpr ⟨trivial, fun t ht =>
      (hterm t (hkept.of_mem_sum t ht).1 (h.body t ht)).nodes⟩⟩
  | _ => exact hterm _ hkept (h.body _ List.mem_cons_self)

end Expr

/-- Adding up combinations leaves no other bodies. -/
theorem buildSum_isCombination {es : List Expr} (hes : ∀ e ∈ es, e.IsCombination) {r : Expr}
    (h : buildSum .unbounded es = .ok r) : r.IsCombination := by
  have htidy : ∀ e ∈ es, e.IsTidy := fun e he => (hes e he).tidy
  have hr := buildSum_isTidy htidy h
  obtain ⟨k, gs, htotals, hsum⟩ := exists_buildSum htidy
  obtain rfl := Except.ok.inj (hsum.symm.trans h)
  have hterms : ∀ t ∈ constantTerm k ++ groupTerms gs, t.HasForwardBody := by
    rw [groupTerms, List.forall_mem_append, List.forall_mem_map]
    refine ⟨fun t ht => ?_, fun g hg body hbody => ?_⟩
    · unfold constantTerm at ht
      split at ht
      · cases ht
      · exact List.mem_singleton.mp ht ▸ hasForwardBody_rat k
    · rw [splitCoefficient_scale (htotals.built.body g hg) (htotals.built.whole g hg)] at hbody
      obtain ⟨t, ht, hg⟩ := htotals.exists_term hg
      obtain ⟨e, he, het⟩ := List.mem_flatMap.mp ht
      rw [← Option.some.inj hbody]
      exact (hes e he).body t het g.1 hg
  refine ⟨hr, ?_⟩
  unfold ofSortedTerms at hr ⊢
  split at hr
  next => exact List.forall_mem_singleton.mpr (hasForwardBody_rat 0)
  next t heq =>
    have ht := hterms t (heq ▸ List.mem_cons_self)
    cases t with
    | sum ts =>
      -- a sum may be left as the only term, and then its terms are those of a representative
      exact (ht (sum ts) rfl).oriented.isCombination.body
    | _ => exact List.forall_mem_singleton.mpr ht
  next => exact hterms

theorem Expr.IsCombination.pass {e r : Expr} (h : e.IsCombination)
    (hr : normalPass .unbounded e = .ok r) : r.IsCombination := by
  cases e with
  | sum ts =>
    rw [normalPass] at hr
    obtain ⟨cs, hcs, hr⟩ := bind_eq_ok_iff.mp hr
    refine buildSum_isCombination (fun c hc => ?_) hr
    obtain ⟨t, ht, htc⟩ := exists_mem_of_forall₂ (normalPassAll_eq_ok_iff.mp hcs) hc
    obtain ⟨d, hd, horiented⟩ := (h.tidy.of_mem_sum t ht).exists_pass (h.body t ht)
    rw [Except.ok.inj (htc.symm.trans hd)]
    exact horiented.isCombination
  | _ =>
    obtain ⟨c, hc, horiented⟩ := h.tidy.exists_pass (h.body _ List.mem_cons_self)
    rw [Except.ok.inj (hr.symm.trans hc)]
    exact horiented.isCombination

/-- The normal form of a sum of oriented trees is oriented. -/
theorem normalForm_sum_isOriented {rs : List Expr} (hrs : ∀ r ∈ rs, r.IsOriented) {a : Expr}
    (h : normalForm .unbounded (sum rs) = .ok a) : a.IsOriented := by
  have hnamed : (sum rs).Every IsNamedNode :=
    every_sum.mpr ⟨trivial, fun r hr => (hrs r hr).kept.tidy.named⟩
  refine IsCombination.isOriented ?_ (normalForm_kept hnamed h)
  refine normalForm_invariant (P := IsCombination) (fun d hd => ?_) (fun d r hd => hd.pass) h
  rw [normalPass, normalPassAll_of_isKept fun r hr => (hrs r hr).kept, ok_bind] at hd
  exact buildSum_isCombination (fun r hr => (hrs r hr).isCombination) hd

/-! ## Products of powers -/

namespace Expr

/-- A representative that can be raised to a whole power without freeing anything that faces
backward: the powers among its factors have literal exponents, and such bases themselves. -/
inductive IsBase : Expr → Prop
  | mk {b : Expr} : b.IsRepresentative → (∀ c e, power c e ∈ b.factors → e.isNumber = true) →
      (∀ c e, power c e ∈ b.factors → IsBase c) → IsBase b

theorem IsBase.representative {b : Expr} : b.IsBase → b.IsRepresentative
  | .mk h _ _ => h

theorem IsBase.of_power {b c e : Expr} (hf : power c e ∈ b.factors) :
    b.IsBase → e.isNumber = true ∧ c.IsBase
  | .mk _ hliteral hbase => ⟨hliteral c e hf, hbase c e hf⟩

/-- A power of a base to a combination, or a factor that is kept as it is, such as a root of a sum
that faces backward. -/
def IsPowerFactor (f : Expr) : Prop :=
  f.splitPower.1.IsBase ∧ f.splitPower.2.IsCombination ∨
    f.IsRepresentative ∧ ¬f.splitPower.1.IsBase

/-- A product on the way to its normal form: such factors, and a coefficient that has no sign. -/
structure IsPowerProduct (e : Expr) : Prop where
  tidy : e.IsTidy
  nonneg : 0 ≤ literalProduct e.factors
  factor : ∀ f ∈ otherFactors e.factors, f.IsPowerFactor

end Expr

open Classical in
/-- Bases that cannot be raised, of the factors that are kept as they are. -/
noncomputable def rootBases (fs : List Expr) : List Expr :=
  ((otherFactors fs).map fun f => f.splitPower.1).filter fun b => ¬b.IsBase

theorem mem_rootBases {fs : List Expr} {b : Expr} :
    b ∈ rootBases fs ↔ (∃ f ∈ otherFactors fs, f.splitPower.1 = b) ∧ ¬b.IsBase := by
  simp [rootBases]

theorem rootBases_append (fs gs : List Expr) :
    rootBases (fs ++ gs) = rootBases fs ++ rootBases gs := by
  simp [rootBases]

theorem rootBases_flatMap {α : Type} (f : α → List Expr) (xs : List α) :
    rootBases (xs.flatMap f) = xs.flatMap fun x => rootBases (f x) := by
  induction xs with
  | nil => rfl
  | cons x xs ih => rw [List.flatMap_cons, rootBases_append, ih, List.flatMap_cons]

theorem rootBases_flatMap_factors {fs cs : List Expr}
    (h : List.Forall₂ (fun f c => rootBases c.factors = rootBases [f]) fs cs) :
    rootBases (cs.flatMap factors) = rootBases fs := by
  induction h with
  | nil => rfl
  | cons hfc _ ih =>
    rw [List.flatMap_cons, rootBases_append, hfc, ih, ← rootBases_append, List.singleton_append]

theorem rootBases_perm {fs gs : List Expr} (h : (otherFactors fs).Perm (otherFactors gs)) :
    (rootBases fs).Perm (rootBases gs) :=
  (h.map _).filter _

@[simp] theorem rootBases_otherFactors (fs : List Expr) :
    rootBases (otherFactors fs) = rootBases fs := by
  simp [rootBases, otherFactors]

theorem rootBases_factor {f : Expr} (hf : f.isNumber = false) (hroot : ¬f.splitPower.1.IsBase) :
    rootBases [f] = [f.splitPower.1] := by
  simp [rootBases, otherFactors_cons hf, hroot]

theorem rootBases_base {f : Expr} (hbase : f.splitPower.1.IsBase) : rootBases [f] = [] := by
  refine List.eq_nil_iff_forall_not_mem.mpr fun b hb => ?_
  obtain ⟨⟨g, hg, rfl⟩, hroot⟩ := mem_rootBases.mp hb
  rw [List.mem_singleton.mp (mem_otherFactors.mp hg).1] at hroot
  exact hroot hbase

@[simp] theorem rootBases_rat (q : Rat) : rootBases [rat q] = [] :=
  rfl

namespace Expr

theorem isCombination_rat (q : Rat) : (rat q).IsCombination :=
  (isOriented_rat q).isCombination

/-- A representative among factors. -/
theorem IsRepresentative.isPowerFactor {f : Expr} (h : f.IsRepresentative) : f.IsPowerFactor := by
  by_cases hbase : f.splitPower.1.IsBase
  · refine .inl ⟨hbase, ?_⟩
    cases f with
    | power b p => exact h.oriented.of_power.2.isCombination
    | _ => exact isCombination_rat 1
  · exact .inr ⟨h, hbase⟩

theorem IsRepresentative.isPowerProduct {e : Expr} (h : e.IsRepresentative) : e.IsPowerProduct :=
  ⟨h.oriented.kept.tidy, h.forward.nonneg, fun f hf => (h.of_mem_factors f hf).isPowerFactor⟩

theorem isPowerProduct_rat {q : Rat} (hq : 0 ≤ q) : (rat q).IsPowerProduct :=
  (isRepresentative_rat hq).isPowerProduct

theorem isBase_rat {q : Rat} (hq : 0 ≤ q) : (rat q).IsBase :=
  .mk (isRepresentative_rat hq) nofun nofun

theorem IsPowerFactor.isPowerProduct {f : Expr} (h : f.IsPowerFactor) (htidy : f.IsTidy)
    (hf : f.IsFactor) : f.IsPowerProduct := by
  have hfactors := factors_of_isProduct_eq_false hf.2
  refine ⟨htidy, ?_, ?_⟩
  · rw [hfactors, literalProduct_cons hf.1, literalProduct_nil]
    exact zero_le_one
  · rw [hfactors, otherFactors_cons hf.1, otherFactors_nil]
    exact List.forall_mem_singleton.mpr h

/-- The coefficient of a tidy tree is the literal among its factors. -/
theorem IsTidy.eq_literalProduct {e : Expr} (h : e.IsTidy) {q : Rat} (hq : rat q ∈ e.factors) :
    literalProduct e.factors = q := by
  cases e with
  | product fs =>
    obtain ⟨-, r, gs, -, -, rfl, hgs⟩ := (isBuilt_product.mp h.isBuilt).1
    have hone := (otherFactors_eq_self fun g hg => (hgs.factor g hg).1).2
    rcases List.mem_append.mp hq with hq | hq
    · unfold coefficientFactor at hq
      split at hq
      · cases hq
      · simpa [factors, hone] using (List.mem_singleton.mp hq).symm
    · cases (hgs.factor _ hq).1
  | _ =>
    rw [← List.mem_singleton.mp hq]
    simp [factors]

/-- The factors of a base are bases. -/
theorem IsBase.of_mem_factors {b : Expr} (h : b.IsBase) : ∀ f ∈ b.factors, f.IsBase := by
  intro f hf
  have htidy := h.representative.oriented.kept.tidy
  obtain ⟨q, rfl⟩ | hnumber := (htidy.isExact.factors f hf).rat_or_isNumber_eq_false
  · have hq : 0 ≤ q := htidy.eq_literalProduct hf ▸ h.representative.forward.nonneg
    exact isBase_rat hq
  · have hmem := mem_otherFactors.mpr ⟨hf, hnumber⟩
    have hfactor := h.representative.oriented.kept.keptFactors.factor f hmem
    have hself : ∀ c e, power c e ∈ f.factors → power c e ∈ b.factors := fun c e hce => by
      rw [factors_of_isProduct_eq_false hfactor.2] at hce
      rwa [List.mem_singleton.mp hce]
    exact .mk (h.representative.of_mem_factors f hmem)
      (fun c e hce => (h.of_power (hself c e hce)).1)
      (fun c e hce => (h.of_power (hself c e hce)).2)

/-- The factors of a base are raised as bases. -/
theorem IsBase.rootBases_factors {b : Expr} (h : b.IsBase) : rootBases b.factors = [] := by
  refine List.eq_nil_iff_forall_not_mem.mpr fun c hc => ?_
  obtain ⟨⟨f, hf, rfl⟩, hroot⟩ := mem_rootBases.mp hc
  have hmem := (mem_otherFactors.mp hf).1
  cases f with
  | power c e => exact hroot (h.of_power hmem).2
  | _ => exact hroot (h.of_mem_factors _ hmem)

/-- A product of powers that passes keep is a representative. -/
theorem IsPowerProduct.isRepresentative {e : Expr} (h : e.IsPowerProduct) (hkept : e.IsKept) :
    e.IsRepresentative := by
  have hself := h.tidy.isBuilt.eq_ofScaled.1
  by_cases hzero : literalProduct e.factors = 0
  · rw [h.tidy.isBuilt.eq_zero hzero]
    exact isRepresentative_rat le_rfl
  rw [hself]
  refine isRepresentative_ofScaled hkept.keptFactors (h.nonneg.lt_of_ne' hzero) fun g hg => ?_
  obtain ⟨hbase, hexponent⟩ | ⟨hrepresentative, -⟩ := h.factor g hg
  · have hg' := hkept.keptFactors.kept g hg
    cases g with
    | power b p =>
      have hb : b.IsRepresentative := hbase.representative
      have hp : p.IsOriented := hexponent.isOriented hg'.of_power.2
      exact ⟨⟨hg', every_power.mpr ⟨fun _ => hb.forward, hb.oriented.nodes, hp.nodes⟩⟩,
        (hkept.keptFactors.factor _ hg).isForward nofun⟩
    | _ => exact hbase.representative
  · exact hrepresentative

end Expr

theorem mergeExponents_isCombination {es : List Expr} (hes : ∀ e ∈ es, e.IsCombination) {e : Expr}
    (h : mergeExponents .unbounded es = .ok e) : e.IsCombination := by
  unfold mergeExponents at h
  split at h
  next d => exact Except.ok.inj h ▸ hes d List.mem_cons_self
  next => exact buildSum_isCombination hes h

/-- A power of a base, with the bases among its factors. -/
def PowersBases (fuel : Nat) : Prop :=
  ∀ {b p r : Expr}, b.IsBase → p.IsCombination → buildPower .unbounded fuel b p = .ok r →
    r.IsPowerProduct ∧ rootBases r.factors = []

/-- Operands of a product. -/
structure IsPowerProducts (es : List Expr) : Prop where
  product : ∀ e ∈ es, e.IsPowerProduct
  apart : (rootBases (es.flatMap factors)).Nodup

section

variable {fuel : Nat}

/-- Only one factor has a given base, if that cannot be raised. -/
theorem Collects.exists_root {fs : List Expr} {bs : List (Expr × List Expr)} (h : Collects fs bs)
    (hfs : ∀ f ∈ fs, f.isNumber = false) (hapart : (rootBases fs).Nodup) {g : Expr × List Expr}
    (hg : g ∈ bs) (hroot : ¬g.1.IsBase) : ∃ f ∈ fs, g = (f.splitPower.1, [f.splitPower.2]) := by
  obtain ⟨f, hf, hbase⟩ := List.mem_map.mp ((h.bases g.1).mp (List.mem_map_of_mem hg))
  refine ⟨f, hf, Prod.ext hbase.symm ?_⟩
  have hexponents := h.exponents g hg
  obtain ⟨pre, post, rfl⟩ := List.append_of_mem hf
  simp only [List.forall_mem_append, List.forall_mem_cons] at hfs
  obtain ⟨hpre, hf, hpost⟩ := hfs
  rw [rootBases_append, ← List.singleton_append, rootBases_append,
    rootBases_factor hf (hbase ▸ hroot), hbase, List.singleton_append, List.nodup_append] at hapart
  obtain ⟨-, hnodup, hdisjoint⟩ := hapart
  -- the other factors have other bases
  have hnil : ∀ gs : List Expr, (∀ g ∈ gs, g.isNumber = false) → g.1 ∉ rootBases gs →
      exponentsOf g.1 gs = [] := by
    intro gs hgs hnew
    refine exponentsOf_eq_nil fun hmem => hnew (mem_rootBases.mpr ⟨?_, hroot⟩)
    rwa [(otherFactors_eq_self hgs).1, ← List.mem_map]
  rw [hexponents, exponentsOf_append, ← List.singleton_append, exponentsOf_append,
    exponentsOf_of_base (Prod.ext hbase rfl), hnil pre hpre fun hmem =>
      hdisjoint g.1 hmem g.1 List.mem_cons_self rfl,
    hnil post hpost (List.nodup_cons.mp hnodup).1]
  rfl

/-- The factors of operands. -/
theorem IsPowerProducts.factor {es : List Expr} (h : IsPowerProducts es) :
    ∀ f ∈ otherFactors (es.flatMap factors), f.IsTidy ∧ f.IsFactor ∧ f.IsPowerFactor := by
  intro f hf
  rw [mem_otherFactors, List.mem_flatMap] at hf
  obtain ⟨⟨e, he, hfe⟩, hnumber⟩ := hf
  have hmem := mem_otherFactors.mpr ⟨hfe, hnumber⟩
  have htidy := (h.product e he).tidy.of_mem_otherFactors f hmem
  exact ⟨htidy.1, htidy.2, (h.product e he).factor f hmem⟩

/-- What becomes of one base among the factors. -/
theorem IsPowerProducts.group (hpower : PowersBases fuel) {es : List Expr}
    (hes : IsPowerProducts es) {bs : List (Expr × List Expr)}
    (h : Collects (otherFactors (es.flatMap factors)) bs) {g : Expr × List Expr} (hg : g ∈ bs)
    {p : Expr} (hp : groupPower .unbounded (buildPower .unbounded fuel) g = .ok p) :
    p.IsPowerProduct ∧
      (g.1.IsBase → rootBases p.factors = []) ∧ (¬g.1.IsBase → rootBases p.factors = [g.1]) := by
  obtain ⟨e, he, hp⟩ := bind_eq_ok_iff.mp hp
  by_cases hbase : g.1.IsBase
  · -- all exponents of a base are combinations, and so is their sum
    have hexponents : ∀ e ∈ g.2, e.IsCombination := by
      rw [h.exponents g hg]
      intro e he
      obtain ⟨f, hf, rfl⟩ := List.mem_map.mp he
      obtain ⟨hmem, hsame⟩ := List.mem_filter.mp hf
      obtain ⟨-, hexponent⟩ | ⟨-, hroot⟩ := (hes.factor f hmem).2.2
      · exact hexponent
      · have hsame : f.splitPower.1 = g.1 := by simpa using hsame
        exact absurd (hsame ▸ hbase) hroot
    obtain ⟨hproduct, hroots⟩ := hpower hbase (mergeExponents_isCombination hexponents he) hp
    exact ⟨hproduct, fun _ => hroots, fun hroot => absurd hbase hroot⟩
  · -- a factor that cannot be raised is the only one with its base, and built again
    obtain ⟨f, hf, rfl⟩ := h.exists_root (fun f hf => (hes.factor f hf).2.1.1)
      (by rw [rootBases_otherFactors]; exact hes.apart) hg hbase
    obtain ⟨htidy, hfactor, hpowerFactor⟩ := hes.factor f hf
    obtain rfl : f.splitPower.2 = e := Except.ok.inj he
    obtain rfl : f = p := by
      cases fuel with
      | zero => simp [buildPower] at hp
      | succ fuel =>
        exact Except.ok.inj ((buildPower_splitPower htidy.isBuilt hfactor fuel).symm.trans hp)
    refine ⟨hpowerFactor.isPowerProduct htidy hfactor, fun hbase' => absurd hbase' hbase,
      fun _ => ?_⟩
    rw [factors_of_isProduct_eq_false hfactor.2, rootBases_factor hfactor.1 hbase]

/-- The powers of the bases have no other factors that cannot be raised. -/
theorem IsPowerProducts.powers (hpower : PowersBases fuel) {es : List Expr}
    (hes : IsPowerProducts es) {bs : List (Expr × List Expr)}
    (h : Collects (otherFactors (es.flatMap factors)) bs) {ps : List Expr}
    (hps : bs.mapM (groupPower .unbounded (buildPower .unbounded fuel)) = .ok ps) :
    IsPowerProducts ps ∧
      (rootBases (ps.flatMap factors)).Perm (rootBases (es.flatMap factors)) := by
  classical
  have hgroups : List.Forall₂ (fun g p => p.IsPowerProduct ∧
      (g.1.IsBase → rootBases p.factors = []) ∧ (¬g.1.IsBase → rootBases p.factors = [g.1]))
      bs ps := by
    refine ((List.forall₂_and_left bs ps).mpr ⟨fun g hg => hg, mapM_eq_ok_iff.mp hps⟩).imp ?_
    exact fun g p ⟨hg, hp⟩ => hes.group hpower h hg hp
  have hroots : rootBases (ps.flatMap factors) = (bs.map (·.1)).filter fun b => ¬b.IsBase := by
    clear hps h
    induction hgroups with
    | nil => rfl
    | @cons g p bs ps hgp _ ih =>
      rw [List.flatMap_cons, rootBases_append, ih, List.map_cons]
      by_cases hbase : g.1.IsBase
      · rw [hgp.2.1 hbase, List.filter_cons_of_neg (by simpa using hbase), List.nil_append]
      · rw [hgp.2.2 hbase, List.filter_cons_of_pos (by simpa using hbase), List.singleton_append]
  have hperm : (rootBases (ps.flatMap factors)).Perm (rootBases (es.flatMap factors)) := by
    rw [hroots]
    refine (List.perm_ext_iff_of_nodup (h.distinct.filter _) hes.apart).mpr fun b => ?_
    rw [List.mem_filter, decide_eq_true_eq, h.bases, mem_rootBases, List.mem_map]
  refine ⟨⟨fun p hp => ?_, hperm.nodup_iff.mpr hes.apart⟩, hperm⟩
  obtain ⟨g, -, hgp⟩ := exists_mem_of_forall₂ hgroups hp
  exact hgp.1

theorem IsPowerProducts.nonneg {es : List Expr} (h : IsPowerProducts es) :
    0 ≤ literalProduct (es.flatMap factors) := by
  have hproduct := h.product
  clear h
  induction es with
  | nil => exact zero_le_one
  | cons e es ih =>
    rw [List.forall_mem_cons] at hproduct
    rw [List.flatMap_cons, literalProduct_append]
    exact mul_nonneg hproduct.1.nonneg (ih hproduct.2)

/-- A product of such operands. -/
theorem IsPowerProducts.buildProduct (hpower : PowersBases fuel) {es : List Expr}
    (hes : IsPowerProducts es) {r : Expr} (h : buildProduct .unbounded (fuel + 1) es = .ok r) :
    r.IsPowerProduct ∧ (rootBases r.factors = [] ∨
      (rootBases r.factors).Perm (rootBases (es.flatMap factors))) := by
  have htidy : ∀ e ∈ es, e.IsTidy := fun e he => (hes.product e he).tidy
  have hr := buildProduct_isTidy htidy h
  obtain ⟨bs, hbs, ⟨-, rfl⟩ | ⟨-, ps, hps, hresult⟩⟩ :=
    exists_productResult (fun e he => (htidy e he).isBuilt) h
  · exact ⟨isPowerProduct_rat le_rfl, .inl rfl⟩
  obtain ⟨hpowers, hperm⟩ := hes.powers hpower hbs hps
  have hq := mul_nonneg hes.nonneg hpowers.nonneg
  cases hresult with
  | zero => exact ⟨isPowerProduct_rat le_rfl, .inl rfl⟩
  | literal => exact ⟨isPowerProduct_rat hq, .inl rfl⟩
  | negated hminus =>
    rw [hminus] at hq
    norm_num at hq
  | @plain gs _ hsort hne =>
    have hgs : gs.Perm (otherFactors (ps.flatMap factors)) := sortFactors_perm hsort
    have hfactor : ∀ g ∈ gs, g.IsTidy ∧ g.IsFactor ∧ g.IsPowerFactor := fun g hg =>
      hpowers.factor g (hgs.mem_iff.mp hg)
    rw [withCoefficient_eq hne, ← ofScaled_eq hne] at hr ⊢
    obtain ⟨hliteral, hother⟩ := factors_ofScaled
      (literalProduct (es.flatMap factors) * literalProduct (ps.flatMap factors))
      fun g hg => (hfactor g hg).2.1
    refine ⟨⟨hr, hq.trans_eq hliteral.symm, fun g hg => (hfactor g (hother ▸ hg)).2.2⟩, .inr ?_⟩
    exact (rootBases_perm (by rw [hother]; exact hgs)).trans hperm

/-- A power that its literals decide. -/
theorem LiteralPower.isPowerProduct {s : Settings} {b p r : Expr} (h : LiteralPower s b p r)
    (hr : r.IsTidy) (hb : b.IsBase) (hp : p.IsCombination) :
    r.IsPowerProduct ∧ rootBases r.factors = [] := by
  cases h with
  | zero_zero => exact ⟨IsPowerFactor.isPowerProduct (.inl ⟨hb, hp⟩) hr ⟨rfl, rfl⟩,
      rootBases_base hb⟩
  | power_zero | one_power => exact ⟨isPowerProduct_rat zero_le_one, rfl⟩
  | power_one => exact ⟨hb.representative.isPowerProduct, hb.rootBases_factors⟩
  | zero_power => exact ⟨isPowerProduct_rat le_rfl, rfl⟩
  | @fold x y z hz =>
    have hx : 0 ≤ x := by simpa [factors] using hb.representative.forward.nonneg
    obtain ⟨k, -, -, -, rfl⟩ | ⟨-, hroot⟩ := foldPower?_eq_some hz
    · exact ⟨isPowerProduct_rat (zpow_nonneg hx k), rfl⟩
    · exact ⟨isPowerProduct_rat (sqrt?_eq_some hroot).1, rfl⟩

/-- A power of a base, if the builder below powers bases and the one of products keeps their
powers. -/
theorem PowerResult.isPowerProduct (hpower : PowersBases fuel)
    (hproduct : ∀ {es : List Expr} {r : Expr}, (∀ e ∈ es, e.IsPowerProduct ∧
      rootBases e.factors = []) → buildProduct .unbounded fuel es = .ok r →
        r.IsPowerProduct ∧ rootBases r.factors = [])
    {b p r : Expr} (h : PowerResult .unbounded fuel b p r) (hr : r.IsTidy) (hb : b.IsBase)
    (hp : p.IsCombination) : r.IsPowerProduct ∧ rootBases r.factors = [] := by
  cases h with
  | literal h => exact h.isPowerProduct hr hb hp
  | @nested c e q r k _ hq hr =>
    -- the exponent of a power that is a base is a literal, so that it can be multiplied
    obtain ⟨hnumber, hc⟩ := hb.of_power List.mem_cons_self
    have hexact : e.IsExact := hb.representative.oriented.kept.tidy.exponent.isExact
    obtain ⟨a, rfl⟩ := hexact.rat_or_isNumber_eq_false.resolve_right (by simp [hnumber])
    rw [eq_of_buildProduct_literals hq] at hr
    exact hpower hc (isCombination_rat _) hr
  | distributed k _ hgs hr =>
    refine hproduct (fun g hg => ?_) hr
    obtain ⟨f, hf, hfg⟩ := exists_mem_of_forall₂ hgs hg
    exact hpower (hb.of_mem_factors f hf) (isCombination_rat k) hfg
  | plain =>
    exact ⟨IsPowerFactor.isPowerProduct (.inl ⟨hb, hp⟩) hr ⟨rfl, rfl⟩, rootBases_base hb⟩

end

/-- The builders keep products of powers, by induction on the depth. -/
theorem builders_isPowerProduct (fuel : Nat) : PowersBases fuel ∧
    ∀ {es : List Expr} {r : Expr}, IsPowerProducts es → buildProduct .unbounded fuel es = .ok r →
      r.IsPowerProduct ∧ (rootBases r.factors = [] ∨
        (rootBases r.factors).Perm (rootBases (es.flatMap factors))) := by
  induction fuel with
  | zero =>
    refine ⟨fun _ _ h => ?_, fun _ h => ?_⟩
    · simp [buildPower] at h
    · simp [buildProduct] at h
  | succ fuel ih =>
    refine ⟨fun {b p r} hb hp h => ?_, fun hes h => hes.buildProduct ih.1 h⟩
    have hbtidy := hb.representative.oriented.kept.tidy
    refine PowerResult.isPowerProduct ih.1 (fun {es r} hes h => ?_)
      (buildPower_eq_ok hbtidy.isExact hp.tidy.isExact h) (buildPower_isTidy hbtidy hp.tidy h) hb hp
    -- without factors that cannot be raised, none comes out of the product
    have hnil : rootBases (es.flatMap factors) = [] := by
      rw [rootBases_flatMap]
      exact List.flatMap_eq_nil_iff.mpr fun e he => (hes e he).2
    obtain ⟨hr, hroots⟩ := ih.2 ⟨fun e he => (hes e he).1, hnil ▸ List.nodup_nil⟩ h
    exact ⟨hr, hroots.elim id fun hperm => (hnil ▸ hperm).eq_nil⟩

/-- A product as one operand. -/
structure Expr.IsApart (e : Expr) : Prop where
  product : e.IsPowerProduct
  roots : (rootBases e.factors).Nodup

theorem IsPowerProducts.isApart {fuel : Nat} {es : List Expr} {r : Expr} (hes : IsPowerProducts es)
    (h : AlgebraicForm.buildProduct .unbounded fuel es = .ok r) : r.IsApart := by
  obtain ⟨hr, hroots⟩ := (builders_isPowerProduct fuel).2 hes h
  refine ⟨hr, ?_⟩
  obtain hnil | hperm := hroots
  · exact hnil ▸ List.nodup_nil
  · exact hperm.nodup_iff.mpr hes.apart

/-- A pass over a factor. -/
theorem Expr.IsPowerProduct.pass_factor {e f r : Expr} (h : e.IsPowerProduct) (hf : f ∈ e.factors)
    (hr : normalPass .unbounded f = .ok r) :
    r.IsPowerProduct ∧ rootBases r.factors = rootBases [f] := by
  obtain ⟨q, rfl⟩ | hnumber := (h.tidy.isExact.factors f hf).rat_or_isNumber_eq_false
  · rw [(isKept_rat q).pass] at hr
    exact Except.ok.inj hr ▸ ⟨isPowerProduct_rat (h.tidy.eq_literalProduct hf ▸ h.nonneg), rfl⟩
  have hmem := mem_otherFactors.mpr ⟨hf, hnumber⟩
  have hfactor := (h.tidy.of_mem_otherFactors f hmem).2
  have hself : f.IsRepresentative → r.IsPowerProduct ∧ rootBases r.factors = rootBases [f] := by
    intro hrepresentative
    rw [hrepresentative.oriented.kept.pass] at hr
    rw [← Except.ok.inj hr, factors_of_isProduct_eq_false hfactor.2]
    exact ⟨hrepresentative.isPowerProduct, rfl⟩
  obtain ⟨hbase, hexponent⟩ | ⟨hrepresentative, -⟩ := h.factor f hmem
  · cases f with
    | power b p =>
      have hb : normalPass .unbounded b = .ok b := hbase.representative.oriented.kept.pass
      rw [normalPass, hb, ok_bind] at hr
      obtain ⟨exponent, hp, hr⟩ := bind_eq_ok_iff.mp hr
      obtain ⟨hproduct, hroots⟩ := (builders_isPowerProduct _).1 hbase (hexponent.pass hp) hr
      exact ⟨hproduct, hroots.trans (rootBases_base hbase).symm⟩
    | _ => exact hself hbase.representative
  · exact hself hrepresentative

theorem Expr.IsApart.pass {e r : Expr} (h : e.IsApart) (hr : normalPass .unbounded e = .ok r) :
    r.IsApart := by
  have hfactor : e.isProduct = false → r.IsApart := by
    intro hproduct
    have hfactors := factors_of_isProduct_eq_false hproduct
    obtain ⟨hr, hroots⟩ := h.product.pass_factor (by simp [hfactors]) hr
    exact ⟨hr, by rw [hroots, ← hfactors]; exact h.roots⟩
  cases e with
  | product fs =>
    rw [normalPass] at hr
    obtain ⟨cs, hcs, hr⟩ := bind_eq_ok_iff.mp hr
    have hall : List.Forall₂ (fun f c => c.IsPowerProduct ∧ rootBases c.factors = rootBases [f])
        fs cs := forall₂_of_normalPass (fun f hf _ => h.product.pass_factor hf)
      (normalPassAll_eq_ok_iff.mp hcs)
    refine IsPowerProducts.isApart ⟨fun c hc => ?_, ?_⟩ hr
    · obtain ⟨f, -, hfc⟩ := exists_mem_of_forall₂ hall hc
      exact hfc.1
    · -- a pass leaves the factors that cannot be raised where they are
      rw [rootBases_flatMap_factors (hall.imp fun _ _ hfc => hfc.2)]
      exact h.roots
  | _ => exact hfactor rfl

/-- The normal form of a product of representatives is a representative, if no two of their factors
have the same base that cannot be raised. -/
theorem normalForm_product_isRepresentative {es : List Expr} (hes : ∀ e ∈ es, e.IsRepresentative)
    (hapart : (rootBases (es.flatMap factors)).Nodup) {r : Expr}
    (h : normalForm .unbounded (product es) = .ok r) : r.IsRepresentative := by
  have hnamed : (product es).Every IsNamedNode :=
    every_product.mpr ⟨trivial, fun e he => (hes e he).oriented.kept.tidy.named⟩
  have hr : r.IsApart := by
    refine normalForm_invariant (fun d hd => ?_) (fun d r hd => hd.pass) h
    rw [normalPass, normalPassAll_of_isKept fun e he => (hes e he).oriented.kept, ok_bind] at hd
    exact IsPowerProducts.isApart ⟨fun e he => (hes e he).isPowerProduct, hapart⟩ hd
  exact hr.product.isRepresentative (normalForm_kept hnamed h)

/-- The normal form of a power of a base is a representative. -/
theorem normalForm_power_isRepresentative {b p : Expr} (hb : b.IsBase) (hp : p.IsOriented)
    {r : Expr} (h : normalForm .unbounded (power b p) = .ok r) : r.IsRepresentative := by
  have hbkept := hb.representative.oriented.kept
  have hnamed : (power b p).Every IsNamedNode :=
    every_power.mpr ⟨trivial, hbkept.tidy.named, hp.kept.tidy.named⟩
  have hr : r.IsApart := by
    refine normalForm_invariant (fun d hd => ?_) (fun d r hd => hd.pass) h
    rw [normalPass, hbkept.pass, ok_bind, hp.kept.pass, ok_bind] at hd
    obtain ⟨hd, hroots⟩ := (builders_isPowerProduct _).1 hb hp.isCombination hd
    exact ⟨hd, hroots ▸ List.nodup_nil⟩
  exact hr.product.isRepresentative (normalForm_kept hnamed h)

/-- Literals do not decide a power that is no whole one, of an oriented base that cannot be
raised. -/
theorem literalPower?_root {b p : Expr} (hb : b.IsOriented) (hroot : ¬b.IsBase)
    (hp : p.IsOriented) (hwhole : p.isIntegerNumber = false) :
    literalPower? .unbounded b p = none := by
  cases hliteral : literalPower? .unbounded b p with
  | none => rfl
  | some r =>
    exfalso
    cases literalPower?_eq_some hb.kept.tidy.isExact hp.kept.tidy.isExact hliteral with
    | zero_zero | zero_power => exact hroot (isBase_rat le_rfl)
    | one_power => exact hroot (isBase_rat zero_le_one)
    | power_zero | power_one => cases hwhole
    | @fold x y z hz =>
      obtain ⟨k, rfl, -⟩ | ⟨-, hsquare⟩ := foldPower?_eq_some hz
      · rw [isIntegerNumber_intCast] at hwhole
        cases hwhole
      · obtain ⟨-, rfl⟩ := sqrt?_eq_some hsquare
        exact hroot (isBase_rat (mul_self_nonneg z))

theorem isRepresentative_root {b p : Expr} (hb : b.IsOriented) (hroot : ¬b.IsBase)
    (hp : p.IsOriented) (hwhole : p.isIntegerNumber = false) : (power b p).IsRepresentative := by
  have hno : ¬p.isIntegerNumber = true := by simp [hwhole]
  refine ⟨⟨isKept_power hb.kept hp.kept (literalPower?_root hb hroot hp hwhole)
    fun hint => absurd hint hno, ?_⟩, IsFactor.isForward ⟨rfl, rfl⟩ nofun⟩
  exact every_power.mpr ⟨fun hint => absurd hint hno, hb.nodes, hp.nodes⟩

/-- The arguments of a call are oriented. -/
theorem isRepresentative_call {n : String} {es rs : List Expr} (h : (call n es).IsKept)
    (hlen : rs.length = es.length) (hrs : ∀ r ∈ rs, r.IsOriented) :
    (call n rs).IsRepresentative := by
  have hbuilt : (call n rs).IsBuilt .unbounded := isBuilt_call.mpr
    ⟨hlen ▸ (isBuilt_call.mp h.tidy.isBuilt).1, fun r hr => (hrs r hr).kept.tidy.isBuilt⟩
  have hnamed : (call n rs).Every IsNamedNode := every_call.mpr
    ⟨leafProperty_isNamedNode.call hlen.symm h.tidy.named.self,
      fun r hr => (hrs r hr).kept.tidy.named⟩
  refine ⟨⟨⟨isTidy_iff_named.mpr ⟨hbuilt, hnamed⟩, ?_⟩, ?_⟩, IsFactor.isForward ⟨rfl, rfl⟩ nofun⟩
  · exact every_call.mpr ⟨trivial, fun r hr => (hrs r hr).kept.settled⟩
  · exact every_call.mpr ⟨trivial, fun r hr => (hrs r hr).nodes⟩

/-! ## Signs -/

theorem Signed.value_isOriented {p : Signed} (h : p.body.IsRepresentative) :
    p.value.IsOriented := by
  unfold Signed.value
  split
  · exact h.oriented.opposite
  · exact h.oriented

/-- The body of an oriented tree is a representative, at whatever depth its signs come out. -/
theorem body_isRepresentative {n : Nat} {e : Expr} {p : Signed} (h : e.IsOriented)
    (hp : splitSigns .unbounded n e = .ok p) : p.body.IsRepresentative := by
  obtain ⟨q, hq⟩ := exists_splitsInto h le_rfl
  exact splitSigns_unique hp hq.split ▸ hq.body

/-- An oriented tree is rebuilt as it was. -/
theorem RebuildsAs.eq_of_isOriented {n : Nat} {e r : Expr} (h : e.IsOriented)
    (hr : RebuildsAs .unbounded n e r) : r = e := by
  obtain ⟨p, hp, hr⟩ := hr
  obtain ⟨q, hq⟩ := exists_splitsInto h le_rfl
  obtain rfl := splitSigns_unique hp hq.split
  rw [Signed.rebuild_eq hq.body.oriented.kept, hq.value] at hr
  exact (Except.ok.inj hr).symm

/-- What becomes of a sum, if its normal form is oriented. -/
theorem ChoosesSign.isRepresentative {n : Nat} {a : Expr} {p : Signed} (h : a.IsOriented)
    (hp : ChoosesSign .unbounded n a p) : p.body.IsRepresentative := by
  cases a with
  | sum us =>
    have hus : ∀ u ∈ us, ∃ p, SplitsInto (sizeAll us) u p := fun u hu =>
      exists_splitsInto (h.of_mem_sum u hu) (size_le_sizeAll hu)
    exact body_isRepresentative h
      (splitSigns_sum_iff.mpr ⟨us, forall₂_rebuilds hus, sum us, h.kept.normalForm, hp⟩)
  | _ => exact body_isRepresentative h hp

/-- Rebuilt operands are oriented if their bodies are representatives. -/
theorem isOriented_of_rebuildsAs {n : Nat} {es rs : List Expr}
    (hes : ∀ e ∈ es, ∀ p, splitSigns .unbounded n e = .ok p → p.body.IsRepresentative)
    (h : List.Forall₂ (RebuildsAs .unbounded n) es rs) : ∀ r ∈ rs, r.IsOriented := by
  intro r hr
  obtain ⟨e, he, p, hp, hrebuild⟩ := exists_mem_of_forall₂ h hr
  have hbody := hes e he p hp
  rw [Signed.rebuild_eq hbody.oriented.kept] at hrebuild
  exact Except.ok.inj hrebuild ▸ Signed.value_isOriented hbody

/-- A node at which a further run cannot find a sum that faces backward: of the factors of a product
no two have the same base that cannot be raised, and the base of a whole power can be raised, when
their signs are out. -/
def IsSteadyNode : Expr → Prop
  | product fs => ∀ n ps, List.Forall₂ (fun f q => splitSigns .unbounded n f = .ok q) fs ps →
      (rootBases (ps.flatMap fun q => q.body.factors)).Nodup
  | power b p => ∀ n q r, splitSigns .unbounded n b = .ok q → RebuildsAs .unbounded n p r →
      r.isIntegerNumber = true → q.body.IsBase
  | _ => True

/-- A product is steady if its factors have different bases when their signs are out. -/
theorem isSteadyNode_product {fs : List Expr} {n : Nat} {ps : List Signed}
    (hps : List.Forall₂ (fun f q => splitSigns .unbounded n f = .ok q) fs ps)
    (h : DistinctBases (otherFactors (ps.flatMap fun q => q.body.factors))) :
    IsSteadyNode (product fs) := by
  intro m qs hqs
  rw [forall₂_splitSigns_unique hqs hps]
  exact h.filter _

/-- A power is steady if its base can be raised when its sign is out. -/
theorem isSteadyNode_power {b p : Expr} {n : Nat} {q : Signed}
    (hq : splitSigns .unbounded n b = .ok q) (h : q.body.IsBase) : IsSteadyNode (power b p) := by
  intro m q' r hq' _ _
  rwa [splitSigns_unique hq' hq]

/-- A power with an exponent that is no whole literal is steady. -/
theorem isSteadyNode_root {b : Expr} {y : Rat} (hy : y.den ≠ 1) :
    IsSteadyNode (power b (rat y)) := by
  intro m q r _ hr hint
  rw [hr.eq_of_isOriented (isOriented_rat y)] at hint
  have hwhole : (Number.exact y).isInteger = true := hint
  obtain ⟨k, rfl⟩ := Number.isInteger_exact_iff.mp hwhole
  exact absurd (Rat.den_intCast k) hy

/-- The body of a normal form is a representative, if its nodes are steady; by induction on the
depth. -/
theorem splitSigns_isRepresentative {n : Nat} {c : Expr} {p : Signed} (hc : c.IsKept)
    (hsteady : c.Every IsSteadyNode) (h : splitSigns .unbounded n c = .ok p) :
    p.body.IsRepresentative := by
  induction n generalizing c p with
  | zero => cases h
  | succ n ih =>
    cases c with
    | number v =>
      obtain ⟨q, rfl⟩ := hc.tidy.isExact.exists_rat
      exact body_isRepresentative (isOriented_rat q) h
    | symbol name => exact body_isRepresentative ⟨hc, every_symbol.mpr trivial⟩ h
    | sum ts =>
      obtain ⟨rs, hrs, a, ha, hp⟩ := splitSigns_sum_iff.mp h
      have horiented := isOriented_of_rebuildsAs (fun t ht p =>
        ih (hc.of_mem_sum t ht).1 ((every_sum.mp hsteady).2 t ht)) hrs
      exact hp.isRepresentative (normalForm_sum_isOriented horiented ha)
    | product fs =>
      obtain ⟨ps, hps, body, hbody, rfl⟩ := splitSigns_product_iff.mp h
      have hapart := (every_product.mp hsteady).1 n ps hps
      refine normalForm_product_isRepresentative (List.forall_mem_map.mpr fun q hq => ?_)
        (by rwa [List.flatMap_map]) hbody
      obtain ⟨f, hf, hfq⟩ := exists_mem_of_forall₂ hps hq
      exact ih (hc.of_mem_product f hf) ((every_product.mp hsteady).2 f hf) hfq
    | power b e =>
      obtain ⟨base, hbase, exponent, hexponent, hp⟩ := splitSigns_power_iff.mp h
      obtain ⟨hnode, hb, he⟩ := every_power.mp hsteady
      have hbody := ih hc.of_power.1 hb hbase
      have horiented : exponent.IsOriented := isOriented_of_rebuildsAs
        (List.forall_mem_singleton.mpr fun q => ih hc.of_power.2 he)
        (.cons hexponent .nil) exponent List.mem_cons_self
      cases hp with
      | whole _ hk hr =>
        obtain rfl := eq_of_integer? horiented.kept.tidy.isExact hk
        exact normalForm_power_isRepresentative
          (hnode n base _ hbase hexponent (isIntegerNumber_intCast _)) horiented hr
      | kept hnone hb' hr =>
        rw [Signed.rebuild_eq hbody.oriented.kept] at hb'
        obtain rfl := Except.ok.inj hb'
        by_cases hvalue : base.value.IsBase
        · exact normalForm_power_isRepresentative hvalue horiented hr
        · have hroot := isRepresentative_root (Signed.value_isOriented hbody) hvalue horiented
            (Bool.eq_false_iff.mpr fun hint => hvalue ?_)
          · rwa [← Except.ok.inj (hroot.oriented.kept.normalForm.symm.trans hr)]
          -- a whole exponent leaves no sign inside
          obtain ⟨k, rfl⟩ := (isIntegerNumber_iff horiented.kept.tidy.isExact).mp hint
          have hpositive : base.negative = false := Bool.eq_false_iff.mpr fun hneg => by
            cases (integer?_intCast k).symm.trans (hnone hneg)
          rw [Signed.value, hpositive]
          exact hnode n base _ hbase hexponent hint
    | negation e => exact absurd hc.tidy.isBuilt not_isBuilt_negation
    | call name es =>
      obtain ⟨rs, hrs, body, hbody, rfl⟩ := splitSigns_call_iff.mp h
      have horiented := isOriented_of_rebuildsAs (fun e he p =>
        ih (hc.of_mem_call e he) ((every_call.mp hsteady).2 e he)) hrs
      have hcall := isRepresentative_call hc hrs.length_eq.symm horiented
      rwa [← Except.ok.inj (hcall.oriented.kept.normalForm.symm.trans hbody)]
    | hole => exact absurd hc.tidy.isExact not_isExact_hole

/-- What stripping makes of a normal form with steady nodes is oriented. -/
theorem stripped_isOriented {e c r : Expr} (he : e.Every IsNamedNode)
    (hc : normalForm .unbounded e = .ok c) (hsteady : c.Every IsSteadyNode)
    (h : stripped .unbounded e = .ok r) : r.IsOriented := by
  rw [stripped, hc, ok_bind] at h
  obtain ⟨p, hp, h⟩ := bind_eq_ok_iff.mp h
  have hbody := splitSigns_isRepresentative (normalForm_kept he hc) hsteady hp
  have hvalue := Signed.value_isOriented hbody
  rw [Signed.rebuild_eq hbody.oriented.kept, ok_bind, hvalue.kept.normalForm] at h
  exact Except.ok.inj h ▸ hvalue

/-- The representative of a sign class represents itself, where nodes are steady, unless the limit
stops the second run. -/
theorem stripped_stripped {limit : DigitLimit} {e c r : Expr} (he : e.Every IsNamedNode)
    (hc : normalForm (Settings.standard.within limit) e = .ok c)
    (hsteady : c.Every IsSteadyNode)
    (h : stripped (Settings.standard.within limit) e = .ok r) :
    limit.Restricts (stripped (Settings.standard.within limit) r) (.ok r) := by
  have hc := normalForm_unlimited hc
  have h := stripped_unlimited h
  have hr := stripped_of_isOriented (stripped_isOriented he hc hsteady h)
  exact hr ▸ stripped_restricts _ r

/-- The sign of the power of `c - d` comes out and the root of `a - b` stays as it is, and nothing
changes any more. -/
theorem stripped_stripped_root :
    let minus (x y : String) := sum [symbol x, product [rat (-1), symbol y]]
    let opposite := sum [product [rat (-1), symbol "c"], symbol "d"]
    let e := product [call "sqrt" [minus "a" "b"], power (minus "c" "d") (rat (-1))]
    let c := product [power (minus "a" "b") (rat (1 / 2)), power (minus "c" "d") (rat (-1))]
    let r := product [rat (-1), power opposite (rat (-1)), power (minus "a" "b") (rat (1 / 2))]
    e.Every IsNamedNode ∧ normalForm .standard e = .ok c ∧ c.Every IsSteadyNode ∧
      stripped .standard e = .ok r ∧
      DigitLimit.standard.Restricts (stripped .standard r) (.ok r) := by
  intro minus opposite e c r
  have he : e.Every IsNamedNode := by
    have ha : IsIdentifier "a" := isIdentifier_letter (c := 'a') (by decide)
    have hb : IsIdentifier "b" := isIdentifier_letter (c := 'b') (by decide)
    have hc : IsIdentifier "c" := isIdentifier_letter (c := 'c') (by decide)
    have hd : IsIdentifier "d" := isIdentifier_letter (c := 'd') (by decide)
    simp [e, minus, IsNamedNode, Settings.standardFunctions, ha, hb, hc, hd]
  have hc : normalForm .standard e = .ok c :=
    normalForm_eq_ok_of_returns (by simp [e, minus]) (by simp [c, minus]) (by decide +kernel)
  have hr : stripped .standard e = .ok r := stripped_eq_ok_of_returns (isExact_of_named he)
    (by simp [r, minus, opposite]) (by decide +kernel)
  have hkept := normalForm_kept he (normalForm_unlimited hc)
  have hminus : ∀ x y, (minus x y).Every IsSteadyNode := by
    intro x y
    have hsigns : List.Forall₂ (fun f q => splitSigns .unbounded 1 f = .ok q) [rat (-1), symbol y]
        [⟨true, rat 1⟩, ⟨false, symbol y⟩] := by simp [splitSigns]
    have hnode : IsSteadyNode (product [rat (-1), symbol y]) :=
      isSteadyNode_product hsigns (by simp [DistinctBases, factors, otherFactors, isNumber])
    refine every_sum.mpr ⟨trivial, ?_⟩
    simp only [List.forall_mem_cons, every_symbol, every_product, every_number]
    exact ⟨trivial, ⟨hnode, trivial, trivial, List.forall_mem_nil _⟩, List.forall_mem_nil _⟩
  -- the signs of the two factors
  have hroot : splitSigns .unbounded 4 (power (minus "a" "b") (rat (1 / 2))) =
      .ok ⟨false, power (minus "a" "b") (rat (1 / 2))⟩ :=
    splitSigns_eq_ok_of_same (by simp [minus]) (by simp [minus]) (by decide +kernel)
  have hinverse : splitSigns .unbounded 4 (power (minus "c" "d") (rat (-1))) =
      .ok ⟨true, power opposite (rat (-1))⟩ :=
    splitSigns_eq_ok_of_same (by simp [minus]) (by simp [opposite]) (by decide +kernel)
  have hbase : splitSigns .unbounded 3 (minus "c" "d") = .ok ⟨true, opposite⟩ :=
    splitSigns_eq_ok_of_same (by simp [minus]) (by simp [opposite]) (by decide +kernel)
  have hopposite : opposite.IsBase := by
    have hsum : (minus "c" "d").IsOriented := by
      refine ⟨(hkept.of_mem_product (power (minus "c" "d") (rat (-1))) (by simp)).of_power.1, ?_⟩
      simp [minus, IsOrientedNode, isSum]
    exact .mk (body_isRepresentative hsum hbase) (by simp [opposite, factors])
      (by simp [opposite, factors])
  have hnode : IsSteadyNode c := isSteadyNode_product (.cons hroot (.cons hinverse .nil))
    (by simp [DistinctBases, factors, otherFactors, isNumber, splitPower, minus, opposite])
  have hsteady : c.Every IsSteadyNode := by
    refine every_product.mpr ⟨hnode, ?_⟩
    simp only [List.forall_mem_cons, every_power, every_number, hminus, true_and]
    exact ⟨⟨isSteadyNode_root (by decide +kernel), trivial⟩,
      ⟨isSteadyNode_power hbase hopposite, trivial⟩, List.forall_mem_nil _⟩
  exact ⟨he, hc, hsteady, hr, stripped_stripped he hc hsteady hr⟩

/-- Two roots whose bases differ only in the sign under a square come to one whole power of the
sum, which faces backward and is turned round when the result is stripped again. -/
theorem stripped_merged_roots :
    let x := symbol "x"
    let a := symbol "a"
    let y := symbol "y"
    let root (t : Expr) := call "sqrt" [sum [a, negation (power t (rat 2))]]
    let e := product [y, root (sum [rat 1, negation x]), root (sum [x, negation (rat 1)])]
    let square := power (sum [rat (-1), x]) (rat 2)
    let r := product [sum [product [rat (-1), square], a], y]
    let d := product [rat (-1), sum [square, product [rat (-1), a]], y]
    e.Every IsNamedNode ∧ stripped .standard e = .ok r ∧ stripped .standard r = .ok d ∧ r ≠ d := by
  intro x a y root e square r d
  have ha : IsIdentifier "a" := isIdentifier_letter (c := 'a') (by decide)
  have hx : IsIdentifier "x" := isIdentifier_letter (c := 'x') (by decide)
  have hy : IsIdentifier "y" := isIdentifier_letter (c := 'y') (by decide)
  have he : e.Every IsNamedNode := by
    simp [e, root, x, a, y, IsNamedNode, Settings.standardFunctions, ha, hx, hy]
  have hr : r.IsExact := by simp [r, square, x, a, y]
  have hd : d.IsExact := by simp [d, square, x, a, y]
  exact ⟨he, stripped_eq_ok_of_returns (isExact_of_named he) hr (by decide +kernel),
    stripped_eq_ok_of_returns hr hd (by decide +kernel), by simp [r, d, square]⟩

end AlgebraicForm
