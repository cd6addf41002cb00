import AlgebraicForm.Proofs.TurnedSums

/-!
# The parts of a product

A product adds up exponents before any sign is taken out. This brings the parts of what it comes to
back to its operands, when some of them are sums that may be turned round: each base outside their
class has one power, and the sums have whole powers, of which only the totals count. A sum that no
other factor has as its base stays what it is, whatever its body is.

* `builders_hasKeptBases`: the bases of factors are normal forms throughout.
* `ProductResult.exists_parts`: the parts of a product once its bases are raised.
* `sameFactors_mergedPowers`: the powers of sums are factors as they are.
* `exists_parts`, `exists_parts_apart`: the parts of a product of normal forms.
-/

namespace AlgebraicForm

open AlgebraicForm.Expr

/-! ## Bases of factors -/

namespace Expr

/-- The bases of the factors are kept, and so are sums among them. -/
def HasKeptBases (e : Expr) : Prop :=
  ∀ f ∈ otherFactors e.factors, f.splitPower.1.IsKept

theorem hasKeptBases_rat (q : Rat) : (rat q).HasKeptBases :=
  nofun

theorem IsKept.splitPower {f : Expr} (h : f.IsKept) :
    f.splitPower.1.IsKept ∧ f.splitPower.2.IsKept := by
  cases f with
  | power b p => exact h.of_power
  | _ => exact ⟨h, isKept_rat 1⟩

theorem IsKept.hasKeptBases {e : Expr} (h : e.IsKept) : e.HasKeptBases :=
  fun f hf => (h.keptFactors.kept f hf).splitPower.1

end Expr

theorem LiteralPower.hasKeptBases {s : Settings} {b p r : Expr} (h : LiteralPower s b p r)
    (hb : b.IsKept) : r.HasKeptBases := by
  cases h with
  | zero_zero => exact List.forall_mem_singleton.mpr hb
  | power_one => exact hb.hasKeptBases
  | power_zero | one_power | zero_power | fold => exact hasKeptBases_rat _

theorem ProductResult.hasKeptBases {fuel : Nat} {q : Rat} {fs : List Expr} {r : Expr}
    (h : ProductResult .unbounded fuel q fs r) (hfactor : ∀ f ∈ fs, f.IsFactor)
    (hfs : ∀ f ∈ fs, f.splitPower.1.IsKept) : r.HasKeptBases := by
  cases h with
  | zero | literal => exact hasKeptBases_rat _
  | negated _ hsum hus hr =>
    subst hsum
    have hsum := hfs _ List.mem_cons_self
    exact buildSum_negated hsum hus hr ▸ hsum.opposite.hasKeptBases
  | @plain gs _ hsort hne =>
    have hmem : ∀ g ∈ gs, g ∈ fs := fun g hg => (sortFactors_perm hsort).mem_iff.mp hg
    rw [withCoefficient_eq hne, ← ofScaled_eq hne]
    intro g hg
    rw [(factors_ofScaled q fun g hg => hfactor g (hmem g hg)).2] at hg
    exact hfs g (hmem g hg)

theorem base_isKept {es : List Expr} (hes : ∀ e ∈ es, e.IsTidy ∧ e.HasKeptBases) :
    ∀ f ∈ otherFactors (es.flatMap factors), f.IsFactor ∧ f.splitPower.1.IsKept := by
  intro f hf
  obtain ⟨hmem, hnumber⟩ := mem_otherFactors.mp hf
  obtain ⟨e, he, hfe⟩ := List.mem_flatMap.mp hmem
  have hfe := mem_otherFactors.mpr ⟨hfe, hnumber⟩
  exact ⟨((hes e he).1.of_mem_otherFactors f hfe).2, (hes e he).2 f hfe⟩

theorem powers_hasKeptBases {fuel : Nat} {es : List Expr} {groups : List (Expr × List Expr)}
    {ps : List Expr} (hpower : ∀ b p r, b.IsKept → p.IsTidy →
      buildPower .unbounded fuel b p = .ok r → r.HasKeptBases)
    (hes : ∀ e ∈ es, e.IsTidy ∧ e.HasKeptBases)
    (hgroups : Collects (otherFactors (es.flatMap factors)) groups)
    (hps : groups.mapM (groupPower .unbounded (buildPower .unbounded fuel)) = .ok ps) :
    ∀ p ∈ ps, p.IsTidy ∧ p.HasKeptBases := by
  have hgroup := hgroups.isTidy (isTidy_otherFactors fun e he => (hes e he).1)
  refine forall_mem_of_mapM (fun g hg p hp => ⟨groupPower_isTidy (hgroup g hg) hp, ?_⟩) hps
  obtain ⟨f, hf, hbase⟩ := List.mem_map.mp ((hgroups.bases g.1).mp (List.mem_map_of_mem hg))
  obtain ⟨e, he, hp⟩ := bind_eq_ok_iff.mp hp
  have hproper := mergeExponents_isProper (fun e he => ((hgroup g hg).2 e he).isProper) he
  exact hpower _ _ _ (hbase ▸ (base_isKept hes f hf).2) (isTidy_iff_proper.mpr hproper) hp

/-- The builders make no new bases of factors, by induction on the depth. -/
theorem builders_hasKeptBases (fuel : Nat) :
    (∀ es r, (∀ e ∈ es, e.IsTidy ∧ e.HasKeptBases) → buildProduct .unbounded fuel es = .ok r →
      r.HasKeptBases) ∧
    (∀ b p r, b.IsKept → p.IsTidy → buildPower .unbounded fuel b p = .ok r → r.HasKeptBases) := by
  induction fuel with
  | zero =>
    constructor
    · intro es r _ h
      rw [buildProduct] at h
      cases h
    · intro b p r _ _ h
      unfold buildPower at h
      cases h
  | succ fuel ih =>
    obtain ⟨hproduct, hpower⟩ := ih
    constructor
    · intro es r hes h
      obtain ⟨bs, hbs, ⟨-, rfl⟩ | ⟨-, ps, hps, hresult⟩⟩ :=
        exists_productResult (fun e he => (hes e he).1.isBuilt) h
      · exact hasKeptBases_rat 0
      have hbase := base_isKept (powers_hasKeptBases hpower hes hbs hps)
      exact hresult.hasKeptBases (fun f hf => (hbase f hf).1) fun f hf => (hbase f hf).2
    · intro b p r hb hp h
      cases buildPower_eq_ok hb.tidy.isExact hp.isExact h with
      | literal hliteral => exact hliteral.hasKeptBases hb
      | nested k _ hq hr =>
        refine hpower _ _ _ hb.of_power.1 (buildProduct_isTidy ?_ hq) hr
        simp [hb.of_power.2.tidy]
      | distributed k _ hgs hr =>
        refine hproduct _ _ (fun g hg => ?_) hr
        obtain ⟨f, hf, hfg⟩ := exists_mem_of_forall₂ hgs hg
        have hf := hb.of_mem_product f hf
        exact ⟨buildPower_isTidy hf.tidy hp hfg, hpower _ _ _ hf hp hfg⟩
      | plain => exact List.forall_mem_singleton.mpr hb

/-! ## Parts of a product -/

theorem signOf_perm {ps qs : List Signed} (h : ps.Perm qs) : signOf ps = signOf qs := by
  induction h with
  | nil => rfl
  | cons p _ ih => rw [signOf_cons, signOf_cons, ih]
  | swap p q ps => rw [signOf_cons, signOf_cons, signOf_cons, signOf_cons, Bool.xor_left_comm]
  | trans _ _ ih ih' => exact ih.trans ih'

theorem signOf_append (ps qs : List Signed) : signOf (ps ++ qs) = (signOf ps ^^ signOf qs) := by
  induction ps with
  | nil => simp [signOf]
  | cons p ps ih => rw [List.cons_append, signOf_cons, signOf_cons, ih, Bool.xor_assoc]

theorem forall_mem_combined {q : Rat} {ps : List Signed} (h : ∀ p ∈ ps, p.body.IsKept) :
    ∀ e ∈ rat q :: ps.map (·.body), e.IsKept :=
  List.forall_mem_cons.mpr ⟨isKept_rat q, List.forall_mem_map.mpr h⟩

/-- A coefficient and the parts of factors come to a sign and a body. -/
structure CombinesTo (q : Rat) (ps : List Signed) (p : Signed) : Prop where
  kept : ∀ r ∈ ps, r.body.IsKept
  sign : p.negative = (decide (q < 0) ^^ signOf ps)
  body : normalForm .unbounded (product (rat |q| :: ps.map (·.body))) = .ok p.body

theorem CombinesTo.perm {q : Rat} {ps qs : List Signed} {p : Signed} (h : CombinesTo q ps p)
    (hperm : ps.Perm qs) : CombinesTo q qs p := by
  have hkept : ∀ r ∈ qs, r.body.IsKept := fun r hr => h.kept r (hperm.mem_iff.mpr hr)
  refine ⟨hkept, h.sign.trans (by rw [signOf_perm hperm]), ?_⟩
  rw [normalForm_product_of_samePowers (forall_mem_combined hkept) (forall_mem_combined h.kept),
    h.body]
  exact (SameFactors.perm (((hperm.symm.map _).cons _).flatMap_right _)).samePowers

/-- Turning the signs of some parts makes no difference if the sign of the coefficient is turned as
often. -/
theorem sign_flip {q : Rat} (hq : q ≠ 0) (ps : List Signed) :
    (decide ((-1) ^ ps.length * q < 0) ^^ signOf (ps.map Signed.flip)) =
      (decide (q < 0) ^^ signOf ps) := by
  induction ps generalizing q with
  | nil => simp
  | cons p ps ih =>
    have hflip : decide (-q < 0) = !decide (q < 0) := by
      by_cases hneg : q < 0
      · simp [hneg, hneg.le]
      · simp [hneg, lt_of_le_of_ne (not_lt.mp hneg) (Ne.symm hq)]
    rw [List.length_cons, pow_succ, mul_assoc, neg_one_mul, List.map_cons, signOf_cons, signOf_cons,
      Bool.xor_left_comm, ih (neg_ne_zero.mpr hq), hflip, Signed.flip_negative, Bool.not_xor,
      Bool.not_xor, Bool.xor_not, Bool.not_not, Bool.xor_left_comm]

theorem CombinesTo.flip {q : Rat} {ps us : List Signed} {p : Signed} (hq : q ≠ 0)
    (h : CombinesTo q (ps ++ us) p) :
    CombinesTo ((-1) ^ ps.length * q) (ps.map Signed.flip ++ us) p := by
  have hbodies : (ps.map Signed.flip ++ us).map (·.body) = (ps ++ us).map (·.body) := by
    simp [Function.comp_def]
  refine ⟨?_, ?_, ?_⟩
  · have hkept := List.forall_mem_map.mpr h.kept
    exact List.forall_mem_map.mp (hbodies ▸ hkept)
  · rw [h.sign, signOf_append, signOf_append, ← Bool.xor_assoc, ← Bool.xor_assoc, sign_flip hq]
  · rw [hbodies, abs_mul, abs_pow, abs_neg, abs_one, one_pow, one_mul]
    exact h.body

/-- The parts of a product are those of its factors. -/
theorem ProductResult.exists_parts {fuel : Nat} {q : Rat} {fs : List Expr} {c : Expr} {p : Signed}
    (h : ProductResult .unbounded fuel q fs c) (hq : q ≠ 0) (hfactor : ∀ f ∈ fs, f.IsFactor)
    (hbase : ∀ f ∈ fs, f.splitPower.1.IsKept) (hc : c.IsKept) (hp : Splits c p) :
    (∀ f ∈ fs, f.IsKept) ∧ ∃ ps, List.Forall₂ OrientsAs fs ps ∧ CombinesTo q ps p := by
  have hscaled : ∀ {gs : List Expr}, KeptFactors q gs → Splits (ofScaled q gs) p →
      ∃ ps, List.Forall₂ OrientsAs gs ps ∧ CombinesTo q ps p := by
    intro gs hgs hp
    obtain ⟨ps, hps, hsign, hbody⟩ := splits_ofScaled hgs hp
    exact ⟨ps, hps.imp fun _ _ => .inl,
      List.forall_mem_map.mp (forall_mem_bodies hgs.kept hps), hsign, hbody⟩
  cases h with
  | zero hzero => exact absurd hzero hq
  | literal _ hnil =>
    subst hnil
    exact ⟨List.forall_mem_nil _, hscaled ⟨nofun, nofun, .nil, .nil, nofun⟩ hp⟩
  | @negated ts _ _ hminus hsum hus hr =>
    subst hminus hsum
    have hts := hbase _ List.mem_cons_self
    obtain rfl := buildSum_negated hts hus hr
    have hbody := hp.isKept hc
    refine ⟨List.forall_mem_singleton.mpr hts, [p.flip], .cons (.inr ⟨rfl, ?_⟩) .nil,
      List.forall_mem_singleton.mpr hbody, ?_, ?_⟩
    · rwa [Signed.flip_flip]
    · simp [signOf]
    · simpa using normalForm_one hbody
  | @plain gs _ hsort hne =>
    have hperm := sortFactors_perm hsort
    rw [withCoefficient_eq hne, ← ofScaled_eq hne] at hc hp
    obtain ⟨hliteral, hother⟩ := factors_ofScaled q fun g hg => hfactor g (hperm.mem_iff.mp hg)
    have hkept := hc.keptFactors
    rw [hliteral, hother] at hkept
    refine ⟨fun f hf => hkept.kept f (hperm.mem_iff.mpr hf), ?_⟩
    obtain ⟨ps, hps, hcombines⟩ := hscaled hkept hp
    -- the factors have been sorted
    obtain ⟨qs, hqs, hperm'⟩ := List.perm_comp_forall₂ hperm.symm hps
    exact ⟨qs, hqs, hcombines.perm hperm'.symm⟩

/-! ## Whole powers among factors -/

/-- The power of a base to the total of its exponents, to whatever depth it is built. -/
def PowersTo (fs : List Expr) (b r : Expr) : Prop :=
  ∃ fuel, basePower (buildPower .unbounded fuel) fs b = .ok r

theorem PowersTo.unique {fs : List Expr} {b r r' : Expr} (h : PowersTo fs b r)
    (h' : PowersTo fs b r') : r = r' := by
  obtain ⟨n, h⟩ := h
  obtain ⟨m, h'⟩ := h'
  obtain ⟨e, he, hr⟩ := bind_eq_ok_iff.mp h
  obtain ⟨e', he', hr'⟩ := bind_eq_ok_iff.mp h'
  obtain rfl := Except.ok.inj (he.symm.trans he')
  exact Except.ok.inj (((buildPower_mono (le_max_left n m) b e).ok hr).symm.trans
    ((buildPower_mono (le_max_right n m) b e).ok hr'))

/-- The whole exponent of a factor. -/
def wholeExponent (f : Expr) : Int :=
  f.splitPower.2.integer?.getD 0

theorem exponent_eq {f : Expr} (h : f.IsExact) (hint : f.splitPower.2.isIntegerNumber = true) :
    f.splitPower.2 = rat (wholeExponent f) := by
  obtain ⟨k, hk⟩ := (isIntegerNumber_iff h.splitPower.2).mp hint
  rw [wholeExponent, hk, integer?_intCast, Option.getD_some]

section

variable {C : Expr → Prop}

open Classical

/-- The powers of certain bases among factors. -/
noncomputable def powersOf (C : Expr → Prop) (fs : List Expr) : List (Expr × Int) :=
  (fs.filter fun f => C f.splitPower.1).map fun f => (f.splitPower.1, wholeExponent f)

/-- The total of the whole exponents of a base. -/
noncomputable def totalExponent (fs : List Expr) (b : Expr) : Int :=
  ((fs.filter fun f => f.splitPower.1 = b).map wholeExponent).sum

theorem buildSum_exponentsOf {fs : List Expr} {b : Expr} (hfs : ∀ f ∈ fs, f.IsExact)
    (hint : ∀ f ∈ fs, f.splitPower.1 = b → f.splitPower.2.isIntegerNumber = true) :
    buildSum .unbounded (exponentsOf b fs) = .ok (rat (totalExponent fs b)) := by
  have hexponents : exponentsOf b fs =
      (((fs.filter fun f => f.splitPower.1 = b).map wholeExponent).map fun k : Int =>
        (k : Rat)).map rat := by
    rw [exponentsOf, List.map_map, List.map_map]
    refine List.map_congr_left fun f hf => ?_
    obtain ⟨hf, hb⟩ := List.mem_filter.mp hf
    exact exponent_eq (hfs f hf) (hint f hf (by simpa using hb))
  rw [hexponents, buildSum_literals, totalExponent, Int.cast_list_sum]

/-- The totals of different bases count as much as all their powers. -/
theorem sum_totalExponent {bs fs : List Expr} (hbs : bs.Nodup)
    (hmem : ∀ f ∈ fs, (f.splitPower.1 ∈ bs ↔ C f.splitPower.1)) (count : Expr → Int) :
    (bs.map fun b => totalExponent fs b * count b).sum =
      ((powersOf C fs).map fun g => g.2 * count g.1).sum := by
  induction fs with
  | nil => simp [totalExponent, powersOf]
  | cons f fs ih =>
    rw [List.forall_mem_cons] at hmem
    have hcons : ∀ b, totalExponent (f :: fs) b * count b =
        (if f.splitPower.1 = b then wholeExponent f * count b else 0) +
          totalExponent fs b * count b := by
      intro b
      by_cases hb : f.splitPower.1 = b <;> simp [totalExponent, hb, add_mul]
    simp only [hcons]
    rw [List.sum_map_add, ih hmem.2,
      List.sum_map_eq_nsmul_single f.splitPower.1 _ fun b hb _ => if_neg (Ne.symm hb)]
    by_cases hC : C f.splitPower.1
    · rw [List.count_eq_one_of_mem hbs (hmem.1.mpr hC)]
      simp [powersOf, hC]
    · rw [List.count_eq_zero_of_not_mem fun h => hC (hmem.1.mp h)]
      simp [powersOf, hC]

/-- The powers of different bases, without those whose exponents cancel. -/
noncomputable def mergedPowers (fs bs : List Expr) : List (Expr × Int) :=
  (bs.map fun b => (b, totalExponent fs b)).filter fun g => g.2 ≠ 0

theorem sameTotals_mergedPowers {bs fs : List Expr} (hbs : bs.Nodup)
    (hmem : ∀ f ∈ fs, (f.splitPower.1 ∈ bs ↔ C f.splitPower.1)) :
    SameTotals (mergedPowers fs bs) (powersOf C fs) := by
  intro count
  rw [← sum_totalExponent hbs hmem, mergedPowers]
  clear hbs hmem
  induction bs with
  | nil => rfl
  | cons b bs ih =>
    by_cases hb : totalExponent fs b = 0
    · rw [List.map_cons, List.filter_cons_of_neg (by simpa using hb), ih, List.map_cons,
        List.sum_cons, hb, zero_mul, zero_add]
    · rw [List.map_cons, List.filter_cons_of_pos (by simpa using hb), List.map_cons, List.map_cons,
        List.sum_cons, List.sum_cons, ih]

/-- The powers of sums are the factors that they leave. -/
theorem sameFactors_mergedPowers {bs fs : List Expr} {result : Expr → Expr}
    (hsum : ∀ b ∈ bs, b.isSum = true)
    (hresult : ∀ b ∈ bs, result b =
      if totalExponent fs b = 0 then one else ofPower b (rat (totalExponent fs b))) :
    SameFactors ((bs.map result).flatMap factors)
      ((mergedPowers fs bs).map fun g => ofPower g.1 (rat g.2)) := by
  induction bs with
  | nil => exact .refl _
  | cons b bs ih =>
    rw [List.forall_mem_cons] at hsum hresult
    have ih := ih hsum.2 hresult.2
    rw [List.map_cons, List.flatMap_cons, hresult.1, mergedPowers, List.map_cons]
    by_cases hb : totalExponent fs b = 0
    · rw [if_pos hb, List.filter_cons_of_neg (by simpa using hb)]
      refine ⟨?_, ?_⟩
      · rw [literalProduct_append, ih.literal]
        simp [factors, one, mergedPowers]
      · rw [otherFactors_append]
        simpa [factors, one, mergedPowers] using ih.other
    · rw [if_neg hb, List.filter_cons_of_pos (by simpa using hb), List.map_cons,
        factors_of_isProduct_eq_false (isFactor_ofPower hsum.1 _).2]
      exact .append (.refl _) ih

/-! ## Parts of the operands -/

theorem sameTotals_perm {ks ls : List (Expr × Int)} (h : ks.Perm ls) : SameTotals ks ls :=
  fun _ => (h.map _).sum_eq

theorem SameTotals.trans {ks ls ms : List (Expr × Int)} (h : SameTotals ks ls)
    (h' : SameTotals ls ms) : SameTotals ks ms :=
  fun count => (h count).trans (h' count)

/-- Powers with the same totals are the same part of a product. -/
theorem CombinesTo.of_sameTotals {q : Rat} {ps : List Signed} {ks ls : List (Expr × Int)}
    {p : Signed} (h : CombinesTo q (ps ++ ks.map turned) p) (hsame : SameTotals ks ls)
    (hks : ∀ g ∈ ks, IsTurnable g.1) (hls : ∀ g ∈ ls, IsTurnable g.1 ∧ g.2 ≠ 0) :
    CombinesTo q (ps ++ ls.map turned) p := by
  have hkept : ∀ r ∈ ps ++ ls.map turned, r.body.IsKept := by
    refine List.forall_mem_append.mpr
      ⟨(List.forall_mem_append.mp h.kept).1, List.forall_mem_map.mpr fun g hg => ?_⟩
    obtain ⟨hturn, hne⟩ := hls g hg
    exact isKept_ofPower hturn.body_isKept hturn.body_isSum hne
  refine ⟨hkept, ?_, ?_⟩
  · rw [h.sign, signOf_append, signOf_append, hsame.signOf_eq]
  · rw [← h.body]
    refine (normalForm_product_of_samePowers (forall_mem_combined h.kept)
      (forall_mem_combined hkept) ?_).symm
    rw [List.map_append, List.map_append, ← List.cons_append, ← List.cons_append]
    exact hsame.samePowers hks (fun g hg => (hls g hg).1) _

/-- The powers of the bases outside a class. -/
def PowersOutside (C : Expr → Prop) (fs rs : List Expr) : Prop :=
  ∃ bs : List Expr, bs.Nodup ∧ (∀ b, b ∈ bs ↔ b ∈ fs.map (fun f => f.splitPower.1) ∧ ¬C b) ∧
    List.Forall₂ (PowersTo fs) bs rs

theorem forall₂_powersTo_unique {fs bs rs rs' : List Expr} (h : List.Forall₂ (PowersTo fs) bs rs)
    (h' : List.Forall₂ (PowersTo fs) bs rs') : rs = rs' := by
  induction h generalizing rs' with
  | nil => cases h'; rfl
  | cons h _ ih =>
    cases h' with
    | cons h' hs => rw [h.unique h', ih hs]

theorem PowersOutside.perm {fs rs rs' : List Expr} (h : PowersOutside C fs rs)
    (h' : PowersOutside C fs rs') : rs.Perm rs' := by
  obtain ⟨bs, hnodup, hbs, hrs⟩ := h
  obtain ⟨cs, hnodup', hcs, hrs'⟩ := h'
  have hperm : bs.Perm cs :=
    (List.perm_ext_iff_of_nodup hnodup hnodup').mpr fun b => (hbs b).trans (hcs b).symm
  obtain ⟨ts, hts, hperm'⟩ := List.perm_comp_forall₂ hperm hrs'
  rw [forall₂_powersTo_unique hrs hts]
  exact hperm'

/-- Factors with bases in the class make no difference to the powers outside of it. -/
theorem PowersOutside.of_perm_append {fs gs ss rs : List Expr} (hfs : ∀ f ∈ fs, f.IsTidy)
    (hperm : fs.Perm (gs ++ ss)) (hss : ∀ s ∈ ss, C s.splitPower.1)
    (h : PowersOutside C fs rs) : PowersOutside C gs rs := by
  obtain ⟨bs, hnodup, hbs, hrs⟩ := h
  have hnew : ∀ {b}, ¬C b → b ∉ ss.map fun s => s.splitPower.1 := fun hb hmem => by
    obtain ⟨s, hs, rfl⟩ := List.mem_map.mp hmem
    exact hb (hss s hs)
  refine ⟨bs, hnodup, fun b => (hbs b).trans (and_congr_left fun hb => ?_), ?_⟩
  · rw [(hperm.map _).mem_iff, List.map_append, List.mem_append, or_iff_left (hnew hb)]
  · have hgs : ∀ g ∈ gs, g.IsTidy := fun g hg =>
      hfs g (hperm.mem_iff.mpr (List.mem_append_left _ hg))
    refine ((List.forall₂_and_left bs rs).mpr ⟨fun b hb => ((hbs b).mp hb).2, hrs⟩).imp ?_
    rintro b r ⟨hb, fuel, hr⟩
    refine ⟨fuel, ?_⟩
    rw [basePower, buildSum_of_sameTerms (isTidy_exponentsOf hgs b) (isTidy_exponentsOf hfs b)]
    · exact hr
    refine .perm (.flatMap_right _ ?_)
    have hexponents := exponentsOf_perm hperm b
    rw [exponentsOf_append, exponentsOf_eq_nil (hnew hb), List.append_nil] at hexponents
    exact hexponents.symm

theorem powersOf_perm {fs gs : List Expr} (h : fs.Perm gs) :
    (powersOf C fs).Perm (powersOf C gs) :=
  (h.filter _).map _

theorem powersOf_append (fs gs : List Expr) :
    powersOf C (fs ++ gs) = powersOf C fs ++ powersOf C gs := by
  rw [powersOf, List.filter_append, List.map_append]
  rfl

/-- Sums in the class are powers to the exponent one. -/
theorem powersOf_sums {ss : List Expr} (h : ∀ s ∈ ss, s.isSum = true ∧ C s) :
    powersOf C ss = ss.map fun s => (s, 1) := by
  induction ss with
  | nil => rfl
  | cons s ss ih =>
    rw [List.forall_mem_cons] at h
    obtain ⟨⟨hsum, hC⟩, hss⟩ := h
    obtain ⟨ts, rfl⟩ := exists_of_isSum hsum
    rw [← List.singleton_append, powersOf_append, ih hss]
    have hone : wholeExponent (sum ts) = 1 := congrArg (Option.getD · 0) (integer?_intCast 1)
    simp [powersOf, splitPower, hC, hone]

/-- No whole power of a sum that is kept has the exponent zero. -/
theorem wholeExponent_ne_zero {f : Expr} (h : f.IsKept) (hsum : f.splitPower.1.isSum = true)
    (hint : f.splitPower.2.isIntegerNumber = true) : wholeExponent f ≠ 0 := by
  intro hzero
  have hexponent := exponent_eq h.tidy.isExact hint
  rw [hzero] at hexponent
  cases f with
  | power b p =>
    obtain ⟨ts, hts⟩ := exists_of_isSum hsum
    obtain rfl : b = sum ts := hts
    obtain rfl : p = zero := hexponent
    rcases (isBuilt_power.mp h.tidy.isBuilt).1.1 with hnone | ⟨hbase, -⟩
    · cases hnone
    · cases hbase
  | _ => cases hexponent

/-- What a product comes to: nothing, or a tree with the parts of some factors and of powers that
are turned round. -/
def HasParts (q : Rat) (fs : List Expr) (ks : List (Expr × Int)) (c : Expr) : Prop :=
  q = 0 ∧ c = zero ∨ q ≠ 0 ∧ ∀ p, Splits c p → (∀ f ∈ fs, f.IsKept) ∧
    ∃ ps, List.Forall₂ OrientsAs fs ps ∧ CombinesTo q (ps ++ ks.map turned) p

theorem forall₂_orientsAs_ofPower {ks : List (Expr × Int)} {ps : List Signed}
    (hks : ∀ g ∈ ks, IsTurnable g.1 ∧ g.2 ≠ 0)
    (h : List.Forall₂ OrientsAs (ks.map fun g => ofPower g.1 (rat g.2)) ps) :
    ps = ks.map turned := by
  induction ks generalizing ps with
  | nil => cases h; rfl
  | cons g ks ih =>
    rw [List.forall_mem_cons] at hks
    cases h with
    | cons hg h => rw [List.map_cons, orientsAs_ofPower hks.1.1 hks.1.2 hg, ih hks.2 h]

theorem ProductResult.hasParts {fuel : Nat} {q : Rat} {fs gs : List Expr} {c : Expr}
    {ks ls : List (Expr × Int)} (h : ProductResult .unbounded fuel q fs c)
    (hfs : ∀ f ∈ fs, f.IsFactor ∧ f.splitPower.1.IsKept) (hc : c.IsKept)
    (hperm : fs.Perm (gs ++ ks.map fun g => ofPower g.1 (rat g.2))) (hsame : SameTotals ks ls)
    (hks : ∀ g ∈ ks, IsTurnable g.1 ∧ g.2 ≠ 0) (hls : ∀ g ∈ ls, IsTurnable g.1 ∧ g.2 ≠ 0) :
    HasParts q gs ls c := by
  by_cases hq : q = 0
  · cases h with
    | zero => exact .inl ⟨hq, rfl⟩
    | literal hne | plain hne => exact absurd hq hne
    | negated hminus => cases hminus.symm.trans hq
  refine .inr ⟨hq, fun p hp => ?_⟩
  obtain ⟨hkept, ps, hps, hcombines⟩ :=
    h.exists_parts hq (fun f hf => (hfs f hf).1) (fun f hf => (hfs f hf).2) hc hp
  refine ⟨fun g hg => hkept g (hperm.mem_iff.mpr (List.mem_append_left _ hg)), ?_⟩
  obtain ⟨qs, hqs, hperm'⟩ := List.perm_comp_forall₂ hperm.symm hps
  -- the parts of the powers stand behind those of the others
  have hothers := (List.forall₂_take_append qs gs _ hqs.flip).flip
  have hpowers := forall₂_orientsAs_ofPower hks (List.forall₂_drop_append qs gs _ hqs.flip).flip
  refine ⟨_, hothers, .of_sameTotals ?_ hsame (fun g hg => (hks g hg).1) hls⟩
  rw [← hpowers, List.take_append_drop]
  exact hcombines.perm hperm'.symm

/-- The powers of the bases of factors: those outside a class, and one whole power of each sum
within it whose exponents do not cancel. -/
theorem exists_powersOutside {fuel : Nat} {fs bs ps : List Expr} (hfs : ∀ f ∈ fs, f.IsExact)
    (hturn : ∀ f ∈ fs, C f.splitPower.1 →
      f.splitPower.1.isSum = true ∧ f.splitPower.2.isIntegerNumber = true)
    (hnodup : bs.Nodup) (hbs : ∀ b, b ∈ bs ↔ b ∈ fs.map fun f => f.splitPower.1)
    (hps : List.Forall₂ (fun b p => basePower (buildPower .unbounded (fuel + 1)) fs b = .ok p)
      bs ps) :
    ∃ rs, PowersOutside C fs rs ∧ SameFactors (ps.flatMap factors) (rs.flatMap factors ++
      (mergedPowers fs (bs.filter (C ·))).map fun g => ofPower g.1 (rat g.2)) := by
  let result b := (basePower (buildPower .unbounded (fuel + 1)) fs b).toOption.getD one
  obtain rfl : bs.map result = ps := map_getD_of_forall₂ one hps
  have hresult : ∀ b ∈ bs, basePower (buildPower .unbounded (fuel + 1)) fs b = .ok (result b) :=
    List.forall₂_same.mp (List.forall₂_map_right_iff.mp hps)
  have hmem : ∀ {P : Expr → Bool}, ∀ b ∈ bs.filter P, b ∈ bs ∧ P b = true :=
    fun b hb => List.mem_filter.mp hb
  have hclass : ∀ b ∈ bs.filter (C ·), b.isSum = true ∧ result b =
      if totalExponent fs b = 0 then one else ofPower b (rat (totalExponent fs b)) := by
    intro b hb
    obtain ⟨hb, hC⟩ := hmem b hb
    have hC : C b := of_decide_eq_true hC
    obtain ⟨f, hf, rfl⟩ := List.mem_map.mp ((hbs b).mp hb)
    have hsum := (hturn f hf hC).1
    have hpower := hresult _ hb
    rw [basePower, buildSum_exponentsOf hfs fun g hg hbase => (hturn g hg (hbase ▸ hC)).2, ok_bind,
      buildPower_sum hsum] at hpower
    exact ⟨hsum, (Except.ok.inj hpower).symm⟩
  refine ⟨(bs.filter fun b => !decide (C b)).map result,
    ⟨bs.filter fun b => !decide (C b), hnodup.filter _, fun b => ?_, ?_⟩, ?_⟩
  · rw [List.mem_filter, hbs, Bool.not_eq_true', decide_eq_false_iff_not]
  · rw [List.forall₂_map_right_iff]
    exact List.forall₂_same.mpr fun b hb => ⟨fuel + 1, hresult b (hmem b hb).1⟩
  · have hperm : (bs.map result).Perm ((bs.filter fun b => !decide (C b)).map result ++
        (bs.filter (C ·)).map result) := by
      have hsplit := List.filter_append_perm (fun b => decide (C b)) bs
      rw [← List.map_append]
      exact (List.perm_append_comm.trans hsplit).symm.map _
    refine (SameFactors.perm (hperm.flatMap_right factors)).trans ?_
    rw [List.flatMap_append]
    exact .append (.refl _) (sameFactors_mergedPowers (fun b hb => (hclass b hb).1)
      fun b hb => (hclass b hb).2)

/-- The parts of a product some bases of which are sums to whole powers: those of the powers of the
other bases, and one for each such power. -/
theorem exists_parts {es gs ss : List Expr} {c : Expr} (hes : ∀ e ∈ es, e.IsKept)
    (hperm : (otherFactors (es.flatMap factors)).Perm (gs ++ ss))
    (hturn : ∀ f ∈ gs ++ ss, C f.splitPower.1 →
      IsTurnable f.splitPower.1 ∧ f.splitPower.2.isIntegerNumber = true)
    (hss : ∀ s ∈ ss, s.isSum = true ∧ C s) (h : Settings.unbounded.product es = .ok c)
    (hc : c.IsKept) : literalProduct (es.flatMap factors) = 0 ∧ c = zero ∨
      ∃ rs, PowersOutside C gs rs ∧
        HasParts (literalProduct (es.flatMap factors) * literalProduct (rs.flatMap factors))
          (otherFactors (rs.flatMap factors)) (powersOf C gs ++ ss.map fun s => (s, 1)) c := by
  have htidy : ∀ e ∈ es, e.IsTidy := fun e he => (hes e he).tidy
  have hfactors := isTidy_otherFactors htidy
  have hclass : ∀ f ∈ otherFactors (es.flatMap factors), C f.splitPower.1 →
      IsTurnable f.splitPower.1 ∧ f.splitPower.2.isIntegerNumber = true :=
    fun f hf => hturn f (hperm.mem_iff.mp hf)
  obtain ⟨fuel, hfuel⟩ := depthBound_eq (weightAll es)
  rw [Settings.product, hfuel] at h
  obtain ⟨groups, hgroups, hzero | ⟨-, ps, hps, hresult⟩⟩ :=
    exists_productResult (fun e he => (htidy e he).isBuilt) h
  · exact .inl hzero
  refine .inr ?_
  have hbase := base_isKept (powers_hasKeptBases (builders_hasKeptBases _).2
    (fun e he => ⟨htidy e he, (hes e he).hasKeptBases⟩) hgroups hps)
  rw [hgroups.mapM_basePower hfactors, mapM_eq_ok_iff] at hps
  obtain ⟨rs, hrs, hsame⟩ := exists_powersOutside (fun f hf => (hfactors f hf).isExact)
    (fun f hf hC => ⟨(hclass f hf hC).1.sum, (hclass f hf hC).2⟩) hgroups.distinct hgroups.bases hps
  refine ⟨rs, hrs.of_perm_append hfactors hperm fun s hs => ?_, ?_⟩
  · obtain ⟨hsum, hC⟩ := hss s hs
    obtain ⟨ts, rfl⟩ := exists_of_isSum hsum
    exact hC
  have hkept : ∀ f ∈ otherFactors (es.flatMap factors), f.IsKept := by
    intro f hf
    obtain ⟨hmem, hnumber⟩ := mem_otherFactors.mp hf
    obtain ⟨e, he, hfe⟩ := List.mem_flatMap.mp hmem
    exact (hes e he).keptFactors.kept f (mem_otherFactors.mpr ⟨hfe, hnumber⟩)
  have hmem : ∀ f ∈ otherFactors (es.flatMap factors),
      (f.splitPower.1 ∈ (groups.map (·.1)).filter (C ·) ↔ C f.splitPower.1) := by
    intro f hf
    rw [List.mem_filter, hgroups.bases, decide_eq_true_eq, and_iff_right (List.mem_map_of_mem hf)]
  have hpowers : (powersOf C (otherFactors (es.flatMap factors))).Perm
      (powersOf C gs ++ ss.map fun s => (s, 1)) := by
    rw [← powersOf_sums hss, ← powersOf_append]
    exact powersOf_perm hperm
  have hmerged : ∀ g ∈ mergedPowers (otherFactors (es.flatMap factors))
      ((groups.map (·.1)).filter (C ·)), IsTurnable g.1 ∧ g.2 ≠ 0 := by
    intro g hg
    obtain ⟨hg, hne⟩ := List.mem_filter.mp hg
    obtain ⟨b, hb, rfl⟩ := List.mem_map.mp hg
    obtain ⟨hb, hC⟩ := List.mem_filter.mp hb
    obtain ⟨f, hf, rfl⟩ := List.mem_map.mp ((hgroups.bases b).mp hb)
    exact ⟨(hclass f hf (of_decide_eq_true hC)).1, of_decide_eq_true hne⟩
  obtain ⟨hone, hother⟩ : literalProduct ((mergedPowers (otherFactors (es.flatMap factors))
        ((groups.map (·.1)).filter (C ·))).map fun g => ofPower g.1 (rat g.2)) = 1 ∧ _ :=
    (otherFactors_eq_self (List.forall_mem_map.mpr fun g hg =>
      (isFactor_ofPower (hmerged g hg).1.sum g.2).1)).symm
  rw [hsame.literal, literalProduct_append, hone, mul_one] at hresult
  refine hresult.hasParts hbase hc ?_
    ((sameTotals_mergedPowers (hgroups.distinct.filter _) hmem).trans (sameTotals_perm hpowers))
    hmerged ?_
  · rw [← hother, ← otherFactors_append]
    exact hsame.other
  · intro g hg
    obtain ⟨f, hf, rfl⟩ := List.mem_map.mp (hpowers.mem_iff.mpr hg)
    obtain ⟨hf, hC⟩ := List.mem_filter.mp hf
    obtain ⟨hturn, hint⟩ := hclass f hf (of_decide_eq_true hC)
    exact ⟨hturn, wholeExponent_ne_zero (hkept f hf) hturn.sum hint⟩

/-! ## Sums on their own -/

theorem splitPower_of_isSum {e : Expr} (h : e.isSum = true) : e.splitPower = (e, one) := by
  obtain ⟨ts, rfl⟩ := exists_of_isSum h
  rfl

theorem powersTo_self {z : Expr} {gs : List Expr} (hz : z.isSum = true)
    (hnew : z ∉ gs.map fun g => g.splitPower.1) : PowersTo (z :: gs) z z := by
  have hone : buildSum .unbounded [one] = .ok one := buildSum_singleton (isKept_rat 1).tidy
  have hpower := buildPower_sum hz 1 0
  rw [if_neg one_ne_zero, ofPower_sum hz, if_pos rfl, Int.cast_one] at hpower
  refine ⟨1, ?_⟩
  rw [basePower, ← List.singleton_append, exponentsOf_append,
    exponentsOf_of_base (splitPower_of_isSum hz), exponentsOf_eq_nil hnew, List.append_nil, hone,
    ok_bind]
  exact hpower

theorem PowersTo.of_cons {z b r : Expr} {gs : List Expr} (hz : z.isSum = true) (hb : b ≠ z)
    (h : PowersTo (z :: gs) b r) : PowersTo gs b r := by
  obtain ⟨fuel, hr⟩ := h
  refine ⟨fuel, ?_⟩
  rwa [basePower, ← List.singleton_append, exponentsOf_append,
    exponentsOf_eq_nil (by simpa [splitPower_of_isSum hz] using hb), List.nil_append] at hr

/-- A sum that no other factor has as its base is its own power. -/
theorem PowersOutside.of_cons {z : Expr} {gs rs : List Expr} (hz : z.isSum = true) (hC : ¬C z)
    (hnew : z ∉ gs.map fun g => g.splitPower.1) (h : PowersOutside C (z :: gs) rs) :
    ∃ us, PowersOutside C gs us ∧ rs.Perm (z :: us) := by
  obtain ⟨bs, hnodup, hbs, hrs⟩ := h
  have hbase : ∀ b, b ∈ bs ↔ (b = z ∨ b ∈ gs.map fun g => g.splitPower.1) ∧ ¬C b := by
    simpa [splitPower_of_isSum hz] using hbs
  obtain ⟨as, cs, rfl⟩ := List.append_of_mem ((hbase z).mpr ⟨.inl rfl, hC⟩)
  have hmiddle : (as ++ z :: cs).Perm (z :: (as ++ cs)) := List.perm_middle
  obtain ⟨hother, hnodup⟩ := List.nodup_cons.mp (hmiddle.nodup_iff.mp hnodup)
  obtain ⟨ts, hts, hperm⟩ := List.perm_comp_forall₂ hmiddle.symm hrs
  cases hts with
  | @cons _ r _ us hr hus =>
    rw [hr.unique (powersTo_self hz hnew)] at hperm
    have hne : ∀ b ∈ as ++ cs, b ≠ z := fun b hb hbz => hother (hbz ▸ hb)
    refine ⟨us, ⟨as ++ cs, hnodup, fun b => ⟨fun hb => ?_, fun hb => ?_⟩, ?_⟩, hperm.symm⟩
    · have hb' := (hbase b).mp (hmiddle.mem_iff.mpr (List.mem_cons_of_mem z hb))
      exact ⟨hb'.1.resolve_left (hne b hb), hb'.2⟩
    · have hb' := hmiddle.mem_iff.mp ((hbase b).mpr ⟨.inr hb.1, hb.2⟩)
      exact (List.mem_cons.mp hb').resolve_left fun hbz => hnew (hbz ▸ hb.1)
    · exact ((List.forall₂_and_left _ us).mpr ⟨hne, hus⟩).imp fun b u h => h.2.of_cons hz h.1

/-- Sums that are on their own among the factors. -/
structure AreApart (C : Expr → Prop) (gs zs : List Expr) : Prop where
  distinct : zs.Nodup
  sum : ∀ z ∈ zs, z.isSum = true
  outside : ∀ z ∈ zs, ¬C z
  fresh : ∀ z ∈ zs, z ∉ gs.map fun g => g.splitPower.1

theorem PowersOutside.of_append {gs zs rs : List Expr} (hzs : AreApart C gs zs)
    (h : PowersOutside C (zs ++ gs) rs) : ∃ us, PowersOutside C gs us ∧ rs.Perm (zs ++ us) := by
  obtain ⟨hdistinct, hsum, houtside, hfresh⟩ := hzs
  induction zs generalizing rs with
  | nil => exact ⟨rs, h, .refl _⟩
  | cons z zs ih =>
    rw [List.nodup_cons] at hdistinct
    rw [List.forall_mem_cons] at hsum houtside hfresh
    have hbases : zs.map (fun z => z.splitPower.1) = zs := by
      conv_rhs => rw [← List.map_id zs]
      exact List.map_congr_left fun z hz => by rw [splitPower_of_isSum (hsum.2 z hz), id]
    have hnew : z ∉ (zs ++ gs).map fun g => g.splitPower.1 := by
      rw [List.map_append, hbases, List.mem_append]
      exact not_or.mpr ⟨hdistinct.1, hfresh.1⟩
    obtain ⟨us, hus, hperm⟩ := PowersOutside.of_cons hsum.1 houtside.1 hnew h
    obtain ⟨vs, hvs, hperm'⟩ := ih hus hdistinct.2 hsum.2 houtside.2 hfresh.2
    exact ⟨vs, hvs, hperm.trans (hperm'.cons z)⟩

theorem HasParts.perm {q : Rat} {fs gs : List Expr} {ks : List (Expr × Int)} {c : Expr}
    (h : HasParts q fs ks c) (hperm : fs.Perm gs) : HasParts q gs ks c := by
  refine h.imp_right fun ⟨hq, h⟩ => ⟨hq, fun p hp => ?_⟩
  obtain ⟨hkept, ps, hps, hcombines⟩ := h p hp
  obtain ⟨qs, hqs, hperm'⟩ := List.perm_comp_forall₂ hperm.symm hps
  exact ⟨fun g hg => hkept g (hperm.mem_iff.mpr hg), qs, hqs,
    hcombines.perm (hperm'.symm.append_right _)⟩

theorem powersOf_outside {zs : List Expr} (hsum : ∀ z ∈ zs, z.isSum = true)
    (hC : ∀ z ∈ zs, ¬C z) : powersOf C zs = [] := by
  rw [powersOf, List.map_eq_nil_iff, List.filter_eq_nil_iff]
  intro z hz
  rw [splitPower_of_isSum (hsum z hz), decide_eq_true_eq]
  exact hC z hz

/-- The parts of a product of which some sums are on their own. -/
theorem exists_parts_apart {es zs gs ss : List Expr} {c : Expr} (hes : ∀ e ∈ es, e.IsKept)
    (hperm : (otherFactors (es.flatMap factors)).Perm ((zs ++ gs) ++ ss))
    (hzs : AreApart C gs zs) (hturn : ∀ f ∈ (zs ++ gs) ++ ss, C f.splitPower.1 →
      IsTurnable f.splitPower.1 ∧ f.splitPower.2.isIntegerNumber = true)
    (hss : ∀ s ∈ ss, s.isSum = true ∧ C s) (h : Settings.unbounded.product es = .ok c)
    (hc : c.IsKept) : literalProduct (es.flatMap factors) = 0 ∧ c = zero ∨
      ∃ rs, PowersOutside C gs rs ∧
        HasParts (literalProduct (es.flatMap factors) * literalProduct (rs.flatMap factors))
          (zs ++ otherFactors (rs.flatMap factors))
          (powersOf C gs ++ ss.map fun s => (s, 1)) c := by
  refine (exists_parts hes hperm hturn hss h hc).imp_right fun ⟨rs, hrs, hparts⟩ => ?_
  obtain ⟨us, hus, hrs⟩ := hrs.of_append hzs
  have hsame := SameFactors.perm (hrs.flatMap_right factors)
  have hfactor : ∀ z ∈ zs, z.IsFactor := fun z hz => by
    obtain ⟨ts, rfl⟩ := exists_of_isSum (hzs.sum z hz)
    exact ⟨rfl, rfl⟩
  obtain ⟨hother, hliteral⟩ := otherFactors_eq_self fun z hz => (hfactor z hz).1
  rw [List.flatMap_append, flatMap_factors_eq_self fun z hz => (hfactor z hz).2] at hsame
  have hsplit := hsame.other
  rw [otherFactors_append, hother] at hsplit
  refine ⟨us, hus, ?_⟩
  rw [hsame.literal, literalProduct_append, hliteral, one_mul, powersOf_append,
    powersOf_outside hzs.sum hzs.outside, List.nil_append] at hparts
  exact hparts.perm hsplit

end

end AlgebraicForm
