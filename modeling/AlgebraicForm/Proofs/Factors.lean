import AlgebraicForm.Proofs.Totals

/-!
# A product is known from its factors

A product only depends on its literals and on its other factors up to their order (`SameFactors`).
From the same factors the same bases are collected, each with the same exponents; the powers of the
bases come in another order, but they are sorted in the end, and factors that tie are equal.

A computation on several operands stops at the first that fails. That is the only place where the
order shows, and it shows at most in the fault: the results are the same, or there is none on either
side (`SameResult`).

* `exists_collects`: the bases of factors and their exponents.
* `buildBases_eq`, `exists_buildProduct_eq`: a product as one computation for each base, and what is
  done with their results.
* `buildProduct_sameResult`: products with the same factors are the same, whatever the limit is.
* `builders_needOnlyFuel`: products and powers of proper operands fail only by running out of fuel.
-/

namespace AlgebraicForm

open AlgebraicForm.Expr

/-! ## Collected factors -/

open Classical in
/-- The exponents of one base among factors. -/
noncomputable def exponentsOf (base : Expr) (fs : List Expr) : List Expr :=
  (fs.filter fun f => f.splitPower.1 = base).map fun f => f.splitPower.2

theorem exponentsOf_perm {fs gs : List Expr} (h : fs.Perm gs) (base : Expr) :
    (exponentsOf base fs).Perm (exponentsOf base gs) :=
  (h.filter _).map _

@[simp] theorem exponentsOf_append (base : Expr) (fs gs : List Expr) :
    exponentsOf base (fs ++ gs) = exponentsOf base fs ++ exponentsOf base gs := by
  simp [exponentsOf]

theorem exponentsOf_of_base {f b e : Expr} (h : f.splitPower = (b, e)) :
    exponentsOf b [f] = [e] := by
  simp [exponentsOf, h]

theorem exponentsOf_eq_nil {base : Expr} {fs : List Expr}
    (h : base ∉ fs.map fun f => f.splitPower.1) : exponentsOf base fs = [] := by
  rw [exponentsOf, List.map_eq_nil_iff, List.filter_eq_nil_iff]
  intro f hf heq
  exact h (List.mem_map.mpr ⟨f, hf, by simpa using heq⟩)

theorem exponentsOf_append_other {base f b e : Expr} {fs : List Expr} (h : f.splitPower = (b, e))
    (hb : base ≠ b) : exponentsOf base (fs ++ [f]) = exponentsOf base fs := by
  have hnil : exponentsOf base [f] = [] := exponentsOf_eq_nil (by simpa [h] using hb)
  rw [exponentsOf_append, hnil, List.append_nil]

/-- The bases of factors, each with its exponents. -/
structure Collects (fs : List Expr) (bs : List (Expr × List Expr)) : Prop where
  distinct : (bs.map (·.1)).Nodup
  bases : ∀ b, b ∈ bs.map (·.1) ↔ b ∈ fs.map fun f => f.splitPower.1
  exponents : ∀ g ∈ bs, g.2 = exponentsOf g.1 fs

namespace Collects

variable {fs : List Expr} {bs : List (Expr × List Expr)}

/-- A further factor with a base that is there. -/
theorem known {pre post : List (Expr × List Expr)} {b : Expr} {es : List Expr} {f e : Expr}
    (h : Collects fs (pre ++ (b, es) :: post)) (hf : f.splitPower = (b, e)) :
    Collects (fs ++ [f]) (pre ++ (b, es ++ [e]) :: post) := by
  have hdistinct := h.distinct
  have hother : ∀ g, g ∈ pre ∨ g ∈ post → g.1 ≠ b := by
    rintro g hg rfl
    simp only [List.map_append, List.map_cons, List.nodup_append, List.nodup_cons,
      List.mem_cons] at hdistinct
    rcases hg with hg | hg
    · exact hdistinct.2.2 g.1 (List.mem_map_of_mem hg) g.1 (.inl rfl) rfl
    · exact hdistinct.2.1.1 (List.mem_map_of_mem hg)
  have hkeep : ∀ g, g ∈ pre ∨ g ∈ post → g.2 = exponentsOf g.1 (fs ++ [f]) := by
    intro g hg
    have hmem : g ∈ pre ++ (b, es) :: post := by
      rw [List.mem_append, List.mem_cons]
      exact hg.imp_right .inr
    rw [exponentsOf_append_other hf (hother g hg), h.exponents g hmem]
  refine ⟨by simpa using hdistinct, fun c => ?_, fun g hg => ?_⟩
  · have hbases := h.bases c
    simp only [List.map_append, List.map_cons, List.mem_append, List.mem_cons, List.map_nil,
      List.not_mem_nil, or_false, hf] at hbases ⊢
    rw [← hbases]
    tauto
  · obtain hg | hg := List.mem_append.mp hg
    · exact hkeep g (.inl hg)
    · obtain rfl | hg := List.mem_cons.mp hg
      · have hes : es = exponentsOf b fs := h.exponents (b, es) (by simp)
        rw [exponentsOf_append, exponentsOf_of_base hf, ← hes]
      · exact hkeep g (.inr hg)

/-- A further factor with a base of its own. -/
theorem new {b f e : Expr} (h : Collects fs bs) (hf : f.splitPower = (b, e))
    (hnew : ∀ g ∈ bs, g.1 ≠ b) : Collects (fs ++ [f]) (bs ++ [(b, [e])]) := by
  have hb : b ∉ bs.map (·.1) := by
    intro hb
    obtain ⟨g, hg, rfl⟩ := List.mem_map.mp hb
    exact hnew g hg rfl
  refine ⟨?_, fun c => ?_, ?_⟩
  · rw [List.map_append, List.nodup_append]
    refine ⟨h.distinct, List.nodup_singleton b, fun c hc d hd => ?_⟩
    rintro rfl
    obtain rfl := List.mem_singleton.mp hd
    exact hb hc
  · rw [List.map_append, List.map_append, List.mem_append, List.mem_append, h.bases c,
      List.map_singleton, List.map_singleton, hf]
  · rw [List.forall_mem_append, List.forall_mem_singleton]
    refine ⟨fun g hg => ?_, ?_⟩
    · rw [exponentsOf_append_other hf (hnew g hg), h.exponents g hg]
    · rw [exponentsOf_append, exponentsOf_of_base hf,
        exponentsOf_eq_nil fun hmem => hb ((h.bases b).mpr hmem), List.nil_append]

/-- Each base stands for its exponents. -/
theorem eq_map (h : Collects fs bs) :
    bs = (bs.map (·.1)).map fun b => (b, exponentsOf b fs) := by
  rw [List.map_map]
  conv_lhs => rw [← List.map_id bs]
  exact List.map_congr_left fun g hg => Prod.ext rfl (h.exponents g hg)

/-- What holds of the bases of factors and of their exponents. -/
theorem forall_mem {P : Expr → Prop} (h : Collects fs bs)
    (hfs : ∀ f ∈ fs, P f.splitPower.1 ∧ P f.splitPower.2) : ∀ g ∈ bs, P g.1 ∧ ∀ e ∈ g.2, P e := by
  intro g hg
  refine ⟨?_, fun e he => ?_⟩
  · obtain ⟨f, hf, heq⟩ := List.mem_map.mp ((h.bases g.1).mp (List.mem_map_of_mem hg))
    exact heq ▸ (hfs f hf).1
  · rw [h.exponents g hg] at he
    obtain ⟨f, hf, rfl⟩ := List.mem_map.mp he
    exact (hfs f (List.mem_of_mem_filter hf)).2

theorem isTidy (h : Collects fs bs) (hfs : ∀ f ∈ fs, f.IsTidy) :
    ∀ g ∈ bs, g.1.IsTidy ∧ ∀ e ∈ g.2, e.IsTidy :=
  h.forall_mem fun f hf => splitPower_isTidy (hfs f hf)

theorem isProper {s : Settings} (h : Collects fs bs) (hfs : ∀ f ∈ fs, f.IsProper s) :
    ∀ g ∈ bs, g.1.IsProper s ∧ ∀ e ∈ g.2, e.IsProper s :=
  h.forall_mem fun f hf => (hfs f hf).splitPower

theorem isBuilt {s : Settings} (h : Collects fs bs) (hfs : ∀ f ∈ fs, f.IsBuilt s) :
    ∀ g ∈ bs, g.1.IsBuilt s ∧ ∀ e ∈ g.2, e.IsBuilt s :=
  h.forall_mem fun f hf => splitPower_isBuilt (hfs f hf)

end Collects

/-- Exact factors are collected into the product of their literals and the powers of the others. -/
theorem exists_collects {fs : List Expr} (hfs : ∀ f ∈ fs, f.IsExact) :
    ∃ bs, collectFactors (.exact 1) [] fs = .ok (.exact (literalProduct fs), bs) ∧
      Collects (otherFactors fs) bs := by
  -- the invariant speaks of the factors that the loop has gone through
  obtain ⟨q, bs, hcollect, -, rest, hrest, hq, hbs⟩ := collectFactors_invariant
    (I := fun q bs rest => ∃ done, done ++ rest = fs ∧ q = literalProduct done ∧
      Collects (otherFactors done) bs)
    (fun q bs a rest ⟨done, hdone, hq, hbs⟩ => by
      refine ⟨done ++ [rat a], by simpa using hdone, by simp [hq], ?_⟩
      rwa [otherFactors_append, otherFactors_cons_rat, otherFactors_nil, List.append_nil])
    (fun q pre b es post f e rest hnumber hf ⟨done, hdone, hq, hbs⟩ => by
      refine ⟨done ++ [f], by simpa using hdone, ?_, ?_⟩
      · rw [literalProduct_append, literalProduct_cons hnumber, literalProduct_nil, mul_one, hq]
      · rw [otherFactors_append, otherFactors_cons hnumber, otherFactors_nil]
        exact hbs.known hf)
    (fun q bs b f e rest hnumber hf hnew ⟨done, hdone, hq, hbs⟩ => by
      refine ⟨done ++ [f], by simpa using hdone, ?_, ?_⟩
      · rw [literalProduct_append, literalProduct_cons hnumber, literalProduct_nil, mul_one, hq]
      · rw [otherFactors_append, otherFactors_cons hnumber, otherFactors_nil]
        exact hbs.new hf hnew)
    (q := 1) (List.forall_mem_nil fun g : Expr × List Expr => g.1.IsExact ∧ ∀ e ∈ g.2, e.IsExact)
    hfs ⟨[], rfl, rfl, ⟨List.nodup_nil, fun b => Iff.rfl, List.forall_mem_nil _⟩⟩
  rw [List.append_nil] at hrest
  subst hrest
  exact ⟨bs, hq ▸ hcollect, hbs⟩

/-! ## The powers of bases -/

/-- The power of a base to the sum of its exponents. -/
def groupPower (s : Settings) (power : Expr → Expr → Except Fault Expr) (g : Expr × List Expr) :
    Except Fault Expr := do
  let exponent ← mergeExponents s g.2
  power g.1 exponent

/-- The loop over bases builds all powers, and then takes them apart. -/
theorem buildBases_eq {s : Settings} {power : Expr → Expr → Except Fault Expr}
    {bs : List (Expr × List Expr)}
    (hexact : ∀ g ∈ bs, ∀ p, groupPower s power g = .ok p → p.IsExact) (q : Rat) (fs : List Expr) :
    buildBases s power (.exact q) fs bs = do
      let ps ← bs.mapM (groupPower s power)
      return (.exact (q * literalProduct (ps.flatMap factors)),
        fs ++ otherFactors (ps.flatMap factors)) := by
  induction bs generalizing q fs with
  | nil => simp [buildBases]
  | cons g bs ih =>
    obtain ⟨b, es⟩ := g
    rw [List.forall_mem_cons] at hexact
    have hfirst := hexact.1
    rw [buildBases, List.mapM_cons]
    cases he : mergeExponents s es with
    | error fault => simp [groupPower, he]
    | ok e =>
      cases hp : power b e with
      | error fault => simp [groupPower, he, hp]
      | ok p =>
        have habsorb := absorb_exact q fs (hfirst p (by simp [groupPower, he, hp])).factors
        simp only [ok_bind, groupPower, he, hp, habsorb]
        rw [ih hexact.2]
        cases hps : bs.mapM (groupPower s power) with
        | error fault => rfl
        | ok ps =>
          simp only [ok_bind, pure_eq_ok, List.flatMap_cons, literalProduct_append,
            otherFactors_append, mul_assoc, List.append_assoc]
          rfl

theorem mergeExponents_perm {es ds : List Expr} (hes : ∀ e ∈ es, e.IsTidy) (h : es.Perm ds)
    (limit : DigitLimit) :
    SameResult (mergeExponents (Settings.standard.within limit) es)
      (mergeExponents (Settings.standard.within limit) ds) := by
  by_cases hlen : es.length = 1
  · obtain ⟨e, rfl⟩ := List.length_eq_one_iff.mp hlen
    rw [List.singleton_perm.mp h]
    exact .refl _
  · -- a single exponent is left alone, several ones are added up
    have hmerge : ∀ {cs : List Expr}, cs.length ≠ 1 →
        mergeExponents (Settings.standard.within limit) cs =
          buildSum (Settings.standard.within limit) cs := by
      intro cs hcs
      unfold mergeExponents
      split
      next => exact absurd rfl hcs
      next => rfl
    rw [hmerge hlen, hmerge (h.length_eq ▸ hlen)]
    exact buildSum_perm hes h limit

theorem mergeExponents_isProper {s : Settings} {es : List Expr} (hes : ∀ e ∈ es, e.IsProper s)
    {r : Expr} (h : mergeExponents s es = .ok r) : r.IsProper s := by
  unfold mergeExponents at h
  split at h
  next e => exact Except.ok.inj h ▸ hes e List.mem_cons_self
  next => exact buildSum_isProper hes h

theorem exists_mergeExponents (s : Settings) {es : List Expr}
    (hes : ∀ e ∈ es, e.IsProper s.unlimited) : ∃ e, mergeExponents s.unlimited es = .ok e := by
  unfold mergeExponents
  split
  next e => exact ⟨e, rfl⟩
  next => exact exists_buildSum_of_proper s hes

theorem groupPower_isProper {s : Settings} {fuel : Nat} {g : Expr × List Expr}
    (hg : g.1.IsProper s ∧ ∀ e ∈ g.2, e.IsProper s) {p : Expr}
    (h : groupPower s (buildPower s fuel) g = .ok p) : p.IsProper s := by
  obtain ⟨e, he, hp⟩ := bind_eq_ok_iff.mp h
  exact buildPower_isProper hg.1 (mergeExponents_isProper hg.2 he) hp

theorem groupPower_isTidy {limit : DigitLimit} {fuel : Nat} {g : Expr × List Expr}
    (hg : g.1.IsTidy ∧ ∀ e ∈ g.2, e.IsTidy) {p : Expr}
    (h : groupPower (Settings.standard.within limit)
      (buildPower (Settings.standard.within limit) fuel) g = .ok p) : p.IsTidy :=
  (isTidy_iff_within limit).mpr (groupPower_isProper
    ⟨(isTidy_iff_within limit).mp hg.1, fun e he => (isTidy_iff_within limit).mp (hg.2 e he)⟩ h)

theorem groupPower_isBuilt {s : Settings} {fuel : Nat} {g : Expr × List Expr}
    (hg : g.1.IsBuilt s ∧ ∀ e ∈ g.2, e.IsBuilt s) {p : Expr}
    (h : groupPower s (buildPower s fuel) g = .ok p) : p.IsBuilt s := by
  obtain ⟨e, he, hp⟩ := bind_eq_ok_iff.mp h
  exact (builders_isBuilt s fuel).2 hg.1 (mergeExponents_isBuilt hg.2 he) hp

theorem groupPower_needsOnlyFuel {s : Settings} {power : Expr → Expr → Except Fault Expr}
    (hfuel : ∀ {b p}, b.IsProper s.unlimited → p.IsProper s.unlimited → NeedsOnlyFuel (power b p))
    {g : Expr × List Expr}
    (hg : g.1.IsProper s.unlimited ∧ ∀ e ∈ g.2, e.IsProper s.unlimited) :
    NeedsOnlyFuel (groupPower s.unlimited power g) := by
  obtain ⟨e, he⟩ := exists_mergeExponents s hg.2
  rw [groupPower, he, ok_bind]
  exact hfuel hg.1 (mergeExponents_isProper hg.2 he)

/-- The same factors in another order have the same powers, in another order. -/
theorem Collects.bind_groupPower {limit : DigitLimit} {power : Expr → Expr → Except Fault Expr}
    {fs gs : List Expr} {bs cs : List (Expr × List Expr)} {f g : List Expr → Except Fault Expr}
    (hbs : Collects fs bs) (hcs : Collects gs cs) (hgs : ∀ e ∈ gs, e.IsTidy) (h : fs.Perm gs)
    (hfg : ∀ ps qs, bs.mapM (groupPower (Settings.standard.within limit) power) = .ok ps →
      ps.Perm qs → SameResult (f ps) (g qs)) :
    SameResult (bs.mapM (groupPower (Settings.standard.within limit) power) >>= f)
      (cs.mapM (groupPower (Settings.standard.within limit) power) >>= g) := by
  have hbases : (bs.map (·.1)).Perm (cs.map (·.1)) := by
    refine (List.perm_ext_iff_of_nodup hbs.distinct hcs.distinct).mpr fun b => ?_
    rw [hbs.bases, hcs.bases, (h.map _).mem_iff]
  -- each base has the same power on both sides
  have hsame : ∀ b ∈ cs.map (·.1),
      SameResult (groupPower (Settings.standard.within limit) power (b, exponentsOf b fs))
        (groupPower (Settings.standard.within limit) power (b, exponentsOf b gs)) := by
    intro b hb
    obtain ⟨c, hc, rfl⟩ := List.mem_map.mp hb
    have hes := (hcs.isTidy hgs c hc).2
    rw [hcs.exponents c hc] at hes
    have hperm := exponentsOf_perm h c.1
    exact (mergeExponents_perm (fun e he => hes e (hperm.mem_iff.mp he)) hperm limit).bind
      fun _ _ => .refl _
  -- so both sides compute the same powers, base by base, in another order
  have hleft : bs.mapM (groupPower (Settings.standard.within limit) power) =
      (bs.map (·.1)).mapM fun b =>
        groupPower (Settings.standard.within limit) power (b, exponentsOf b fs) := by
    conv_lhs => rw [hbs.eq_map, List.mapM_map]
    rfl
  have hright : cs.mapM (groupPower (Settings.standard.within limit) power) =
      (cs.map (·.1)).mapM fun b =>
        groupPower (Settings.standard.within limit) power (b, exponentsOf b gs) := by
    conv_lhs => rw [hcs.eq_map, List.mapM_map]
    rfl
  rw [hleft] at hfg ⊢
  rw [hright]
  exact (SameResult.bind_mapM_perm hbases hfg).trans
    ((SameResult.mapM hsame).bind fun _ _ => .refl _)

/-! ## Sorted factors -/

theorem FactorsInOrder.antisymm {f g : Expr} (hf : f.IsTidy) (hg : g.IsTidy)
    (hfg : FactorsInOrder f g) (hgf : FactorsInOrder g f) : f = g := by
  obtain ⟨k, hk⟩ := hf.isPrintable.exists_factorKey
  obtain ⟨l, hl⟩ := hg.isPrintable.exists_factorKey
  obtain rfl := factorLe_antisymm (hfg k l hk hl) (hgf l k hl hk)
  exact eq_of_factorKey_eq hf hg (hk.trans hl.symm)

/-- Sorting does not depend on the order, whatever the limit is: each factor has to have a key. -/
theorem sortFactors_sameResult {fs gs : List Expr} (hfs : ∀ f ∈ fs, f.IsTidy) (h : fs.Perm gs)
    (limit : DigitLimit) :
    SameResult (sortFactors (Settings.standard.within limit) fs)
      (sortFactors (Settings.standard.within limit) gs) := by
  have hstep : ∀ {hs is : List Expr}, (∀ f ∈ hs, f.IsTidy) → hs.Perm is → ∀ {r},
      sortFactors (Settings.standard.within limit) hs = .ok r →
        sortFactors (Settings.standard.within limit) is = .ok r := by
    intro hs is hhs hperm r hr
    obtain ⟨zs, hzs, -⟩ := bind_eq_ok_iff.mp hr
    obtain ⟨ws, hws, -⟩ := exists_mapM_perm hperm hzs
    obtain ⟨r', hr'⟩ : ∃ r', sortFactors (Settings.standard.within limit) is = .ok r' :=
      ⟨_, bind_eq_ok_iff.mpr ⟨ws, hws, rfl⟩⟩
    have hrperm := sortFactors_perm hr
    have hrperm' := sortFactors_perm hr'
    refine hr'.trans (congrArg Except.ok ?_)
    exact (hrperm'.trans (hperm.symm.trans hrperm.symm)).eq_of_pairwise
      (fun f g hf hg => FactorsInOrder.antisymm
        (hhs f (hperm.mem_iff.mpr (hrperm'.mem_iff.mp hf))) (hhs g (hrperm.mem_iff.mp hg)))
      (sortFactors_pairwise hr') (sortFactors_pairwise hr)
  exact fun r => ⟨hstep hfs h, hstep (fun g hg => hfs g (h.mem_iff.mpr hg)) h.symm⟩

theorem sortFactors_of_perm {fs gs : List Expr} (hfs : ∀ f ∈ fs, f.IsTidy) (h : fs.Perm gs) :
    sortFactors .unbounded fs = sortFactors .unbounded gs := by
  obtain ⟨fs', hf⟩ := exists_sortFactors .standard fun f hf => (hfs f hf).isPrintable
  exact (sortFactors_sameResult hfs h .unlimited).eq_of_ok hf

/-! ## Products and powers -/

theorem isProper_otherFactors {s : Settings} {es : List Expr} (hes : ∀ e ∈ es, e.IsProper s) :
    ∀ f ∈ otherFactors (es.flatMap factors), f.IsProper s := by
  intro f hf
  obtain ⟨e, he, hef⟩ := List.mem_flatMap.mp (mem_otherFactors.mp hf).1
  exact (hes e he).factors f hef

theorem isTidy_otherFactors {es : List Expr} (hes : ∀ e ∈ es, e.IsTidy) :
    ∀ f ∈ otherFactors (es.flatMap factors), f.IsTidy :=
  fun f hf => isTidy_iff_proper.mpr
    (isProper_otherFactors (fun e he => (hes e he).isProper) f hf)

/-- The results of computations on the elements of a list have what each result has. -/
theorem forall_mem_of_mapM {α β : Type} {f : α → Except Fault β} {P : β → Prop} {xs : List α}
    {ys : List β} (hf : ∀ x ∈ xs, ∀ y, f x = .ok y → P y) (h : xs.mapM f = .ok ys) :
    ∀ y ∈ ys, P y := by
  intro y hy
  obtain ⟨x, hx, hxy⟩ := exists_mem_of_forall₂ (mapM_eq_ok_iff.mp h) hy
  exact hf x hx y hxy

/-- What becomes of a coefficient and the factors that the powers of the bases have left. -/
def finishProduct (s : Settings) (fuel : Nat) (c : Number) (fs : List Expr) :
    Except Fault Expr := do
  if c.isZero then return zero
  let factors ← sortFactors s fs
  match factors with
  | [] => return number c
  | [.sum ts] =>
    if c.isMinusOne then do
      let negated ← ts.mapM fun t => buildProduct s fuel [minusOne, t]
      buildSum s negated
    else return withCoefficient c [.sum ts]
  | fs => return withCoefficient c fs

/-- A product collects its factors, builds the powers of their bases, and sorts these. -/
theorem exists_buildProduct_eq {s : Settings} (fuel : Nat) {es : List Expr}
    (hes : ∀ e ∈ es, e.IsBuilt s) :
    ∃ bs, Collects (otherFactors (es.flatMap factors)) bs ∧
      buildProduct s (fuel + 1) es =
        if literalProduct (es.flatMap factors) = 0 then .ok zero
        else bs.mapM (groupPower s (buildPower s fuel)) >>= fun ps =>
          finishProduct s fuel
            (.exact (literalProduct (es.flatMap factors) * literalProduct (ps.flatMap factors)))
            (otherFactors (ps.flatMap factors)) := by
  obtain ⟨bs, hcollect, hbs⟩ := exists_collects (isExact_flatMap_factors hes)
  have hgroup := hbs.isBuilt fun f hf => (isBuilt_otherFactors hes f hf).1
  have hexact : ∀ g ∈ bs, ∀ p, groupPower s (buildPower s fuel) g = .ok p → p.IsExact :=
    fun g hg p hp => (groupPower_isBuilt (hgroup g hg) hp).isExact
  refine ⟨bs, hbs, ?_⟩
  have h1 : Number.ofInt 1 = .exact 1 := by simp [Number.ofInt]
  rw [buildProduct, h1, hcollect, ok_bind]
  simp only [Number.isZero_exact (literalProduct (es.flatMap factors)), decide_eq_true_eq,
    buildBases_eq hexact, List.nil_append]
  split
  next => rfl
  next =>
    cases bs.mapM (groupPower s (buildPower s fuel)) with
    | error fault => rfl
    | ok ps => rfl

/-- Products of tidy operands with the same factors are the same, to any depth and whatever the
limit is. -/
theorem buildProduct_sameResult {fuel : Nat} {es ds : List Expr} (hes : ∀ e ∈ es, e.IsTidy)
    (hds : ∀ d ∈ ds, d.IsTidy) (h : SameFactors (es.flatMap factors) (ds.flatMap factors))
    (limit : DigitLimit) :
    SameResult (buildProduct (Settings.standard.within limit) (fuel + 1) es)
      (buildProduct (Settings.standard.within limit) (fuel + 1) ds) := by
  have hbuilt : ∀ {e : Expr}, e.IsTidy → e.IsBuilt (Settings.standard.within limit) :=
    fun he => ((isTidy_iff_within limit).mp he).built
  obtain ⟨bs, hbs, hproduct⟩ := exists_buildProduct_eq fuel fun e he => hbuilt (hes e he)
  obtain ⟨cs, hcs, hproduct'⟩ := exists_buildProduct_eq fuel fun d hd => hbuilt (hds d hd)
  have hgroup := hbs.isTidy (isTidy_otherFactors hes)
  rw [hproduct, hproduct', h.literal]
  refine .ite (.refl _) (hbs.bind_groupPower hcs (isTidy_otherFactors hds) h.other
    fun ps qs hps hperm => ?_)
  have hsame : SameFactors (ps.flatMap factors) (qs.flatMap factors) :=
    .perm (hperm.flatMap_right _)
  have htidy : ∀ p ∈ ps, p.IsTidy :=
    forall_mem_of_mapM (fun g hg _ => groupPower_isTidy (hgroup g hg)) hps
  rw [finishProduct, finishProduct, hsame.literal]
  exact .ite (.refl _)
    ((sortFactors_sameResult (isTidy_otherFactors htidy) hsame.other limit).bind
      fun _ _ => .refl _)

theorem weightAll_perm {es ds : List Expr} (h : es.Perm ds) : weightAll es = weightAll ds := by
  induction h with
  | nil => rfl
  | cons e _ ih => rw [weightAll, weightAll, ih]
  | swap d e es => rw [weightAll, weightAll, weightAll, weightAll, add_left_comm]
  | trans _ _ ih ih' => exact ih.trans ih'

theorem product_perm {es ds : List Expr} (hes : ∀ e ∈ es, e.IsTidy) (h : es.Perm ds)
    (limit : DigitLimit) :
    SameResult ((Settings.standard.within limit).product es)
      ((Settings.standard.within limit).product ds) := by
  obtain ⟨fuel, hfuel⟩ := depthBound_eq (weightAll ds)
  unfold Settings.product
  rw [weightAll_perm h, hfuel]
  exact buildProduct_sameResult hes (fun d hd => hes d (h.mem_iff.mpr hd))
    (.perm (h.flatMap_right _)) limit

/-! ## Builders fail only by running out of fuel -/

section

variable {s : Settings}

theorem buildSum_needsOnlyFuel {es : List Expr} (hes : ∀ e ∈ es, e.IsProper s.unlimited) :
    NeedsOnlyFuel (buildSum s.unlimited es) := by
  obtain ⟨r, hr⟩ := exists_buildSum_of_proper s hes
  exact hr ▸ .ok _

theorem finishProduct_needsOnlyFuel {fuel : Nat}
    (hproduct : ∀ {es}, (∀ e ∈ es, e.IsProper s.unlimited) →
      NeedsOnlyFuel (buildProduct s.unlimited fuel es))
    (c : Number) {fs : List Expr} (hfs : ∀ f ∈ fs, f.IsProper s.unlimited) :
    NeedsOnlyFuel (finishProduct s.unlimited fuel c fs) := by
  unfold finishProduct
  split
  next => exact .ok zero
  next =>
    obtain ⟨gs, hgs⟩ := exists_sortFactors s fun f hf => (hfs f hf).isPrintable
    rw [hgs, ok_bind]
    split
    next => exact .ok _
    next ts =>
      split
      next =>
        -- the sign goes to each term of a lone sum
        have hsum : (sum ts).IsProper s.unlimited :=
          hfs (sum ts) ((sortFactors_perm hgs).mem_iff.mp List.mem_cons_self)
        have hsigned : ∀ t ∈ ts, ∀ e ∈ [minusOne, t], e.IsProper s.unlimited := by
          intro t ht e he
          rw [List.mem_pair] at he
          rcases he with rfl | rfl
          · exact isProper_rat (-1)
          · exact hsum.of_mem_sum e ht
        refine (FailsWithin.mapM fun t ht => hproduct (hsigned t ht)).bind fun us hus => ?_
        exact buildSum_needsOnlyFuel
          (forall_mem_of_mapM (fun t ht u => buildProduct_isProper (hsigned t ht)) hus)
      next => exact .ok _
    next => exact .ok _

variable (s) in
/-- The builders of products and powers fail only by running out of fuel, by induction on it. -/
theorem builders_needOnlyFuel (fuel : Nat) :
    (∀ {es : List Expr}, (∀ e ∈ es, e.IsProper s.unlimited) →
        NeedsOnlyFuel (buildProduct s.unlimited fuel es)) ∧
      ∀ {b p : Expr}, b.IsProper s.unlimited → p.IsProper s.unlimited →
        NeedsOnlyFuel (buildPower s.unlimited fuel b p) := by
  induction fuel with
  | zero =>
    refine ⟨fun _ => ?_, fun _ _ => ?_⟩
    · rw [buildProduct]
      exact .error rfl
    · unfold buildPower
      exact .error rfl
  | succ fuel ih =>
    obtain ⟨hproduct, hpower⟩ := ih
    refine ⟨fun {es} hes => ?_, fun {b p} hb hp => ?_⟩
    · obtain ⟨bs, hbs, hresult⟩ := exists_buildProduct_eq fuel fun e he => (hes e he).built
      have hgroup := hbs.isProper (isProper_otherFactors hes)
      rw [hresult]
      split
      next => exact .ok zero
      next =>
        refine (FailsWithin.mapM fun g hg =>
          groupPower_needsOnlyFuel hpower (hgroup g hg)).bind fun ps hps => ?_
        have hproper : ∀ p ∈ ps, p.IsProper s.unlimited :=
          forall_mem_of_mapM (fun g hg _ => groupPower_isProper (hgroup g hg)) hps
        exact finishProduct_needsOnlyFuel hproduct _ (isProper_otherFactors hproper)
    · unfold buildPower
      split
      next => exact .ok _
      next =>
        split
        next =>
          split
          next c e _ =>
            -- the exponents of a power of a power are multiplied
            obtain ⟨hc, he⟩ := hb.of_power
            have hpair : ∀ d ∈ [e, p], d.IsProper s.unlimited := by simp [he, hp]
            exact (hproduct hpair).bind fun q hq => hpower hc (buildProduct_isProper hpair hq)
          next fs _ =>
            -- each factor of a product is raised on its own
            refine (FailsWithin.mapM fun f hf => hpower (hb.of_mem_product f hf) hp).bind
              fun gs hgs => hproduct ?_
            exact forall_mem_of_mapM
              (fun f hf g => buildPower_isProper (hb.of_mem_product f hf) hp) hgs
          next => exact .ok _
        next => exact .ok _

end

end AlgebraicForm
