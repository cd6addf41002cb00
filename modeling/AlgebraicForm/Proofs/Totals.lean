import AlgebraicForm.Proofs.Decoding
import AlgebraicForm.Proofs.LimitedForms

/-!
# A sum is known from what its terms add up to

Terms are bodies with coefficients, and constants; as terms with one body are combined, all that
counts is the total for each body. `SameTerms` says that two lists of terms have the same totals,
without naming them: the terms weigh the same, whatever each body weighs. So neither the order of
the terms matters nor how the totals are spread over them. The limit for digits only looks at the
bodies that are left, so that it stops the sum or not for the same totals.

* `exists_totals_buildSum`: a sum of tidy operands is built of terms with the same totals, if the
  limit allows the texts of their bodies.
* `Totals.unique`: the totals determine these terms and their order.
* `buildSum_sameResult`: operands with the same totals have the same sum.
* `eq_of_sameTerms`: tidy trees whose terms have the same totals are the same.
-/

namespace AlgebraicForm

open AlgebraicForm.Expr

/-! ## What is built of tidy operands is tidy -/

theorem buildSum_isTidy {es : List Expr} {r : Expr} (hes : ∀ e ∈ es, e.IsTidy)
    (h : buildSum .unbounded es = .ok r) : r.IsTidy :=
  isTidy_iff_proper.mpr (buildSum_isProper (fun e he => (hes e he).isProper) h)

theorem buildProduct_isTidy {fuel : Nat} {es : List Expr} {r : Expr} (hes : ∀ e ∈ es, e.IsTidy)
    (h : buildProduct .unbounded fuel es = .ok r) : r.IsTidy :=
  isTidy_iff_proper.mpr (buildProduct_isProper (fun e he => (hes e he).isProper) h)

theorem buildPower_isTidy {fuel : Nat} {b p r : Expr} (hb : b.IsTidy) (hp : p.IsTidy)
    (h : buildPower .unbounded fuel b p = .ok r) : r.IsTidy :=
  isTidy_iff_proper.mpr (buildPower_isProper hb.isProper hp.isProper h)

theorem normalPass_isTidy {e c : Expr} (he : e.Every IsNamedNode)
    (h : normalPass .unbounded e = .ok c) : c.IsTidy :=
  isTidy_iff_proper.mpr (normalPass_isProper he h)

theorem isTidy_flatMap_terms {es : List Expr} (hes : ∀ e ∈ es, e.IsTidy) :
    ∀ t ∈ es.flatMap terms, t.IsTidy := by
  intro t ht
  obtain ⟨e, he, het⟩ := List.mem_flatMap.mp ht
  exact isTidy_iff_proper.mpr ((hes e he).isProper.terms t het)

/-! ## Weighing terms -/

/-- The weight of a term: its coefficient times the weight of its body. -/
def Expr.weigh (w : Option Expr → Rat) (t : Expr) : Rat :=
  match t.splitCoefficient with
  | (.exact c, body) => c * w body
  | (.approx _, _) => 0

/-- The weight of several terms. -/
def weighTerms (w : Option Expr → Rat) (ts : List Expr) : Rat :=
  (ts.map (weigh w)).sum

/-- Two lists of terms have the same constant, and the same total for each body. -/
def SameTerms (ts us : List Expr) : Prop :=
  ∀ w, weighTerms w ts = weighTerms w us

/-- The weight of a constant and of bodies with coefficients. -/
def weighGroups (w : Option Expr → Rat) (k : Rat) (gs : List (Expr × Rat)) : Rat :=
  k * w none + (gs.map fun g => g.2 * w (some g.1)).sum

section

variable {w : Option Expr → Rat}

theorem weigh_of_splitCoefficient {t : Expr} {c : Rat} {body : Option Expr}
    (h : t.splitCoefficient = (.exact c, body)) : t.weigh w = c * w body := by
  rw [weigh, h]

@[simp] theorem weigh_rat (q : Rat) : (rat q).weigh w = q * w none :=
  rfl

@[simp] theorem weighTerms_nil : weighTerms w [] = 0 :=
  rfl

@[simp] theorem weighTerms_cons (t : Expr) (ts : List Expr) :
    weighTerms w (t :: ts) = t.weigh w + weighTerms w ts :=
  rfl

@[simp] theorem weighTerms_append (ts us : List Expr) :
    weighTerms w (ts ++ us) = weighTerms w ts + weighTerms w us := by
  rw [weighTerms, List.map_append, List.sum_append]
  rfl

@[simp] theorem weighTerms_constantTerm (k : Rat) :
    weighTerms w (constantTerm k) = k * w none := by
  unfold constantTerm
  split
  next hk => rw [hk, zero_mul, weighTerms_nil]
  next => rw [weighTerms_cons, weigh_rat, weighTerms_nil, add_zero]

/-- Terms built of bodies weigh what the bodies do. -/
theorem weighTerms_groupTerms {gs : List (Expr × Rat)} (h : BuiltTerms gs) :
    weighTerms w (groupTerms gs) = (gs.map fun g => g.2 * w (some g.1)).sum := by
  have hterm : ∀ g ∈ gs, (scale (.exact g.2) g.1).weigh w = g.2 * w (some g.1) := fun g hg =>
    weigh_of_splitCoefficient (splitCoefficient_scale (h.body g hg) (h.whole g hg))
  rw [weighTerms, groupTerms, List.map_map]
  exact congrArg List.sum (List.map_congr_left hterm)

theorem weighGroups_filter (k : Rat) (gs : List (Expr × Rat)) :
    weighGroups w k (gs.filter (·.2 ≠ 0)) = weighGroups w k gs := by
  unfold weighGroups
  congr 1
  induction gs with
  | nil => rfl
  | cons g gs ih =>
    by_cases hg : g.2 = 0
    · rw [List.filter_cons_of_neg (by simpa using hg), List.map_cons, List.sum_cons, hg, zero_mul,
        zero_add, ih]
    · rw [List.filter_cons_of_pos (by simpa using hg), List.map_cons, List.map_cons,
        List.sum_cons, List.sum_cons, ih]

theorem weighGroups_perm {gs hs : List (Expr × Rat)} (h : gs.Perm hs) (k : Rat) :
    weighGroups w k gs = weighGroups w k hs := by
  rw [weighGroups, weighGroups, (h.map _).sum_eq]

end

namespace SameTerms

theorem symm {ts us : List Expr} (h : SameTerms ts us) : SameTerms us ts :=
  fun w => (h w).symm

theorem append {ts us ts' us' : List Expr} (h : SameTerms ts us) (h' : SameTerms ts' us') :
    SameTerms (ts ++ ts') (us ++ us') := by
  intro w
  rw [weighTerms_append, weighTerms_append, h w, h' w]

theorem perm {ts us : List Expr} (h : ts.Perm us) : SameTerms ts us :=
  fun _ => (h.map _).sum_eq

end SameTerms

/-! ## What a sum is built of -/

theorem exactGroups_injective : Function.Injective exactGroups := by
  refine List.map_injective_iff.mpr fun g h heq => ?_
  obtain ⟨hbody, hc⟩ := Prod.mk.inj heq
  exact Prod.ext hbody (Number.exact.inj hc)

/-- Collecting terms keeps their weight: a term adds to one group what it weighs. -/
theorem weighGroups_collectTerms {ts : List Expr} {k : Rat} {gs : List (Expr × Rat)}
    (hts : ∀ t ∈ ts, t.IsExact)
    (h : collectTerms (.exact 0) [] ts = .ok (.exact k, exactGroups gs)) (w : Option Expr → Rat) :
    weighGroups w k gs = weighTerms w ts := by
  -- what has been collected and what is still to come weigh as much as all terms together
  obtain ⟨k', gs', h', -, hweight⟩ := collectTerms_invariant
    (I := fun k gs rest => weighGroups w k gs + weighTerms w rest = weighTerms w ts)
    (fun k gs a rest hweight => by
      rw [weighTerms_cons, weigh_rat] at hweight
      simp only [weighGroups] at hweight ⊢
      linarith)
    (fun k pre body d post t c rest hsplit hweight => by
      rw [weighTerms_cons, weigh_of_splitCoefficient hsplit] at hweight
      simp only [weighGroups, List.map_append, List.map_cons, List.sum_append,
        List.sum_cons] at hweight ⊢
      linarith)
    (fun k gs body t c rest hsplit _ hweight => by
      rw [weighTerms_cons, weigh_of_splitCoefficient hsplit] at hweight
      simp only [weighGroups, List.map_append, List.map_singleton, List.sum_append,
        List.sum_singleton] at hweight ⊢
      linarith)
    (k := 0) (List.forall_mem_nil fun g : Expr × Rat => g.1.IsExact) hts
    (show weighGroups w 0 [] + weighTerms w ts = weighTerms w ts by simp [weighGroups])
  obtain ⟨hk, hgs⟩ := Prod.mk.inj (Except.ok.inj (h.symm.trans h'))
  obtain rfl := Number.exact.inj hk
  obtain rfl := exactGroups_injective hgs
  rwa [weighTerms_nil, add_zero] at hweight

/-- Proper terms are collected into proper bodies, which have keys. -/
theorem exists_collectTerms (s : Settings) {ts : List Expr}
    (hts : ∀ t ∈ ts, t.IsProper s.unlimited) :
    ∃ (k : Rat) (gs : List (Expr × Rat)) (ks : List ((List Char × Number) × Expr)),
      collectTerms (.exact 0) [] ts = .ok (.exact k, exactGroups gs) ∧
      (∀ g ∈ gs, g.1.IsProper s.unlimited ∧ g.1.IsBody) ∧ (gs.map (·.1)).Nodup ∧
      keyedTerms s.unlimited (exactGroups gs) = .ok ks := by
  obtain ⟨k, gs, hcollect, hgs, hdistinct⟩ := collectTerms_isBuilt fun t ht => (hts t ht).built
  obtain ⟨k', gs', h', -, hrewrites⟩ :=
    Rewrites.sum_collectTerms fun t ht => (hts t ht).isExact
  obtain rfl := exactGroups_injective (Prod.mk.inj (Except.ok.inj (hcollect.symm.trans h'))).2
  -- collecting makes no names, so those of the bodies are names of the terms
  have hnamed := hrewrites.every leafProperty_isNamedNode
    (leafProperty_isNamedNode.every_sum_iff.mpr fun t ht => (hts t ht).named)
  rw [leafProperty_isNamedNode.every_sum_iff, List.append_nil, List.forall_mem_append] at hnamed
  have hproper : ∀ g ∈ gs, g.1.IsProper s.unlimited := fun g hg => ⟨(hgs g hg).1,
    leafProperty_isNamedNode.every_scale_iff.mp (hnamed.2 _ (List.mem_map_of_mem hg))⟩
  obtain ⟨ks, hks⟩ := (exists_keyedTerms_iff (s := s.unlimited)).mpr fun g hg _ =>
    (hproper g hg).isPrintable.exists_text
  exact ⟨k, gs, ks, hcollect, fun g hg => ⟨hproper g hg, (hgs g hg).2⟩, hdistinct, hks⟩

/-- Proper operands have a sum. -/
theorem exists_buildSum_of_proper (s : Settings) {es : List Expr}
    (hes : ∀ e ∈ es, e.IsProper s.unlimited) : ∃ r, buildSum s.unlimited es = .ok r := by
  have hterms : ∀ t ∈ es.flatMap terms, t.IsProper s.unlimited := by
    intro t ht
    obtain ⟨e, he, het⟩ := List.mem_flatMap.mp ht
    exact (hes e he).terms t het
  obtain ⟨k, gs, ks, hcollect, -, -, hks⟩ := exists_collectTerms s hterms
  exact ⟨_, (buildSum_eq_ok hcollect).mpr ⟨ks, hks, rfl⟩⟩

/-- The terms that a sum is built of: a constant, and bodies in order. -/
structure Totals (ts : List Expr) (k : Rat) (gs : List (Expr × Rat)) : Prop where
  built : BuiltTerms gs
  tidy : ∀ g ∈ gs, g.1.IsTidy
  weight : ∀ w, weighGroups w k gs = weighTerms w ts

/-- A sum of tidy operands is built of the totals of their terms, if the bodies have their texts. -/
theorem exists_totals_buildSum {es : List Expr} (hes : ∀ e ∈ es, e.IsTidy) :
    ∃ k gs, Totals (es.flatMap terms) k gs ∧ ∀ limit r,
      buildSum (Settings.standard.within limit) es = .ok r ↔
        (∀ g ∈ gs, ∃ cs, g.1.text limit = .ok cs) ∧
          r = ofSortedTerms (constantTerm k ++ groupTerms gs) := by
  have hterms := isTidy_flatMap_terms hes
  obtain ⟨k, gs, ks, hcollect, hgs, hdistinct, hks⟩ :=
    exists_collectTerms .standard fun t ht => (hterms t ht).isProper
  have htidy : ∀ g ∈ gs, g.1.IsTidy := fun g hg => isTidy_iff_proper.mpr (hgs g hg).1
  obtain ⟨hs, hbuilt, hperm, hsorted⟩ :=
    exists_builtTerms (fun g hg => ⟨(hgs g hg).1.built, (hgs g hg).2⟩) hdistinct hks
  have hmem : ∀ g, g ∈ hs ↔ g ∈ gs ∧ g.2 ≠ 0 := fun g => by simp [hperm.mem_iff]
  refine ⟨k, hs, ⟨hbuilt, fun g hg => htidy g ((hmem g).mp hg).1, fun w => ?_⟩, fun limit r => ?_⟩
  · rw [weighGroups_perm hperm, weighGroups_filter]
    exact weighGroups_collectTerms (fun t ht => (hterms t ht).isExact) hcollect w
  · -- what has keys under the limit has the same keys without it
    have hkeys : ∀ ls, keyedTerms (Settings.standard.within limit) (exactGroups gs) = .ok ls →
        ls = ks := fun ls hls =>
      Except.ok.inj (((keyedTerms_restricts _ _).eq_ok hls).symm.trans hks)
    have hkeyed : (∀ g ∈ hs, ∃ cs, g.1.text limit = .ok cs) ↔
        ∃ ls, keyedTerms (Settings.standard.within limit) (exactGroups gs) = .ok ls := by
      simp only [hmem, and_imp]
      exact (exists_keyedTerms_iff (s := Settings.standard.within limit)).symm
    rw [hkeyed, buildSum_eq_ok hcollect]
    constructor
    · rintro ⟨ls, hls, rfl⟩
      rw [hkeys ls hls, hsorted]
      exact ⟨⟨ls, hls⟩, rfl⟩
    · rintro ⟨⟨ls, hls⟩, rfl⟩
      exact ⟨ls, hls, by rw [hkeys ls hls, hsorted]⟩

/-- Without a limit, the sum is built. -/
theorem exists_buildSum {es : List Expr} (hes : ∀ e ∈ es, e.IsTidy) :
    ∃ k gs, Totals (es.flatMap terms) k gs ∧
      buildSum .unbounded es = .ok (ofSortedTerms (constantTerm k ++ groupTerms gs)) := by
  obtain ⟨k, gs, htotals, hsum⟩ := exists_totals_buildSum hes
  exact ⟨k, gs, htotals, (hsum .unlimited _).mpr
    ⟨fun g hg => (htotals.tidy g hg).isPrintable.exists_text, rfl⟩⟩

/-! ## Totals determine the sum -/

theorem TermsInOrder.antisymm {g h : Expr × Rat} (hg : g.1.IsTidy) (hh : h.1.IsTidy)
    (hgh : TermsInOrder g h) (hhg : TermsInOrder h g) : g = h := by
  obtain ⟨cs, hcs⟩ := hg.isPrintable.exists_text
  obtain ⟨ds, hds⟩ := hh.isPrintable.exists_text
  obtain ⟨rfl, hle⟩ | ⟨hne, hle⟩ := (termLe_exact cs ds g.2 h.2).mp (hgh cs ds hcs hds)
  · obtain ⟨-, hge⟩ | ⟨hne, -⟩ := (termLe_exact cs cs h.2 g.2).mp (hhg cs cs hds hcs)
    · exact Prod.ext (eq_of_text_eq hg hh (hcs.trans hds.symm)) (le_antisymm hle hge)
    · exact absurd rfl hne
  · obtain ⟨heq, -⟩ | ⟨-, hge⟩ := (termLe_exact ds cs h.2 g.2).mp (hhg ds cs hds hcs)
    · exact absurd heq.symm hne
    · exact absurd (textLe_antisymm hle hge) hne

open Classical in
/-- The weight under which only one body counts. -/
noncomputable def indicator (body : Option Expr) : Option Expr → Rat :=
  fun b => if b = body then 1 else 0

theorem weighGroups_indicator_none (k : Rat) (gs : List (Expr × Rat)) :
    weighGroups (indicator none) k gs = k := by
  simp [weighGroups, indicator]

/-- The weight of one body is its coefficient, and zero if the body is not there. -/
theorem weighGroups_indicator (k : Rat) {gs : List (Expr × Rat)}
    (hdistinct : (gs.map (·.1)).Nodup) (body : Expr) :
    (∃ c, (body, c) ∈ gs ∧ weighGroups (indicator (some body)) k gs = c) ∨
      (body ∉ gs.map (·.1) ∧ weighGroups (indicator (some body)) k gs = 0) := by
  induction gs with
  | nil => exact .inr ⟨List.not_mem_nil, by simp [weighGroups, indicator]⟩
  | cons g gs ih =>
    rw [List.map_cons, List.nodup_cons] at hdistinct
    have hcons : weighGroups (indicator (some body)) k (g :: gs) =
        g.2 * indicator (some body) (some g.1) + weighGroups (indicator (some body)) k gs := by
      rw [weighGroups, weighGroups, List.map_cons, List.sum_cons, add_left_comm]
    by_cases hbody : g.1 = body
    · subst hbody
      obtain ⟨c, hc, -⟩ | ⟨-, hzero⟩ := ih hdistinct.2
      · exact absurd (List.mem_map_of_mem hc) hdistinct.1
      · exact .inl ⟨g.2, List.mem_cons_self, by rw [hcons, hzero]; simp [indicator]⟩
    · have hskip : weighGroups (indicator (some body)) k (g :: gs) =
          weighGroups (indicator (some body)) k gs := by
        rw [hcons]
        simp [indicator, hbody]
      rw [hskip]
      obtain ⟨c, hc, hweight⟩ | ⟨hnew, hzero⟩ := ih hdistinct.2
      · exact .inl ⟨c, List.mem_cons_of_mem g hc, hweight⟩
      · refine .inr ⟨?_, hzero⟩
        rw [List.map_cons, List.mem_cons, not_or]
        exact ⟨Ne.symm hbody, hnew⟩

/-- Groups of the same weight have the same coefficients. -/
theorem mem_of_weighGroups_eq {k l : Rat} {gs hs : List (Expr × Rat)} (hg : BuiltTerms gs)
    (hh : BuiltTerms hs) (h : ∀ w, weighGroups w k gs = weighGroups w l hs) :
    ∀ g ∈ gs, g ∈ hs := by
  intro g hmem
  have hweight : weighGroups (indicator (some g.1)) k gs = g.2 := by
    obtain ⟨c, hc, hweight⟩ | ⟨hnew, -⟩ := weighGroups_indicator k hg.distinct g.1
    · -- a body is there once only
      rw [hweight, ← List.inj_on_of_nodup_map hg.distinct hc hmem rfl]
    · exact absurd (List.mem_map_of_mem hmem) hnew
  rw [h] at hweight
  obtain ⟨c, hc, hweight'⟩ | ⟨-, hzero⟩ := weighGroups_indicator l hh.distinct g.1
  · obtain rfl := hweight'.symm.trans hweight
    exact hc
  · exact absurd (hweight.symm.trans hzero) (hg.coefficient g hmem)

/-- Totals are written in one way. -/
theorem Totals.unique {ts us : List Expr} {k l : Rat} {gs hs : List (Expr × Rat)}
    (hg : Totals ts k gs) (hh : Totals us l hs) (h : SameTerms ts us) : k = l ∧ gs = hs := by
  have hweight : ∀ w, weighGroups w k gs = weighGroups w l hs := fun w => by
    rw [hg.weight, hh.weight, h w]
  refine ⟨?_, ?_⟩
  · -- where no body weighs anything, the constant is left
    have hconstant := hweight (indicator none)
    rwa [weighGroups_indicator_none, weighGroups_indicator_none] at hconstant
  · have hperm : gs.Perm hs :=
      (List.perm_ext_iff_of_nodup hg.built.distinct.of_map hh.built.distinct.of_map).mpr
        fun g => ⟨mem_of_weighGroups_eq hg.built hh.built hweight g,
          mem_of_weighGroups_eq hh.built hg.built (fun w => (hweight w).symm) g⟩
    exact hperm.eq_of_pairwise
      (fun g g' hmem hmem' => TermsInOrder.antisymm (hg.tidy g hmem) (hh.tidy g' hmem'))
      hg.built.ordered hh.built.ordered

/-- A sum of tidy operands only depends on the totals of their terms, whatever the limit is. -/
theorem buildSum_sameResult {es fs : List Expr} (hes : ∀ e ∈ es, e.IsTidy)
    (hfs : ∀ f ∈ fs, f.IsTidy) (h : SameTerms (es.flatMap terms) (fs.flatMap terms))
    (limit : DigitLimit) :
    SameResult (buildSum (Settings.standard.within limit) es)
      (buildSum (Settings.standard.within limit) fs) := by
  obtain ⟨k, gs, hg, hsum⟩ := exists_totals_buildSum hes
  obtain ⟨l, hs, hh, hsum'⟩ := exists_totals_buildSum hfs
  obtain ⟨rfl, rfl⟩ := hg.unique hh h
  exact fun r => (hsum limit r).trans (hsum' limit r).symm

theorem buildSum_of_sameTerms {es fs : List Expr} (hes : ∀ e ∈ es, e.IsTidy)
    (hfs : ∀ f ∈ fs, f.IsTidy) (h : SameTerms (es.flatMap terms) (fs.flatMap terms)) :
    buildSum .unbounded es = buildSum .unbounded fs := by
  obtain ⟨k, gs, -, hsum⟩ := exists_buildSum hes
  exact (buildSum_sameResult hes hfs h .unlimited).eq_of_ok hsum

theorem buildSum_perm {es ds : List Expr} (hes : ∀ e ∈ es, e.IsTidy) (h : es.Perm ds)
    (limit : DigitLimit) :
    SameResult (buildSum (Settings.standard.within limit) es)
      (buildSum (Settings.standard.within limit) ds) :=
  buildSum_sameResult hes (fun d hd => hes d (h.mem_iff.mpr hd)) (.perm (h.flatMap_right _)) limit

/-! ## A tree is the sum of its terms -/

theorem ofScaled_eq_scale (q : Rat) {fs : List Expr} (hne : fs ≠ []) (hfs : ∀ f ∈ fs, f.IsFactor) :
    ofScaled q fs = scale (.exact q) (ofFactors fs) := by
  unfold scale
  rw [factors_ofFactors fun f hf => (hfs f hf).2]
  cases fs with
  | nil => exact absurd rfl hne
  | cons f fs => rfl

theorem totals_rat (q : Rat) : Totals [rat q] q [] where
  built := ⟨nofun, nofun, nofun, .nil, .nil⟩
  tidy := nofun
  weight w := by simp [weighGroups]

/-- The total of a tidy term that is no literal: one body with its coefficient. -/
theorem exists_totals_scale {t : Expr} (ht : t.IsTidy) (hnumber : t.isNumber = false) :
    ∃ body q, Totals [t] 0 [(body, q)] ∧ t = scale (.exact q) body := by
  have hfactor : ∀ f ∈ otherFactors t.factors, f.IsFactor := fun f hf =>
    (ht.of_mem_otherFactors f hf).2
  have hself := ht.isBuilt.eq_ofScaled.1
  have hzero : literalProduct t.factors ≠ 0 := fun hzero => by
    rw [ht.isBuilt.eq_zero hzero] at hnumber
    cases hnumber
  generalize literalProduct t.factors = q at hself hzero
  generalize otherFactors t.factors = fs at hself hfactor
  have hne : fs ≠ [] := by
    rintro rfl
    rw [hself] at hnumber
    cases hnumber
  have hwhole : ofFactors (ofFactors fs).factors = ofFactors fs := by
    rw [factors_ofFactors fun f hf => (hfactor f hf).2]
  have hbody := isBody_ofFactors hne hfactor
  rw [ofScaled_eq_scale q hne hfactor] at hself
  have hsplit := splitCoefficient_scale (q := q) hbody hwhole
  rw [← hself] at hsplit
  have htidy : (ofFactors fs).IsTidy := by
    refine isTidy_iff_named.mpr ⟨(isBody_of_splitCoefficient ht.isBuilt hsplit).1, ?_⟩
    exact leafProperty_isNamedNode.every_scale_iff.mp (hself ▸ ht.named)
  refine ⟨ofFactors fs, q, ⟨⟨?_, ?_, ?_, ?_, ?_⟩, ?_, fun w => ?_⟩, hself⟩
  · exact List.forall_mem_singleton.mpr hbody
  · exact List.forall_mem_singleton.mpr hwhole
  · exact List.forall_mem_singleton.mpr hzero
  · exact List.nodup_singleton _
  · exact List.pairwise_singleton _ _
  · exact List.forall_mem_singleton.mpr htidy
  · rw [weighTerms_cons, weigh_of_splitCoefficient hsplit]
    simp [weighGroups]

theorem exists_totals_sum {ts : List Expr} (h : (sum ts).IsTidy) :
    ∃ k gs, Totals ts k gs ∧ ts = constantTerm k ++ groupTerms gs := by
  obtain ⟨⟨-, k, gs, rfl, hgs⟩, hts⟩ := isBuilt_sum.mp h.isBuilt
  have hbuilt := hgs.isBuilt fun t ht => hts t (List.mem_append_right _ ht)
  refine ⟨k, gs, ⟨hgs, fun g hg => ?_, fun w => ?_⟩, rfl⟩
  · have hterm := h.of_mem_sum _ (List.mem_append_right _ (List.mem_map_of_mem hg))
    exact isTidy_iff_named.mpr
      ⟨hbuilt g hg, leafProperty_isNamedNode.every_scale_iff.mp hterm.named⟩
  · rw [weighTerms_append, weighTerms_constantTerm, weighTerms_groupTerms hgs, weighGroups]

theorem exists_totals {e : Expr} (he : e.IsTidy) :
    ∃ k gs, Totals e.terms k gs ∧ e = ofSortedTerms (constantTerm k ++ groupTerms gs) := by
  have hterm : e.isNumber = false → e.terms = [e] →
      ∃ k gs, Totals e.terms k gs ∧ e = ofSortedTerms (constantTerm k ++ groupTerms gs) := by
    intro hnumber hterms
    obtain ⟨body, q, htotals, hself⟩ := exists_totals_scale he hnumber
    exact ⟨0, [(body, q)], hterms ▸ htotals, hself⟩
  cases e with
  | sum ts =>
    obtain ⟨k, gs, htotals, rfl⟩ := exists_totals_sum he
    have hlen := (isBuilt_sum.mp he.isBuilt).1.1
    refine ⟨k, gs, htotals, ?_⟩
    unfold ofSortedTerms
    split <;> simp_all
  | number v =>
    obtain ⟨q, rfl⟩ := he.isExact.exists_rat
    refine ⟨q, [], totals_rat q, ?_⟩
    by_cases hq : q = 0 <;> simp [constantTerm, groupTerms, ofSortedTerms, zero, hq]
  | _ => exact hterm rfl rfl

/-- Tidy trees whose terms have the same totals are the same. -/
theorem eq_of_sameTerms {c d : Expr} (hc : c.IsTidy) (hd : d.IsTidy)
    (h : SameTerms c.terms d.terms) : c = d := by
  obtain ⟨k, gs, hg, rfl⟩ := exists_totals hc
  obtain ⟨l, hs, hh, rfl⟩ := exists_totals hd
  obtain ⟨rfl, rfl⟩ := hg.unique hh h
  rfl

end AlgebraicForm
