import AlgebraicForm.NormalForm
import AlgebraicForm.Proofs.Laws

/-!
# Normalisation rewrites by the laws

The builders, the pass and the repetition of the pass only ever use the laws of
`AlgebraicForm.Proofs.Laws`. Each loop keeps one invariant: the operands it was given rewrite to
what it has collected followed by what is still to come.

* `buildSum_rewrites`: a sum.
* `buildProduct_rewrites`, `buildPower_rewrites`: a product and a power, by induction on the depth.
* `normalPass_rewrites`, `normalForm_rewrites`: one pass and all of them, so that the normal form
  has the value of the expression wherever that has one.
-/

namespace AlgebraicForm

open AlgebraicForm.Expr

/-! ## Laws under several operands -/

namespace Rewrites

/-- Operands of a sum rewrite one by one, whatever follows them. -/
theorem sum_append {ts us : List Expr} (h : List.Forall₂ Rewrites ts us) (vs : List Expr) :
    Rewrites (sum (ts ++ vs)) (sum (us ++ vs)) := by
  induction h generalizing vs with
  | nil => exact refl _
  | @cons t u ts us htu _ ih =>
    -- the head goes behind the others, which rewrite as one block
    have hback : Rewrites (sum (u :: (ts ++ vs))) (sum (ts ++ u :: vs)) :=
      sum_perm List.perm_middle.symm
    have hfront : Rewrites (sum (us ++ u :: vs)) (sum (u :: (us ++ vs))) :=
      sum_perm List.perm_middle
    exact (sum_head _ htu).trans (hback.trans ((ih (u :: vs)).trans hfront))

theorem product_append {fs gs : List Expr} (h : List.Forall₂ Rewrites fs gs) (hs : List Expr) :
    Rewrites (product (fs ++ hs)) (product (gs ++ hs)) := by
  induction h generalizing hs with
  | nil => exact refl _
  | @cons f g fs gs hfg _ ih =>
    have hback : Rewrites (product (g :: (fs ++ hs))) (product (fs ++ g :: hs)) :=
      product_perm List.perm_middle.symm
    have hfront : Rewrites (product (gs ++ g :: hs)) (product (g :: (gs ++ hs))) :=
      product_perm List.perm_middle
    exact (product_head _ hfg).trans (hback.trans ((ih (g :: hs)).trans hfront))

theorem sum_congr {ts us : List Expr} (h : List.Forall₂ Rewrites ts us) :
    Rewrites (sum ts) (sum us) := by
  simpa using sum_append h []

theorem product_congr {fs gs : List Expr} (h : List.Forall₂ Rewrites fs gs) :
    Rewrites (product fs) (product gs) := by
  simpa using product_append h []

theorem call_congr (n : String) {ds es : List Expr} (h : List.Forall₂ Rewrites ds es) :
    Rewrites (call n ds) (call n es) := by
  suffices hpre : ∀ pre, Rewrites (call n (pre ++ ds)) (call n (pre ++ es)) from hpre []
  induction h with
  | nil => exact fun _ => refl _
  | @cons d e ds es hde _ ih =>
    intro pre
    have hrest := ih (pre ++ [e])
    rw [List.append_assoc, List.append_assoc] at hrest
    exact (call_argument n pre ds hde).trans hrest

/-! ## Flattening, literals -/

/-- A sum takes in the terms of its first operand. -/
theorem sum_terms (t : Expr) (us : List Expr) : Rewrites (sum (t :: us)) (sum (t.terms ++ us)) := by
  cases t with
  | sum ts => exact sum_flatten ts us
  | _ => exact refl _

theorem product_factors (f : Expr) (gs : List Expr) :
    Rewrites (product (f :: gs)) (product (f.factors ++ gs)) := by
  cases f with
  | product fs => exact product_flatten fs gs
  | _ => exact refl _

/-- A sum takes in the terms of all its operands. -/
theorem sum_flatMap_terms (es us : List Expr) :
    Rewrites (sum (us ++ es)) (sum (us ++ es.flatMap terms)) := by
  induction es generalizing us with
  | nil => exact refl _
  | cons e es ih =>
    have hfront : Rewrites (sum (us ++ e :: es)) (sum (e :: (us ++ es))) :=
      sum_perm List.perm_middle
    have hback : Rewrites (sum (e.terms ++ (us ++ es))) (sum ((us ++ e.terms) ++ es)) := by
      refine sum_perm ?_
      rw [← List.append_assoc]
      exact List.perm_append_comm.append_right es
    have hrest := ih (us ++ e.terms)
    rw [List.flatMap_cons, ← List.append_assoc]
    exact hfront.trans ((sum_terms e _).trans (hback.trans hrest))

theorem product_flatMap_factors (es us : List Expr) :
    Rewrites (product (us ++ es)) (product (us ++ es.flatMap factors)) := by
  induction es generalizing us with
  | nil => exact refl _
  | cons e es ih =>
    have hfront : Rewrites (product (us ++ e :: es)) (product (e :: (us ++ es))) :=
      product_perm List.perm_middle
    have hback : Rewrites (product (e.factors ++ (us ++ es)))
        (product ((us ++ e.factors) ++ es)) := by
      refine product_perm ?_
      rw [← List.append_assoc]
      exact List.perm_append_comm.append_right es
    have hrest := ih (us ++ e.factors)
    rw [List.flatMap_cons, ← List.append_assoc]
    exact hfront.trans ((product_factors e _).trans (hback.trans hrest))

/-- A zero among terms disappears, another literal is the constant. -/
theorem sum_rat (a : Rat) (ts : List Expr) :
    Rewrites (sum (rat a :: ts)) (sum (constantTerm a ++ ts)) := by
  unfold constantTerm
  split
  next h => exact h ▸ sum_zero ts
  next => exact refl _

/-- A literal among terms goes into the constant. -/
theorem sum_constant (k a : Rat) (ts : List Expr) :
    Rewrites (sum (constantTerm k ++ rat a :: ts)) (sum (constantTerm (k + a) ++ ts)) := by
  by_cases hk : k = 0
  · rw [hk, zero_add, constantTerm, if_pos rfl]
    exact sum_rat a ts
  · rw [constantTerm, if_neg hk]
    exact (sum_literals k a ts).trans (sum_rat (k + a) ts)

/-- A term is its coefficient times its body. -/
theorem of_splitCoefficient {t body : Expr} {c : Rat}
    (h : t.splitCoefficient = (.exact c, some body)) : Rewrites t (scale (.exact c) body) := by
  obtain ⟨rest, rfl, rfl⟩ | ⟨hc, rfl⟩ := splitCoefficient_eq_some h
  · exact coefficient c rest
  · have hone : (Number.exact c).isOne = true := by
      rw [hc]
      rfl
    rw [scale, if_pos hone]
    exact refl body

/-- A factor is the power of its base to its exponent. -/
theorem of_splitPower {f b e : Expr} (hf : f.isNumber = false) (h : f.splitPower = (b, e)) :
    Rewrites f (ofPower b e) := by
  have hone : ∀ c : Expr, c.isNumber = false → ofPower c one = c := by
    intro c hc
    simp [ofPower, one, hc]
  cases f with
  | power c p =>
    obtain ⟨rfl, rfl⟩ : c = b ∧ p = e := by simpa [splitPower] using h
    unfold ofPower
    split
    next q =>
      split
      next hq => exact hq.1 ▸ power_one c
      next => exact refl _
    next => exact refl _
  | _ =>
    obtain ⟨rfl, rfl⟩ := Prod.mk.inj h
    rw [hone _ hf]
    exact refl _

end Rewrites

/-! ## Sums -/

/-- The terms that collected terms stand for. -/
def groupTerms (gs : List (Expr × Rat)) : List Expr :=
  gs.map fun g => scale (.exact g.2) g.1

@[simp] theorem groupTerms_append (gs hs : List (Expr × Rat)) :
    groupTerms (gs ++ hs) = groupTerms gs ++ groupTerms hs := by
  simp [groupTerms]

@[simp] theorem groupTerms_cons (g : Expr × Rat) (gs : List (Expr × Rat)) :
    groupTerms (g :: gs) = scale (.exact g.2) g.1 :: groupTerms gs := by
  simp [groupTerms]

@[simp] theorem groupTerms_nil : groupTerms [] = [] :=
  rfl

namespace Rewrites

/-- What the loop over terms has collected from terms is their sum. -/
theorem sum_collectTerms {ts : List Expr} (hts : ∀ t ∈ ts, t.IsExact) :
    ∃ k gs, collectTerms (.exact 0) [] ts = .ok (.exact k, exactGroups gs) ∧
      (∀ g ∈ gs, g.1.IsExact) ∧
      Rewrites (sum ts) (sum (constantTerm k ++ (groupTerms gs ++ []))) := by
  refine collectTerms_invariant
    (I := fun k gs rest => Rewrites (sum ts) (sum (constantTerm k ++ (groupTerms gs ++ rest))))
    ?literal ?known ?new (List.forall_mem_nil fun g : Expr × Rat => g.1.IsExact) hts (refl (sum ts))
  case literal =>
    intro k gs a rest h
    have hfront : Rewrites (sum (constantTerm k ++ (groupTerms gs ++ rat a :: rest)))
        (sum (constantTerm k ++ rat a :: (groupTerms gs ++ rest))) :=
      sum_perm (List.perm_middle.append_left _)
    exact h.trans (hfront.trans (sum_constant k a _))
  case known =>
    intro k pre body d post t c rest hsplit h
    -- the new term and the group of its body go to the front, where they are combined
    have hfront : (constantTerm k ++ (groupTerms (pre ++ (body, d) :: post) ++ t :: rest)).Perm
        (t :: scale (.exact d) body ::
          (constantTerm k ++ (groupTerms pre ++ (groupTerms post ++ rest)))) := by
      have ht : (constantTerm k ++ groupTerms (pre ++ (body, d) :: post) ++ t :: rest).Perm
          (t :: (constantTerm k ++ groupTerms (pre ++ (body, d) :: post) ++ rest)) :=
        List.perm_middle
      have hgroup : (constantTerm k ++ groupTerms pre ++ scale (.exact d) body ::
            (groupTerms post ++ rest)).Perm
          (scale (.exact d) body ::
            (constantTerm k ++ groupTerms pre ++ (groupTerms post ++ rest))) :=
        List.perm_middle
      simp only [groupTerms_append, groupTerms_cons, List.append_assoc, List.cons_append]
        at ht hgroup ⊢
      exact ht.trans (hgroup.cons t)
    have hlike : Rewrites (sum (t :: scale (.exact d) body ::
          (constantTerm k ++ (groupTerms pre ++ (groupTerms post ++ rest)))))
        (sum (scale (.exact (d + c)) body ::
          (constantTerm k ++ (groupTerms pre ++ (groupTerms post ++ rest))))) := by
      rw [add_comm d c]
      exact (sum_head _ (of_splitCoefficient hsplit)).trans (sum_like c d body _)
    have hback : (scale (.exact (d + c)) body ::
          (constantTerm k ++ (groupTerms pre ++ (groupTerms post ++ rest)))).Perm
        (constantTerm k ++ (groupTerms (pre ++ (body, d + c) :: post) ++ rest)) := by
      have hgroup : (constantTerm k ++ groupTerms pre ++ scale (.exact (d + c)) body ::
            (groupTerms post ++ rest)).Perm
          (scale (.exact (d + c)) body ::
            (constantTerm k ++ groupTerms pre ++ (groupTerms post ++ rest))) :=
        List.perm_middle
      simp only [groupTerms_append, groupTerms_cons, List.append_assoc, List.cons_append]
        at hgroup ⊢
      exact hgroup.symm
    exact h.trans ((sum_perm hfront).trans (hlike.trans (sum_perm hback)))
  case new =>
    intro k gs body t c rest hsplit _ h
    have hfront : Rewrites (sum (constantTerm k ++ (groupTerms gs ++ t :: rest)))
        (sum (t :: (constantTerm k ++ (groupTerms gs ++ rest)))) := by
      rw [← List.append_assoc, ← List.append_assoc]
      exact sum_perm List.perm_middle
    have hback : Rewrites
        (sum (scale (.exact c) body :: (constantTerm k ++ (groupTerms gs ++ rest))))
        (sum (constantTerm k ++ (groupTerms (gs ++ [(body, c)]) ++ rest))) := by
      rw [groupTerms_append, List.append_assoc, ← List.append_assoc, ← List.append_assoc]
      exact sum_perm List.perm_middle.symm
    exact h.trans (hfront.trans ((sum_head _ (of_splitCoefficient hsplit)).trans hback))

/-- Terms whose coefficient is zero may be left out. -/
theorem sum_filter (gs : List (Expr × Rat)) (us : List Expr) :
    Rewrites (sum (us ++ groupTerms gs)) (sum (us ++ groupTerms (gs.filter (·.2 ≠ 0)))) := by
  induction gs generalizing us with
  | nil => exact refl _
  | cons g gs ih =>
    obtain ⟨body, c⟩ := g
    by_cases hc : c = 0
    · rw [List.filter_cons_of_neg (by simpa using hc), hc]
      have hfront : Rewrites (sum (us ++ groupTerms ((body, 0) :: gs)))
          (sum (scale (.exact 0) body :: (us ++ groupTerms gs))) := sum_perm List.perm_middle
      exact hfront.trans ((sum_vanish body _).trans (ih us))
    · rw [List.filter_cons_of_pos (by simpa using hc), groupTerms_cons, groupTerms_cons]
      have hrest := ih (us ++ [scale (.exact c) body])
      rwa [List.append_assoc, List.append_assoc] at hrest

/-- Terms in any order are a sum, a term, or zero. -/
theorem sum_ofSortedTerms {ts us : List Expr} (h : ts.Perm us) :
    Rewrites (sum ts) (ofSortedTerms us) := by
  refine (sum_perm h).trans ?_
  unfold ofSortedTerms
  split
  · exact sum_empty
  · exact sum_single _
  · exact refl _

end Rewrites

theorem sortedTerms_perm {s : Settings} {gs : List (Expr × Rat)}
    {ks : List ((List Char × Number) × Expr)}
    (h : keyedTerms s (exactGroups gs) = .ok ks) :
    (sortedTerms ks).Perm (groupTerms (gs.filter (·.2 ≠ 0))) := by
  have hks : ks.map (·.2) = groupTerms (gs.filter (·.2 ≠ 0)) := by
    have hkeyed := keyedTerms_eq_ok h
    generalize gs.filter (·.2 ≠ 0) = left at hkeyed ⊢
    clear h
    induction hkeyed with
    | nil => rfl
    | cons hk _ ih => rw [List.map_cons, groupTerms_cons, hk.2.2, ih]
  exact hks ▸ (sortBy_perm _ ks).map _

theorem buildSum_terms_rewrites {s : Settings} {es : List Expr} (hes : ∀ e ∈ es, e.IsExact)
    {r : Expr} (h : buildSum s es = .ok r) : Rewrites (sum (es.flatMap terms)) r := by
  have hterms : ∀ t ∈ es.flatMap terms, t.IsExact := by
    intro t ht
    obtain ⟨e, he, het⟩ := List.mem_flatMap.mp ht
    exact (hes e he).terms t het
  obtain ⟨k, gs, hcollect, _, hsum⟩ := Rewrites.sum_collectTerms hterms
  obtain ⟨ks, hks, rfl⟩ := (buildSum_eq_ok hcollect).mp h
  rw [List.append_nil] at hsum
  have hsorted := ((sortedTerms_perm hks).symm.append_left (constantTerm k))
  exact hsum.trans ((Rewrites.sum_filter gs _).trans (Rewrites.sum_ofSortedTerms hsorted))

/-- A sum rewrites to what its builder makes of it. -/
theorem buildSum_rewrites {s : Settings} {es : List Expr} (hes : ∀ e ∈ es, e.IsExact) {r : Expr}
    (h : buildSum s es = .ok r) : Rewrites (sum es) r :=
  (Rewrites.sum_flatMap_terms es []).trans (buildSum_terms_rewrites hes h)

theorem buildSum_literals {s : Settings} (qs : List Rat) :
    buildSum s (qs.map rat) = .ok (rat qs.sum) := by
  have hcollect : ∀ k : Rat, collectTerms (.exact k) [] ((qs.map rat).flatMap terms) =
      .ok (.exact (k + qs.sum), exactGroups []) := by
    induction qs with
    | nil => intro k; simp [collectTerms, exactGroups]
    | cons q qs ih =>
      intro k
      have hstep := ih (k + q)
      rw [add_assoc] at hstep
      simpa [collectTerms, terms, splitCoefficient] using hstep
  have h := hcollect 0
  rw [zero_add] at h
  refine (buildSum_eq_ok h).mpr ⟨[], rfl, ?_⟩
  by_cases hq : qs.sum = 0 <;> simp [constantTerm, hq, sortedTerms, sortBy, ofSortedTerms, zero]

/-! ## Products -/

/-- The coefficient of a product, which is left out if it is one. -/
def coefficientFactor (q : Rat) : List Expr :=
  if q = 1 then [] else [rat q]

/-- The factors that collected exponents stand for. -/
def groupFactors (bs : List (Expr × List Expr)) : List Expr :=
  bs.flatMap fun g => g.2.map (ofPower g.1)

@[simp] theorem groupFactors_append (bs cs : List (Expr × List Expr)) :
    groupFactors (bs ++ cs) = groupFactors bs ++ groupFactors cs := by
  simp [groupFactors]

@[simp] theorem groupFactors_cons (g : Expr × List Expr) (bs : List (Expr × List Expr)) :
    groupFactors (g :: bs) = g.2.map (ofPower g.1) ++ groupFactors bs := by
  simp [groupFactors]

@[simp] theorem groupFactors_nil : groupFactors [] = [] :=
  rfl

namespace Rewrites

theorem product_rat (a : Rat) (fs : List Expr) :
    Rewrites (product (rat a :: fs)) (product (coefficientFactor a ++ fs)) := by
  unfold coefficientFactor
  split
  next h => exact h ▸ product_one fs
  next => exact refl _

theorem product_coefficient (q a : Rat) (fs : List Expr) :
    Rewrites (product (coefficientFactor q ++ rat a :: fs))
      (product (coefficientFactor (q * a) ++ fs)) := by
  by_cases hq : q = 1
  · rw [hq, one_mul, coefficientFactor, if_pos rfl]
    exact product_rat a fs
  · rw [coefficientFactor, if_neg hq]
    exact (product_literals q a fs).trans (product_rat (q * a) fs)

/-- What the loop over factors has collected from factors is their product. -/
theorem product_collectFactors {fs : List Expr} (hfs : ∀ f ∈ fs, f.IsExact) :
    ∃ q bs, collectFactors (.exact 1) [] fs = .ok (.exact q, bs) ∧
      (∀ g ∈ bs, g.1.IsExact ∧ ∀ e ∈ g.2, e.IsExact) ∧ (∀ g ∈ bs, g.2 ≠ []) ∧
      Rewrites (product fs) (product (coefficientFactor q ++ (groupFactors bs ++ []))) := by
  refine collectFactors_invariant
    (I := fun q bs rest => (∀ g ∈ bs, g.2 ≠ []) ∧
      Rewrites (product fs) (product (coefficientFactor q ++ (groupFactors bs ++ rest))))
    ?literal ?known ?new (by simp) hfs ⟨by simp, refl (product fs)⟩
  case literal =>
    intro q bs a rest ⟨hbs, h⟩
    have hfront : Rewrites (product (coefficientFactor q ++ (groupFactors bs ++ rat a :: rest)))
        (product (coefficientFactor q ++ rat a :: (groupFactors bs ++ rest))) :=
      product_perm (List.perm_middle.append_left _)
    exact ⟨hbs, h.trans (hfront.trans (product_coefficient q a _))⟩
  case known =>
    intro q pre b es post f e rest hf hsplit ⟨hbs, h⟩
    refine ⟨?_, ?_⟩
    · simp only [List.forall_mem_append, List.forall_mem_cons] at hbs ⊢
      exact ⟨hbs.1, by simp, hbs.2.2⟩
    -- the new factor goes to the front, becomes a power, and goes to the end of its group
    have hfront : (coefficientFactor q ++ (groupFactors (pre ++ (b, es) :: post) ++ f :: rest)).Perm
        (f :: (coefficientFactor q ++ (groupFactors (pre ++ (b, es) :: post) ++ rest))) := by
      rw [← List.append_assoc, ← List.append_assoc]
      exact List.perm_middle
    have hback : (ofPower b e ::
          (coefficientFactor q ++ (groupFactors (pre ++ (b, es) :: post) ++ rest))).Perm
        (coefficientFactor q ++ (groupFactors (pre ++ (b, es ++ [e]) :: post) ++ rest)) := by
      have hgroup : (coefficientFactor q ++ groupFactors pre ++ es.map (ofPower b) ++
            ofPower b e :: (groupFactors post ++ rest)).Perm
          (ofPower b e :: (coefficientFactor q ++ groupFactors pre ++ es.map (ofPower b) ++
            (groupFactors post ++ rest))) :=
        List.perm_middle
      simp only [groupFactors_append, groupFactors_cons, List.map_append, List.map_cons,
        List.map_nil, List.append_assoc, List.cons_append, List.nil_append] at hgroup ⊢
      exact hgroup.symm
    exact h.trans ((product_perm hfront).trans
      ((product_head _ (of_splitPower hf hsplit)).trans (product_perm hback)))
  case new =>
    intro q bs b f e rest hf hsplit _ ⟨hbs, h⟩
    refine ⟨?_, ?_⟩
    · simp only [List.forall_mem_append, List.forall_mem_singleton]
      exact ⟨hbs, by simp⟩
    have hfront : Rewrites (product (coefficientFactor q ++ (groupFactors bs ++ f :: rest)))
        (product (f :: (coefficientFactor q ++ (groupFactors bs ++ rest)))) := by
      rw [← List.append_assoc, ← List.append_assoc]
      exact product_perm List.perm_middle
    have hback : Rewrites
        (product (ofPower b e :: (coefficientFactor q ++ (groupFactors bs ++ rest))))
        (product (coefficientFactor q ++ (groupFactors (bs ++ [(b, [e])]) ++ rest))) := by
      rw [groupFactors_append, List.append_assoc, ← List.append_assoc, ← List.append_assoc]
      exact product_perm List.perm_middle.symm
    exact h.trans (hfront.trans ((product_head _ (of_splitPower hf hsplit)).trans hback))

/-- Literals among the last factors go into the coefficient. -/
theorem product_absorb (q : Rat) (fs rest : List Expr) {ps : List Expr}
    (hps : ∀ p ∈ ps, p.IsExact) :
    Rewrites (product (coefficientFactor q ++ (fs ++ (ps ++ rest))))
      (product (coefficientFactor (q * (ps.map literalFactor).prod) ++
        (fs ++ (ps.filter (!·.isNumber) ++ rest)))) := by
  induction ps generalizing q fs with
  | nil => simpa using refl _
  | cons p ps ih =>
    rw [List.forall_mem_cons] at hps
    obtain ⟨a, rfl⟩ | hp := hps.1.rat_or_isNumber_eq_false
    · have hfront : Rewrites (product (coefficientFactor q ++ (fs ++ (rat a :: ps ++ rest))))
          (product (coefficientFactor q ++ rat a :: (fs ++ (ps ++ rest)))) :=
        product_perm (List.perm_middle.append_left _)
      have hrest := ih (q * a) fs hps.2
      rw [mul_assoc] at hrest
      simpa [literalFactor, isNumber] using
        hfront.trans ((product_coefficient q a _).trans hrest)
    · have hlit : literalFactor p = 1 := by
        cases p <;> simp_all [literalFactor, isNumber]
      have hrest := ih q (fs ++ [p]) hps.2
      simpa [hlit, hp] using hrest

end Rewrites

theorem Rewrites.isExact {a b : Expr} (h : Rewrites a b) (ha : a.IsExact) : b.IsExact :=
  h.every leafProperty_isExactNode ha

theorem buildProduct_literals (s : Settings) (fuel : Nat) (qs : List Rat) :
    buildProduct s (fuel + 1) (qs.map rat) = .ok (rat qs.prod) := by
  have hcollect : ∀ k : Rat, collectFactors (.exact k) [] ((qs.map rat).flatMap factors) =
      .ok (.exact (k * qs.prod), []) := by
    induction qs with
    | nil => intro k; simp [collectFactors]
    | cons q qs ih =>
      intro k
      have hstep := ih (k * q)
      rw [mul_assoc] at hstep
      simpa [collectFactors, factors] using hstep
  have h := hcollect 1
  rw [one_mul] at h
  have h1 : Number.ofInt 1 = .exact 1 := by simp [Number.ofInt]
  rw [buildProduct, h1, h, ok_bind]
  by_cases hq : qs.prod = 0 <;>
    simp [hq, zero, buildBases, sortFactors, sortBy]

theorem eq_of_buildProduct_literals {s : Settings} {fuel : Nat} {a b : Rat} {r : Expr}
    (h : buildProduct s fuel [rat a, rat b] = .ok r) : r = rat (a * b) := by
  cases fuel with
  | zero => simp [buildProduct] at h
  | succ fuel =>
    have hliterals : buildProduct s (fuel + 1) [rat a, rat b] = .ok (rat (a * b)) := by
      simpa using buildProduct_literals s fuel [a, b]
    exact Except.ok.inj (h.symm.trans hliterals)

theorem exists_map_intCast {es : List Expr} (hes : ∀ e ∈ es, e.IsExact)
    (hint : ∀ e ∈ es, e.isIntegerNumber = true) :
    ∃ ks : List Int, es = (ks.map fun k : Int => (k : Rat)).map rat := by
  induction es with
  | nil => exact ⟨[], rfl⟩
  | cons e es ih =>
    rw [List.forall_mem_cons] at hes hint
    obtain ⟨k, rfl⟩ := (isIntegerNumber_iff hes.1).mp hint.1
    obtain ⟨ks, rfl⟩ := ih hes.2 hint.2
    exact ⟨k :: ks, rfl⟩

theorem isIntegerNumber_of_buildSum {s : Settings} {es : List Expr} {r : Expr}
    (hes : ∀ e ∈ es, e.IsExact)
    (hint : ∀ e ∈ es, e.isIntegerNumber = true) (h : buildSum s es = .ok r) :
    r.isIntegerNumber = true := by
  obtain ⟨ks, rfl⟩ := exists_map_intCast hes hint
  rw [buildSum_literals] at h
  obtain rfl := Except.ok.inj h
  exact (isIntegerNumber_iff (isExact_rat _)).mpr ⟨ks.sum, by
    rw [Int.cast_list_sum]⟩

theorem eq_of_buildPower_one {s : Settings} {fuel : Nat} {b p : Expr}
    (h : buildPower s fuel b one = .ok p) : p = b := by
  cases fuel with
  | zero => unfold buildPower at h; simp at h
  | succ fuel =>
    have hlit : literalPower? s b one = some b := by
      cases b <;> simp [literalPower?, one]
    unfold buildPower at h
    simpa [hlit] using h.symm

/-- How a function for powers relates to the laws. -/
structure BuildsPowers (power : Expr → Expr → Except Fault Expr) : Prop where
  rewrites {b e p : Expr} : b.IsExact → e.IsExact → power b e = .ok p →
    Rewrites (.power b e) p
  one {b p : Expr} : power b one = .ok p → p = b

section

variable {power : Expr → Expr → Except Fault Expr}

/-- The powers of one base rewrite to the power that is built from the sum of the exponents. -/
theorem BuildsPowers.group {s : Settings} (hpower : BuildsPowers power) {b e p : Expr}
    {es : List Expr}
    (hes : es ≠ []) (hb : b.IsExact) (hexact : ∀ d ∈ es, d.IsExact)
    (hmerge : mergeExponents s es = .ok e) (hp : power b e = .ok p) (rest : List Expr) :
    Rewrites (product (es.map (ofPower b) ++ rest)) (product (p :: rest)) ∧ p.IsExact := by
  unfold mergeExponents at hmerge
  split at hmerge
  next d =>
    obtain rfl : d = e := by simpa using hmerge
    have hd : d.IsExact := hexact d (by simp)
    have hof := hpower.rewrites hb hd hp
    refine ⟨Rewrites.product_head rest ?_, hof.isExact (isExact_power.mpr ⟨hb, hd⟩)⟩
    unfold ofPower
    split
    next q =>
      split
      next hq =>
        rw [hq.1] at hp
        rw [hpower.one hp]
        exact .refl b
      next => exact hof
    next => exact hof
  next hne =>
    have hlen : 2 ≤ es.length := by
      match es, hes, hne with
      | [d], _, hne => exact absurd rfl (hne d)
      | _ :: _ :: _, _, _ => simp
    have hsum := buildSum_rewrites hexact hmerge
    have he : e.IsExact := hsum.isExact (isExact_sum.mpr hexact)
    have hof := hpower.rewrites hb he hp
    refine ⟨?_, hof.isExact (isExact_power.mpr ⟨hb, he⟩)⟩
    have hint := fun hint => isIntegerNumber_of_buildSum hexact hint hmerge
    exact (Rewrites.like_bases b rest hlen hsum hint).trans (Rewrites.product_head rest hof)

/-- The loop over bases: what it has built followed by the groups to come stays the product. -/
theorem BuildsPowers.buildBases {s : Settings} (hpower : BuildsPowers power)
    {bs : List (Expr × List Expr)}
    (hexact : ∀ g ∈ bs, g.1.IsExact ∧ ∀ e ∈ g.2, e.IsExact) (hne : ∀ g ∈ bs, g.2 ≠ [])
    {q : Rat} {c : Number} {fs : List Expr}
    (h : buildBases s power (.exact q) [] bs = .ok (c, fs)) :
    ∃ q', c = .exact q' ∧
      Rewrites (product (coefficientFactor q ++ groupFactors bs))
        (product (coefficientFactor q' ++ fs)) := by
  obtain ⟨q', fs', heq, -, -, hfinal⟩ := buildBases_invariant
    (J := fun q' fs rest => (∀ g ∈ rest, g.1.IsExact ∧ ∀ e ∈ g.2, e.IsExact) ∧
      (∀ g ∈ rest, g.2 ≠ []) ∧
      Rewrites (product (coefficientFactor q ++ groupFactors bs))
        (product (coefficientFactor q' ++ (fs ++ groupFactors rest))))
    (fun q' fs b es rest e p hmerge hp ⟨hexact, hne, hsofar⟩ => by
      rw [List.forall_mem_cons] at hexact hne
      refine ⟨hexact.2, hne.2, hsofar.trans ?_⟩
      obtain ⟨hgroup, hpexact⟩ := hpower.group hne.1 hexact.1.1 hexact.1.2 hmerge hp
        (coefficientFactor q' ++ fs ++ groupFactors rest)
      -- the group goes to the front, becomes one power, and its factors go back
      have hfront : (coefficientFactor q' ++ (fs ++ groupFactors ((b, es) :: rest))).Perm
          (es.map (ofPower b) ++ (coefficientFactor q' ++ fs ++ groupFactors rest)) := by
        have hswap : (coefficientFactor q' ++ fs ++ es.map (ofPower b)).Perm
            (es.map (ofPower b) ++ (coefficientFactor q' ++ fs)) := List.perm_append_comm
        have hwhole := hswap.append_right (groupFactors rest)
        simpa only [groupFactors_cons, List.append_assoc] using hwhole
      have hback : (p.factors ++ (coefficientFactor q' ++ fs ++ groupFactors rest)).Perm
          (coefficientFactor q' ++ (fs ++ (p.factors ++ groupFactors rest))) := by
        have hswap : (p.factors ++ (coefficientFactor q' ++ fs)).Perm
            (coefficientFactor q' ++ fs ++ p.factors) := List.perm_append_comm
        simpa only [List.append_assoc] using hswap.append_right (groupFactors rest)
      have habsorb := Rewrites.product_absorb q' fs (groupFactors rest) hpexact.factors
      rw [List.append_assoc fs]
      exact (Rewrites.product_perm hfront).trans (hgroup.trans
        ((Rewrites.product_factors p _).trans ((Rewrites.product_perm hback).trans habsorb))))
    (fun g hg e p hmerge hp =>
      ((hpower.group (hne g hg) (hexact g hg).1 (hexact g hg).2 hmerge hp []).2))
    h ⟨hexact, hne, by simpa using Rewrites.refl _⟩
  obtain ⟨rfl, rfl⟩ := Prod.mk.inj heq
  exact ⟨q', rfl, by simpa using hfinal⟩

end

/-- Terms with a minus sign in front of each rewrite to the sum that is built from them. -/
theorem negated_rewrites {s : Settings} {fuel : Nat} {ts us : List Expr} {r : Expr}
    (hts : ∀ t ∈ ts, t.IsExact)
    (hus : List.Forall₂ (fun t u => buildProduct s fuel [minusOne, t] = .ok u) ts us)
    (hr : buildSum s us = .ok r)
    (hproduct : ∀ {es : List Expr} {r : Expr}, (∀ e ∈ es, e.IsExact) →
      buildProduct s fuel es = .ok r → Rewrites (product es) r) :
    Rewrites (sum (ts.map fun t => product [minusOne, t])) r := by
  have hterms : List.Forall₂ Rewrites (ts.map fun t => product [minusOne, t]) us := by
    rw [List.forall₂_map_left_iff]
    refine ((List.forall₂_and_left ts us).mpr ⟨hts, hus⟩).imp fun t u ⟨ht, hu⟩ => ?_
    exact hproduct (by simp [minusOne, ht]) hu
  have husum := Rewrites.sum_congr hterms
  have husexact : ∀ u ∈ us, u.IsExact := by
    have hmap : (sum (ts.map fun t => product [minusOne, t])).IsExact := by
      simpa [minusOne] using hts
    simpa using husum.isExact hmap
  exact husum.trans (buildSum_rewrites husexact hr)

/-- A product of collected factors rewrites to what the product builder returns for them. -/
theorem ProductResult.rewrites {s : Settings} {fuel : Nat} {q : Rat} {fs : List Expr} {r : Expr}
    (h : ProductResult s fuel q fs r) (hfs : ∀ f ∈ fs, f.IsExact)
    (hproduct : ∀ {es : List Expr} {r : Expr}, (∀ e ∈ es, e.IsExact) →
      buildProduct s fuel es = .ok r → Rewrites (product es) r) :
    Rewrites (product (coefficientFactor q ++ fs)) r := by
  cases h with
  | zero hq =>
    subst hq
    exact .product_zero fs
  | literal hq hnil =>
    subst hnil
    unfold coefficientFactor
    split
    next hone => exact hone ▸ .product_empty
    next => exact .product_single _
  | @negated ts us r hq hsum hus hr =>
    subst hq hsum
    have hts : ∀ t ∈ ts, t.IsExact := by simpa using hfs
    exact (Rewrites.distribute_sign ts).trans (negated_rewrites hts hus hr hproduct)
  | @plain gs hq hsort hne hnosum =>
    have hperm := (sortFactors_perm hsort).symm
    refine (Rewrites.product_perm (hperm.append_left _)).trans ?_
    unfold withCoefficient coefficientFactor
    rw [Number.isOne_exact]
    by_cases hone : q = 1
    · simp only [hone, decide_true, ↓reduceIte, List.nil_append]
      unfold ofFactors
      split
      · exact .product_single _
      · exact .refl _
    · simp only [hone, decide_false, ↓reduceIte]
      exact .refl _

/-! ## Products and powers together -/

theorem LiteralPower.rewrites {s : Settings} {b p r : Expr} (h : LiteralPower s b p r) :
    Rewrites (power b p) r := by
  cases h with
  | zero_zero => exact .refl _
  | power_zero _ => exact .power_zero b
  | power_one => exact .power_one b
  | one_power => exact .one_power p
  | zero_power hq => exact .zero_power hq
  | @fold x y z hfold =>
    obtain ⟨k, rfl, _, hzero, rfl⟩ | ⟨rfl, hroot⟩ := foldPower?_eq_some hfold
    · exact .whole_power x k hzero
    · have hlaw := Rewrites.square_root hroot
      rwa [Number.half_eq] at hlaw

/-- A power rewrites to what its builder makes of it, if the builders below do so. -/
theorem PowerResult.rewrites {s : Settings} {fuel : Nat} {b p r : Expr}
    (h : PowerResult s fuel b p r) (hb : b.IsExact)
    (hproduct : ∀ {es : List Expr} {r : Expr}, (∀ e ∈ es, e.IsExact) →
      buildProduct s fuel es = .ok r → Rewrites (product es) r)
    (hpower : ∀ {b p r : Expr}, b.IsExact → p.IsExact →
      buildPower s fuel b p = .ok r → Rewrites (power b p) r) :
    Rewrites (power b p) r := by
  cases h with
  | literal h => exact h.rewrites
  | plain => exact .refl _
  | @nested c e q r k _ hq hr =>
    obtain ⟨hc, he⟩ := isExact_power.mp hb
    have hmul := hproduct (by simp [he]) hq
    have hqexact : q.IsExact := hmul.isExact (by simp [he])
    refine (Rewrites.power_power c k hmul fun hint => ?_).trans (hpower hc hqexact hr)
    -- a whole exponent times a whole exponent is one
    obtain ⟨j, rfl⟩ := (isIntegerNumber_iff he).mp hint
    obtain rfl := eq_of_buildProduct_literals hq
    exact (isIntegerNumber_iff (isExact_rat _)).mpr ⟨j * k, by push_cast; rfl⟩
  | @distributed fs gs r k _ hgs hr =>
    have hfs := isExact_product.mp hb
    have hpowers : List.Forall₂ Rewrites (fs.map fun f => power f (rat k)) gs := by
      rw [List.forall₂_map_left_iff]
      refine ((List.forall₂_and_left fs gs).mpr ⟨hfs, hgs⟩).imp fun f g hfg => ?_
      exact hpower hfg.1 (isExact_rat _) hfg.2
    have hmul := Rewrites.product_congr hpowers
    have hgsexact : ∀ g ∈ gs, g.IsExact := by
      have hmap : (product (fs.map fun f => power f (rat k))).IsExact := by
        simpa using hfs
      simpa using hmul.isExact hmap
    exact (Rewrites.power_product fs k).trans (hmul.trans (hproduct hgsexact hr))

/-- Products and powers rewrite to what their builders make of them, by induction on the depth. -/
theorem builders_rewrite (s : Settings) (fuel : Nat) :
    (∀ {es : List Expr} {r : Expr}, (∀ e ∈ es, e.IsExact) →
      buildProduct s fuel es = .ok r → Rewrites (product es) r) ∧
    (∀ {b p r : Expr}, b.IsExact → p.IsExact →
      buildPower s fuel b p = .ok r → Rewrites (power b p) r) := by
  induction fuel with
  | zero =>
    refine ⟨fun _ h => ?_, fun _ _ h => ?_⟩
    · simp [buildProduct] at h
    · unfold buildPower at h
      simp at h
  | succ fuel ih =>
    obtain ⟨hproduct, hpower⟩ := ih
    refine ⟨fun {es r} hes h => ?_, fun hb hp h => ?_⟩
    · have hfactors : ∀ f ∈ es.flatMap factors, f.IsExact := by
        intro f hf
        obtain ⟨e, he, hef⟩ := List.mem_flatMap.mp hf
        exact (hes e he).factors f hef
      obtain ⟨q, bs, hcollect, hbs, hne, hcollected⟩ :=
        Rewrites.product_collectFactors hfactors
      rw [List.append_nil] at hcollected
      refine (Rewrites.product_flatMap_factors es []).trans (hcollected.trans ?_)
      have hexact := hcollected.isExact (isExact_product.mpr hfactors)
      obtain ⟨rfl, rfl⟩ | ⟨_, c, fs, hbases, hresult⟩ := buildProduct_eq_ok hcollect h
      · exact .product_zero _
      · have hbuilds : BuildsPowers (buildPower s fuel) := ⟨hpower, eq_of_buildPower_one⟩
        obtain ⟨q', rfl, hbuilt⟩ := hbuilds.buildBases hbs hne hbases
        have hfs : ∀ f ∈ fs, f.IsExact := fun f hf =>
          isExact_product.mp (hbuilt.isExact hexact) f (List.mem_append_right _ hf)
        exact hbuilt.trans ((hresult q' rfl).rewrites hfs hproduct)
    · exact (buildPower_eq_ok hb hp h).rewrites hb hproduct hpower

theorem buildProduct_rewrites {s : Settings} {fuel : Nat} {es : List Expr} {r : Expr}
    (hes : ∀ e ∈ es, e.IsExact) (h : buildProduct s fuel es = .ok r) :
    Rewrites (product es) r :=
  (builders_rewrite s fuel).1 hes h

theorem buildPower_rewrites {s : Settings} {fuel : Nat} {b p r : Expr}
    (hb : b.IsExact) (hp : p.IsExact) (h : buildPower s fuel b p = .ok r) :
    Rewrites (power b p) r :=
  (builders_rewrite s fuel).2 hb hp h

/-! ## Passes -/

namespace Expr

theorem normalPassAll_eq_mapM (s : Settings) (es : List Expr) :
    normalPassAll s es = es.mapM (normalPass s) := by
  induction es with
  | nil => rfl
  | cons e es ih => rw [normalPassAll, List.mapM_cons, ih]

theorem normalPassAll_eq_ok_iff {s : Settings} {es cs : List Expr} :
    normalPassAll s es = .ok cs ↔ List.Forall₂ (fun e c => normalPass s e = .ok c) es cs := by
  rw [normalPassAll_eq_mapM, mapM_eq_ok_iff]

/-- The same node, with parts that are related to those of the first. -/
inductive OnParts (R : Expr → Expr → Prop) : Expr → Expr → Prop
  | literal (q : Rat) : OnParts R (rat q) (rat q)
  | symbol (n : String) : OnParts R (symbol n) (symbol n)
  | sum {ts us : List Expr} : List.Forall₂ R ts us → OnParts R (sum ts) (sum us)
  | product {fs gs : List Expr} : List.Forall₂ R fs gs → OnParts R (product fs) (product gs)
  | power {b c p q : Expr} : R b c → R p q → OnParts R (power b p) (power c q)
  | negation {d e : Expr} : R d e → OnParts R (negation d) (negation e)
  | call (n : String) {ds es : List Expr} :
      List.Forall₂ R ds es → OnParts R (call n ds) (call n es)

theorem OnParts.mono {R S : Expr → Expr → Prop} (hRS : ∀ d e, R d e → S d e) {d e : Expr}
    (h : OnParts R d e) : OnParts S d e := by
  cases h with
  | literal q => exact .literal q
  | symbol n => exact .symbol n
  | sum hts => exact .sum (hts.imp hRS)
  | product hfs => exact .product (hfs.imp hRS)
  | power hb hp => exact .power (hRS _ _ hb) (hRS _ _ hp)
  | negation he => exact .negation (hRS _ _ he)
  | call n hes => exact .call n (hes.imp hRS)

/-- The laws may be used on all parts. -/
theorem OnParts.rewrites {d e : Expr} (h : OnParts Rewrites d e) : Rewrites d e := by
  cases h with
  | literal _ | symbol _ => exact .refl _
  | sum hts => exact .sum_congr hts
  | product hfs => exact .product_congr hfs
  | power hb hp => exact (Rewrites.power_base _ hb).trans (.power_exponent _ hp)
  | negation he => exact .negation_operand he
  | call n hes => exact .call_congr n hes

/-- A pass over a node uses the laws on the node of what it makes of the parts. -/
theorem exists_onParts {s : Settings} {e c : Expr} (he : e.IsExact) (h : normalPass s e = .ok c) :
    ∃ d, OnParts (fun a b => normalPass s a = .ok b) e d ∧ (d.IsExact → Rewrites d c) := by
  cases e with
  | number v =>
    obtain ⟨q, rfl⟩ := he.exists_rat
    obtain rfl : rat q = c := by simpa [normalPass] using h
    exact ⟨_, .literal q, fun _ => .refl _⟩
  | symbol n =>
    obtain rfl : symbol n = c := by simpa [normalPass] using h
    exact ⟨_, .symbol n, fun _ => .refl _⟩
  | sum ts =>
    rw [normalPass] at h
    obtain ⟨cs, hcs, h⟩ := bind_eq_ok_iff.mp h
    exact ⟨sum cs, .sum (normalPassAll_eq_ok_iff.mp hcs), fun hexact =>
      buildSum_rewrites (isExact_sum.mp hexact) h⟩
  | product fs =>
    rw [normalPass] at h
    obtain ⟨cs, hcs, h⟩ := bind_eq_ok_iff.mp h
    exact ⟨product cs, .product (normalPassAll_eq_ok_iff.mp hcs), fun hexact =>
      buildProduct_rewrites (isExact_product.mp hexact) h⟩
  | power b p =>
    rw [normalPass] at h
    obtain ⟨base, hbase, h⟩ := bind_eq_ok_iff.mp h
    obtain ⟨exponent, hexponent, h⟩ := bind_eq_ok_iff.mp h
    refine ⟨power base exponent, .power hbase hexponent, fun hexact => ?_⟩
    obtain ⟨hb, hp⟩ := isExact_power.mp hexact
    exact buildPower_rewrites hb hp h
  | negation e =>
    rw [normalPass] at h
    obtain ⟨d, hd, h⟩ := bind_eq_ok_iff.mp h
    refine ⟨negation d, .negation hd, fun hexact => ?_⟩
    rw [isExact_negation] at hexact
    split at h
    next v =>
      obtain ⟨q, rfl⟩ := hexact.exists_rat
      obtain rfl : rat (-q) = c := by simpa using h
      exact .negation_literal q
    next =>
      have hes : ∀ e ∈ [minusOne, d], e.IsExact := by simp [minusOne, hexact]
      exact (Rewrites.negation d).trans (buildProduct_rewrites hes h)
  | call n es =>
    rw [normalPass] at h
    obtain ⟨cs, hcs, h⟩ := bind_eq_ok_iff.mp h
    refine ⟨call n cs, .call n (normalPassAll_eq_ok_iff.mp hcs), fun hexact => ?_⟩
    split at h
    next d =>
      split at h
      next hname =>
        have hd : d.IsExact := isExact_call.mp hexact d (by simp)
        rw [hname]
        refine (Rewrites.call_sqrt d).trans (buildPower_rewrites hd ?_ h)
        simp [Number.half_eq]
      next =>
        obtain rfl : call n [d] = c := by simpa using h
        exact .refl _
    next =>
      obtain rfl : call n cs = c := by simpa using h
      exact .refl _
  | hole => simp at he

theorem forall₂_of_normalPass {s : Settings} {R : Expr → Expr → Prop} {es cs : List Expr}
    (hpass : ∀ e ∈ es, ∀ {c}, normalPass s e = .ok c → R e c)
    (h : List.Forall₂ (fun e c => normalPass s e = .ok c) es cs) : List.Forall₂ R es cs := by
  have hboth := (List.forall₂_and_left es cs).mpr ⟨fun e he c => hpass e he (c := c), h⟩
  exact hboth.imp fun _ c h => h.1 c h.2

/-- Induction over a pass: what holds of a node when it holds of its parts. -/
theorem normalPass_induction {s : Settings} {motive : Expr → Expr → Prop}
    (node : ∀ {e d c}, e.IsExact → normalPass s e = .ok c → OnParts motive e d →
      (d.IsExact → Rewrites d c) → motive e c)
    {e c : Expr} (he : e.IsExact) (h : normalPass s e = .ok c) : motive e c := by
  induction e generalizing c with
  | number _ | symbol _ =>
    obtain ⟨d, hparts, hd⟩ := exists_onParts he h
    refine node he h ?_ hd
    cases hparts
    constructor
  | sum ts ih =>
    obtain ⟨d, hparts, hd⟩ := exists_onParts he h
    refine node he h ?_ hd
    cases hparts with
    | sum hts =>
      exact .sum (forall₂_of_normalPass (fun t ht => ih t ht (isExact_sum.mp he t ht)) hts)
  | product fs ih =>
    obtain ⟨d, hparts, hd⟩ := exists_onParts he h
    refine node he h ?_ hd
    cases hparts with
    | product hfs =>
      exact .product (forall₂_of_normalPass (fun f hf => ih f hf (isExact_product.mp he f hf)) hfs)
  | power b p ihb ihp =>
    obtain ⟨d, hparts, hd⟩ := exists_onParts he h
    refine node he h ?_ hd
    obtain ⟨hb, hp⟩ := isExact_power.mp he
    cases hparts with
    | power hbase hexponent => exact .power (ihb hb hbase) (ihp hp hexponent)
  | negation e ih =>
    obtain ⟨d, hparts, hd⟩ := exists_onParts he h
    refine node he h ?_ hd
    cases hparts with
    | negation hoperand => exact .negation (ih (isExact_negation.mp he) hoperand)
  | call n es ih =>
    obtain ⟨d, hparts, hd⟩ := exists_onParts he h
    refine node he h ?_ hd
    cases hparts with
    | call _ hes =>
      exact .call n
        (forall₂_of_normalPass (fun e hmem => ih e hmem (isExact_call.mp he e hmem)) hes)
  | hole => simp at he

/-- A pass only uses the laws. -/
theorem normalPass_rewrites {s : Settings} {e c : Expr} (he : e.IsExact)
    (h : normalPass s e = .ok c) : Rewrites e c :=
  normalPass_induction (motive := Rewrites)
    (fun he _ hparts hd => hparts.rewrites.trans (hd (hparts.rewrites.isExact he))) he h

/-- Induction along the passes to a normal form: the last one, which changes nothing, and one before
others. -/
theorem normalForm_induction {s : Settings} {motive : Expr → Expr → Prop}
    (last : ∀ {e c}, normalPass s e = .ok c → unchanged false c e = true → motive e c)
    (before : ∀ {e d c}, normalPass s e = .ok d → motive d c → motive e c)
    {e c : Expr} (h : normalForm s e = .ok c) : motive e c := by
  unfold normalForm at h
  generalize s.maxPasses.toNat = passes at h
  induction passes generalizing e with
  | zero => cases h
  | succ passes ih =>
    rw [settle] at h
    obtain ⟨d, hd, h⟩ := bind_eq_ok_iff.mp h
    split at h
    next hunchanged =>
      obtain rfl := Except.ok.inj h
      exact last hd hunchanged
    next => exact before hd (ih h)

/-- The normal form comes from the expression by the laws. -/
theorem normalForm_rewrites {s : Settings} {e c : Expr} (he : e.IsExact)
    (h : normalForm s e = .ok c) : Rewrites e c := by
  refine normalForm_induction (motive := fun e c => e.IsExact → Rewrites e c)
    (fun hpass _ he => normalPass_rewrites he hpass) (fun hpass ih he => ?_) h he
  have hfirst := normalPass_rewrites he hpass
  exact hfirst.trans (ih (hfirst.isExact he))

/-- A normal form may be computed and compared. -/
theorem normalForm_eq_ok_of_returns {s : Settings} {e c : Expr} (he : e.IsExact) (hc : c.IsExact)
    (h : returns (normalForm s e) c = true) : normalForm s e = .ok c :=
  eq_ok_of_returns (fun _ hd => (normalForm_rewrites he hd).isExact he) hc h

/-! ## The value of a normal form -/

/-- Wherever an exact expression has a value, its normal form has the same value, whatever the
settings and the functions are. -/
theorem normalForm_meaning (s : Settings) {e c : Expr} (he : e.IsExact)
    (h : normalForm s e = .ok c) (M : Interpretation) {x : ℝ} (hx : e.meaning M = some x) :
    c.meaning M = some x :=
  (normalForm_rewrites he h).refines M x hx

/-- The product of `x` and the square of `x` is the cube of `x`; at two, both are eight. -/
theorem normalForm_meaning_cube :
    let e := product [symbol "x", power (symbol "x") (rat 2)]
    let M : Interpretation := ⟨fun _ => 2, fun _ _ => none⟩
    normalForm .standard e = .ok (power (symbol "x") (rat 3)) ∧ e.meaning M = some 8 ∧
      (power (symbol "x") (rat 3)).meaning M = some 8 := by
  intro e M
  have he : e.IsExact := by simp [e]
  have hform : normalForm .standard e = .ok (power (symbol "x") (rat 3)) := by
    exact normalForm_eq_ok_of_returns he (by simp) (by decide +kernel)
  have hx : e.meaning M = some 8 := by
    have hsquare : (power (symbol "x") (rat 2)).meaning M = some 4 :=
      meaning_power_eq_some_iff.mpr ⟨2, (2 : ℤ), rfl, by simp, by
        rw [realPower_intCast (.inr (by decide))]; norm_num⟩
    exact meaning_product_cons_eq_some_iff.mpr ⟨2, 4, rfl, by simpa using hsquare, by norm_num⟩
  exact ⟨hform, hx, normalForm_meaning .standard he hform M hx⟩

end Expr

end AlgebraicForm
