import AlgebraicForm.Proofs.Fuel

/-!
# Passes settle, but not within a fixed bound

Every pass over an expression with names of the notation has a result, and from the second pass on
each one that changes something lowers the energy. So the passes come to a tree that a further pass
keeps, after a number of passes that the expression alone determines and its energy bounds.

No bound that is fixed in advance is enough. In a product of nested square roots
`x^(1/2)`, `x^(1/2)^(1/2)`, …, the deepest of them twice, a pass merges the two deepest ones into
the next one; only then are there two of that one, which the next pass will merge.

* `normalForm_of_passes`: the normal form under each bound on the passes, and each limit for digits.
* `pass_tower`, `settlesAfter_tower`: one pass over a tower of roots, and all of them.
-/

namespace AlgebraicForm

open AlgebraicForm.Expr

/-! ## Trees that a pass keeps -/

/-- A tidy sum that is settled is built again from its terms. -/
theorem buildSum_of_settled {ts : List Expr} (h : (sum ts).IsTidy)
    (hsettled : IsSettledNode (sum ts)) : buildSum .unbounded ts = .ok (sum ts) := by
  obtain ⟨k, gs, -, hsum⟩ := exists_buildSum h.of_mem_sum
  rw [hsum, buildSum_settled h.isBuilt (flatMap_terms_eq_self hsettled) hsum]

theorem product_of_settled {fs : List Expr} (h : (product fs).IsTidy)
    (hsettled : IsSettledNode (product fs)) :
    Settings.unbounded.product fs = .ok (product fs) := by
  have hfactor : ∀ f ∈ otherFactors fs, f.IsTidy ∧ f.IsFactor := h.of_mem_otherFactors
  have hself : product fs = ofScaled (literalProduct fs) (otherFactors fs) :=
    h.isBuilt.eq_ofScaled.1
  have hflat : fs.flatMap factors = fs := flatMap_factors_eq_self h.isBuilt.isFlat
  have hsort : sortFactors .unbounded (otherFactors fs) = .ok (otherFactors fs) :=
    sortFactors_eq_ok (fun f hf => (hfactor f hf).1.isPrintable.exists_factorKey)
      h.isBuilt.ordered_otherFactors
  have hzero : literalProduct fs ≠ 0 := fun hzero => by
    have hproduct := h.isBuilt.eq_zero hzero
    cases hproduct
  have hsign : ∀ ts, ¬(literalProduct fs = -1 ∧ otherFactors fs = [sum ts]) := by
    rintro ts ⟨hminus, hsum⟩
    rw [hminus, hsum] at hself
    exact hsettled.2 ts (product.inj hself)
  obtain ⟨fuel, hfuel⟩ := depthBound_eq (weightAll fs)
  rw [Settings.product, hfuel, hself]
  have hbuilt : ∀ f ∈ fs, f.IsBuilt .unbounded := fun f hf => (h.of_mem_product f hf).isBuilt
  have hbuild := buildProduct_settled hbuilt (by rw [hflat]; exact hsettled.1)
    (by rw [hflat]; exact hsort) (by rwa [hflat]) (by rwa [hflat]) (fuel + 2)
  rwa [hflat] at hbuild

/-- A pass keeps a tidy tree that is settled at every node. -/
theorem normalPass_of_settled {c : Expr} (hc : c.IsTidy) (h : c.Every IsSettledNode) :
    normalPass .unbounded c = .ok c := by
  have hall : ∀ {es : List Expr}, (∀ e ∈ es, normalPass .unbounded e = .ok e) →
      normalPassAll .unbounded es = .ok es := fun hes =>
    normalPassAll_eq_ok_iff.mpr (List.forall₂_same.mpr hes)
  induction c with
  | number v =>
    obtain ⟨q, rfl⟩ := hc.isExact.exists_rat
    rw [normalPass, Number.canonical_exact]
  | symbol n => rw [normalPass]
  | sum ts ih =>
    obtain ⟨hnode, hts⟩ := every_sum.mp h
    rw [normalPass, hall fun t ht => ih t ht (hc.of_mem_sum t ht) (hts t ht), ok_bind]
    exact buildSum_of_settled hc hnode
  | product fs ih =>
    obtain ⟨hnode, hfs⟩ := every_product.mp h
    rw [normalPass, hall fun f hf => ih f hf (hc.of_mem_product f hf) (hfs f hf), ok_bind]
    exact product_of_settled hc hnode
  | power b p ihb ihp =>
    obtain ⟨-, hb, hp⟩ := every_power.mp h
    obtain ⟨fuel, hfuel⟩ := depthBound_eq (b.weight + p.weight)
    rw [normalPass, ihb hc.base hb, ihp hc.exponent hp, ok_bind, ok_bind, Settings.power, hfuel]
    exact buildPower_of_isBuilt hc.isBuilt _
  | negation e => exact absurd hc.isBuilt not_isBuilt_negation
  | call n es ih =>
    have hes := (every_call.mp h).2
    have hroot := (isBuilt_call.mp hc.isBuilt).1
    rw [normalPass, hall fun e he => ih e he (hc.of_mem_call e he) (hes e he), ok_bind]
    split
    next e => rw [if_neg fun hname => hroot hname rfl, pure_eq_ok]
    next => rw [pure_eq_ok]
  | hole => exact absurd hc.isExact not_isExact_hole

/-! ## The bound on passes plays no part in a pass -/

theorem keyedTerms_withPasses (s : Settings) (m : Int) (gs : List (Expr × Number)) :
    keyedTerms { s with maxPasses := m } gs = keyedTerms s gs := by
  induction gs with
  | nil => rfl
  | cons g gs ih => rw [keyedTerms, keyedTerms, ih]

theorem buildSum_withPasses (s : Settings) (m : Int) :
    buildSum { s with maxPasses := m } = buildSum s := by
  funext es
  simp only [buildSum, keyedTerms_withPasses]

theorem buildBases_withPasses (s : Settings) (m : Int) (power : Expr → Expr → Except Fault Expr)
    (c : Number) (fs : List Expr) (bs : List (Expr × List Expr)) :
    buildBases { s with maxPasses := m } power c fs bs = buildBases s power c fs bs := by
  have hmerge : mergeExponents { s with maxPasses := m } = mergeExponents s := by
    funext es
    unfold mergeExponents
    rw [buildSum_withPasses]
  induction bs generalizing c fs with
  | nil => rfl
  | cons g bs ih => simp only [buildBases, hmerge, ih]

theorem builders_withPasses (s : Settings) (m : Int) (fuel : Nat) :
    buildProduct { s with maxPasses := m } fuel = buildProduct s fuel ∧
      buildPower { s with maxPasses := m } fuel = buildPower s fuel := by
  induction fuel with
  | zero =>
    constructor
    · funext es
      rw [buildProduct, buildProduct]
    · funext b p
      unfold buildPower
      rfl
  | succ fuel ih =>
    constructor
    · funext es
      rw [buildProduct, buildProduct, ih.1, ih.2]
      simp only [buildBases_withPasses, buildSum_withPasses]
      rfl
    · funext b p
      unfold buildPower
      rw [ih.1, ih.2]
      rfl

theorem normalPass_withPasses (s : Settings) (m : Int) (e : Expr) :
    normalPass { s with maxPasses := m } e = normalPass s e := by
  have hproduct : Settings.product { s with maxPasses := m } = s.product := by
    funext es
    exact congrFun (builders_withPasses s m _).1 es
  have hpower : Settings.power { s with maxPasses := m } = s.power := by
    funext b p
    exact congrFun (congrFun (builders_withPasses s m _).2 b) p
  have hall : ∀ es : List Expr, (∀ e ∈ es, normalPass { s with maxPasses := m } e =
      normalPass s e) → normalPassAll { s with maxPasses := m } es = normalPassAll s es := by
    intro es hes
    rw [normalPassAll_eq_mapM, normalPassAll_eq_mapM]
    exact mapM_congr hes
  induction e with
  | number | symbol | hole => rw [normalPass, normalPass]
  | sum ts ih => rw [normalPass, normalPass, hall ts ih, buildSum_withPasses]
  | product fs ih => rw [normalPass, normalPass, hall fs ih, hproduct]
  | power b p ihb ihp => rw [normalPass, normalPass, ihb, ihp, hpower]
  | negation e ih => rw [normalPass, normalPass, ih, hproduct]
  | call n es ih => rw [normalPass, normalPass, hall es ih, hpower]

/-! ## Passes settle -/

section

variable {s : Settings} {bound : Int}

theorem settle_of_kept {c : Expr} (hc : c.IsExact) (h : normalPass s c = .ok c) (k : Nat) :
    settle { s with maxPasses := bound } c k =
      if 1 ≤ k then .ok c else .error (.unsettled bound) := by
  cases k with
  | zero => rw [settle, if_neg (by omega)]
  | succ k =>
    have hsame := (unchanged_iff_eq hc false c hc).mpr rfl
    rw [settle, normalPass_withPasses, h, ok_bind, if_pos hsame, if_pos (by omega)]
    rfl

theorem settle_of_changed {c d : Expr} (hc : c.IsExact) (hd : d.IsExact) (hne : d ≠ c)
    (h : normalPass s c = .ok d) (k : Nat) :
    settle { s with maxPasses := bound } c (k + 1) =
      settle { s with maxPasses := bound } d k := by
  have hchanged : ¬unchanged false d c = true :=
    fun hsame => hne ((unchanged_iff_eq hd false c hc).mp hsame)
  rw [settle, normalPass_withPasses, h, ok_bind, if_neg hchanged]

/-- After `n` passes, and no earlier, an expression has settled as `d`. -/
structure SettlesAfter (s : Settings) (n : Nat) (e d : Expr) : Prop where
  pos : 0 < n
  kept : normalPass s d = .ok d
  settle : ∀ (bound : Int) (k : Nat), settle { s with maxPasses := bound } e k =
    if n ≤ k then .ok d else .error (.unsettled bound)

theorem SettlesAfter.of_kept {c : Expr} (hc : c.IsExact) (h : normalPass s c = .ok c) :
    SettlesAfter s 1 c c :=
  ⟨Nat.one_pos, h, fun _ => settle_of_kept hc h⟩

theorem SettlesAfter.of_changed {n : Nat} {c d e : Expr} (he : e.IsExact) (hc : c.IsExact)
    (hne : c ≠ e) (hpass : normalPass s e = .ok c) (h : SettlesAfter s n c d) :
    SettlesAfter s (n + 1) e d := by
  refine ⟨Nat.succ_pos n, h.kept, fun bound k => ?_⟩
  cases k with
  | zero => rw [Expr.settle, if_neg (by omega)]
  | succ k =>
    rw [settle_of_changed he hc hne hpass, h.settle]
    simp only [Nat.add_le_add_iff_right]

/-- The number of passes decides about the normal form under each bound. -/
theorem SettlesAfter.normalForm_eq {n : Nat} {e d : Expr} (h : SettlesAfter s n e d)
    (bound : Int) : normalForm { s with maxPasses := bound } e =
      if (n : Int) ≤ bound then .ok d else .error (.unsettled bound) := by
  have hpos := h.pos
  rw [normalForm, h.settle bound bound.toNat]
  by_cases hle : (n : Int) ≤ bound
  · rw [if_pos hle, if_pos (by omega)]
  · rw [if_neg hle, if_neg (by omega)]

end

/-- A tidy tree settles after fewer passes than it has energy. -/
theorem Expr.IsTidy.exists_settlesAfter {c : Expr} (hc : c.IsTidy) :
    ∃ d n, n < c.energy ∧ SettlesAfter .unbounded n c d := by
  induction henergy : c.energy using Nat.strong_induction_on generalizing c with
  | _ energy ih =>
    subst henergy
    obtain ⟨next, hnext, htidy⟩ := exists_normalPass hc.named
    by_cases hsame : next = c
    · subst hsame
      exact ⟨next, 1, next.two_le_energy, .of_kept hc.isExact hnext⟩
    · -- what has changed has lost energy
      have hle := (normalPass_rewrites hc.isExact hnext).energy_le
      have hlt : next.energy < c.energy :=
        lt_of_le_of_ne hle fun heq => hsame (eq_self_of_energy_eq hc.isBuilt hnext heq).1
      obtain ⟨d, n, hn, hd⟩ := ih next.energy hlt htidy rfl
      exact ⟨d, n + 1, by omega, hd.of_changed hc.isExact htidy.isExact hsame hnext⟩

/-- With names of the notation an expression settles after no more passes than it has energy. -/
theorem exists_settlesAfter {e : Expr} (he : e.Every IsNamedNode) :
    ∃ c n, n ≤ e.energy ∧ SettlesAfter .unbounded n e c := by
  have hexact := isExact_of_named he
  obtain ⟨first, hfirst, htidy⟩ := exists_normalPass he
  obtain ⟨d, n, hn, hd⟩ := htidy.exists_settlesAfter
  by_cases hsame : first = e
  · subst hsame
    exact ⟨d, n, hn.le, hd⟩
  · have hle := (normalPass_rewrites hexact hfirst).energy_le
    exact ⟨d, n + 1, by omega, hd.of_changed hexact htidy.isExact hsame hfirst⟩

/-- With names of the notation there is a number of passes, no larger than the energy, after which
an expression is in normal form. Under any bound on the passes that allows so many, this is the
result; under any smaller one, the passes are given up. A limit for the digits of numbers may stop
them before. -/
theorem normalForm_of_passes {e : Expr} (he : e.Every IsNamedNode) :
    ∃ c n, n ≤ e.energy ∧ ∀ limit : DigitLimit,
      limit.Restricts (normalPass (Settings.standard.within limit) c) (.ok c) ∧
        ∀ bound : Int, limit.Restricts
          (normalForm { Settings.standard.within limit with maxPasses := bound } e)
          (if (n : Int) ≤ bound then .ok c else .error (.unsettled bound)) := by
  obtain ⟨c, n, hn, h⟩ := exists_settlesAfter he
  refine ⟨c, n, hn, fun limit => ⟨h.kept ▸ normalPass_restricts _ c, fun bound => ?_⟩⟩
  exact h.normalForm_eq bound ▸ normalForm_restricts _ e

/-- The energy of a product of two symbols leaves room for its passes. -/
theorem normalForm_of_passes_square :
    let e := product [symbol "x", symbol "x"]
    e.Every IsNamedNode ∧ ∃ c, normalForm .standard e = .ok c ∧
      DigitLimit.standard.Restricts (normalPass .standard c) (.ok c) := by
  intro e
  have hx : IsIdentifier "x" := isIdentifier_letter (c := 'x') (by decide)
  have he : e.Every IsNamedNode := by simp [e, IsNamedNode, hx]
  obtain ⟨c, n, hn, hc⟩ := normalForm_of_passes he
  have henergy : e.energy ≤ 32 := by decide +kernel
  have hpasses : (n : Int) ≤ 32 := by omega
  have hform : DigitLimit.standard.Restricts (normalForm .standard e) _ :=
    (hc .standard).2 32
  rw [if_pos hpasses] at hform
  have hsquare : normalForm .standard e = .ok (power (symbol "x") (rat 2)) :=
    normalForm_eq_ok_of_returns (isExact_of_named he) (by simp) (by decide +kernel)
  obtain rfl := Except.ok.inj (hform.eq_ok hsquare)
  exact ⟨he, _, hsquare, (hc .standard).1⟩

/-! ## Towers of roots -/

/-- A symbol under so many square roots. -/
def nestedRoot : Nat → Expr
  | 0 => symbol "x"
  | n + 1 => power (nestedRoot n) (rat (1 / 2))

theorem nestedRoot_isTidy (n : Nat) : (nestedRoot n).IsTidy := by
  have hx : IsIdentifier "x" := isIdentifier_letter (c := 'x') (by decide)
  refine isTidy_iff_named.mpr ?_
  induction n with
  | zero => exact ⟨every_symbol.mpr trivial, every_symbol.mpr hx⟩
  | succ n ih =>
    have hliteral : literalPower? .unbounded (nestedRoot n) (rat (1 / 2)) = none :=
      literalPower?_of_isNumber_eq_false (by cases n <;> rfl) (by norm_num) (by norm_num)
    have hfraction : (rat (1 / 2)).isIntegerNumber = false := by decide +kernel
    refine ⟨isBuilt_power.mpr ⟨⟨.inl hliteral, ?_⟩, ih.1, isBuilt_rat _⟩,
      every_power.mpr ⟨trivial, ih.2, every_number.mpr trivial⟩⟩
    rw [hfraction]
    exact nofun

theorem nestedRoot_injective : Function.Injective nestedRoot := by
  intro n m h
  induction n generalizing m with
  | zero =>
    cases m with
    | zero => rfl
    | succ m => cases h
  | succ n ih =>
    cases m with
    | zero => cases h
    | succ m => rw [ih (power.inj h).1]

section

variable (limit : DigitLimit)

/-- The text of a root has no long number. -/
theorem exists_text_nestedRoot (n : Nat) : ∃ cs, (nestedRoot n).text limit = .ok cs := by
  induction n with
  | zero => exact ⟨_, textIn_symbol "x"⟩
  | succ n ih =>
    obtain ⟨cs, hcs⟩ := ih
    rw [nestedRoot, text, textIn_root]
    exact ⟨_, bind_eq_ok_iff.mpr ⟨cs, hcs, rfl⟩⟩

theorem exists_factorKey_nestedRoot (n : Nat) : ∃ k, (nestedRoot n).factorKey limit = .ok k := by
  have hliteral : ∀ q : Rat, RatFits limit q → ∃ cs, (rat q).text limit = .ok cs :=
    fun q hq => ⟨_, (textIn_number _).trans (writeRat_eq_ok_iff.mpr ⟨hq, rfl⟩)⟩
  have hparts : (∃ cs, (nestedRoot n).splitPower.1.text limit = .ok cs) ∧
      ∃ cs, (nestedRoot n).splitPower.2.text limit = .ok cs := by
    cases n with
    | zero =>
      exact ⟨exists_text_nestedRoot limit 0,
        hliteral 1 ⟨allows_digits_one limit, allows_digits_one limit⟩⟩
    | succ n =>
      exact ⟨exists_text_nestedRoot limit n, hliteral (1 / 2)
        ⟨DigitLimit.allows_of_le (by decide +kernel), DigitLimit.allows_of_le (by decide +kernel)⟩⟩
  obtain ⟨⟨base, hbase⟩, exponent, hexponent⟩ := hparts
  exact ⟨(base, exponent), by rw [factorKey, hbase, ok_bind, hexponent]; rfl⟩

theorem nestedRoot_isBuilt (n : Nat) : (nestedRoot n).IsBuilt (Settings.standard.within limit) :=
  ((isTidy_iff_within limit).mp (nestedRoot_isTidy n)).built

theorem pass_nestedRoot (n : Nat) :
    normalPass (Settings.standard.within limit) (nestedRoot n) = .ok (nestedRoot n) := by
  induction n with
  | zero => rw [nestedRoot, normalPass]
  | succ n ih =>
    obtain ⟨fuel, hfuel⟩ := depthBound_eq ((nestedRoot n).weight + (rat (1 / 2)).weight)
    rw [nestedRoot, normalPass, ih, ok_bind, normalPass, Number.canonical_exact, ok_bind,
      Settings.power, hfuel]
    exact buildPower_of_isBuilt (nestedRoot_isBuilt limit (n + 1)) _

end

theorem collectFactors_append {c d : Number} {bs cs : List (Expr × List Expr)} {fs : List Expr}
    (h : collectFactors c bs fs = .ok (d, cs)) (gs : List Expr) :
    collectFactors c bs (fs ++ gs) = collectFactors d cs gs := by
  induction fs generalizing c bs with
  | nil =>
    obtain ⟨rfl, rfl⟩ := Prod.mk.inj (Except.ok.inj h)
    rfl
  | cons f fs ih =>
    cases f with
    | number v =>
      obtain ⟨e, he, h⟩ := bind_eq_ok_iff.mp h
      rw [List.cons_append, collectFactors, he, ok_bind, ih h]
    | _ => exact ih h

theorem buildBases_append {s : Settings} {raise : Expr → Expr → Except Fault Expr} {c d : Number}
    {fs gs : List Expr} {bs : List (Expr × List Expr)}
    (h : buildBases s raise c fs bs = .ok (d, gs)) (cs : List (Expr × List Expr)) :
    buildBases s raise c fs (bs ++ cs) = buildBases s raise d gs cs := by
  induction bs generalizing c fs with
  | nil =>
    obtain ⟨rfl, rfl⟩ := Prod.mk.inj (Except.ok.inj h)
    rfl
  | cons g bs ih =>
    rw [buildBases] at h
    obtain ⟨e, he, h⟩ := bind_eq_ok_iff.mp h
    obtain ⟨p, hp, h⟩ := bind_eq_ok_iff.mp h
    obtain ⟨r, hr, h⟩ := bind_eq_ok_iff.mp h
    rw [List.cons_append, buildBases, he, ok_bind, hp, ok_bind, hr, ok_bind]
    exact ih h

theorem addExponent_append {b : Expr} (e : Expr) {bs : List (Expr × List Expr)}
    (hb : b.IsExact) (hbs : ∀ g ∈ bs, g.1.IsExact ∧ g.1 ≠ b) (cs : List (Expr × List Expr)) :
    addExponent b e (bs ++ cs) = bs ++ addExponent b e cs := by
  induction bs with
  | nil => rfl
  | cons g bs ih =>
    rw [List.forall_mem_cons] at hbs
    have hother : ¬g.1.same b = true := fun h => hbs.1.2 ((same_iff_eq hbs.1.1 b hb).mp h)
    rw [List.cons_append, addExponent, if_neg hother, ih hbs.2]
    rfl

/-- The nested roots from the first up to the `n`-th. -/
def nestedRoots (n : Nat) : List Expr :=
  (List.range n).map fun k => nestedRoot (k + 1)

/-- The nested roots up to the `n`-th, and that one once more. -/
def tower (n : Nat) : List Expr :=
  nestedRoots n ++ [nestedRoot n]

theorem nestedRoots_succ (n : Nat) :
    nestedRoots (n + 1) = nestedRoots n ++ [nestedRoot (n + 1)] := by
  rw [nestedRoots, nestedRoots, List.range_succ, List.map_append, List.map_singleton]

theorem exists_of_mem_tower {n : Nat} {f : Expr} (hf : f ∈ tower n) : ∃ k, f = nestedRoot k := by
  rw [tower, List.mem_append, nestedRoots, List.mem_map, List.mem_singleton] at hf
  rcases hf with ⟨k, -, rfl⟩ | rfl
  · exact ⟨k + 1, rfl⟩
  · exact ⟨n, rfl⟩

theorem nestedRoot_isFactor (n : Nat) : (nestedRoot n).IsFactor := by
  cases n <;> exact ⟨rfl, rfl⟩

/-- The two deepest roots of a tower are collected under one base. -/
theorem collectFactors_tower (n : Nat) :
    collectFactors (.exact 1) [] (tower (n + 1)) = .ok (.exact 1,
      (nestedRoots n).map ownPower ++ [(nestedRoot n, [rat (1 / 2), rat (1 / 2)])]) := by
  have hexact : ∀ k, (nestedRoot k).IsExact := fun k => (nestedRoot_isTidy k).isExact
  have hroots : ∀ f ∈ nestedRoots (n + 1), f.IsExact ∧ f.isNumber = false := by
    intro f hf
    obtain ⟨k, -, rfl⟩ := List.mem_map.mp hf
    exact ⟨hexact (k + 1), rfl⟩
  obtain ⟨hother, hliteral⟩ := otherFactors_eq_self fun f hf => (hroots f hf).2
  have hdistinct : DistinctBases (otherFactors (nestedRoots (n + 1))) := by
    rw [hother, DistinctBases, nestedRoots, List.map_map]
    exact (List.nodup_map_iff nestedRoot_injective).mpr List.nodup_range
  have hfirst := collectFactors_distinct (fun f hf => (hroots f hf).1) hdistinct
  rw [hother, hliteral] at hfirst
  -- the base of the last root is the last of the bases
  have hlast : (nestedRoots (n + 1)).map ownPower =
      (nestedRoots n).map ownPower ++ [(nestedRoot n, [rat (1 / 2)])] := by
    rw [nestedRoots_succ, List.map_append]
    rfl
  have hpassed : ∀ g ∈ (nestedRoots n).map ownPower, g.1.IsExact ∧ g.1 ≠ nestedRoot n := by
    intro g hg
    obtain ⟨f, hf, rfl⟩ := List.mem_map.mp hg
    obtain ⟨k, hk, rfl⟩ := List.mem_map.mp hf
    have hlt := List.mem_range.mp hk
    exact ⟨hexact k, fun h => by have heq := nestedRoot_injective h; omega⟩
  have hsame : (nestedRoot n).same (nestedRoot n) = true :=
    (same_iff_eq (hexact n) _ (hexact n)).mpr rfl
  rw [tower, collectFactors_append hfirst, hlast]
  show collectFactors _ (addExponent (nestedRoot n) (rat (1 / 2)) _) [] = _
  rw [addExponent_append _ (hexact n) hpassed, addExponent, if_pos hsame]
  rfl

section

variable (limit : DigitLimit)

/-- Their exponents add up to one, so that they become the next root. -/
theorem buildBases_tower (n fuel : Nat) :
    buildBases (Settings.standard.within limit)
      (buildPower (Settings.standard.within limit) (fuel + 1)) (.exact 1) []
      ((nestedRoots n).map ownPower ++ [(nestedRoot n, [rat (1 / 2), rat (1 / 2)])]) =
      .ok (.exact 1, tower n) := by
  have hroots : ∀ f ∈ nestedRoots n, f.IsFactor ∧
      buildPower (Settings.standard.within limit) (fuel + 1) f.splitPower.1 f.splitPower.2 =
        .ok f := by
    intro f hf
    obtain ⟨k, -, rfl⟩ := List.mem_map.mp hf
    exact ⟨nestedRoot_isFactor (k + 1), buildPower_splitPower (nestedRoot_isBuilt limit (k + 1))
      (nestedRoot_isFactor (k + 1)) fuel⟩
  have hone : mergeExponents (Settings.standard.within limit) [rat (1 / 2), rat (1 / 2)] =
      .ok one := by
    have hsum := buildSum_literals (s := Settings.standard.within limit) [1 / 2, 1 / 2]
    norm_num at hsum
    exact hsum
  have hlast : buildPower (Settings.standard.within limit) (fuel + 1) (nestedRoot n) one =
      .ok (nestedRoot n) := by
    have hliteral : literalPower? (Settings.standard.within limit) (nestedRoot n) one =
        some (nestedRoot n) := by
      cases n <;> simp [literalPower?, nestedRoot, one]
    unfold buildPower
    rw [hliteral]
  rw [buildBases_append (buildBases_ownPower hroots _ _), List.nil_append, buildBases, hone,
    ok_bind, hlast, ok_bind, tower]
  cases n <;> rfl

/-- One pass takes a tower down by one root, and sorts it. -/
theorem pass_tower {n : Nat} {fs : List Expr} (hfs : fs.Perm (tower (n + 1))) :
    ∃ gs, gs.Perm (tower n) ∧
      normalPass (Settings.standard.within limit) (product fs) = .ok (ofFactors gs) := by
  have hmem : ∀ f ∈ fs, ∃ k, f = nestedRoot k := fun f hf =>
    exists_of_mem_tower (hfs.mem_iff.mp hf)
  have htidy : ∀ f ∈ fs, f.IsTidy := by
    intro f hf
    obtain ⟨k, rfl⟩ := hmem f hf
    exact nestedRoot_isTidy k
  obtain ⟨gs, hgs⟩ : ∃ gs, sortFactors (Settings.standard.within limit) (tower n) = .ok gs := by
    refine exists_sorted fun f hf => ?_
    obtain ⟨k, rfl⟩ := exists_of_mem_tower hf
    exact exists_factorKey_nestedRoot limit k
  have hflat : (tower (n + 1)).flatMap factors = tower (n + 1) := by
    refine flatMap_factors_eq_self fun f hf => ?_
    obtain ⟨k, rfl⟩ := exists_of_mem_tower hf
    exact (nestedRoot_isFactor k).2
  have hproduct : (Settings.standard.within limit).product (tower (n + 1)) =
      .ok (ofScaled 1 gs) := by
    obtain ⟨fuel, hfuel⟩ := depthBound_eq (weightAll (tower (n + 1)))
    rw [Settings.product, hfuel]
    refine buildProduct_of_buildBases (hflat.symm ▸ collectFactors_tower n) one_ne_zero
      (buildBases_tower limit n _) one_ne_zero hgs ?_
    rintro ts ⟨hsign, -⟩
    norm_num at hsign
  have hkept : normalPassAll (Settings.standard.within limit) fs = .ok fs := by
    refine normalPassAll_eq_ok_iff.mpr (List.forall₂_same.mpr fun f hf => ?_)
    obtain ⟨k, rfl⟩ := hmem f hf
    exact pass_nestedRoot limit k
  have hperm := sortFactors_perm hgs
  have hne : gs ≠ [] := fun hnil => by
    have hlength := hperm.length_eq
    simp [hnil, tower] at hlength
  refine ⟨gs, hperm, ?_⟩
  rw [normalPass, hkept, ok_bind, (product_perm htidy hfs limit _).mpr hproduct]
  exact congrArg _ (ofScaled_eq hne)

/-- A tower takes one pass for each root, and one more to see that nothing is left to do. -/
theorem settlesAfter_tower {n : Nat} {fs : List Expr} (hfs : fs.Perm (tower n)) :
    SettlesAfter (Settings.standard.within limit) (n + 1) (ofFactors fs) (symbol "x") := by
  have htidy : ∀ {fs : List Expr} {n}, fs.Perm (tower n) → (ofFactors fs).IsExact := by
    intro fs n hfs
    refine isExact_ofFactors.mpr fun f hf => ?_
    obtain ⟨k, rfl⟩ := exists_of_mem_tower (hfs.mem_iff.mp hf)
    exact (nestedRoot_isTidy k).isExact
  induction n generalizing fs with
  | zero =>
    obtain rfl : fs = [symbol "x"] := List.perm_singleton.mp hfs
    exact .of_kept (isExact_symbol _) (pass_nestedRoot limit 0)
  | succ n ih =>
    have hlength : fs.length = n + 2 := by rw [hfs.length_eq]; simp [tower, nestedRoots]
    have hproduct : ofFactors fs = product fs := by
      match fs, hlength with
      | _ :: _ :: _, _ => rfl
    obtain ⟨gs, hgs, hpass⟩ := pass_tower limit hfs
    have hshorter : gs.length = n + 1 := by rw [hgs.length_eq]; simp [tower, nestedRoots]
    -- the pass has changed the tree, as it has fewer factors now
    have hne : ofFactors gs ≠ product fs := by
      intro heq
      match gs, hshorter with
      | [g], _ =>
        obtain ⟨k, rfl⟩ := exists_of_mem_tower (hgs.mem_iff.mp List.mem_cons_self)
        cases k <;> cases heq
      | _ :: _ :: _, hshorter =>
        have heq := congrArg List.length (product.inj heq)
        omega
    rw [hproduct]
    exact (ih hgs).of_changed (hproduct ▸ htidy hfs) (htidy hgs) hne hpass

/-- No bound on the passes is enough for all expressions: a tower of as many nested roots needs one
pass more. Its numbers are short, so that no limit stops it. -/
theorem normalForm_tower (n : Nat) (bound : Int) :
    normalForm { Settings.standard.within limit with maxPasses := bound } (ofFactors (tower n)) =
      if (n : Int) < bound then .ok (symbol "x") else .error (.unsettled bound) := by
  rw [(settlesAfter_tower limit (.refl (tower n))).normalForm_eq bound]
  simp only [Nat.cast_add, Nat.cast_one, Int.add_one_le_iff]

end

/-- Thirty-two nested roots are too many for thirty-two passes. -/
theorem normalForm_tower_unsettled :
    (product (tower 32)).Every IsNamedNode ∧
      normalForm .standard (product (tower 32)) = .error (.unsettled 32) := by
  refine ⟨every_product.mpr ⟨trivial, fun f hf => ?_⟩, normalForm_tower .standard 32 32⟩
  obtain ⟨k, rfl⟩ := exists_of_mem_tower hf
  exact (nestedRoot_isTidy k).named

end AlgebraicForm
