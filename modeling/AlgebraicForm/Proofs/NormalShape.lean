import AlgebraicForm.Proofs.Settled

/-!
# The shape of normal forms

What a normal form looks like, read off the tree alone: `IsNormalNode` says it of one node without
any of the builders. A single pass does not come to this shape; it follows from being built by a
pass (`IsBuiltNode`), from being settled (`IsSettledNode`), and from having been sorted by texts
that could be written, which a pass that keeps the tree has done at every node (`IsKeptNode`).

* `isNormalSum_of_kept`, `isNormalProduct_of_kept`, `isNormalPower_of_isBuilt`: the kinds of nodes.
* `normalForm_isNormal`: all nodes of a normal form.
-/

namespace AlgebraicForm

open AlgebraicForm.Expr

/-! ## What a node looks like -/

/-- At most one literal, which comes first and has the property. -/
def LiteralFirst (P : Rat → Prop) (es : List Expr) : Prop :=
  ∃ rest, (∀ e ∈ rest, e.isNumber = false) ∧ (es = rest ∨ ∃ q, P q ∧ es = rat q :: rest)

/-- The terms without their coefficients; a constant has no body. -/
def bodies (ts : List Expr) : List Expr :=
  ts.filterMap fun t => t.splitCoefficient.2

/-- Two expressions have texts, and that of the first is not after that of the second. -/
def TextsInOrder (limit : DigitLimit) (a b : Expr) : Prop :=
  ∃ x y, a.text limit = .ok x ∧ b.text limit = .ok y ∧ textLe x y = true

/-- Two factors have keys, and that of the first is not after that of the second. -/
def KeysInOrder (limit : DigitLimit) (f g : Expr) : Prop :=
  ∃ k l, f.factorKey limit = .ok k ∧ g.factorKey limit = .ok l ∧ factorLe k l = true

/-- The terms of a sum in normal form. -/
structure IsNormalSum (s : Settings) (ts : List Expr) : Prop where
  two : 2 ≤ ts.length
  flat : ∀ t ∈ ts, t.isSum = false
  literal : LiteralFirst (· ≠ 0) ts
  distinct : (bodies ts).Nodup
  ordered : (bodies ts).Pairwise (TextsInOrder s.digits)
  unnegated : ∀ us, product [minusOne, sum us] ∉ ts

/-- The factors of a product in normal form. -/
structure IsNormalProduct (s : Settings) (fs : List Expr) : Prop where
  two : 2 ≤ fs.length
  flat : ∀ f ∈ fs, f.isProduct = false
  literal : LiteralFirst (fun q => q ≠ 0 ∧ q ≠ 1) fs
  distinct : ((otherFactors fs).map fun f => f.splitPower.1).Nodup
  ordered : (otherFactors fs).Pairwise (KeysInOrder s.digits)
  unnegated : ∀ ts, fs ≠ [minusOne, sum ts]

/-- The base and the exponent of a power in normal form. -/
structure IsNormalPower (s : Settings) (b p : Expr) : Prop where
  exponent_ne_one : p ≠ one
  base_of_zero : p = zero → b = zero
  base_ne_one : b ≠ one
  zero_base : b = zero → ∀ q : Rat, p = rat q → q ≤ 0
  whole : ∀ k : ℤ, p = rat k → (∀ c e, b ≠ power c e) ∧ ∀ fs, b ≠ product fs
  folded : ∀ (q : Rat) (k : ℤ), b = rat q → p = rat k → q ≠ 0 → s.maxFoldExponent < k.natAbs

/-- A node of a normal form. -/
def IsNormalNode (s : Settings) : Expr → Prop
  | number (.exact _) | symbol _ => True
  | number (.approx _) | negation _ | hole => False
  | sum ts => IsNormalSum s ts
  | product fs => IsNormalProduct s fs
  | power b p => IsNormalPower s b p
  | call n es => n = "sqrt" → es.length ≠ 1

section

variable {s : Settings}

/-! ## Sums -/

@[simp] theorem bodies_append (ts us : List Expr) : bodies (ts ++ us) = bodies ts ++ bodies us :=
  List.filterMap_append

@[simp] theorem bodies_constantTerm (k : Rat) : bodies (constantTerm k) = [] := by
  by_cases hk : k = 0 <;> simp [constantTerm, hk, bodies, splitCoefficient]

theorem bodies_groupTerms {gs : List (Expr × Rat)} (h : BuiltTerms gs) :
    bodies (groupTerms gs) = gs.map (·.1) := by
  have hsplit : ∀ g ∈ gs, (scale (.exact g.2) g.1).splitCoefficient.2 = some g.1 := by
    intro g hg
    rw [splitCoefficient_scale (h.body g hg) (h.whole g hg)]
  rw [bodies, groupTerms, List.filterMap_map, ← List.filterMap_eq_map]
  exact List.filterMap_congr hsplit

theorem isNumber_of_mem_groupTerms {gs : List (Expr × Rat)} (h : BuiltTerms gs) {t : Expr}
    (ht : t ∈ groupTerms gs) : t.isNumber = false := by
  obtain ⟨g, hg, rfl⟩ := List.mem_map.mp ht
  have hsplit := splitCoefficient_scale (q := g.2) (h.body g hg) (h.whole g hg)
  cases hterm : scale (.exact g.2) g.1 with
  | number v => simp [hterm, splitCoefficient] at hsplit
  | _ => rfl

theorem textLe_of_termLe {x y : List Char} {c d : Number} (h : termLe (x, c) (y, d) = true) :
    textLe x y = true := by
  unfold termLe at h
  split at h
  next heq =>
    obtain rfl : x = y := heq
    exact textLe_refl x
  next => exact h

/-- A sum that comes back from its own terms has been sorted, so that their bodies have texts. -/
theorem exists_text_of_buildSum {k : Rat} {gs : List (Expr × Rat)} {r : Expr} (h : BuiltTerms gs)
    (hbuilt : ∀ t ∈ groupTerms gs, t.IsBuilt s)
    (hflat : ∀ t ∈ constantTerm k ++ groupTerms gs, t.isSum = false)
    (hr : buildSum s (constantTerm k ++ groupTerms gs) = .ok r) :
    ∀ g ∈ gs, ∃ x, g.1.text s.digits = .ok x := by
  have hcollect := collectTerms_built h (k := k) hbuilt
  rw [← flatMap_terms_eq_self hflat] at hcollect
  obtain ⟨ks, hks, -⟩ := (buildSum_eq_ok hcollect).mp hr
  have hkeyed := keyedTerms_eq_ok hks
  intro g hg
  have hleft : g ∈ gs.filter (·.2 ≠ 0) := by simp [hg, h.coefficient g hg]
  obtain ⟨key, -, htext, -⟩ := exists_mem_of_forall₂ hkeyed.flip hleft
  exact ⟨key.1.1, htext⟩

/-- A sum that a pass keeps is in normal form, if no term is the negation of a sum. -/
theorem isNormalSum_of_kept {ts : List Expr} (hbuilt : (sum ts).IsBuilt s)
    (h : (sum ts).Every (IsKeptNode s)) : IsNormalSum s ts := by
  obtain ⟨⟨hlen, k, gs, hsplit, hgs⟩, hterms⟩ := isBuilt_sum.mp hbuilt
  obtain ⟨⟨hflat, hpass⟩, hkept⟩ := every_sum.mp h
  rw [normalPass, normalPassAll_of_kept hkept, ok_bind] at hpass
  have hbodies : bodies ts = gs.map (·.1) := by
    rw [hsplit, bodies_append, bodies_constantTerm, bodies_groupTerms hgs, List.nil_append]
  have htexts : ∀ g ∈ gs, ∃ x, g.1.text s.digits = .ok x := by
    subst hsplit
    exact exists_text_of_buildSum hgs (fun t ht => hterms t (List.mem_append_right _ ht)) hflat
      hpass
  refine ⟨hlen, hflat, ?_, hbodies ▸ hgs.distinct, ?_, ?_⟩
  · refine ⟨groupTerms gs, fun t ht => isNumber_of_mem_groupTerms hgs ht, ?_⟩
    rw [hsplit]
    unfold constantTerm
    split
    next => exact .inl rfl
    next hk => exact .inr ⟨k, hk, rfl⟩
  · rw [hbodies, List.pairwise_map]
    refine hgs.ordered.imp_of_mem fun {g g'} hg hg' hle => ?_
    obtain ⟨x, hx⟩ := htexts g hg
    obtain ⟨y, hy⟩ := htexts g' hg'
    exact ⟨x, y, hx, hy, textLe_of_termLe (hle x y (text_unlimited hx) (text_unlimited hy))⟩
  · intro us hmem
    -- such a term is a product that is not settled
    have hnode : IsSettledNode (product [minusOne, sum us]) := (hkept _ hmem).self.1
    exact hnode.2 us rfl

/-! ## Products -/

theorem isNormalProduct_of_kept {fs : List Expr} (hbuilt : (product fs).IsBuilt s)
    (h : (product fs).Every (IsKeptNode s)) : IsNormalProduct s fs := by
  obtain ⟨⟨hlen, q, gs, hq, -, hsplit, hgs⟩, -⟩ := isBuilt_product.mp hbuilt
  obtain ⟨⟨⟨hdistinct, hsign⟩, hpass⟩, hkept⟩ := every_product.mp h
  rw [normalPass, normalPassAll_of_kept hkept, ok_bind] at hpass
  obtain ⟨fuel, hfuel⟩ := depthBound_eq (weightAll fs)
  rw [Settings.product, hfuel] at hpass
  obtain ⟨-, -, hkeys⟩ := buildProduct_eq_self hbuilt hpass rfl
  have hother : otherFactors fs = gs := by
    rw [hsplit, otherFactors_append, otherFactors_coefficientFactor, List.nil_append]
    exact (otherFactors_eq_self fun g hg => (hgs.factor g hg).1).1
  refine ⟨hlen, ?_, ?_, hdistinct, ?_, hsign⟩
  · intro f hf
    rw [hsplit] at hf
    rcases List.mem_append.mp hf with hf | hf
    · unfold coefficientFactor at hf
      split at hf
      next => simp at hf
      next => rw [List.mem_singleton.mp hf]; rfl
    · exact (hgs.factor f hf).2
  · refine ⟨gs, fun g hg => (hgs.factor g hg).1, ?_⟩
    rw [hsplit]
    unfold coefficientFactor
    split
    next => exact .inl rfl
    next hone => exact .inr ⟨q, ⟨hq, hone⟩, rfl⟩
  · rw [hother] at hkeys ⊢
    refine hgs.ordered.imp_of_mem fun {f g} hf hg hle => ?_
    obtain ⟨k, hk⟩ := hkeys f hf
    obtain ⟨l, hl⟩ := hkeys g hg
    exact ⟨k, l, hk, hl, hle k l (factorKey_unlimited hk) (factorKey_unlimited hl)⟩

/-! ## Powers -/

theorem literalPower?_rat_eq_none {x y : Rat} (h : literalPower? s (rat x) (rat y) = none) :
    y ≠ 0 ∧ y ≠ 1 ∧ x ≠ 1 ∧ ¬(x = 0 ∧ 0 < y) ∧ foldPower? s x y = none := by
  simp only [literalPower?, Number.isZero_exact, Number.isOne_exact, Number.isPositive_exact,
    decide_eq_true_eq, Bool.and_eq_true] at h
  grind [Option.map_eq_none_iff]

theorem exponent_of_literalPower?_eq_none {b : Expr} {y : Rat} (hb : b.IsExact)
    (h : literalPower? s b (rat y) = none) : y ≠ 0 ∧ y ≠ 1 := by
  cases b with
  | number v =>
    obtain ⟨x, rfl⟩ := hb.exists_rat
    exact ⟨(literalPower?_rat_eq_none h).1, (literalPower?_rat_eq_none h).2.1⟩
  | _ =>
    simp only [literalPower?, Number.isZero_exact, Number.isOne_exact, decide_eq_true_eq] at h
    grind

/-- A base of one is decided by whatever the exponent is. -/
theorem literalPower?_one_ne_none (p : Expr) (hp : p.IsExact) : literalPower? s one p ≠ none := by
  cases p with
  | number w =>
    obtain ⟨y, rfl⟩ := hp.exists_rat
    exact fun h => (literalPower?_rat_eq_none h).2.2.1 rfl
  | _ => simp [literalPower?, one]

theorem isNormalPower_of_isBuilt {b p : Expr} (h : (power b p).IsBuilt s) :
    IsNormalPower s b p := by
  obtain ⟨⟨hliteral, hwhole⟩, hb, hp⟩ := isBuilt_power.mp h
  have hint : ∀ k : ℤ, p = rat k → (∀ c e, b ≠ power c e) ∧ ∀ fs, b ≠ product fs := by
    rintro k rfl
    exact hwhole (Number.isInteger_exact_iff.mpr ⟨k, rfl⟩)
  rcases hliteral with hnone | ⟨rfl, rfl⟩
  · have hexponent : ∀ y : Rat, p = rat y → y ≠ 0 ∧ y ≠ 1 := by
      rintro y rfl
      exact exponent_of_literalPower?_eq_none hb.isExact hnone
    refine ⟨fun hone => (hexponent 1 hone).2 rfl, fun hzero => absurd rfl (hexponent 0 hzero).1,
      ?_, ?_, hint, ?_⟩
    · rintro rfl
      exact literalPower?_one_ne_none p hp.isExact hnone
    · rintro rfl q rfl
      have hpositive := (literalPower?_rat_eq_none hnone).2.2.2.1
      exact not_lt.mp fun hq => hpositive ⟨rfl, hq⟩
    · rintro q k rfl rfl hq
      have hfold := (literalPower?_rat_eq_none hnone).2.2.2.2
      by_contra hle
      -- a whole exponent within the bound would have been folded
      have hbound : ((k : Rat).num.natAbs : Int) ≤ s.maxFoldExponent := not_lt.mp hle
      rw [foldPower?, if_pos ⟨Rat.den_intCast k, hbound, fun hzero => hq hzero.1⟩] at hfold
      cases hfold
  · -- zero to the power zero is left as it is
    refine ⟨by simp [zero, one], fun _ => rfl, by simp [zero, one], ?_, hint, ?_⟩
    · rintro - q hq
      have hq : 0 = q := by simpa [zero] using hq
      exact hq.ge
    · rintro q k hq - hne
      exact absurd (by simpa [zero] using hq.symm) hne

/-! ## Normal forms -/

/-- Every node of a normal form is in normal form: negations and square roots are gone, sums and
products are flat, sorted and free of repetitions, and powers are folded. -/
theorem normalForm_isNormal {e c : Expr} (he : e.IsExact) (h : normalForm s e = .ok c) :
    c.Every (IsNormalNode s) := by
  intro d hd
  have hbuilt : d.IsBuilt s := (normalForm_isBuilt he h).of_mem_walk hd
  have hkept : d.Every (IsKeptNode s) := (normalForm_isKept he h).of_mem_walk hd
  cases d with
  | number v =>
    obtain ⟨q, rfl⟩ := hbuilt.isExact.exists_rat
    trivial
  | symbol n => trivial
  | sum ts => exact isNormalSum_of_kept hbuilt hkept
  | product fs => exact isNormalProduct_of_kept hbuilt hkept
  | power b p => exact isNormalPower_of_isBuilt hbuilt
  | negation d => exact not_isBuilt_negation hbuilt
  | call n es => exact (isBuilt_call.mp hbuilt).1
  | hole => exact not_isExact_hole hbuilt.isExact

end

/-- Two equal sums become one power, the square root a power one half, and the factors are sorted
behind their coefficient. -/
theorem normalForm_isNormal_product :
    let e := product [rat 2, sum [symbol "x", negation (symbol "y")], call "sqrt" [symbol "z"],
      sum [negation (symbol "y"), symbol "x"]]
    let c := product [rat 2, power (sum [symbol "x", product [rat (-1), symbol "y"]]) (rat 2),
      power (symbol "z") (rat (1 / 2))]
    normalForm .standard e = .ok c ∧ c.Every (IsNormalNode .standard) := by
  intro e c
  have he : e.IsExact := by simp [e]
  have hform : normalForm .standard e = .ok c :=
    normalForm_eq_ok_of_returns he (by simp [c]) (by decide +kernel)
  exact ⟨hform, normalForm_isNormal he hform⟩

end AlgebraicForm
