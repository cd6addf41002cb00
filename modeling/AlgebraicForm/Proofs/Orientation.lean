import AlgebraicForm.Proofs.SignSplitting

/-!
# Trees whose sums face forward

A sum and its opposite have one representative, the one that comes first. A tree is oriented if the
sums under its products and in the bases of its whole powers are such representatives. Elsewhere,
among the terms of a sum, in a root or in an argument of a call, a sum may face either way, as its
sign is put back. This is what it takes for a tree to come out of a further run with all its signs
where they were.

* `Expr.IsOriented`, `Expr.IsRepresentative`: the trees, and those that have no sign outside either.
* `isOriented_ofScaled`, `IsOriented.opposite`: how they are made.
* `exists_splitsInto`: the signs of an oriented tree come out without moving any of its parts, by
  induction on the tree.
* `stripped_of_isOriented`: so an oriented tree stands for its own class.
-/

namespace AlgebraicForm

open AlgebraicForm.Expr

namespace Expr

/-- Neither a sum after its opposite nor a product with a negative coefficient. -/
structure IsForward (e : Expr) : Prop where
  first : e.isSum = true → e.ComesFirst
  nonneg : 0 ≤ literalProduct e.factors

/-- A node whose operands face forward where no sign is put back. -/
def IsOrientedNode : Expr → Prop
  | product fs => ∀ f ∈ fs, f.isSum = true → f.ComesFirst
  | power b p => p.isIntegerNumber = true → b.IsForward
  | _ => True

/-- A normal form with such nodes. -/
structure IsOriented (e : Expr) : Prop where
  kept : e.IsKept
  nodes : e.Every IsOrientedNode

/-- An oriented tree that faces forward itself. -/
structure IsRepresentative (e : Expr) : Prop where
  oriented : e.IsOriented
  forward : e.IsForward

/-! ## Parts of oriented trees -/

theorem isOriented_rat (q : Rat) : (rat q).IsOriented :=
  ⟨isKept_rat q, every_number.mpr trivial⟩

theorem isRepresentative_rat {q : Rat} (hq : 0 ≤ q) : (rat q).IsRepresentative :=
  ⟨isOriented_rat q, nofun, by simpa [factors] using hq⟩

/-- A factor faces forward if it does as a sum. -/
theorem IsFactor.isForward {f : Expr} (h : f.IsFactor) (hfirst : f.isSum = true → f.ComesFirst) :
    f.IsForward := by
  refine ⟨hfirst, ?_⟩
  rw [factors_of_isProduct_eq_false h.2, literalProduct_cons h.1, literalProduct_nil]
  exact zero_le_one

namespace IsOriented

theorem of_mem_sum {ts : List Expr} (h : (sum ts).IsOriented) : ∀ t ∈ ts, t.IsOriented :=
  fun t ht => ⟨(h.kept.of_mem_sum t ht).1, (every_sum.mp h.nodes).2 t ht⟩

theorem of_mem_product {fs : List Expr} (h : (product fs).IsOriented) : ∀ f ∈ fs, f.IsOriented :=
  fun f hf => ⟨h.kept.of_mem_product f hf, (every_product.mp h.nodes).2 f hf⟩

theorem of_mem_call {n : String} {es : List Expr} (h : (call n es).IsOriented) :
    ∀ e ∈ es, e.IsOriented :=
  fun e he => ⟨h.kept.of_mem_call e he, (every_call.mp h.nodes).2 e he⟩

theorem of_power {b p : Expr} (h : (power b p).IsOriented) : b.IsOriented ∧ p.IsOriented :=
  ⟨⟨h.kept.of_power.1, (every_power.mp h.nodes).2.1⟩,
    ⟨h.kept.of_power.2, (every_power.mp h.nodes).2.2⟩⟩

/-- The factors of an oriented tree are representatives. -/
theorem of_mem_otherFactors {e : Expr} (h : e.IsOriented) (hfirst : e.isSum = true → e.ComesFirst) :
    ∀ f ∈ otherFactors e.factors, f.IsRepresentative := by
  intro f hf
  have hfactor := h.kept.keptFactors.factor f hf
  have hmem := (mem_otherFactors.mp hf).1
  cases e with
  | product fs =>
    exact ⟨h.of_mem_product f hmem, hfactor.isForward ((every_product.mp h.nodes).1 f hmem)⟩
  | _ =>
    obtain rfl := List.mem_singleton.mp hmem
    exact ⟨h, hfactor.isForward hfirst⟩

end IsOriented

theorem IsRepresentative.of_mem_factors {e : Expr} (h : e.IsRepresentative) :
    ∀ f ∈ otherFactors e.factors, f.IsRepresentative :=
  h.oriented.of_mem_otherFactors h.forward.first

/-! ## Making oriented trees -/

/-- A coefficient and representatives make up an oriented tree. -/
theorem isOriented_ofScaled {q : Rat} {gs : List Expr} (h : KeptFactors q gs) (hq : q ≠ 0)
    (hgs : ∀ g ∈ gs, g.IsRepresentative) : (ofScaled q gs).IsOriented := by
  refine ⟨isKept_ofScaled h hq, every_ofScaled trivial (fun _ f hf hsum => ?_)
    fun g hg => (hgs g hg).oriented.nodes⟩
  rcases List.mem_append.mp hf with hf | hf
  · unfold coefficientFactor at hf
    split at hf
    · cases hf
    · rw [List.mem_singleton.mp hf] at hsum
      cases hsum
  · exact (hgs f hf).forward.first hsum

/-- It is a representative if the coefficient is positive. -/
theorem isRepresentative_ofScaled {q : Rat} {gs : List Expr} (h : KeptFactors q gs) (hq : 0 < q)
    (hgs : ∀ g ∈ gs, g.IsRepresentative) : (ofScaled q gs).IsRepresentative := by
  refine ⟨isOriented_ofScaled h hq.ne' hgs, fun hsum => ?_, ?_⟩
  · obtain ⟨ts, hts⟩ := exists_of_isSum hsum
    have hfactors := (factors_ofScaled q h.factor).2
    rw [hts] at hfactors ⊢
    -- a sum is its own factor
    exact (hgs (sum ts) (hfactors ▸ List.mem_singleton_self _)).forward.first rfl
  · rw [(factors_ofScaled q h.factor).1]
    exact hq.le

theorem IsOriented.negated {e : Expr} (h : e.IsOriented) (hsum : e.isSum = false) :
    e.negated.IsOriented := by
  have hkept := h.kept.negated hsum
  by_cases hzero : literalProduct e.factors = 0
  · rw [h.kept.tidy.isBuilt.eq_zero hzero, zero, negated_rat]
    exact isOriented_rat _
  · have hgs := h.of_mem_otherFactors fun htrue => by simp [hsum] at htrue
    have hfactors := hkept.1.keptFactors
    rw [h.kept.tidy.factors_negated.1, h.kept.tidy.factors_negated.2] at hfactors
    exact isOriented_ofScaled hfactors (neg_ne_zero.mpr hzero) hgs

theorem IsOriented.opposite {e : Expr} (h : e.IsOriented) : e.opposite.IsOriented := by
  cases e with
  | sum ts =>
    refine ⟨h.kept.opposite, every_sum.mpr ⟨trivial, List.forall_mem_map.mpr fun t ht => ?_⟩⟩
    exact ((h.of_mem_sum t ht).negated (h.kept.of_mem_sum t ht).2).nodes
  | _ => exact h.negated rfl

end Expr

/-! ## Signs of oriented trees -/

/-- The signs that come out of an oriented tree at some depth: the tree is what they stand for, and
there is no sign if it faces forward. -/
structure SplitsInto (n : Nat) (e : Expr) (p : Signed) : Prop where
  split : splitSigns .unbounded n e = .ok p
  value : p.value = e
  body : p.body.IsRepresentative
  positive : e.IsForward → p = ⟨false, e⟩

theorem SplitsInto.rebuilds {n : Nat} {e : Expr} {p : Signed} (h : SplitsInto n e p) :
    RebuildsAs .unbounded n e e :=
  ⟨p, h.split, by rw [Signed.rebuild_eq h.body.oriented.kept, h.value]⟩

theorem forall₂_rebuilds {n : Nat} {es : List Expr} (h : ∀ e ∈ es, ∃ p, SplitsInto n e p) :
    List.Forall₂ (RebuildsAs .unbounded n) es es :=
  List.forall₂_same.mpr fun e he => (h e he).elim fun _ hp => hp.rebuilds

/-- No sign comes out of a representative that is split into itself. -/
theorem SplitsInto.of_representative {n : Nat} {e : Expr} (h : e.IsRepresentative)
    (hsplit : splitSigns .unbounded n e = .ok ⟨false, e⟩) : SplitsInto n e ⟨false, e⟩ :=
  ⟨hsplit, rfl, h, fun _ => rfl⟩

theorem exists_splitsInto_rat (n : Nat) (q : Rat) : ∃ p, SplitsInto (n + 1) (rat q) p := by
  refine ⟨_, splitSigns_rat n q, value_rat q, isRepresentative_rat (abs_nonneg q), fun h => ?_⟩
  have hnonneg : 0 ≤ q := by simpa [factors] using h.nonneg
  rw [abs_of_nonneg hnonneg, decide_eq_false (not_lt.mpr hnonneg)]

/-- Of an oriented sum and its opposite, the one that comes first is its body. -/
theorem exists_splitsInto_sum {n : Nat} {ts : List Expr} (h : (sum ts).IsOriented)
    (hts : ∀ t ∈ ts, ∃ p, SplitsInto n t p) : ∃ p, SplitsInto (n + 1) (sum ts) p := by
  obtain ⟨key, hkey⟩ := h.kept.exists_orientationKey
  obtain ⟨flippedKey, hflipped⟩ := h.kept.opposite.exists_orientationKey
  have hsplit : ∀ p, (if orientationLt flippedKey key then
      (⟨true, (sum ts).opposite⟩ : Signed) else ⟨false, sum ts⟩) = p →
      splitSigns .unbounded (n + 1) (sum ts) = .ok p := fun p hp =>
    splitSigns_sum_iff.mpr ⟨ts, forall₂_rebuilds hts, sum ts, h.kept.normalForm,
      _, normalForm_minusOne h.kept, flippedKey, hflipped, key, hkey, hp⟩
  have hone : ∀ us, 0 ≤ literalProduct (sum us).factors := fun us => by
    simp [factors, literalProduct, literalFactor]
  cases hlt : orientationLt flippedKey key with
  | true =>
    refine ⟨⟨true, (sum ts).opposite⟩, hsplit _ (by rw [hlt, if_pos rfl]), ?_, ⟨h.opposite, ?_⟩, ?_⟩
    · exact h.kept.opposite_opposite
    · refine ⟨fun _ => (comesFirst_or_opposite h.kept).resolve_left fun hfirst => ?_, hone _⟩
      cases hlt.symm.trans (hfirst key flippedKey hkey hflipped)
    · intro hforward
      cases hlt.symm.trans (hforward.first rfl key flippedKey hkey hflipped)
  | false =>
    refine ⟨⟨false, sum ts⟩, .of_representative ⟨h, fun _ => ?_, hone ts⟩
      (hsplit _ (by rw [hlt]; rfl))⟩
    intro k l hk hl
    rwa [← Except.ok.inj (hkey.symm.trans hk), ← Except.ok.inj (hflipped.symm.trans hl)]

/-- Factors without signs. -/
def positives (gs : List Expr) : List Signed :=
  gs.map fun g => ⟨false, g⟩

theorem map_body_positives (gs : List Expr) : (positives gs).map (·.body) = gs := by
  rw [positives, List.map_map]
  exact List.map_id gs

theorem signOf_positives (gs : List Expr) : signOf (positives gs) = false := by
  induction gs with
  | nil => rfl
  | cons g gs ih => rw [positives, List.map_cons, signOf_cons, ← positives, ih]; rfl

theorem forall₂_positives {n : Nat} {gs : List Expr}
    (h : ∀ g ∈ gs, splitSigns .unbounded n g = .ok ⟨false, g⟩) :
    List.Forall₂ (fun f p => splitSigns .unbounded n f = .ok p) gs (positives gs) :=
  List.forall₂_map_right_iff.mpr (List.forall₂_same.mpr h)

/-- Of a coefficient and factors without signs, the sign of the coefficient comes out. -/
theorem splitSigns_scaled {n : Nat} {q : Rat} {gs : List Expr} (h : KeptFactors q gs) (hq : q ≠ 0)
    (hcoefficient : ∀ f ∈ coefficientFactor q,
      splitSigns .unbounded n f = .ok ⟨decide (q < 0), rat |q|⟩)
    (hgs : ∀ g ∈ gs, splitSigns .unbounded n g = .ok ⟨false, g⟩) :
    splitSigns .unbounded (n + 1) (product (coefficientFactor q ++ gs)) =
      .ok ⟨decide (q < 0), ofScaled |q| gs⟩ := by
  have hflat : gs.flatMap factors = gs := flatMap_factors_eq_self fun g hg => (h.factor g hg).2
  have habs : KeptFactors |q| gs := h.scale fun ts hts =>
    absurd (abs_nonneg q) (by rw [hts.1]; norm_num)
  unfold coefficientFactor at hcoefficient ⊢
  split at hcoefficient
  next hone =>
    subst hone
    rw [if_pos rfl, List.nil_append]
    refine splitSigns_product_iff.mpr ⟨positives gs, forall₂_positives hgs, ofScaled 1 gs, ?_, ?_⟩
    · rw [map_body_positives]
      refine normalForm_of_keptFactors h.kept h hq ?_
      rw [hflat]
      exact ⟨by rw [literalProduct_cons_rat, one_mul], .refl _⟩
    · rw [signOf_positives, abs_one]
      norm_num
  next hone =>
    rw [if_neg hone, List.singleton_append]
    refine splitSigns_product_iff.mpr ⟨⟨decide (q < 0), rat |q|⟩ :: positives gs,
      .cons (hcoefficient _ List.mem_cons_self) (forall₂_positives hgs), ofScaled |q| gs, ?_, ?_⟩
    · rw [List.map_cons, map_body_positives]
      refine normalForm_of_keptFactors (List.forall_mem_cons.mpr ⟨isKept_rat _, h.kept⟩) habs
        (abs_ne_zero.mpr hq) ?_
      rw [List.flatMap_cons, hflat]
      exact .refl _
    · rw [signOf_cons, signOf_positives, Bool.xor_false]

/-- The coefficient of an oriented product gives its sign, and the other factors have none. -/
theorem exists_splitsInto_product {n : Nat} {fs : List Expr} (h : (product fs).IsOriented)
    (hfs : ∀ f ∈ fs, ∃ p, SplitsInto n f p) : ∃ p, SplitsInto (n + 1) (product fs) p := by
  obtain ⟨-, q, gs, hq, -, rfl, hbuilt⟩ := (isBuilt_product.mp h.kept.tidy.isBuilt).1
  obtain ⟨hother, hone⟩ := otherFactors_eq_self fun g hg => (hbuilt.factor g hg).1
  have hliteral : literalProduct (product (coefficientFactor q ++ gs)).factors = q := by
    simp [factors, hone]
  have hothers : otherFactors (product (coefficientFactor q ++ gs)).factors = gs := by
    simp [factors, hother]
  have hself := h.kept.tidy.isBuilt.eq_ofScaled.1
  have hkept := h.kept.keptFactors
  have hgs := h.of_mem_otherFactors fun hsum => by cases hsum
  rw [hliteral, hothers] at hself hkept
  rw [hothers] at hgs
  have habs : KeptFactors |q| gs := hkept.scale fun ts hts =>
    absurd (abs_nonneg q) (by rw [hts.1]; norm_num)
  refine ⟨_, splitSigns_scaled hkept hq (fun f hf => ?_) (fun g hg => ?_), ?_,
    isRepresentative_ofScaled habs (abs_pos.mpr hq) hgs, fun hforward => ?_⟩
  · obtain ⟨p, hp⟩ := hfs f (List.mem_append_left _ hf)
    obtain rfl : f = rat q := by
      unfold coefficientFactor at hf
      split at hf
      · cases hf
      · exact List.mem_singleton.mp hf
    rw [hp.split, splitSigns_unique hp.split (splitSigns_rat 0 q)]
  · obtain ⟨p, hp⟩ := hfs g (List.mem_append_right _ hg)
    rw [hp.split, hp.positive (hgs g hg).forward]
  · by_cases hneg : q < 0
    · have hopposite : ofScaled |q| gs = (product (coefficientFactor q ++ gs)).opposite := by
        rw [opposite_of_isSum_eq_false rfl, Expr.negated, hliteral, hothers, abs_of_neg hneg]
      rw [Signed.value, if_pos (decide_eq_true hneg), hopposite, h.kept.opposite_opposite]
    · rw [Signed.value, if_neg (by simpa using hneg), abs_of_nonneg (not_lt.mp hneg), ← hself]
  · have hnonneg : 0 ≤ q := hliteral ▸ hforward.nonneg
    rw [abs_of_nonneg hnonneg, decide_eq_false (not_lt.mpr hnonneg), ← hself]

/-- No sign comes out of an oriented power: either the base has none, or it is put back. -/
theorem exists_splitsInto_power {n : Nat} {b p : Expr} (h : (power b p).IsOriented)
    (hb : ∃ q, SplitsInto n b q) (hp : ∃ q, SplitsInto n p q) :
    ∃ q, SplitsInto (n + 1) (power b p) q := by
  obtain ⟨base, hbase⟩ := hb
  obtain ⟨exponent, hexponent⟩ := hp
  have hnone : base.negative = true → p.integer? = none := by
    intro hneg
    cases hk : p.integer? with
    | none => rfl
    | some k =>
      obtain rfl := eq_of_integer? h.kept.tidy.exponent.isExact hk
      rw [hbase.positive (h.nodes.self (isIntegerNumber_intCast k))] at hneg
      cases hneg
  refine ⟨_, .of_representative ⟨h, IsFactor.isForward ⟨rfl, rfl⟩ fun hsum => by cases hsum⟩
    (splitSigns_power_iff.mpr ⟨base, hbase.split, p, hexponent.rebuilds,
      .kept hnone ?_ h.kept.normalForm⟩)⟩
  rw [Signed.rebuild_eq hbase.body.oriented.kept, hbase.value]

theorem exists_splitsInto_call {n : Nat} {name : String} {es : List Expr}
    (h : (call name es).IsOriented) (hes : ∀ e ∈ es, ∃ p, SplitsInto n e p) :
    ∃ p, SplitsInto (n + 1) (call name es) p := by
  refine ⟨_, .of_representative ⟨h, IsFactor.isForward ⟨rfl, rfl⟩ fun hsum => by cases hsum⟩
    (splitSigns_call_iff.mpr ⟨es, forall₂_rebuilds hes, call name es, h.kept.normalForm, rfl⟩)⟩

/-- The signs of an oriented tree come out of it and leave all its parts where they are, by
induction on the tree. -/
theorem exists_splitsInto {e : Expr} (h : e.IsOriented) {n : Nat} (hn : e.size ≤ n) :
    ∃ p, SplitsInto n e p := by
  induction e generalizing n with
  | number v =>
    obtain ⟨q, rfl⟩ := h.kept.tidy.isExact.exists_rat
    obtain ⟨n, rfl⟩ : ∃ m, n = m + 1 := ⟨n - 1, by simp only [size] at hn; omega⟩
    exact exists_splitsInto_rat n q
  | symbol name =>
    obtain ⟨n, rfl⟩ : ∃ m, n = m + 1 := ⟨n - 1, by simp only [size] at hn; omega⟩
    exact ⟨_, .of_representative ⟨h, IsFactor.isForward ⟨rfl, rfl⟩ fun hsum => by cases hsum⟩ rfl⟩
  | sum ts ih =>
    simp only [size] at hn
    obtain ⟨n, rfl⟩ : ∃ m, n = m + 1 := ⟨n - 1, by omega⟩
    refine exists_splitsInto_sum h fun t ht => ih t ht (h.of_mem_sum t ht) ?_
    have := size_le_sizeAll ht
    omega
  | product fs ih =>
    simp only [size] at hn
    obtain ⟨n, rfl⟩ : ∃ m, n = m + 1 := ⟨n - 1, by omega⟩
    refine exists_splitsInto_product h fun f hf => ih f hf (h.of_mem_product f hf) ?_
    have := size_le_sizeAll hf
    omega
  | power b p ihb ihp =>
    simp only [size] at hn
    obtain ⟨n, rfl⟩ : ∃ m, n = m + 1 := ⟨n - 1, by omega⟩
    exact exists_splitsInto_power h (ihb h.of_power.1 (by omega)) (ihp h.of_power.2 (by omega))
  | negation e => exact absurd h.kept.tidy.isBuilt not_isBuilt_negation
  | call name es ih =>
    simp only [size] at hn
    obtain ⟨n, rfl⟩ : ∃ m, n = m + 1 := ⟨n - 1, by omega⟩
    refine exists_splitsInto_call h fun e he => ih e he (h.of_mem_call e he) ?_
    have := size_le_sizeAll he
    omega
  | hole => exact absurd h.kept.tidy.isExact not_isExact_hole

/-- An oriented tree stands for its own sign class. -/
theorem stripped_of_isOriented {e : Expr} (h : e.IsOriented) : stripped .unbounded e = .ok e := by
  have hsize : e.size ≤ e.signDepth := by
    show e.size ≤ (e.size + 8) * (e.size + 8) * ((e.size + 8) * (e.size + 8))
    nlinarith [Nat.zero_le e.size, Nat.zero_le (e.size * e.size)]
  obtain ⟨p, hp⟩ := exists_splitsInto h hsize
  rw [stripped, h.kept.normalForm, ok_bind, signed, hp.split, ok_bind,
    Signed.rebuild_eq hp.body.oriented.kept, ok_bind, hp.value, h.kept.normalForm]

end AlgebraicForm
