import AlgebraicForm.Proofs.Exponents
import AlgebraicForm.Proofs.Weights

/-!
# Levels of an expression

The levels of an expression count its symbols, sums and functions, and its powers unless a whole
exponent stands over something else than a literal. Neither products nor literals count, so that
distributing a sign or a whole exponent costs nothing.

The builders make no levels, and a sum whose terms come to something else than a sum has lost one:
it has no more levels than its terms had (`termLevels`). Only a whole exponent may add something: a
literal in its base becomes a power of its own (`raisedLevels`).

* `termLevels_buildSum`: sums.
* `builders_levels`: products and powers, by induction on the depth.
* `levels_normalPass`: passes.
* `levels_normalForm_sum`, `levels_normalForm_product`, `levels_normalForm_power`: normal forms.
-/

namespace AlgebraicForm

open AlgebraicForm.Expr

/-! ## Levels -/

/-- One for each node that counts as a level. -/
def levelWeight : Expr → Nat
  | number _ | product _ => 0
  | power b p => if p.isIntegerNumber && !b.isNumber then 0 else 1
  | symbol _ | sum _ | call _ _ | negation _ | hole => 1

theorem levelWeight_le_one (e : Expr) : levelWeight e ≤ 1 := by
  unfold levelWeight
  split
  · omega
  · omega
  · split <;> omega
  all_goals omega

/-- The number of levels. -/
def Expr.levels (e : Expr) : Nat :=
  e.total levelWeight

/-- The number of levels of several expressions. -/
def levelsAll (es : List Expr) : Nat :=
  totalAll levelWeight es

@[simp] theorem levels_number (v : Number) : (number v).levels = 0 :=
  total_number v

@[simp] theorem levels_symbol (n : String) : (symbol n).levels = 1 :=
  total_symbol n

@[simp] theorem levels_sum (ts : List Expr) : (sum ts).levels = 1 + levelsAll ts :=
  total_sum ts

@[simp] theorem levels_product (fs : List Expr) : (product fs).levels = levelsAll fs :=
  (total_product fs).trans (Nat.zero_add _)

@[simp] theorem levels_call (n : String) (es : List Expr) :
    (call n es).levels = 1 + levelsAll es :=
  total_call n es

theorem levels_power (b p : Expr) :
    (power b p).levels = levelWeight (power b p) + (b.levels + p.levels) :=
  total_power b p

@[simp] theorem levelsAll_nil : levelsAll [] = 0 :=
  rfl

@[simp] theorem levelsAll_cons (e : Expr) (es : List Expr) :
    levelsAll (e :: es) = e.levels + levelsAll es :=
  totalAll_cons e es

@[simp] theorem levelsAll_append (es fs : List Expr) :
    levelsAll (es ++ fs) = levelsAll es + levelsAll fs :=
  totalAll_append es fs

theorem levelsAll_perm {es fs : List Expr} (h : es.Perm fs) : levelsAll es = levelsAll fs :=
  totalAll_perm h

theorem levelsAll_le {ds es : List Expr}
    (h : List.Forall₂ (fun d e : Expr => e.levels ≤ d.levels) ds es) :
    levelsAll es ≤ levelsAll ds :=
  totalAll_le h

theorem levels_le_levelsAll {e : Expr} {es : List Expr} (h : e ∈ es) :
    e.levels ≤ levelsAll es :=
  List.le_sum_of_mem (List.mem_map_of_mem h)

theorem levels_of_isIntegerNumber {p : Expr} (h : p.isIntegerNumber = true) : p.levels = 0 := by
  cases p with
  | number v => exact levels_number v
  | _ => cases h

@[simp] theorem levels_ofFactors (fs : List Expr) : (ofFactors fs).levels = levelsAll fs := by
  unfold ofFactors
  split <;> simp

@[simp] theorem levelsAll_factors (e : Expr) : levelsAll e.factors = e.levels := by
  cases e <;> simp [Expr.factors]

@[simp] theorem levelsAll_flatMap_factors (es : List Expr) :
    levelsAll (es.flatMap Expr.factors) = levelsAll es := by
  induction es with
  | nil => rfl
  | cons e es ih => rw [List.flatMap_cons, levelsAll_append, levelsAll_factors, ih, levelsAll_cons]

/-- Literals among factors do not count. -/
@[simp] theorem levelsAll_otherFactors (fs : List Expr) :
    levelsAll (otherFactors fs) = levelsAll fs := by
  induction fs with
  | nil => rfl
  | cons f fs ih =>
    cases f with
    | number v =>
      rw [levelsAll_cons, levels_number, Nat.zero_add, ← ih]
      rfl
    | _ => rw [otherFactors_cons rfl, levelsAll_cons, levelsAll_cons, ih]

@[simp] theorem levels_withCoefficient (c : Number) (fs : List Expr) :
    (withCoefficient c fs).levels = levelsAll fs := by
  unfold withCoefficient
  split <;> simp

@[simp] theorem levels_scale (c : Number) (body : Expr) : (scale c body).levels = body.levels := by
  unfold scale
  split <;> simp

/-- A tree of the right shape without levels is a literal. -/
theorem one_le_levels {s : Settings} {e : Expr} (h : e.IsBuilt s) (hnumber : e.isNumber = false) :
    1 ≤ e.levels := by
  induction e with
  | number v => cases hnumber
  | symbol n => exact (levels_symbol n).ge
  | sum ts _ => exact (Nat.le_add_right _ _).trans_eq (levels_sum ts).symm
  | product fs ih =>
    obtain ⟨⟨-, q, gs, -, hne, rfl, hgs⟩, hfs⟩ := isBuilt_product.mp h
    obtain ⟨g, hg⟩ := List.exists_mem_of_ne_nil gs hne
    have hmem : g ∈ coefficientFactor q ++ gs := List.mem_append_right _ hg
    rw [levels_product]
    exact (ih g hmem (hfs g hmem) (hgs.factor g hg).1).trans (levels_le_levelsAll hmem)
  | power b p ihb _ =>
    rw [levels_power]
    cases hb : b.isNumber with
    | true =>
      have hweight : levelWeight (power b p) = 1 := by simp [levelWeight, hb]
      omega
    | false =>
      have := ihb (isBuilt_power.mp h).2.1 hb
      omega
  | negation e _ => exact (not_isBuilt_negation h).elim
  | call n es _ => exact (Nat.le_add_right _ _).trans_eq (levels_call n es).symm
  | hole => exact (every_hole.mp h).elim

/-! ## Sums -/

/-- The levels of the terms of an expression. -/
def Expr.termLevels (e : Expr) : Nat :=
  levelsAll e.terms

@[simp] theorem termLevels_sum (ts : List Expr) : (sum ts).termLevels = levelsAll ts :=
  rfl

theorem termLevels_of_isSum_eq_false {e : Expr} (h : e.isSum = false) :
    e.termLevels = e.levels := by
  cases e with
  | sum => cases h
  | _ => simp [termLevels, terms]

theorem termLevels_le_levels (e : Expr) : e.termLevels ≤ e.levels := by
  cases e with
  | sum ts => simp
  | _ => exact (termLevels_of_isSum_eq_false rfl).le

theorem levels_le_termLevels (e : Expr) : e.levels ≤ 1 + e.termLevels := by
  cases e with
  | sum ts => simp
  | _ => exact (termLevels_of_isSum_eq_false rfl).ge.trans (Nat.le_add_left _ _)

theorem levelsAll_flatMap_terms_le (es : List Expr) :
    levelsAll (es.flatMap terms) ≤ levelsAll es := by
  induction es with
  | nil => exact le_rfl
  | cons e es ih =>
    rw [List.flatMap_cons, levelsAll_append, levelsAll_cons]
    exact Nat.add_le_add (termLevels_le_levels e) ih

theorem levels_body_le {t body : Expr} {c : Number} (h : t.splitCoefficient = (c, some body)) :
    body.levels ≤ t.levels := by
  obtain ⟨rest, rfl, rfl⟩ | ⟨-, rfl⟩ := splitCoefficient_eq_some h
  · simp
  · exact le_rfl

theorem levelsAll_groupTerms (gs : List (Expr × Rat)) :
    levelsAll (groupTerms gs) = levelsAll (gs.map (·.1)) := by
  induction gs with
  | nil => rfl
  | cons g gs ih =>
    rw [groupTerms_cons, levelsAll_cons, levels_scale, ih, List.map_cons, levelsAll_cons]

theorem termLevels_ofSortedTerms (ts : List Expr) :
    (ofSortedTerms ts).termLevels ≤ levelsAll ts := by
  unfold ofSortedTerms
  split
  next => exact (termLevels_le_levels _).trans_eq (levels_number _)
  next e => simpa using termLevels_le_levels e
  next => exact le_rfl

/-- The terms of a sum have no more levels than those of its operands. -/
theorem termLevels_buildSum {s : Settings} {es : List Expr} {r : Expr} (hes : ∀ e ∈ es, e.IsExact)
    (h : buildSum s es = .ok r) : r.termLevels ≤ levelsAll (es.flatMap terms) := by
  have hterms : ∀ t ∈ es.flatMap terms, t.IsExact := by
    intro t ht
    obtain ⟨e, he, het⟩ := List.mem_flatMap.mp ht
    exact (hes e he).terms t het
  obtain ⟨k, gs, hcollect, -, hgs⟩ := collectTerms_invariant
    (I := fun _ (gs : List (Expr × Rat)) ts =>
      levelsAll (gs.map fun g : Expr × Rat => g.1) + levelsAll ts ≤ levelsAll (es.flatMap terms))
    (fun k gs a ts hle => by simpa using hle)
    (fun k pre body d post t c ts _ hle => by
      simp only [List.map_append, List.map_cons, levelsAll_append, levelsAll_cons] at hle ⊢
      omega)
    (fun k gs body t c ts hsplit _ hle => by
      have hbody := levels_body_le hsplit
      simp only [List.map_append, List.map_cons, List.map_nil, levelsAll_append, levelsAll_cons,
        levelsAll_nil] at hle ⊢
      omega)
    (k := 0) (List.forall_mem_nil fun g : Expr × Rat => g.1.IsExact) hterms (by simp)
  obtain ⟨ks, hks, rfl⟩ := (buildSum_eq_ok hcollect).mp h
  refine (termLevels_ofSortedTerms _).trans ?_
  have hconstant : levelsAll (constantTerm k) = 0 := by
    unfold constantTerm
    split <;> simp
  have hfilter : levelsAll ((gs.filter (·.2 ≠ 0)).map (·.1)) ≤ levelsAll (gs.map (·.1)) := by
    rw [levelsAll, levelsAll, totalAll, totalAll]
    exact ((List.filter_sublist.map _).map _).sum_le_sum fun _ _ => Nat.zero_le _
  rw [levelsAll_append, hconstant, levelsAll_perm (sortedTerms_perm hks), levelsAll_groupTerms]
  rw [levelsAll_nil] at hgs
  omega

/-! ## Powers -/

/-- The number of literals among the factors of an expression. -/
def Expr.literals (e : Expr) : Nat :=
  (e.factors.filter isNumber).length

theorem literals_of_isProduct_eq_false {e : Expr} (h : e.isProduct = false) :
    e.literals = if e.isNumber then 1 else 0 := by
  rw [literals, factors_of_isProduct_eq_false h]
  cases e <;> rfl

theorem literals_le_one {s : Settings} {e : Expr} (h : e.IsBuilt s) : e.literals ≤ 1 := by
  cases e with
  | product fs =>
    obtain ⟨⟨-, q, gs, -, -, rfl, hgs⟩, -⟩ := isBuilt_product.mp h
    have hnone : gs.filter isNumber = [] := by
      rw [List.filter_eq_nil_iff]
      exact fun g hg => by simp [(hgs.factor g hg).1]
    show ((coefficientFactor q ++ gs).filter isNumber).length ≤ 1
    rw [List.filter_append, hnone, List.append_nil]
    refine (List.length_filter_le _ _).trans ?_
    unfold coefficientFactor
    split <;> simp
  | _ =>
    rw [literals_of_isProduct_eq_false rfl]
    split <;> omega

/-- What a power may have as levels: a whole exponent only adds the literals of its base. -/
def raisedLevels (b p : Expr) : Nat :=
  if p.isIntegerNumber then b.levels + b.literals else 1 + (b.levels + p.levels)

theorem raisedLevels_of_isIntegerNumber {p : Expr} (hp : p.isIntegerNumber = true) (b : Expr) :
    raisedLevels b p = b.levels + b.literals :=
  if_pos hp

theorem raisedLevels_intCast (b : Expr) (k : Int) :
    raisedLevels b (rat k) = b.levels + b.literals :=
  if_pos (isIntegerNumber_intCast k)

theorem raisedLevels_of_isIntegerNumber_eq_false {p : Expr} (hp : p.isIntegerNumber = false)
    (b : Expr) : raisedLevels b p = 1 + (b.levels + p.levels) := by
  simp [raisedLevels, hp]

section

variable {s : Settings}

theorem raisedLevels_le {b : Expr} (hb : b.IsBuilt s) (p : Expr) :
    raisedLevels b p ≤ 1 + (b.levels + p.levels) := by
  have := literals_le_one hb
  unfold raisedLevels
  split <;> omega

theorem add_literals_le_raisedLevels {b : Expr} (hb : b.IsBuilt s) (p : Expr) :
    b.levels + b.literals ≤ raisedLevels b p := by
  have := literals_le_one hb
  unfold raisedLevels
  split <;> omega

/-- A power as it stands, if its whole exponent cannot be distributed. -/
theorem levels_power_eq {b p : Expr}
    (h : p.isIntegerNumber = true → b.isProduct = false) :
    (power b p).levels = raisedLevels b p := by
  rw [levels_power]
  cases hp : p.isIntegerNumber with
  | true =>
    rw [raisedLevels_of_isIntegerNumber hp, literals_of_isProduct_eq_false (h hp),
      levels_of_isIntegerNumber hp]
    cases hb : b.isNumber <;> simp [levelWeight, hp, hb, Nat.add_comm]
  | false =>
    rw [raisedLevels_of_isIntegerNumber_eq_false hp]
    simp [levelWeight, hp]

theorem Expr.IsBuilt.levels_power {b p : Expr} (h : (power b p).IsBuilt s) :
    (power b p).levels = raisedLevels b p := by
  refine levels_power_eq fun hp => ?_
  have hproduct := ((isBuilt_power.mp h).1.2 hp).2
  cases b with
  | product fs => exact (hproduct fs rfl).elim
  | _ => rfl

/-- A factor is the power of its base. -/
theorem levels_factor {f : Expr} (h : f.IsBuilt s) (hf : f.IsFactor) :
    f.levels = raisedLevels f.splitPower.1 f.splitPower.2 := by
  have hone : raisedLevels f one = f.levels := by
    have hwhole : one.isIntegerNumber = true := by decide
    rw [raisedLevels_of_isIntegerNumber hwhole, literals_of_isProduct_eq_false hf.2, hf.1]
    exact Nat.add_zero _
  cases f with
  | power b p => exact h.levels_power
  | _ => exact hone.symm

/-- The exponent of a factor has fewer levels than the factor. -/
theorem levels_exponent_lt {f : Expr} (h : f.IsBuilt s) (hf : f.IsFactor) :
    f.splitPower.2.levels < f.levels := by
  cases hp : f.splitPower.2.isIntegerNumber with
  | true =>
    rw [levels_of_isIntegerNumber hp]
    exact one_le_levels h hf.1
  | false =>
    rw [levels_factor h hf, raisedLevels_of_isIntegerNumber_eq_false hp]
    omega

theorem length_add_levelsAll_exponents {fs : List Expr}
    (h : ∀ f ∈ fs, f.IsBuilt s ∧ f.IsFactor) :
    fs.length + levelsAll (fs.map fun f => f.splitPower.2) ≤ levelsAll fs := by
  induction fs with
  | nil => exact le_rfl
  | cons f fs ih =>
    rw [List.forall_mem_cons] at h
    have hfirst := levels_exponent_lt h.1.1 h.1.2
    have hrest := ih h.2
    simp only [List.length_cons, List.map_cons, levelsAll_cons]
    omega

end

/-! ## Factors with one base -/

section

variable {s : Settings} {gs : List Expr} {b : Expr}
  (hgs : ∀ g ∈ gs, g.IsBuilt s ∧ g.IsFactor ∧ g.splitPower.1 = b)

include hgs

theorem levels_eq_raisedLevels {g : Expr} (hg : g ∈ gs) :
    g.levels = raisedLevels b g.splitPower.2 := by
  obtain ⟨hbuilt, hfactor, hbase⟩ := hgs g hg
  rw [levels_factor hbuilt hfactor, hbase]

/-- Merging the exponents of a base makes no levels. -/
theorem raisedLevels_merged_le {p : Expr} (hlen : 2 ≤ gs.length)
    (h : buildSum s (gs.map fun g => g.splitPower.2) = .ok p) :
    raisedLevels b p ≤ levelsAll gs := by
  have hexact : ∀ e ∈ gs.map fun g => g.splitPower.2, e.IsExact := by
    rw [List.forall_mem_map]
    exact fun g hg => (splitPower_isBuilt (hgs g hg).1).2.isExact
  cases hp : p.isIntegerNumber with
  | true =>
    obtain ⟨g, hg⟩ := List.exists_mem_of_length_pos (show 0 < gs.length by omega)
    have hb : b.IsBuilt s := (hgs g hg).2.2 ▸ (splitPower_isBuilt (hgs g hg).1).1
    calc raisedLevels b p = b.levels + b.literals := raisedLevels_of_isIntegerNumber hp b
      _ ≤ raisedLevels b g.splitPower.2 := add_literals_le_raisedLevels hb _
      _ = g.levels := (levels_eq_raisedLevels hgs hg).symm
      _ ≤ levelsAll gs := levels_le_levelsAll hg
  | false =>
    -- one of the exponents is no whole literal, and its factor counts the base as well
    obtain ⟨g, hg, hfraction⟩ : ∃ g ∈ gs, g.splitPower.2.isIntegerNumber = false := by
      by_contra hall
      push Not at hall
      have hwhole := isIntegerNumber_of_buildSum hexact
        (List.forall_mem_map.mpr fun g hg => by simpa using hall g hg) h
      rw [hp] at hwhole
      cases hwhole
    have hpower := levels_eq_raisedLevels hgs hg
    obtain ⟨pre, post, rfl⟩ := List.append_of_mem hg
    have hothers : ∀ f ∈ pre ++ post, f.IsBuilt s ∧ f.IsFactor := by
      intro f hf
      have hmem : f ∈ pre ++ g :: post := by simpa using (List.mem_append.mp hf).imp id .inr
      exact ⟨(hgs f hmem).1, (hgs f hmem).2.1⟩
    have hother := length_add_levelsAll_exponents hothers
    have hsum := (termLevels_buildSum hexact h).trans (levelsAll_flatMap_terms_le _)
    have hterms := levels_le_termLevels p
    rw [raisedLevels_of_isIntegerNumber_eq_false hfraction] at hpower
    rw [raisedLevels_of_isIntegerNumber_eq_false hp]
    simp only [List.map_append, List.map_cons, levelsAll_append, levelsAll_cons,
      List.length_append, List.length_cons] at hother hsum hlen ⊢
    omega

/-- The power of one base has no more levels than its factors, if powers have no more than they
may. -/
theorem levels_groupPower_le {fuel : Nat} {p : Expr} (hne : gs ≠ [])
    (hpower : ∀ {q r : Expr}, q.IsBuilt s → buildPower s fuel b q = .ok r →
      r.levels ≤ raisedLevels b q)
    (h : groupPower s (buildPower s fuel) (b, gs.map fun g => g.splitPower.2) = .ok p) :
    p.levels ≤ levelsAll gs := by
  have hexponents : ∀ e ∈ gs.map fun g => g.splitPower.2, e.IsBuilt s := by
    rw [List.forall_mem_map]
    exact fun g hg => (splitPower_isBuilt (hgs g hg).1).2
  obtain ⟨q, hq, h⟩ := bind_eq_ok_iff.mp h
  refine (hpower (mergeExponents_isBuilt hexponents hq) h).trans ?_
  obtain hone | hmany : gs.length = 1 ∨ 2 ≤ gs.length := by
    have := List.length_pos_iff.mpr hne
    omega
  · -- a single factor is the power of its base already
    obtain ⟨g, rfl⟩ := List.length_eq_one_iff.mp hone
    obtain rfl := Except.ok.inj hq
    rw [← levels_eq_raisedLevels hgs List.mem_cons_self, levelsAll_cons, levelsAll_nil,
      Nat.add_zero]
  · obtain ⟨g, g', rest, rfl⟩ : ∃ g g' rest, gs = g :: g' :: rest := by
      cases gs with
      | nil => exact absurd rfl hne
      | cons g rest =>
        cases rest with
        | nil => simp at hmany
        | cons g' rest => exact ⟨g, g', rest, rfl⟩
    exact raisedLevels_merged_le hgs hmany hq

end

open Classical in
/-- Factors are those of each of their bases, put together. -/
theorem flatMap_filter_base_perm {bases fs : List Expr} (hnodup : bases.Nodup)
    (h : ∀ f ∈ fs, f.splitPower.1 ∈ bases) :
    (bases.flatMap fun b => fs.filter fun f => f.splitPower.1 = b).Perm fs := by
  induction bases generalizing fs with
  | nil =>
    obtain rfl : fs = [] := List.eq_nil_iff_forall_not_mem.mpr fun f hf => by simpa using h f hf
    exact .refl _
  | cons b bases ih =>
    rw [List.nodup_cons] at hnodup
    have hrest : ∀ f ∈ fs.filter fun f => ¬f.splitPower.1 = b, f.splitPower.1 ∈ bases := by
      intro f hf
      simp only [List.mem_filter, decide_eq_true_eq] at hf
      exact (List.mem_cons.mp (h f hf.1)).resolve_left hf.2
    have hsame : (bases.flatMap fun c => fs.filter fun f => f.splitPower.1 = c) =
        bases.flatMap fun c => (fs.filter fun f => ¬f.splitPower.1 = b).filter
          fun f => f.splitPower.1 = c := by
      refine List.flatMap_congr fun c hc => ?_
      rw [List.filter_filter]
      refine List.filter_congr fun f _ => ?_
      have hne : c ≠ b := fun heq => hnodup.1 (heq ▸ hc)
      by_cases hf : f.splitPower.1 = c <;> simp [hf, hne]
    rw [List.flatMap_cons, hsame]
    refine ((ih hnodup.2 hrest).append_left _).trans ?_
    simpa using List.filter_append_perm (fun f : Expr => decide (f.splitPower.1 = b)) fs

/-! ## Products and powers -/

/-- Powers of factors with a whole exponent have the levels of the factors and of their literals. -/
theorem levelsAll_powers_le {fs gs : List Expr} (hflat : ∀ f ∈ fs, f.isProduct = false)
    (h : List.Forall₂ (fun f g : Expr => g.levels ≤ f.levels + f.literals) fs gs) :
    levelsAll gs ≤ levelsAll fs + (fs.filter isNumber).length := by
  induction h with
  | nil => exact le_rfl
  | @cons f g fs gs hfg _ ih =>
    rw [List.forall_mem_cons] at hflat
    have hrest := ih hflat.2
    rw [literals_of_isProduct_eq_false hflat.1] at hfg
    rw [levelsAll_cons, levelsAll_cons]
    cases hf : f.isNumber with
    | true =>
      rw [List.filter_cons_of_pos hf, List.length_cons]
      rw [hf, if_pos rfl] at hfg
      omega
    | false =>
      rw [List.filter_cons_of_neg (by simp [hf])]
      rw [hf] at hfg
      exact (Nat.add_le_add hfg hrest).trans_eq (Nat.add_assoc _ _ _).symm

/-- What holds of products and powers to some depth: neither makes levels. -/
structure MakeNoLevels (s : Settings) (fuel : Nat) : Prop where
  product {es : List Expr} {r : Expr} : (∀ e ∈ es, e.IsBuilt s) →
    buildProduct s fuel es = .ok r → r.levels ≤ levelsAll es
  power {b p r : Expr} : b.IsBuilt s → p.IsBuilt s → buildPower s fuel b p = .ok r →
    r.levels ≤ raisedLevels b p

namespace MakeNoLevels

variable {s : Settings} {fuel : Nat} (h : MakeNoLevels s fuel)

include h

/-- The powers of the bases have no more levels than the factors. -/
theorem groups {fs ps : List Expr} {bs : List (Expr × List Expr)}
    (hfs : ∀ f ∈ fs, f.IsBuilt s ∧ f.IsFactor) (hbs : Collects fs bs)
    (hps : bs.mapM (groupPower s (buildPower s fuel)) = .ok ps) :
    levelsAll ps ≤ levelsAll fs := by
  classical
  have hgroup : ∀ g ∈ bs, ∀ p, groupPower s (buildPower s fuel) g = .ok p →
      p.levels ≤ levelsAll (fs.filter fun f => f.splitPower.1 = g.1) := by
    intro g hg p hp
    have hmem : ∀ f ∈ fs.filter fun f => f.splitPower.1 = g.1,
        f.IsBuilt s ∧ f.IsFactor ∧ f.splitPower.1 = g.1 := by
      intro f hf
      obtain ⟨hf, hbase⟩ : f ∈ fs ∧ f.splitPower.1 = g.1 := by simpa using hf
      exact ⟨(hfs f hf).1, (hfs f hf).2, hbase⟩
    obtain ⟨f, hf, hbase⟩ := List.mem_map.mp ((hbs.bases g.1).mp (List.mem_map_of_mem hg))
    refine levels_groupPower_le hmem (List.ne_nil_of_mem (a := f) (by simpa using ⟨hf, hbase⟩))
      (h.power (hbase ▸ (splitPower_isBuilt (hfs f hf).1).1)) ?_
    rwa [show g = (g.1, exponentsOf g.1 fs) from Prod.ext rfl (hbs.exponents g hg),
      exponentsOf] at hp
  have hall : levelsAll ps ≤
      levelsAll (bs.flatMap fun g => fs.filter fun f => f.splitPower.1 = g.1) := by
    have hboth := (List.forall₂_and_left bs ps).mpr ⟨hgroup, mapM_eq_ok_iff.mp hps⟩
    clear hbs hps hgroup
    induction hboth with
    | nil => exact le_rfl
    | @cons g p _ _ hgp _ ih =>
      rw [List.flatMap_cons, levelsAll_append, levelsAll_cons]
      exact Nat.add_le_add (hgp.1 p hgp.2) ih
  have hperm := flatMap_filter_base_perm hbs.distinct fun f hf =>
    (hbs.bases f.splitPower.1).mpr (List.mem_map_of_mem hf)
  rw [List.flatMap_map] at hperm
  exact hall.trans_eq (levelsAll_perm hperm)

/-- A sign goes to each term of a sum. -/
theorem negated {ts us : List Expr} {r : Expr} (hts : ∀ t ∈ ts, t.IsBuilt s)
    (hus : List.Forall₂ (fun t u => buildProduct s fuel [minusOne, t] = .ok u) ts us)
    (hr : buildSum s us = .ok r) : r.termLevels ≤ levelsAll ts := by
  have hsigned : ∀ t ∈ ts, ∀ e ∈ [minusOne, t], e.IsBuilt s := by
    intro t ht
    rw [List.forall_mem_cons, List.forall_mem_singleton]
    exact ⟨isBuilt_rat _, hts t ht⟩
  have hboth := (List.forall₂_and_left ts us).mpr ⟨hsigned, hus⟩
  have hterms : levelsAll us ≤ levelsAll ts := by
    refine levelsAll_le (hboth.imp ?_)
    rintro t u ⟨hbuilt, htu⟩
    exact (h.product hbuilt htu).trans_eq (by simp [minusOne])
  have husexact : ∀ u ∈ us, u.IsExact := by
    intro u hu
    obtain ⟨t, -, hbuilt, htu⟩ := exists_mem_of_forall₂ hboth hu
    exact ((builders_isBuilt s fuel).1 hbuilt htu).isExact
  exact ((termLevels_buildSum husexact hr).trans (levelsAll_flatMap_terms_le us)).trans hterms

/-- What a product comes to, one step further down. -/
theorem of_productResult {q : Rat} {fs : List Expr} {r : Expr} (hfs : ∀ f ∈ fs, f.IsBuilt s)
    (hr : ProductResult s fuel q fs r) : r.levels ≤ levelsAll fs := by
  cases hr with
  | zero => exact Nat.zero_le _
  | literal => exact Nat.zero_le _
  | @negated ts us _ _ hsum hus hbuild =>
    subst hsum
    have hterms := h.negated (isBuilt_sum.mp (hfs (sum ts) List.mem_cons_self)).2 hus hbuild
    have hlevels := levels_le_termLevels r
    rw [levelsAll_cons, levelsAll_nil, levels_sum]
    omega
  | plain _ hsort _ _ =>
    rw [levels_withCoefficient]
    exact (levelsAll_perm (sortFactors_perm hsort)).le

theorem product_succ {es : List Expr} {r : Expr} (hes : ∀ e ∈ es, e.IsBuilt s)
    (hr : buildProduct s (fuel + 1) es = .ok r) : r.levels ≤ levelsAll es := by
  have hfactor := isBuilt_otherFactors hes
  obtain ⟨bs, hbs, ⟨-, rfl⟩ | ⟨-, ps, hps, hresult⟩⟩ := exists_productResult hes hr
  · exact Nat.zero_le _
  have hgroup := hbs.isBuilt fun f hf => (hfactor f hf).1
  have hbuilt : ∀ p ∈ ps, p.IsBuilt s :=
    forall_mem_of_mapM (fun g hg _ => groupPower_isBuilt (hgroup g hg)) hps
  calc r.levels ≤ levelsAll (otherFactors (ps.flatMap factors)) :=
        h.of_productResult (fun f hf => (isBuilt_otherFactors hbuilt f hf).1) hresult
    _ = levelsAll ps := by simp
    _ ≤ levelsAll (otherFactors (es.flatMap factors)) := h.groups hfactor hbs hps
    _ = levelsAll es := by simp

/-- A whole power of a factor has no more levels than the factor, but for a literal. -/
theorem power_succ {b p r : Expr} (hb : b.IsBuilt s) (hp : p.IsBuilt s)
    (hr : buildPower s (fuel + 1) b p = .ok r) : r.levels ≤ raisedLevels b p := by
  cases buildPower_eq_ok hb.isExact hp.isExact hr with
  | literal hliteral =>
    cases hliteral with
    | zero_zero => exact (levels_power_eq fun _ => rfl).le
    | power_one =>
      have hle := add_literals_le_raisedLevels hb one
      omega
    | power_zero | one_power | zero_power | fold => exact Nat.zero_le _
  | @nested c e q _ k _ hq hbuild =>
    obtain ⟨-, hc, he⟩ := isBuilt_power.mp hb
    have hboth : ∀ d ∈ [e, rat k], d.IsBuilt s := by simp [he]
    have hqlevels : q.levels ≤ e.levels := (h.product hboth hq).trans_eq (by simp)
    refine (h.power hc ((builders_isBuilt s fuel).1 hboth hq) hbuild).trans ?_
    rw [raisedLevels_intCast, hb.levels_power]
    refine (?_ : raisedLevels c q ≤ raisedLevels c e).trans (Nat.le_add_right _ _)
    cases hint : e.isIntegerNumber with
    | true =>
      -- the product of whole literals is a whole literal
      obtain ⟨j, rfl⟩ := (isIntegerNumber_iff he.isExact).mp hint
      obtain rfl := eq_of_buildProduct_literals hq
      rw [← Int.cast_mul, raisedLevels_intCast, raisedLevels_intCast]
    | false =>
      rw [raisedLevels_of_isIntegerNumber_eq_false hint]
      have := raisedLevels_le hc q
      omega
  | @distributed fs gs _ k _ hgs hbuild =>
    have hfs := (isBuilt_product.mp hb).2
    have hboth := (List.forall₂_and_left fs gs).mpr ⟨hfs, hgs⟩
    have hbuilt : ∀ g ∈ gs, g.IsBuilt s := by
      intro g hg
      obtain ⟨f, -, hf, hfg⟩ := exists_mem_of_forall₂ hboth hg
      exact (builders_isBuilt s fuel).2 hf (isBuilt_rat k) hfg
    refine (h.product hbuilt hbuild).trans ?_
    rw [raisedLevels_intCast, levels_product]
    have hflat : ∀ f ∈ fs, f.isProduct = false := hb.isFlat
    have hpowers : List.Forall₂ (fun f g : Expr => g.levels ≤ f.levels + f.literals) fs gs :=
      hboth.imp fun f g ⟨hf, hfg⟩ =>
        (h.power hf (isBuilt_rat k) hfg).trans_eq (raisedLevels_intCast f k)
    exact levelsAll_powers_le hflat hpowers
  | plain _ hwhole =>
    refine (levels_power_eq fun hint => ?_).le
    cases b with
    | product fs => exact ((hwhole hint).2 fs rfl).elim
    | _ => rfl

end MakeNoLevels

/-- Products and powers make no levels, to any depth. -/
theorem builders_levels (s : Settings) (fuel : Nat) : MakeNoLevels s fuel := by
  induction fuel with
  | zero =>
    refine ⟨fun _ h => ?_, fun _ _ h => ?_⟩
    · rw [buildProduct] at h
      cases h
    · rw [buildPower] at h
      cases h
  | succ fuel ih => exact ⟨ih.product_succ, ih.power_succ⟩

/-- Minus one in front of a sum makes no levels of its terms. -/
theorem termLevels_product_minusOne {s : Settings} {us : List Expr} {r : Expr}
    (h : (sum us).IsBuilt s) (hr : s.product [minusOne, sum us] = .ok r) :
    r.termLevels ≤ levelsAll us := by
  have hes : ∀ e ∈ [minusOne, sum us], e.IsBuilt s := by simp [minusOne, h]
  obtain ⟨fuel, hfuel⟩ := depthBound_eq (weightAll [minusOne, sum us])
  rw [Settings.product, hfuel] at hr
  have hliteral : literalProduct ([minusOne, sum us].flatMap factors) = -1 := by
    simp [minusOne, factors, literalProduct, literalFactor]
  have hother : otherFactors ([minusOne, sum us].flatMap factors) = [sum us] := rfl
  have hresult := productResult_of_distinct hes (hother ▸ List.nodup_singleton _) hr
  rw [hliteral, hother] at hresult
  obtain ⟨hzero, -⟩ | hresult := hresult
  · norm_num at hzero
  cases hresult with
  | zero hzero => norm_num at hzero
  | literal _ hnil => cases hnil
  | negated _ hsum hvs hbuild =>
    obtain rfl := sum.inj (List.singleton_inj.mp hsum)
    exact (builders_levels s _).negated (isBuilt_sum.mp h).2 hvs hbuild
  | plain _ hsort _ hsign =>
    -- minus one does not stay in front of a lone sum
    exact (hsign us ⟨rfl, List.perm_singleton.mp (sortFactors_perm hsort)⟩).elim

/-! ## Passes -/

/-- The second expression has no more levels than the first; one that comes from a sum and is no sum
has fewer. -/
structure NoMoreLevels (e c : Expr) : Prop where
  levels : c.levels ≤ e.levels
  terms : c.termLevels ≤ e.termLevels

namespace NoMoreLevels

theorem refl (e : Expr) : NoMoreLevels e e :=
  ⟨le_rfl, le_rfl⟩

theorem trans {e d c : Expr} (h : NoMoreLevels e d) (h' : NoMoreLevels d c) : NoMoreLevels e c :=
  ⟨h'.levels.trans h.levels, h'.terms.trans h.terms⟩

theorem of_levels {e c : Expr} (hsum : e.isSum = false) (h : c.levels ≤ e.levels) :
    NoMoreLevels e c :=
  ⟨h, (termLevels_le_levels c).trans (h.trans_eq (termLevels_of_isSum_eq_false hsum).symm)⟩

theorem of_terms {ts : List Expr} {c : Expr} (h : c.termLevels ≤ levelsAll ts) :
    NoMoreLevels (sum ts) c := by
  have := levels_le_termLevels c
  refine ⟨?_, h⟩
  rw [levels_sum]
  omega

/-- A sum that comes to something else makes room for a literal. -/
theorem add_literals_le {ts : List Expr} {s : Settings} {c : Expr} (h : NoMoreLevels (sum ts) c)
    (hc : c.IsBuilt s) : c.levels + c.literals ≤ (sum ts).levels := by
  have hfewer : c.isSum = false → c.levels ≤ levelsAll ts := fun hsum =>
    (termLevels_of_isSum_eq_false hsum).ge.trans h.terms
  have hliterals := literals_le_one hc
  cases c with
  | sum us => exact h.levels
  | _ =>
    have hlevels := hfewer rfl
    rw [levels_sum]
    omega

end NoMoreLevels

section

variable {s : Settings}

/-- A function that is no square root stays what it is. -/
theorem normalPass_call {n : String} {es cs : List Expr} (hsqrt : n = "sqrt" → es.length ≠ 1)
    (h : normalPassAll s es = .ok cs) : normalPass s (call n es) = .ok (call n cs) := by
  have hlen : es.length = cs.length := (normalPassAll_eq_ok_iff.mp h).length_eq
  rw [normalPass, h, ok_bind]
  split
  next c =>
    have hne : n ≠ "sqrt" := fun hn => hsqrt hn (by simpa using hlen)
    rw [if_neg hne]
    rfl
  next => rfl

/-- A base of a whole power that is passed over has no more literals, unless it has lost a level. -/
theorem add_literals_normalPass_le {b c : Expr} (hb : b.IsBuilt s)
    (hpower : ∀ d p, b ≠ power d p) (hproduct : ∀ fs, b ≠ product fs)
    (h : normalPass s b = .ok c) (hlevels : NoMoreLevels b c) :
    c.levels + c.literals ≤ b.levels + b.literals := by
  cases b with
  | number v =>
    obtain ⟨q, rfl⟩ := hb.isExact.exists_rat
    obtain rfl := Except.ok.inj h
    exact le_rfl
  | symbol n =>
    obtain rfl := Except.ok.inj h
    exact le_rfl
  | sum ts => exact hlevels.add_literals_le (normalPass_isBuilt hb.isExact h)
  | product fs => exact (hproduct fs rfl).elim
  | power d p => exact (hpower d p rfl).elim
  | negation e => exact (not_isBuilt_negation hb).elim
  | call n es =>
    rw [normalPass] at h
    obtain ⟨cs, hcs, h⟩ := bind_eq_ok_iff.mp h
    have hcall := normalPass_call (isBuilt_call.mp hb).1 hcs
    rw [normalPass, hcs, ok_bind, h] at hcall
    obtain rfl := Except.ok.inj hcall
    exact hlevels.levels
  | hole => exact (every_hole.mp hb).elim

/-- A pass over a tree of the right shape makes no levels. -/
theorem levels_normalPass {e c : Expr} (he : e.IsBuilt s) (h : normalPass s e = .ok c) :
    NoMoreLevels e c := by
  have hall : ∀ {es cs : List Expr},
      (∀ e ∈ es, ∀ {c}, e.IsBuilt s → normalPass s e = .ok c → NoMoreLevels e c) →
      (∀ e ∈ es, e.IsBuilt s) → normalPassAll s es = .ok cs →
      (∀ c ∈ cs, c.IsBuilt s) ∧ levelsAll cs ≤ levelsAll es := by
    intro es cs ih hes hcs
    have hpasses := (List.forall₂_and_left es cs).mpr ⟨hes, normalPassAll_eq_ok_iff.mp hcs⟩
    refine ⟨fun c hc => ?_, levelsAll_le ?_⟩
    · obtain ⟨e, -, he, hec⟩ := exists_mem_of_forall₂ hpasses hc
      exact normalPass_isBuilt he.isExact hec
    · exact ((List.forall₂_and_left es cs).mpr ⟨ih, hpasses⟩).imp
        fun e c ⟨ih, he, hec⟩ => (ih he hec).levels
  induction e generalizing c with
  | number v =>
    obtain ⟨q, rfl⟩ := he.isExact.exists_rat
    obtain rfl := Except.ok.inj h
    exact .refl _
  | symbol n =>
    obtain rfl := Except.ok.inj h
    exact .refl _
  | sum ts ih =>
    rw [normalPass] at h
    obtain ⟨cs, hcs, h⟩ := bind_eq_ok_iff.mp h
    obtain ⟨hbuilt, hle⟩ := hall ih (isBuilt_sum.mp he).2 hcs
    have hterms := termLevels_buildSum (fun c hc => (hbuilt c hc).isExact) h
    exact .of_terms (hterms.trans ((levelsAll_flatMap_terms_le cs).trans hle))
  | product fs ih =>
    rw [normalPass] at h
    obtain ⟨cs, hcs, h⟩ := bind_eq_ok_iff.mp h
    obtain ⟨hbuilt, hle⟩ := hall ih (isBuilt_product.mp he).2 hcs
    refine .of_levels rfl (((builders_levels s _).product hbuilt h).trans ?_)
    rwa [levels_product]
  | power b p ihb ihp =>
    obtain ⟨⟨-, hwhole⟩, hbbuilt, hpbuilt⟩ := isBuilt_power.mp he
    rw [normalPass] at h
    obtain ⟨c, hb, h⟩ := bind_eq_ok_iff.mp h
    obtain ⟨q, hp, h⟩ := bind_eq_ok_iff.mp h
    have hcbuilt := normalPass_isBuilt hbbuilt.isExact hb
    have hbase := ihb hbbuilt hb
    have hexponent := ihp hpbuilt hp
    have hpower := (builders_levels s _).power hcbuilt (normalPass_isBuilt hpbuilt.isExact hp) h
    refine .of_levels rfl (hpower.trans ?_)
    rw [he.levels_power]
    cases hint : p.isIntegerNumber with
    | true =>
      obtain ⟨k, rfl⟩ := (isIntegerNumber_iff hpbuilt.isExact).mp hint
      obtain rfl := Except.ok.inj hp
      obtain ⟨hnopower, hnoproduct⟩ := hwhole hint
      show raisedLevels c (rat k) ≤ raisedLevels b (rat k)
      rw [raisedLevels_intCast, raisedLevels_intCast]
      exact add_literals_normalPass_le hbbuilt hnopower hnoproduct hb hbase
    | false =>
      have hraised := raisedLevels_le hcbuilt q
      have hbaselevels := hbase.levels
      have hexponentlevels := hexponent.levels
      rw [raisedLevels_of_isIntegerNumber_eq_false hint]
      omega
  | negation e _ => exact (not_isBuilt_negation he).elim
  | call n es ih =>
    have hpass := h
    rw [normalPass] at h
    obtain ⟨cs, hcs, h⟩ := bind_eq_ok_iff.mp h
    obtain ⟨hsqrt, hes⟩ := isBuilt_call.mp he
    obtain ⟨-, hle⟩ := hall ih hes hcs
    obtain rfl := Except.ok.inj (hpass.symm.trans (normalPass_call hsqrt hcs))
    refine .of_levels rfl ?_
    rw [levels_call, levels_call]
    exact Nat.add_le_add_left hle 1
  | hole => exact (every_hole.mp he).elim

/-! ## Normal forms -/

/-- Only the first pass may make levels: from it on the trees have the right shape. -/
theorem exists_firstPass {e a : Expr} (he : e.IsExact) (h : normalForm s e = .ok a) :
    ∃ c, normalPass s e = .ok c ∧ NoMoreLevels c a := by
  refine normalForm_induction
    (motive := fun e a => e.IsExact → ∃ c, normalPass s e = .ok c ∧ NoMoreLevels c a)
    (fun {_ c} hpass _ _ => ⟨c, hpass, .refl c⟩) (fun {_ c a} hpass ih he => ?_) h he
  have hc := normalPass_isBuilt he hpass
  obtain ⟨d, hd, hlevels⟩ := ih hc.isExact
  exact ⟨c, hpass, (levels_normalPass hc hd).trans hlevels⟩

/-- The normal form of a sum of fixed trees. -/
theorem levels_normalForm_sum {rs : List Expr} {a : Expr} (hrs : ∀ r ∈ rs, r.IsFixed s)
    (h : normalForm s (sum rs) = .ok a) : NoMoreLevels (sum rs) a := by
  obtain ⟨c, hc, hlevels⟩ := exists_firstPass (isExact_sum.mpr fun r hr => (hrs r hr).isExact) h
  refine NoMoreLevels.trans (.of_terms ?_) hlevels
  rw [normalPass, normalPassAll_of_fixed hrs, ok_bind] at hc
  exact (termLevels_buildSum (fun r hr => (hrs r hr).isExact) hc).trans
    (levelsAll_flatMap_terms_le rs)

/-- The normal form of a product of fixed trees. -/
theorem levels_normalForm_product {fs : List Expr} {a : Expr} (hfs : ∀ f ∈ fs, f.IsFixed s)
    (h : normalForm s (product fs) = .ok a) : a.levels ≤ levelsAll fs := by
  obtain ⟨c, hc, hlevels⟩ :=
    exists_firstPass (isExact_product.mpr fun f hf => (hfs f hf).isExact) h
  refine hlevels.levels.trans ?_
  rw [normalPass, normalPassAll_of_fixed hfs, ok_bind] at hc
  exact (builders_levels s _).product (fun f hf => (hfs f hf).built) hc

/-- The normal form of a power of fixed trees. -/
theorem levels_normalForm_power {b p a : Expr} (hb : b.IsFixed s) (hp : p.IsFixed s)
    (h : normalForm s (power b p) = .ok a) : a.levels ≤ raisedLevels b p := by
  obtain ⟨c, hc, hlevels⟩ := exists_firstPass (isExact_power.mpr ⟨hb.isExact, hp.isExact⟩) h
  refine hlevels.levels.trans ?_
  rw [normalPass, hb.pass, ok_bind, hp.pass, ok_bind] at hc
  exact (builders_levels s _).power hb.built hp.built hc

/-- A function of fixed trees that is no square root is its own normal form. -/
theorem eq_of_normalForm_call {n : String} {es : List Expr} {c : Expr}
    (hsqrt : n = "sqrt" → es.length ≠ 1) (hes : ∀ e ∈ es, e.IsFixed s)
    (h : normalForm s (call n es) = .ok c) : c = call n es :=
  have hpass := normalPass_call hsqrt (normalPassAll_of_fixed hes)
  normalForm_eq_of_fixpoint hpass hpass h

/-- The normal form of minus one in front of a fixed sum. -/
theorem levels_normalForm_minusOne {us : List Expr} {a : Expr} (h : (sum us).IsFixed s)
    (ha : normalForm s (product [minusOne, sum us]) = .ok a) : NoMoreLevels (sum us) a := by
  have hfs : ∀ f ∈ [minusOne, sum us], f.IsFixed s := by simp [minusOne, h]
  obtain ⟨c, hc, hlevels⟩ :=
    exists_firstPass (isExact_product.mpr fun f hf => (hfs f hf).isExact) ha
  rw [normalPass, normalPassAll_of_fixed hfs, ok_bind] at hc
  exact .trans (.of_terms (termLevels_product_minusOne h.built hc)) hlevels

end

end AlgebraicForm
