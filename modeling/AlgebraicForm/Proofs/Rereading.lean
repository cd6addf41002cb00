import AlgebraicForm.Expr.Printer
import AlgebraicForm.Proofs.Computation
import AlgebraicForm.Proofs.Laws

/-!
# What a printed expression reads back as

The text of an expression is read back as another expression: quotients are products with a power
minus one, signs are negations, square roots are calls. `Reads e fs` says that the text of `e` reads
back as a term with the factors `fs`. There is one rule for each way of writing; where brackets make
no difference to what is read, the rules leave open whether they are there. A function without
arguments would read back as itself, if there were a reader for it.

* `Reads.meaning`: what is read back has the meaning of what was written, also where that has none.
-/

namespace AlgebraicForm

open AlgebraicForm.Expr

/-! ## The parts of a quotient -/

namespace Expr

/-- The factors of a fraction that is not negative: its numerator and its denominator. -/
def literalFactors (q : Rat) : List Expr :=
  rat q.num :: if q.den = 1 then [] else [power (rat q.den) minusOne]

/-- Whether a factor is written below the line. -/
def isDivided : Expr → Bool
  | power b (number v) => v.isNegative && !b.isZeroNumber
  | _ => false

/-- What is written of a factor: the base if it is below the line, and the factor above it. -/
def pieceBody : Expr → Expr
  | power b (number v) => if v.isNegative && !b.isZeroNumber then b else power b (number v)
  | e => e

/-- The exponent of a factor below the line, without its sign. -/
def pieceExponent : Expr → Rat
  | power _ (number (.exact v)) => -v
  | _ => 1

/-- A factor above the line is written as it is. -/
theorem pieceBody_of_isDivided_eq_false {e : Expr} (h : e.isDivided = false) :
    e.pieceBody = e := by
  unfold isDivided at h
  unfold pieceBody
  split at h
  next => simp [h]
  next => rfl

/-- A factor below the line is a power with a negative literal exponent. -/
theorem divided_of_isDivided {e : Expr} (he : e.IsExact) (h : e.isDivided = true) :
    ∃ b v, e = power b (rat v) ∧ v < 0 ∧ b.isZeroNumber = false ∧ e.pieceBody = b ∧
      e.pieceExponent = -v := by
  unfold isDivided at h
  split at h
  next b v =>
    obtain ⟨q, rfl⟩ := (isExact_power.mp he).2.exists_rat
    simp only [Number.isNegative_exact, Bool.and_eq_true, decide_eq_true_eq, Bool.not_eq_true'] at h
    exact ⟨b, q, rfl, h.1, h.2, by simp [pieceBody, h.1, h.2], rfl⟩
  next => simp at h

/-- What a base to a positive exponent reads back as below the line. -/
def belowLine (v : Rat) (r : Expr) : Expr :=
  if v = 1 then r
  else if v = 1 / 2 then call "sqrt" [r]
  else power r (ofFactors (literalFactors v))

end Expr

/-- The factors of a quotient of products. -/
def quotientFactors (ns ds : List Expr) : List Expr :=
  (if ns = [] then [one] else ns) ++ if ds = [] then [] else [power (ofFactors ds) minusOne]

/-- Factors with what they read back as. -/
abbrev ReadPieces := List (Expr × List Expr)

namespace ReadPieces

/-- What is read back above the line. -/
def above (ls : ReadPieces) : List Expr :=
  (ls.filter (!·.1.isDivided)).map (ofFactors ·.2)

/-- What is read back below the line. -/
def below (ls : ReadPieces) : List Expr :=
  (ls.filter (·.1.isDivided)).map fun l => belowLine l.1.pieceExponent (ofFactors l.2)

theorem above_cons (l : Expr × List Expr) (ls : ReadPieces) :
    above (l :: ls) = above [l] ++ above ls := by
  rw [above, above, above, ← List.map_append, ← List.filter_append]
  rfl

theorem below_cons (l : Expr × List Expr) (ls : ReadPieces) :
    below (l :: ls) = below [l] ++ below ls := by
  rw [below, below, below, ← List.map_append, ← List.filter_append]
  rfl

end ReadPieces

/-- A later term of a sum, with the sign that stands in front of it. -/
def signedTerm (l : Expr × List Expr) : Expr :=
  if l.1.splitSign.1 then negation (ofFactors l.2) else ofFactors l.2

/-- A minus sign in front of a term belongs to all of it if there are brackets, and else to its
first factor, which is then no sum. -/
inductive Negates : List Expr → List Expr → Prop
  | all (fs : List Expr) : Negates fs [negation (ofFactors fs)]
  | first {f : Expr} (fs : List Expr) : f.isSum = false → Negates (f :: fs) (negation f :: fs)

/-- The text of an expression reads back as a term with these factors. -/
inductive Reads : Expr → List Expr → Prop
  | literal {q : Rat} : 0 ≤ q → Reads (rat q) (literalFactors q)
  | symbol (n : String) : Reads (symbol n) [symbol n]
  | signed {e m : Expr} {fs gs : List Expr} : e.IsExact →
      e.splitSign = (true, m) → Reads m fs → Negates fs gs → Reads e gs
  | singleTerm {t : Expr} {fs gs : List Expr} :
      Reads t fs → gs = fs ∨ gs = [ofFactors fs] → Reads (sum [t]) gs
  | sum {t : Expr} {fs : List Expr} (ls : List (Expr × List Expr)) :
      (∀ l ∈ ls, l.1.IsExact) → ls ≠ [] → Reads t fs →
      (∀ l ∈ ls, Reads l.1.splitSign.2 l.2) →
      Reads (sum (t :: ls.map (·.1))) [sum (ofFactors fs :: ls.map signedTerm)]
  | quotient {q : Rat} {es : List Expr} (ls : ReadPieces) : (product es).IsExact → 0 ≤ q →
      es = rat q :: ls.map (·.1) ∨ (q = 1 ∧ es = ls.map (·.1)) →
      (es = ls.map (·.1) → ∀ v rest, es ≠ number v :: rest) →
      (∀ l ∈ ls, Reads l.1.pieceBody l.2) →
      Reads (product es) (quotientFactors
        ((if q.num = 1 then [] else [rat q.num]) ++ ls.above)
        ((if q.den = 1 then [] else [rat q.den]) ++ ls.below))
  | root {b : Expr} {fs : List Expr} :
      Reads b fs → Reads (power b (rat (1 / 2))) [call "sqrt" [ofFactors fs]]
  | zeroReciprocal {v : Rat} {fs : List Expr} : v < 0 → Reads (rat v) fs →
      Reads (power zero (rat v)) [power zero (ofFactors fs)]
  | reciprocal {b : Expr} {v : Rat} {fs : List Expr} : v < 0 → b.isZeroNumber = false →
      Reads b fs → Reads (power b (rat v)) [one, power (belowLine (-v) (ofFactors fs)) minusOne]
  | power {b p : Expr} {fs gs : List Expr} : p.isHalf = false → p.isNegativeNumber = false →
      Reads b fs → Reads p gs → Reads (power b p) [power (ofFactors fs) (ofFactors gs)]
  | call (n : String) (ls : List (Expr × List Expr)) : (∀ l ∈ ls, Reads l.1 l.2) →
      Reads (call n (ls.map (·.1))) [call n (ls.map (ofFactors ·.2))]

/-! ## The meaning of the parts -/

section

variable {M : Interpretation}

/-- The reciprocal of a value, unless that is zero. -/
noncomputable def reciprocal (x : Option ℝ) : Option ℝ :=
  x.bind fun x => realPower x (-1)

/-- The product of two values. -/
noncomputable def times (x y : Option ℝ) : Option ℝ :=
  x.bind fun x => y.map (x * ·)

@[simp] theorem times_one (x : Option ℝ) : times x (some 1) = x := by
  cases x <;> simp [times]

@[simp] theorem one_times (x : Option ℝ) : times (some 1) x = x := by
  cases x <;> simp [times]

theorem times_comm (x y : Option ℝ) : times x y = times y x := by
  cases x <;> cases y <;> simp [times, mul_comm]

theorem times_assoc (x y z : Option ℝ) : times (times x y) z = times x (times y z) := by
  cases x <;> cases y <;> cases z <;> simp [times, mul_assoc]

@[simp] theorem reciprocal_one : reciprocal (some 1) = some 1 := by
  simp [reciprocal]

theorem realPower_neg_one (x : ℝ) : realPower x (-1) = if x = 0 then none else some x⁻¹ := by
  have hcast : (-1 : ℝ) = ((-1 : ℤ) : ℝ) := by norm_num
  split
  next h =>
    subst h
    cases hp : realPower 0 (-1) with
    | none => rfl
    | some y =>
      rw [hcast, realPower_intCast_eq_some_iff] at hp
      simp at hp
  next h =>
    rw [hcast, realPower_intCast (.inl h), zpow_neg_one]

theorem reciprocal_times (x y : Option ℝ) :
    reciprocal (times x y) = times (reciprocal x) (reciprocal y) := by
  cases x with
  | none => rfl
  | some x =>
    cases y with
    | none => cases h : reciprocal (some x) <;> simp [times, reciprocal]
    | some y =>
      simp only [times, reciprocal, Option.bind_some, Option.map_some, realPower_neg_one,
        mul_eq_zero]
      by_cases hx : x = 0 <;> by_cases hy : y = 0 <;> simp [hx, hy, mul_comm]

theorem meaning_product_cons (f : Expr) (fs : List Expr) :
    (product (f :: fs)).meaning M = times (f.meaning M) ((product fs).meaning M) := by
  ext x
  simp [meaning_product_cons_eq_some_iff, times, Option.bind_eq_some_iff]

theorem meaning_product_append (fs gs : List Expr) :
    (product (fs ++ gs)).meaning M =
      times ((product fs).meaning M) ((product gs).meaning M) := by
  ext x
  simp [meaning_product_append_eq_some_iff, times, Option.bind_eq_some_iff]

theorem meaning_reciprocal (e : Expr) :
    (power e minusOne).meaning M = reciprocal (e.meaning M) := by
  simp [meaning, minusOne, reciprocal]

/-- A quotient means the product above the line times the reciprocal of the one below. -/
theorem meaning_quotientFactors (ns ds : List Expr) :
    (product (quotientFactors ns ds)).meaning M =
      times ((product ns).meaning M) (reciprocal ((product ds).meaning M)) := by
  rw [quotientFactors, meaning_product_append]
  congr 1
  · split
    next h => simp [h]
    next => rfl
  · split
    next h => simp [h]
    next => rw [meaning_product_singleton, meaning_reciprocal, meaning_ofFactors]

/-- A fraction is its numerator over its denominator. -/
theorem times_reciprocal_cast (q : Rat) :
    times (some (q.num : ℝ)) (reciprocal (some (q.den : ℝ))) = some (q : ℝ) := by
  have hden : (q.den : ℝ) ≠ 0 := by exact_mod_cast q.den_nz
  simp only [reciprocal, Option.bind_some, realPower_neg_one, hden, ↓reduceIte, times,
    Option.map_some, ← div_eq_mul_inv]
  rw [Rat.cast_def]

theorem meaning_literalFactors (q : Rat) :
    (product (literalFactors q)).meaning M = some (q : ℝ) := by
  have hq := times_reciprocal_cast q
  rw [literalFactors, meaning_product_cons, meaning_rat, Rat.cast_intCast]
  split
  next h =>
    rw [h, Nat.cast_one, reciprocal_one] at hq
    rwa [meaning_product_nil]
  next =>
    rwa [meaning_product_singleton, meaning_reciprocal, meaning_rat, Rat.cast_natCast]

theorem realPower_neg {x v : ℝ} (hv : 0 < v) :
    realPower x (-v) = (realPower x v).bind fun y => realPower y (-1) := by
  by_cases hd : PowerDefined x v
  · have hsome : realPower x v = some (x ^ v) := realPower_eq_some_iff.mpr ⟨hd, rfl⟩
    rw [hsome, Option.bind_some, realPower_neg_one]
    obtain hx | rfl | hx := lt_trichotomy x 0
    · obtain ⟨k, rfl⟩ := hd.exists_intCast hx
      rw [Real.rpow_intCast, if_neg (zpow_ne_zero k hx.ne), ← Int.cast_neg,
        realPower_intCast (.inl hx.ne), zpow_neg]
    · rw [Real.zero_rpow hv.ne', if_pos rfl]
      cases hp : realPower 0 (-v) with
      | none => rfl
      | some y =>
        have := (realPower_eq_some_iff.mp hp).1.nonneg_of_zero
        linarith
    · rw [if_neg (Real.rpow_pos_of_pos hx v).ne', ← Real.rpow_neg hx.le]
      exact realPower_eq_some_iff.mpr ⟨.inr (.inl hx), rfl⟩
  · have hnone : realPower x v = none := by rw [realPower, if_neg hd]
    rw [hnone, Option.bind_none, realPower, if_neg]
    rintro (⟨k, hk, hx⟩ | hx | ⟨rfl, hneg⟩)
    · refine hd (.inl ⟨-k, by push_cast; linarith, .inr ?_⟩)
      have : (k : ℝ) < 0 := by linarith
      have : k < 0 := by exact_mod_cast this
      omega
    · exact hd (.inr (.inl hx))
    · linarith

/-- A base to a positive exponent below the line means that power. -/
theorem meaning_belowLine {v : Rat} {r b : Expr} (hr : r.meaning M = b.meaning M) :
    (belowLine v r).meaning M = (power b (rat v)).meaning M := by
  unfold belowLine
  split_ifs with hone hhalf
  · rw [hr, hone, meaning_power, meaning_rat]
    cases b.meaning M <;> simp
  · rw [meaning_call, hhalf, meanings, meanings_nil, hr, meaning_power, meaning_rat]
    cases b.meaning M <;> simp [Interpretation.apply]
  · rw [meaning_power, meaning_power, hr, meaning_ofFactors, meaning_literalFactors, meaning_rat]

/-- A power with a negative exponent means the reciprocal of what stands below the line. -/
theorem meaning_reciprocal_belowLine {v : Rat} (hv : v < 0) {r b : Expr}
    (hr : r.meaning M = b.meaning M) :
    reciprocal ((belowLine (-v) r).meaning M) = (power b (rat v)).meaning M := by
  rw [meaning_belowLine hr, meaning_power, meaning_power, meaning_rat, meaning_rat]
  have hpos : (0 : ℝ) < ((-v : Rat) : ℝ) := by exact_mod_cast neg_pos.mpr hv
  have hneg : (v : ℝ) = -((-v : Rat) : ℝ) := by push_cast; ring
  cases b.meaning M with
  | none => rfl
  | some x => rw [Option.bind_some, Option.bind_some, Option.bind_some, Option.bind_some, hneg,
      realPower_neg hpos, reciprocal]

/-- What is left of a product when a sign has been taken out. -/
@[simp] theorem meaning_ofRemaining (es : List Expr) :
    (ofRemaining es).meaning M = (product es).meaning M := by
  unfold ofRemaining
  split <;> simp

theorem splitSign_eq_self {e m : Expr} (h : e.splitSign = (false, m)) : m = e := by
  unfold splitSign at h
  split at h
  · split at h
    · simp at h
    · exact (Prod.mk.inj h).2.symm
  · simp at h
  · split at h
    · simp at h
    · exact (Prod.mk.inj h).2.symm
  · simp at h
  · exact (Prod.mk.inj h).2.symm

theorem meaning_splitSign {e m : Expr} (he : e.IsExact) (h : e.splitSign = (true, m)) :
    e.meaning M = (m.meaning M).map (- ·) := by
  have hneg : ∀ x : Option ℝ, (x.map (- ·)).map (- ·) = x := by
    intro x
    cases x <;> simp
  have hfirst : ∀ (f g : Expr) (es : List Expr), f.meaning M = (g.meaning M).map (- ·) →
      (product (f :: es)).meaning M = ((product (g :: es)).meaning M).map (- ·) := by
    intro f g es hfg
    rw [meaning_product_cons, meaning_product_cons, hfg]
    cases g.meaning M <;> cases (product es).meaning M <;> simp [times]
  unfold splitSign at h
  split at h
  next v =>
    obtain ⟨q, rfl⟩ := he.exists_rat
    split at h
    · obtain rfl := (Prod.mk.inj h).2
      simp [Number.neg]
    · simp at h
  next e =>
    obtain rfl := (Prod.mk.inj h).2
    rw [meaning_negation]
  next v rest =>
    obtain ⟨q, rfl⟩ := (isExact_product.mp he (number v) (by simp)).exists_rat
    split at h
    · obtain rfl := (Prod.mk.inj h).2
      rw [meaning_ofRemaining]
      split
      next hq =>
        have hq : q = -1 := by simpa using hq
        have hone : (product rest).meaning M = (product (one :: rest)).meaning M := by
          rw [meaning_product_cons, meaning_one, one_times]
        rw [hone, hq]
        exact hfirst _ _ rest (by simp)
      next => exact hfirst _ _ rest (by simp [Number.neg])
    · simp at h
  next e rest =>
    obtain rfl := (Prod.mk.inj h).2
    rw [meaning_ofRemaining]
    exact hfirst _ _ rest (meaning_negation e)
  next => simp at h

theorem Negates.meaning {fs gs : List Expr} (h : Negates fs gs) :
    (product gs).meaning M = ((product fs).meaning M).map (- ·) := by
  cases h with
  | all => rw [meaning_product_singleton, meaning_negation, meaning_ofFactors]
  | @first f fs _ =>
    rw [meaning_product_cons, meaning_product_cons, meaning_negation]
    cases f.meaning M <;> cases (product fs).meaning M <;> simp [times]

/-- What is read back above and below the line has the meaning of the factors. -/
theorem ReadPieces.meaning {ls : ReadPieces} (hexact : ∀ l ∈ ls, l.1.IsExact)
    (h : ∀ l ∈ ls, (product l.2).meaning M = l.1.pieceBody.meaning M) :
    times ((product ls.above).meaning M) (reciprocal ((product ls.below).meaning M)) =
      (product (ls.map (·.1))).meaning M := by
  induction ls with
  | nil => simp [above, below]
  | cons l ls ih =>
    rw [List.forall_mem_cons] at h hexact
    obtain ⟨e, fs⟩ := l
    rw [List.map_cons, meaning_product_cons, ← ih hexact.2 h.2]
    cases hdiv : e.isDivided with
    | true =>
      obtain ⟨b, v, rfl, hv, -, hbody, hexponent⟩ := divided_of_isDivided hexact.1 hdiv
      have hr : (ofFactors fs).meaning M = b.meaning M := by
        rw [meaning_ofFactors, h.1, hbody]
      simp only [above, below, List.filter_cons, hdiv, Bool.not_true, Bool.false_eq_true,
        ↓reduceIte, List.map_cons, meaning_product_cons, reciprocal_times, hexponent]
      rw [meaning_reciprocal_belowLine hv hr, ← times_assoc, ← times_assoc, times_comm _
        ((Expr.power b (rat v)).meaning M)]
    | false =>
      rw [pieceBody_of_isDivided_eq_false hdiv] at h
      simp only [above, below, List.filter_cons, hdiv, Bool.not_false, Bool.false_eq_true,
        ↓reduceIte, List.map_cons, meaning_product_cons, meaning_ofFactors, h.1, times_assoc]

end

theorem Reads.meaning {e : Expr} {fs : List Expr} (h : Reads e fs) (M : Interpretation) :
    (product fs).meaning M = e.meaning M := by
  induction h with
  | literal _ => rw [meaning_literalFactors, meaning_rat]
  | symbol n => rw [meaning_product_singleton]
  | signed he hsplit _ hneg ih => rw [hneg.meaning, ih, meaning_splitSign he hsplit]
  | singleTerm _ hgs ih =>
    obtain rfl | rfl := hgs
    · rw [ih, meaning_sum_singleton]
    · rw [meaning_product_singleton, meaning_ofFactors, ih, meaning_sum_singleton]
  | @sum t fs ls hexact _ _ _ iht ihs =>
    have hlater : ∀ l ∈ ls, (signedTerm l).meaning M = l.1.meaning M := by
      intro l hl
      have hl' := ihs l hl
      unfold signedTerm
      cases hs : l.1.splitSign with
      | mk sign m =>
        rw [hs] at hl'
        cases sign with
        | true =>
          rw [if_pos rfl, meaning_negation, meaning_ofFactors, hl',
            meaning_splitSign (hexact l hl) hs]
        | false =>
          rw [if_neg (by simp), meaning_ofFactors, hl', splitSign_eq_self hs]
    rw [meaning_product_singleton, Expr.meaning, Expr.meaning, meanings, meanings,
      meaning_ofFactors, iht, meanings_congr hlater]
  | @quotient q es ls hexact _ hes _ _ ih =>
    have hmem : ∀ l ∈ ls, l.1.IsExact := by
      intro l hl
      refine isExact_product.mp hexact l.1 ?_
      obtain rfl | ⟨-, rfl⟩ := hes
      · exact List.mem_cons_of_mem _ (List.mem_map_of_mem hl)
      · exact List.mem_map_of_mem hl
    have hes' : (product es).meaning M =
        times (some (q : ℝ)) ((product (ls.map (·.1))).meaning M) := by
      obtain rfl | ⟨rfl, rfl⟩ := hes
      · rw [meaning_product_cons, meaning_rat]
      · simp
    have hnum : (product (if q.num = 1 then [] else [rat q.num])).meaning M = some (q.num : ℝ) := by
      split
      next h => simp [h]
      next => simp
    have hden : (product (if q.den = 1 then [] else [rat q.den])).meaning M = some (q.den : ℝ) := by
      split
      next h => simp [h]
      next => simp
    rw [meaning_quotientFactors, meaning_product_append, meaning_product_append, hnum, hden, hes',
      ← ReadPieces.meaning hmem ih, reciprocal_times, ← times_reciprocal_cast]
    simp only [times_assoc]
    congr 1
    rw [← times_assoc, ← times_assoc, times_comm ((product ls.above).meaning M)]
  | root _ ih =>
    rw [meaning_product_singleton, meaning_call, meanings, meanings_nil, meaning_ofFactors, ih,
      meaning_power, meaning_rat]
    rename_i b _ _
    cases b.meaning M <;> simp [Interpretation.apply]
  | @zeroReciprocal v fs _ _ ih =>
    rw [meaning_product_singleton, meaning_power, meaning_power, meaning_ofFactors, ih]
  | reciprocal hv _ _ ih =>
    rw [meaning_product_cons, meaning_one, one_times, meaning_product_singleton,
      meaning_reciprocal, meaning_reciprocal_belowLine hv]
    rw [meaning_ofFactors, ih]
  | power _ _ _ _ ihb ihp =>
    rw [meaning_product_singleton, meaning_power, meaning_power, meaning_ofFactors,
      meaning_ofFactors, ihb, ihp]
  | call n ls _ ih =>
    have harguments : ∀ l ∈ ls, (ofFactors l.2).meaning M = l.1.meaning M := by
      intro l hl
      rw [meaning_ofFactors, ih l hl]
    rw [meaning_product_singleton, meaning_call, meaning_call, meanings_congr harguments]

end AlgebraicForm
