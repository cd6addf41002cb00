import AlgebraicForm.Proofs.Depth

/-!
# Square roots of literals

The root of a fraction is looked for in its numerator and its denominator alone. Nothing is missed:
both parts of a reduced fraction that is a square are squares. So a root of a literal, called by
name or written as a power one half, becomes a literal exactly where the fraction is a square, and
stays a power one half elsewhere (`literalRoot`). One pass is enough for that, under any settings.

* `sqrt?_eq_some_iff`: the root is found if there is one, and is the one that is not negative.
* `literalPower?_half`: the short cuts for zero and one give what the root gives.
* `pass_sqrt`, `pass_half_power`, `pass_literalRoot`: one pass.
* `normalForm_root`: the normal form.
-/

namespace AlgebraicForm

open AlgebraicForm.Expr

/-! ## Roots of whole numbers and of fractions -/

theorem isqrt_eq_sqrt (n : Nat) : isqrt n = n.sqrt :=
  Nat.eq_sqrt.mpr (isqrt_bounds n)

/-- The square of a fraction that is not negative has that fraction for its root. -/
theorem sqrt?_mul_self {r : Rat} (hr : 0 ≤ r) : sqrt? (r * r) = some r := by
  have hnonneg : 0 ≤ r.num := Rat.num_nonneg.mpr hr
  -- a reduced fraction is squared part by part, without reducing it again
  have hnum : (r * r).num.toNat = r.num.toNat * r.num.toNat := by
    rw [Rat.mul_self_num, Int.toNat_mul hnonneg hnonneg]
  have hden : (r * r).den = r.den * r.den := Rat.mul_self_den r
  have hroot : mkRat r.num.toNat r.den = r := by
    rw [Int.toNat_of_nonneg hnonneg, Rat.mkRat_self]
  have hfound : isqrt (r * r).num.toNat = r.num.toNat ∧ isqrt (r * r).den = r.den := by
    rw [hnum, hden, isqrt_eq_sqrt, isqrt_eq_sqrt, Nat.sqrt_eq, Nat.sqrt_eq]
    exact ⟨rfl, rfl⟩
  rw [sqrt?, if_neg (not_lt.mpr (mul_self_nonneg r))]
  dsimp only
  rw [hfound.1, hfound.2, if_pos ⟨hnum.symm, hden.symm⟩, hroot]

theorem sqrt?_eq_some_iff {q r : Rat} : sqrt? q = some r ↔ 0 ≤ r ∧ r * r = q := by
  constructor
  · exact sqrt?_eq_some
  · rintro ⟨hr, rfl⟩
    exact sqrt?_mul_self hr

theorem exists_sqrt?_eq_some_iff {q : Rat} : (∃ r, sqrt? q = some r) ↔ IsSquare q := by
  constructor
  · rintro ⟨r, hr⟩
    exact ⟨r, (sqrt?_eq_some hr).2.symm⟩
  · rintro ⟨r, rfl⟩
    exact ⟨|r|, sqrt?_eq_some_iff.mpr ⟨abs_nonneg r, abs_mul_abs_self r⟩⟩

/-! ## Powers one half -/

/-- A literal that counts as one half, in either kind of number, becomes the fraction one half. -/
theorem Number.canonical_of_isHalf {half : Number} (h : half.isHalf = true) :
    half.canonical = .half := by
  cases half with
  | exact q =>
    obtain rfl : q = 1 / 2 := by simpa using h
    rw [canonical_exact, half_eq]
  | approx x =>
    have hvalue : Decimal.exactValue? x = some (mkRat 1 2) := by
      simpa [isHalf, equals, Number.half] using h
    have hden : (mkRat 1 2).den ≤ 16 := by decide
    rw [canonical, hvalue]
    exact if_pos hden

theorem foldPower?_half (s : Settings) (q : Rat) : foldPower? s q (1 / 2) = sqrt? q := by
  have hhalf : (1 / 2 : Rat) = mkRat 1 2 := by rw [Rat.mkRat_eq_div]; norm_num
  have hfraction : ¬(mkRat 1 2).den = 1 := by decide
  rw [foldPower?, hhalf, if_neg fun h => hfraction h.1, if_pos rfl]

/-- The literals alone decide a power one half by the root of the base, zero and one included. -/
theorem literalPower?_half (s : Settings) (q : Rat) :
    literalPower? s (rat q) (number .half) = (sqrt? q).map rat := by
  rw [Number.half_eq]
  by_cases hzero : q = 0
  · subst hzero
    have hroot : sqrt? 0 = some 0 := sqrt?_eq_some_iff.mpr ⟨le_rfl, mul_zero 0⟩
    simp [literalPower?, hroot, zero]
  · by_cases hone : q = 1
    · subst hone
      have hroot : sqrt? 1 = some 1 := sqrt?_eq_some_iff.mpr ⟨zero_le_one, mul_one 1⟩
      simp [literalPower?, hroot, one]
    · rw [literalPower?_rat hzero hone (by norm_num) (by norm_num), foldPower?_half]

/-- The square root of a literal: that of a square is a literal, any other one a power one half. -/
def literalRoot (q : Rat) : Expr :=
  match sqrt? q with
  | some r => rat r
  | none => power (rat q) (number .half)

theorem literalRoot_eq_number_iff {q : Rat} {v : Number} :
    literalRoot q = number v ↔ ∃ r, v = .exact r ∧ sqrt? q = some r := by
  unfold literalRoot
  cases sqrt? q with
  | some r => simp [eq_comm]
  | none => simp

theorem isExact_literalRoot (q : Rat) : (literalRoot q).IsExact := by
  unfold literalRoot
  split
  next r _ => exact isExact_rat r
  next => exact isExact_power.mpr ⟨isExact_rat q, isExact_rat _⟩

/-- The power one half of a literal is its root. -/
theorem power_half (s : Settings) (q : Rat) :
    s.power (rat q) (number .half) = .ok (literalRoot q) := by
  rw [power_eq_powerStep, literalRoot]
  unfold powerStep
  rw [literalPower?_half]
  cases sqrt? q with
  | some r => rfl
  | none =>
    have hfraction : (number .half).isIntegerNumber = false := by decide
    simp [hfraction]

/-! ## One pass -/

section

variable {s : Settings} {e : Expr} {q : Rat}

/-- The root of whatever a pass makes a literal of is the root of that literal. -/
theorem pass_sqrt (he : normalPass s e = .ok (rat q)) :
    normalPass s (call "sqrt" [e]) = .ok (literalRoot q) := by
  have hargument : normalPassAll s [e] = .ok [rat q] :=
    normalPassAll_eq_ok_iff.mpr (.cons he .nil)
  rw [normalPass, hargument, ok_bind]
  exact power_half s q

theorem pass_half_power {half : Number} (he : normalPass s e = .ok (rat q))
    (hhalf : half.isHalf = true) :
    normalPass s (power e (number half)) = .ok (literalRoot q) := by
  rw [normalPass, normalPass, he, Number.canonical_of_isHalf hhalf, ok_bind, ok_bind]
  exact power_half s q

/-- A pass keeps the root of a literal, taken out or not. -/
theorem pass_literalRoot : normalPass s (literalRoot q) = .ok (literalRoot q) := by
  cases hroot : sqrt? q with
  | some r =>
    rw [literalRoot, hroot]
    exact (isFixed_rat r).pass
  | none =>
    have hself : literalRoot q = power (rat q) (number .half) := by rw [literalRoot, hroot]
    conv_lhs => rw [hself]
    exact pass_half_power (isFixed_rat q).pass rfl

end

/-! ## The normal form -/

/-- Where two passes are allowed, a square root of a literal has a normal form, the same whether it
is called by name or written as a power, with a fraction or a double for the exponent one half. It
is a literal exactly if the fraction under the root is a square, and then it is the root that is not
negative. -/
theorem normalForm_root {s : Settings} (hpasses : 2 ≤ s.maxPasses) (q : Rat) {half : Number}
    (hhalf : half.isHalf = true) :
    ∃ c, normalForm s (call "sqrt" [rat q]) = .ok c ∧
      normalForm s (power (rat q) (number half)) = .ok c ∧
      ((∃ v, c = number v) ↔ IsSquare q) ∧
      ∀ v, c = number v → ∃ r : Rat, v = .exact r ∧ 0 ≤ r ∧ r * r = q := by
  have hexact := isExact_literalRoot q
  have hbase : normalPass s (rat q) = .ok (rat q) := (isFixed_rat q).pass
  refine ⟨literalRoot q, normalForm_of_fixpoint hpasses hexact (pass_sqrt hbase) pass_literalRoot,
    normalForm_of_fixpoint hpasses hexact (pass_half_power hbase hhalf) pass_literalRoot, ?_, ?_⟩
  · rw [← exists_sqrt?_eq_some_iff]
    constructor
    · rintro ⟨v, hv⟩
      obtain ⟨r, -, hr⟩ := literalRoot_eq_number_iff.mp hv
      exact ⟨r, hr⟩
    · rintro ⟨r, hr⟩
      exact ⟨.exact r, literalRoot_eq_number_iff.mpr ⟨r, rfl, hr⟩⟩
  · intro v hv
    obtain ⟨r, rfl, hr⟩ := literalRoot_eq_number_iff.mp hv
    exact ⟨r, rfl, sqrt?_eq_some hr⟩

/-- With no folding of powers and two passes, the root of `50/8` comes out as `5/2`, with the
exponent one half as a double too. -/
theorem normalForm_root_quotient :
    let s := { Settings.standard with maxFoldExponent := 0, maxPasses := 2 }
    2 ≤ s.maxPasses ∧ (Number.approx 0.5).isHalf = true ∧
      normalForm s (call "sqrt" [rat (50 / 8)]) = .ok (rat (5 / 2)) ∧
      normalForm s (power (rat (50 / 8)) (number (.approx 0.5))) = .ok (rat (5 / 2)) := by
  intro s
  have hpasses : 2 ≤ s.maxPasses := le_rfl
  have hhalf : (Number.approx 0.5).isHalf = true := by decide +kernel
  obtain ⟨c, hcall, hpower, hliteral, hvalue⟩ := normalForm_root hpasses (50 / 8) hhalf
  obtain ⟨v, rfl⟩ := hliteral.mpr ⟨5 / 2, by norm_num⟩
  obtain ⟨r, rfl, hr, hsquare⟩ := hvalue v rfl
  obtain rfl : r = 5 / 2 := by nlinarith
  exact ⟨hpasses, hhalf, hcall, hpower⟩

end AlgebraicForm
