import AlgebraicForm.Proofs.Tree
import Mathlib.Analysis.SpecialFunctions.Pow.Real

/-!
# The real meaning of an expression

An expression stands for a partial function of its symbols over the reals. Literals, sums, products
and negations mean what they say and are undefined if an operand is. A power is defined where
`PowerDefined` holds; there it is the power of the library. A square root of one argument is the
power one half, and every other function is given by the interpretation, on the arguments where it
is defined.

* `Expr.meaning`, with one lemma `meaning_…_eq_some_iff` for each constructor.
* `Refines a b`: wherever `a` is defined, `b` is defined and has the same value.
* The laws of `realPower`, each with its conditions on sign and zero.
-/

namespace AlgebraicForm

/-! ## Powers -/

/-- Where a power of reals is defined: for a whole exponent unless that is negative and the base is
zero, for a positive base, and for base zero and a positive exponent. -/
def PowerDefined (b p : ℝ) : Prop :=
  (∃ k : ℤ, p = k ∧ (b ≠ 0 ∨ 0 ≤ k)) ∨ 0 < b ∨ (b = 0 ∧ 0 < p)

open Classical in
/-- The power of two reals, where it is defined. -/
noncomputable def realPower (b p : ℝ) : Option ℝ :=
  if PowerDefined b p then some (b ^ p) else none

theorem realPower_eq_some_iff {b p x : ℝ} :
    realPower b p = some x ↔ PowerDefined b p ∧ b ^ p = x := by
  rw [realPower, Option.ite_none_right_eq_some, Option.some.injEq]

/-- A whole power is the power of a field. -/
theorem realPower_intCast {b : ℝ} {k : ℤ} (h : b ≠ 0 ∨ 0 ≤ k) :
    realPower b k = some (b ^ k) :=
  realPower_eq_some_iff.mpr ⟨.inl ⟨k, rfl, h⟩, Real.rpow_intCast b k⟩

theorem realPower_intCast_eq_some_iff {b x : ℝ} {k : ℤ} :
    realPower b k = some x ↔ (b ≠ 0 ∨ 0 ≤ k) ∧ b ^ k = x := by
  constructor
  · intro h
    obtain ⟨hd, rfl⟩ := realPower_eq_some_iff.mp h
    refine ⟨?_, (Real.rpow_intCast b k).symm⟩
    obtain ⟨j, hj, hb⟩ | hb | ⟨-, hk⟩ := hd
    · rwa [Int.cast_injective hj]
    · exact .inl hb.ne'
    · exact .inr (by exact_mod_cast hk.le)
  · rintro ⟨h, rfl⟩
    exact realPower_intCast h

@[simp] theorem realPower_zero (b : ℝ) : realPower b 0 = some 1 := by
  have h := realPower_intCast (b := b) (k := 0) (.inr le_rfl)
  simpa using h

@[simp] theorem realPower_one (b : ℝ) : realPower b 1 = some b := by
  have h := realPower_intCast (b := b) (k := 1) (.inr zero_le_one)
  simpa using h

@[simp] theorem realPower_one_left (p : ℝ) : realPower 1 p = some 1 :=
  realPower_eq_some_iff.mpr ⟨.inr (.inl one_pos), Real.one_rpow p⟩

theorem realPower_zero_left {p : ℝ} (h : 0 < p) : realPower 0 p = some 0 :=
  realPower_eq_some_iff.mpr ⟨.inr (.inr ⟨rfl, h⟩), Real.zero_rpow h.ne'⟩

theorem PowerDefined.exists_intCast {b p : ℝ} (h : PowerDefined b p) (hb : b < 0) :
    ∃ k : ℤ, p = k := by
  obtain ⟨k, hk, -⟩ | hb' | ⟨hb', -⟩ := h
  · exact ⟨k, hk⟩
  · exact absurd hb hb'.le.not_gt
  · exact absurd hb hb'.ge.not_gt

theorem PowerDefined.nonneg_of_zero {p : ℝ} (h : PowerDefined 0 p) : 0 ≤ p := by
  obtain ⟨k, rfl, hk⟩ | h | ⟨-, h⟩ := h
  · exact_mod_cast hk.resolve_left (by simp)
  · exact absurd h (lt_irrefl 0)
  · exact h.le

theorem powerDefined_zero_left {p : ℝ} (h : 0 ≤ p) : PowerDefined 0 p := by
  obtain h | rfl := h.lt_or_eq
  · exact .inr (.inr ⟨rfl, h⟩)
  · exact .inl ⟨0, by simp⟩

/-- Powers of one base multiply by adding the exponents. -/
theorem realPower_add {b p q x y : ℝ} (hx : realPower b p = some x) (hy : realPower b q = some y) :
    realPower b (p + q) = some (x * y) := by
  obtain ⟨hp, rfl⟩ := realPower_eq_some_iff.mp hx
  obtain ⟨hq, rfl⟩ := realPower_eq_some_iff.mp hy
  rw [realPower_eq_some_iff]
  obtain hb | rfl | hb := lt_trichotomy b 0
  · obtain ⟨m, rfl⟩ := hp.exists_intCast hb
    obtain ⟨n, rfl⟩ := hq.exists_intCast hb
    refine ⟨.inl ⟨m + n, by push_cast; rfl, .inl hb.ne⟩, ?_⟩
    rw [← Int.cast_add, Real.rpow_intCast, Real.rpow_intCast, Real.rpow_intCast,
      zpow_add₀ hb.ne]
  · have hp0 := hp.nonneg_of_zero
    have hq0 := hq.nonneg_of_zero
    refine ⟨powerDefined_zero_left (add_nonneg hp0 hq0), ?_⟩
    exact Real.rpow_add_of_nonneg le_rfl hp0 hq0
  · exact ⟨.inr (.inl hb), Real.rpow_add hb p q⟩

/-- A whole power of a power multiplies the exponents. -/
theorem realPower_power {b p x y : ℝ} {k : ℤ} (hx : realPower b p = some x)
    (hy : realPower x k = some y) : realPower b (p * k) = some y := by
  obtain ⟨hp, rfl⟩ := realPower_eq_some_iff.mp hx
  obtain ⟨hk, rfl⟩ := realPower_intCast_eq_some_iff.mp hy
  rw [realPower_eq_some_iff]
  obtain hb | rfl | hb := lt_trichotomy b 0
  · obtain ⟨m, rfl⟩ := hp.exists_intCast hb
    refine ⟨.inl ⟨m * k, by push_cast; rfl, .inl hb.ne⟩, ?_⟩
    rw [← Int.cast_mul, Real.rpow_intCast, Real.rpow_intCast, zpow_mul]
  · have hp0 := hp.nonneg_of_zero
    obtain hp0 | rfl := hp0.lt_or_eq
    · rw [Real.zero_rpow hp0.ne'] at hk ⊢
      have hk0 : 0 ≤ k := hk.resolve_left (by simp)
      refine ⟨powerDefined_zero_left (mul_nonneg hp0.le (by exact_mod_cast hk0)), ?_⟩
      rw [Real.rpow_mul le_rfl, Real.zero_rpow hp0.ne', Real.rpow_intCast]
    · simp [powerDefined_zero_left le_rfl]
  · exact ⟨.inr (.inl hb), by rw [Real.rpow_mul hb.le, Real.rpow_intCast]⟩

/-- A whole power of a product is the product of the powers. -/
theorem realPower_mul {b c x : ℝ} {k : ℤ} (h : realPower (b * c) k = some x) :
    ∃ y z, realPower b k = some y ∧ realPower c k = some z ∧ y * z = x := by
  obtain ⟨hk, rfl⟩ := realPower_intCast_eq_some_iff.mp h
  refine ⟨b ^ k, c ^ k, realPower_intCast ?_, realPower_intCast ?_, (mul_zpow b c k).symm⟩
  · exact hk.imp_left left_ne_zero_of_mul
  · exact hk.imp_left right_ne_zero_of_mul

theorem realPower_mul_self_half {x : ℝ} (h : 0 ≤ x) : realPower (x * x) (1 / 2) = some x := by
  refine realPower_eq_some_iff.mpr ⟨?_, ?_⟩
  · obtain h | h := (mul_self_nonneg x).lt_or_eq
    · exact .inr (.inl h)
    · exact .inr (.inr ⟨h.symm, by norm_num⟩)
  · rw [← Real.sqrt_eq_rpow, Real.sqrt_mul_self h]

/-! ## Interpretations -/

/-- Values of the symbols, and partial functions for the function names. -/
structure Interpretation where
  symbol : String → ℝ
  function : String → List ℝ → Option ℝ

/-- The value of a function; a square root of one argument is a power. -/
noncomputable def Interpretation.apply (M : Interpretation) (name : String) :
    List ℝ → Option ℝ
  | [x] => if name = "sqrt" then realPower x (1 / 2) else M.function name [x]
  | xs => M.function name xs

namespace Expr

mutual

/-- The value of an expression, where it is defined. -/
noncomputable def meaning (M : Interpretation) : Expr → Option ℝ
  | number v => v.toRat?.map fun q => (q : ℝ)
  | symbol name => some (M.symbol name)
  | sum ts => (meanings M ts).map List.sum
  | product fs => (meanings M fs).map List.prod
  | power b p => (meaning M b).bind fun x => (meaning M p).bind fun y => realPower x y
  | negation e => (meaning M e).map fun x => -x
  | call name es => (meanings M es).bind (M.apply name)
  | hole => none

/-- The values of several expressions, if all of them are defined. -/
noncomputable def meanings (M : Interpretation) : List Expr → Option (List ℝ)
  | [] => some []
  | e :: es => (meaning M e).bind fun x => (meanings M es).map (x :: ·)

end

variable {M : Interpretation}

@[simp] theorem meaning_rat (q : Rat) : (rat q).meaning M = some (q : ℝ) :=
  rfl

@[simp] theorem meaning_symbol (n : String) : (symbol n).meaning M = some (M.symbol n) :=
  rfl

@[simp] theorem meaning_zero : zero.meaning M = some 0 := by
  simp [zero]

@[simp] theorem meaning_one : one.meaning M = some 1 := by
  simp [one]

@[simp] theorem meaning_minusOne : minusOne.meaning M = some (-1) := by
  simp [minusOne]

@[simp] theorem meanings_nil : meanings M [] = some [] :=
  rfl

theorem meanings_cons (e : Expr) (es : List Expr) : meanings M (e :: es) =
    (e.meaning M).bind fun x => (meanings M es).map (x :: ·) :=
  rfl

theorem meanings_cons_eq_some_iff {e : Expr} {es : List Expr} {xs : List ℝ} :
    meanings M (e :: es) = some xs ↔
      ∃ y ys, e.meaning M = some y ∧ meanings M es = some ys ∧ y :: ys = xs := by
  simp [meanings_cons, Option.bind_eq_some_iff]

theorem meaning_sum (ts : List Expr) : (sum ts).meaning M = (meanings M ts).map List.sum :=
  rfl

theorem meaning_product (fs : List Expr) :
    (product fs).meaning M = (meanings M fs).map List.prod :=
  rfl

theorem meaning_power (b p : Expr) : (power b p).meaning M =
    (b.meaning M).bind fun x => (p.meaning M).bind fun y => realPower x y :=
  rfl

theorem meaning_negation (e : Expr) : (negation e).meaning M = (e.meaning M).map (- ·) :=
  rfl

theorem meaning_call (n : String) (es : List Expr) :
    (call n es).meaning M = (meanings M es).bind (M.apply n) :=
  rfl

theorem meaning_sum_eq_some_iff {ts : List Expr} {x : ℝ} :
    (sum ts).meaning M = some x ↔ ∃ xs, meanings M ts = some xs ∧ xs.sum = x := by
  rw [meaning_sum, Option.map_eq_some_iff]

theorem meaning_product_eq_some_iff {fs : List Expr} {x : ℝ} :
    (product fs).meaning M = some x ↔ ∃ xs, meanings M fs = some xs ∧ xs.prod = x := by
  rw [meaning_product, Option.map_eq_some_iff]

theorem meaning_power_eq_some_iff {b p : Expr} {x : ℝ} :
    (power b p).meaning M = some x ↔
      ∃ y z, b.meaning M = some y ∧ p.meaning M = some z ∧ realPower y z = some x := by
  simp [meaning_power, Option.bind_eq_some_iff]

theorem meaning_negation_eq_some_iff {e : Expr} {x : ℝ} :
    (negation e).meaning M = some x ↔ ∃ y, e.meaning M = some y ∧ -y = x := by
  rw [meaning_negation, Option.map_eq_some_iff]

theorem meaning_call_eq_some_iff {n : String} {es : List Expr} {x : ℝ} :
    (call n es).meaning M = some x ↔ ∃ xs, meanings M es = some xs ∧ M.apply n xs = some x := by
  rw [meaning_call, Option.bind_eq_some_iff]

/-- Operands of equal meaning may be exchanged. -/
theorem meanings_congr {ι : Type} {f g : ι → Expr} {ls : List ι}
    (h : ∀ l ∈ ls, (f l).meaning M = (g l).meaning M) :
    meanings M (ls.map f) = meanings M (ls.map g) := by
  induction ls with
  | nil => rfl
  | cons l ls ih =>
    rw [List.forall_mem_cons] at h
    rw [List.map_cons, List.map_cons, meanings_cons, meanings_cons, h.1, ih h.2]

/-! ## Sums and products, one operand at a time -/

@[simp] theorem meaning_sum_nil : (sum []).meaning M = some 0 :=
  rfl

@[simp] theorem meaning_product_nil : (product []).meaning M = some 1 :=
  rfl

theorem meaning_sum_cons_eq_some_iff {t : Expr} {ts : List Expr} {x : ℝ} :
    (sum (t :: ts)).meaning M = some x ↔
      ∃ y z, t.meaning M = some y ∧ (sum ts).meaning M = some z ∧ y + z = x := by
  simp only [meaning_sum_eq_some_iff, meanings_cons_eq_some_iff]
  constructor
  · rintro ⟨_, ⟨y, ys, hy, hys, rfl⟩, rfl⟩
    exact ⟨y, ys.sum, hy, ⟨ys, hys, rfl⟩, (List.sum_cons).symm⟩
  · rintro ⟨y, _, hy, ⟨ys, hys, rfl⟩, rfl⟩
    exact ⟨y :: ys, ⟨y, ys, hy, hys, rfl⟩, List.sum_cons⟩

theorem meaning_product_cons_eq_some_iff {f : Expr} {fs : List Expr} {x : ℝ} :
    (product (f :: fs)).meaning M = some x ↔
      ∃ y z, f.meaning M = some y ∧ (product fs).meaning M = some z ∧ y * z = x := by
  simp only [meaning_product_eq_some_iff, meanings_cons_eq_some_iff]
  constructor
  · rintro ⟨_, ⟨y, ys, hy, hys, rfl⟩, rfl⟩
    exact ⟨y, ys.prod, hy, ⟨ys, hys, rfl⟩, (List.prod_cons).symm⟩
  · rintro ⟨y, _, hy, ⟨ys, hys, rfl⟩, rfl⟩
    exact ⟨y :: ys, ⟨y, ys, hy, hys, rfl⟩, List.prod_cons⟩

@[simp] theorem meaning_sum_singleton (e : Expr) : (sum [e]).meaning M = e.meaning M := by
  ext x
  simp [meaning_sum_cons_eq_some_iff]

@[simp] theorem meaning_product_singleton (e : Expr) : (product [e]).meaning M = e.meaning M := by
  ext x
  simp [meaning_product_cons_eq_some_iff]

theorem meaning_sum_append_eq_some_iff {ts us : List Expr} {x : ℝ} :
    (sum (ts ++ us)).meaning M = some x ↔
      ∃ y z, (sum ts).meaning M = some y ∧ (sum us).meaning M = some z ∧ y + z = x := by
  induction ts generalizing x with
  | nil => simp
  | cons t ts ih =>
    simp only [List.cons_append, meaning_sum_cons_eq_some_iff, ih]
    constructor
    · rintro ⟨a, _, ha, ⟨b, c, hb, hc, rfl⟩, rfl⟩
      exact ⟨a + b, c, ⟨a, b, ha, hb, rfl⟩, hc, add_assoc a b c⟩
    · rintro ⟨_, c, ⟨a, b, ha, hb, rfl⟩, hc, rfl⟩
      exact ⟨a, b + c, ha, ⟨b, c, hb, hc, rfl⟩, (add_assoc a b c).symm⟩

theorem meaning_product_append_eq_some_iff {fs gs : List Expr} {x : ℝ} :
    (product (fs ++ gs)).meaning M = some x ↔
      ∃ y z, (product fs).meaning M = some y ∧ (product gs).meaning M = some z ∧ y * z = x := by
  induction fs generalizing x with
  | nil => simp
  | cons f fs ih =>
    simp only [List.cons_append, meaning_product_cons_eq_some_iff, ih]
    constructor
    · rintro ⟨a, _, ha, ⟨b, c, hb, hc, rfl⟩, rfl⟩
      exact ⟨a * b, c, ⟨a, b, ha, hb, rfl⟩, hc, mul_assoc a b c⟩
    · rintro ⟨_, c, ⟨a, b, ha, hb, rfl⟩, hc, rfl⟩
      exact ⟨a, b * c, ha, ⟨b, c, hb, hc, rfl⟩, (mul_assoc a b c).symm⟩

theorem meanings_perm {es fs : List Expr} (h : es.Perm fs) {xs : List ℝ}
    (hxs : meanings M es = some xs) : ∃ ys, meanings M fs = some ys ∧ xs.Perm ys := by
  induction h generalizing xs with
  | nil => exact ⟨xs, hxs, .refl xs⟩
  | cons e _ ih =>
    obtain ⟨y, ys, hy, hys, rfl⟩ := meanings_cons_eq_some_iff.mp hxs
    obtain ⟨zs, hzs, hperm⟩ := ih hys
    exact ⟨y :: zs, meanings_cons_eq_some_iff.mpr ⟨y, zs, hy, hzs, rfl⟩, hperm.cons y⟩
  | swap e f es =>
    obtain ⟨y, _, hy, htail, rfl⟩ := meanings_cons_eq_some_iff.mp hxs
    obtain ⟨z, zs, hz, hzs, rfl⟩ := meanings_cons_eq_some_iff.mp htail
    refine ⟨z :: y :: zs, ?_, .swap z y zs⟩
    exact meanings_cons_eq_some_iff.mpr
      ⟨z, y :: zs, hz, meanings_cons_eq_some_iff.mpr ⟨y, zs, hy, hzs, rfl⟩, rfl⟩
  | trans _ _ ih₁ ih₂ =>
    obtain ⟨ys, hys, h₁⟩ := ih₁ hxs
    obtain ⟨zs, hzs, h₂⟩ := ih₂ hys
    exact ⟨zs, hzs, h₁.trans h₂⟩

end Expr

/-! ## Refinement -/

/-- Wherever the first expression is defined, the second one is, and has the same value. -/
def Refines (a b : Expr) : Prop :=
  ∀ (M : Interpretation) (x : ℝ), a.meaning M = some x → b.meaning M = some x

namespace Refines

open AlgebraicForm.Expr

theorem refl (a : Expr) : Refines a a :=
  fun _ _ h => h

theorem trans {a b c : Expr} (hab : Refines a b) (hbc : Refines b c) : Refines a c :=
  fun M x h => hbc M x (hab M x h)

theorem meanings {M : Interpretation} {es fs : List Expr} (h : List.Forall₂ Refines es fs)
    {xs : List ℝ} (hxs : meanings M es = some xs) : Expr.meanings M fs = some xs := by
  induction h generalizing xs with
  | nil => exact hxs
  | cons hab _ ih =>
    obtain ⟨y, ys, hy, hys, rfl⟩ := meanings_cons_eq_some_iff.mp hxs
    exact meanings_cons_eq_some_iff.mpr ⟨y, ys, hab M y hy, ih hys, rfl⟩

end Refines

end AlgebraicForm
