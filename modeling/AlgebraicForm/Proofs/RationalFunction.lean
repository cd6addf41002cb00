import AlgebraicForm.Proofs.LaurentPolynomial
import AlgebraicForm.Proofs.StrippedForms
import Mathlib.Algebra.MvPolynomial.CommRing
import Mathlib.RingTheory.Localization.FractionRing
import Mathlib.RingTheory.MvPolynomial.Basic

/-!
# Answers that are one rational function

A rational expression stands for a rational function, and has values at the points where none of
its denominators is zero. The values are those of the function: a function has one value at a
point, whatever quotients it is written as. So two expressions of one function have the same sample
wherever both have values, and the sample tells them apart only where one of them has a pole that
the other one does not have.

* `RationalFunction.HasValue`: the value of a function at a point, and `HasValue.unique`.
* `IsRational.value_eq`: what exact evaluation computes is that value.
* `exists_fingerprint`: expressions of one function that have values at the same points of the
  sample have one fingerprint.
* `accepted_of_one_function`: then they are accepted.
-/

namespace AlgebraicForm

open AlgebraicForm.Expr

/-- Rational functions of symbols, with rational coefficients. -/
abbrev RationalFunction : Type :=
  FractionRing (MvPolynomial String ℚ)

namespace RationalFunction

/-- A polynomial as a rational function. -/
noncomputable def ofPolynomial : MvPolynomial String ℚ →+* RationalFunction :=
  algebraMap _ _

theorem ofPolynomial_injective : Function.Injective ofPolynomial :=
  IsFractionRing.injective _ _

/-! ## Values -/

/-- A function has a value at a point if it is a quotient whose denominator is not zero there. -/
def HasValue (r : RationalFunction) (ρ : String → ℚ) (x : ℚ) : Prop :=
  ∃ p q : MvPolynomial String ℚ, MvPolynomial.eval ρ q ≠ 0 ∧
    r * ofPolynomial q = ofPolynomial p ∧ x * MvPolynomial.eval ρ q = MvPolynomial.eval ρ p

variable {r t : RationalFunction} {ρ : String → ℚ} {x y : ℚ}

/-- Whichever quotient is used, the value is the same. -/
theorem HasValue.unique (hx : HasValue r ρ x) (hy : HasValue r ρ y) : x = y := by
  obtain ⟨p, q, hq, hr, hx⟩ := hx
  obtain ⟨p', q', hq', hr', hy⟩ := hy
  have hcross : p * q' = p' * q := by
    apply ofPolynomial_injective
    rw [map_mul, map_mul, ← hr, ← hr']
    ring
  have heval := congrArg (MvPolynomial.eval ρ) hcross
  rw [map_mul, map_mul, ← hx, ← hy] at heval
  have hzero : (x - y) * (MvPolynomial.eval ρ q * MvPolynomial.eval ρ q') = 0 := by
    linear_combination heval
  have := (mul_eq_zero.mp hzero).resolve_right (mul_ne_zero hq hq')
  linarith

theorem hasValue_polynomial (p : MvPolynomial String ℚ) (ρ : String → ℚ) :
    HasValue (ofPolynomial p) ρ (MvPolynomial.eval ρ p) :=
  ⟨p, 1, by simp, by simp, by simp⟩

theorem hasValue_zero : HasValue 0 ρ 0 := by
  simpa using hasValue_polynomial 0 ρ

theorem hasValue_one : HasValue 1 ρ 1 := by
  simpa using hasValue_polynomial 1 ρ

theorem HasValue.neg (hx : HasValue r ρ x) : HasValue (-r) ρ (-x) := by
  obtain ⟨p, q, hq, hr, hx⟩ := hx
  exact ⟨-p, q, hq, by rw [neg_mul, hr, map_neg], by rw [neg_mul, hx, map_neg]⟩

theorem HasValue.add (hx : HasValue r ρ x) (hy : HasValue t ρ y) :
    HasValue (r + t) ρ (x + y) := by
  obtain ⟨p, q, hq, hr, hx⟩ := hx
  obtain ⟨p', q', hq', ht, hy⟩ := hy
  refine ⟨p * q' + p' * q, q * q', by simp [hq, hq'], ?_, ?_⟩
  · rw [map_add, map_mul, map_mul, map_mul, ← hr, ← ht]
    ring
  · rw [map_add, map_mul, map_mul, map_mul, ← hx, ← hy]
    ring

theorem HasValue.mul (hx : HasValue r ρ x) (hy : HasValue t ρ y) :
    HasValue (r * t) ρ (x * y) := by
  obtain ⟨p, q, hq, hr, hx⟩ := hx
  obtain ⟨p', q', hq', ht, hy⟩ := hy
  refine ⟨p * p', q * q', by simp [hq, hq'], ?_, ?_⟩
  · rw [map_mul, map_mul, ← hr, ← ht]
    ring
  · rw [map_mul, map_mul, ← hx, ← hy]
    ring

/-- Where a function is not zero, its inverse has the inverse value. -/
theorem HasValue.inv (hx : HasValue r ρ x) (hzero : x ≠ 0) : HasValue r⁻¹ ρ x⁻¹ := by
  obtain ⟨p, q, hq, hr, hx⟩ := hx
  have hp : MvPolynomial.eval ρ p ≠ 0 := hx ▸ mul_ne_zero hzero hq
  have hr0 : r ≠ 0 := by
    rintro rfl
    rw [zero_mul, eq_comm, map_eq_zero_iff _ ofPolynomial_injective] at hr
    exact hp (by rw [hr, map_zero])
  refine ⟨q, p, hp, ?_, ?_⟩
  · rw [← hr, inv_mul_cancel_left₀ hr0]
  · rw [← hx, inv_mul_cancel_left₀ hzero]

theorem HasValue.pow (hx : HasValue r ρ x) (n : ℕ) : HasValue (r ^ n) ρ (x ^ n) := by
  induction n with
  | zero => simpa using hasValue_one
  | succ n ih =>
    rw [pow_succ, pow_succ]
    exact ih.mul hx

theorem HasValue.zpow (hx : HasValue r ρ x) {k : ℤ} (hk : k < 0 → x ≠ 0) :
    HasValue (r ^ k) ρ (x ^ k) := by
  obtain ⟨n, rfl | rfl⟩ := k.eq_nat_or_neg
  · simpa using hx.pow n
  · rw [zpow_neg, zpow_neg, zpow_natCast, zpow_natCast]
    cases n with
    | zero => simpa using hasValue_one
    | succ n => exact (hx.pow _).inv (pow_ne_zero _ (hk (by omega)))

end RationalFunction

/-! ## Rational expressions -/

namespace Expr

mutual

/-- The rational function that an expression stands for. What is none stands for zero. -/
noncomputable def rational : Expr → RationalFunction
  | number (.exact q) => RationalFunction.ofPolynomial (MvPolynomial.C q)
  | symbol n => RationalFunction.ofPolynomial (MvPolynomial.X n)
  | sum ts => (rationals ts).sum
  | product fs => (rationals fs).prod
  | power b p =>
    match p.exponent? with
    | some k => rational b ^ k
    | none => 0
  | negation e => -rational e
  | number (.approx _) | call _ _ | hole => 0

/-- The functions of several expressions. -/
noncomputable def rationals : List Expr → List RationalFunction
  | [] => []
  | e :: es => rational e :: rationals es

end

/-- A rational expression: fractions, variables, and what sums, products, negations and whole
powers make of them. Only what is not identically zero has negative powers. -/
inductive IsRational : Expr → Prop
  | literal (q : Rat) : IsRational (rat q)
  | symbol {n : String} : n ≠ "pi" → n ≠ "e" → IsRational (symbol n)
  | negation {e : Expr} : IsRational e → IsRational (negation e)
  | sum {ts : List Expr} : (∀ t ∈ ts, IsRational t) → IsRational (sum ts)
  | product {fs : List Expr} : (∀ f ∈ fs, IsRational f) → IsRational (product fs)
  | power {b p : Expr} {k : ℤ} : IsRational b → p.exponent? = some k →
      (k < 0 → b.rational ≠ 0) → IsRational (power b p)

theorem rationals_eq_map (es : List Expr) : rationals es = es.map rational := by
  induction es with
  | nil => rfl
  | cons e es ih => rw [rationals, ih, List.map_cons]

theorem rational_rat (q : Rat) :
    (rat q).rational = RationalFunction.ofPolynomial (MvPolynomial.C q) := by
  rw [rational]

theorem rational_symbol (n : String) :
    (symbol n).rational = RationalFunction.ofPolynomial (MvPolynomial.X n) := by
  rw [rational]

theorem rational_sum (ts : List Expr) : (sum ts).rational = (ts.map rational).sum := by
  rw [rational, rationals_eq_map]

theorem rational_product (fs : List Expr) : (product fs).rational = (fs.map rational).prod := by
  rw [rational, rationals_eq_map]

theorem rational_negation (e : Expr) : (negation e).rational = -e.rational := by
  rw [rational]

theorem rational_power {b p : Expr} {k : ℤ} (h : p.exponent? = some k) :
    (power b p).rational = b.rational ^ k := by
  rw [rational, h]

end Expr

/-! ## Exact values -/

/-- Exact arithmetic on fractions. What divides by zero has no value, nor has what is computed from
it, except that any power with exponent zero is one. -/
def Arithmetic.exact : Arithmetic (Option ℚ) where
  ofNumber v := .ok v.toRat?
  ofDouble := Decimal.exactValue?
  zero := some 0
  one := some 1
  add := Option.map₂ (· + ·)
  mul := Option.map₂ (· * ·)
  pow x y := do
    let k ← y
    if k.den ≠ 1 then none
    else if k = 0 then some 1
    else do
      let b ← x
      if b = 0 ∧ k < 0 then none else some (b ^ k.num)
  neg := Option.map (- ·)
  apply _ _ := none
  log _ _ := none

/-- Sampling with exact values, which are written in some way. -/
def Sampling.exact (text : Int → ℚ → List Char) : Sampling (Option ℚ) where
  toArithmetic := .exact
  write places x := .ok (x.map (text places))

theorem exact_pow_intCast (x : Option ℚ) {k : ℤ} {y : ℚ}
    (h : Arithmetic.exact.pow x (some (k : ℚ)) = some y) :
    (k = 0 ∧ y = 1) ∨ ∃ b, x = some b ∧ (k < 0 → b ≠ 0) ∧ y = b ^ k := by
  have hpow : Arithmetic.exact.pow x (some (k : ℚ)) =
      if k = 0 then some 1 else x.bind fun b => if b = 0 ∧ k < 0 then none else some (b ^ k) := by
    simp [Arithmetic.exact]
  rw [hpow] at h
  split at h
  next hk => exact .inl ⟨hk, (Option.some.inj h).symm⟩
  next =>
    obtain ⟨b, hb, h⟩ := Option.bind_eq_some_iff.mp h
    rw [Option.ite_none_left_eq_some] at h
    exact .inr ⟨b, hb, fun hk hzero => h.1 ⟨hzero, hk⟩, (Option.some.inj h.2).symm⟩

/-- The value of each symbol is the one it has at the point. -/
def IsBoundNode (s : Settings) (env : Bindings (Option ℚ)) (ρ : String → ℚ) (e : Expr) : Prop :=
  ∀ n, e = .symbol n → lookup .exact s env n = .ok (some (ρ n))

theorem values_eq_mapM {α : Type} (a : Arithmetic α) (s : Settings) (env : Bindings α)
    (es : List Expr) : values a s env es = es.mapM (value a s env) := by
  induction es with
  | nil => rfl
  | cons e es ih =>
    rw [values, ih, List.mapM_cons]

/-- The value of an expression, where it has one, is that of its function. -/
def Expr.IsValue (e : Expr) (ρ : String → ℚ) (x : Option ℚ) : Prop :=
  ∀ y, x = some y → e.rational.HasValue ρ y

section

variable {s : Settings} {env : Bindings (Option ℚ)} {ρ : String → ℚ}

theorem exists_values {es : List Expr}
    (h : ∀ e ∈ es, ∃ x, e.value .exact s env = .ok x ∧ e.IsValue ρ x) :
    ∃ xs, values .exact s env es = .ok xs ∧ List.Forall₂ (fun e x => e.IsValue ρ x) es xs := by
  rw [values_eq_mapM]
  induction es with
  | nil => exact ⟨[], rfl, .nil⟩
  | cons e es ih =>
    rw [List.forall_mem_cons] at h
    obtain ⟨⟨x, hx, hvalue⟩, hes⟩ := h
    obtain ⟨xs, hxs, hvalues⟩ := ih hes
    exact ⟨x :: xs, by rw [List.mapM_cons, hx, ok_bind, hxs]; rfl, .cons hvalue hvalues⟩

/-- Adding up terms, from a value that the function of the terms before has. -/
theorem hasValue_foldl_add {ts : List Expr} {xs : List (Option ℚ)}
    (h : List.Forall₂ (fun e x => e.IsValue ρ x) ts xs) {r : RationalFunction} {x : Option ℚ}
    (hx : ∀ y, x = some y → r.HasValue ρ y) :
    ∀ y, xs.foldl Arithmetic.exact.add x = some y → (r + (ts.map rational).sum).HasValue ρ y := by
  induction h generalizing r x with
  | nil => simpa using hx
  | @cons t z ts zs ht _ ih =>
    rw [List.map_cons, List.sum_cons, ← add_assoc, List.foldl_cons]
    refine ih fun y hy => ?_
    obtain ⟨a, b, ha, hb, rfl⟩ := Option.map₂_eq_some_iff.mp hy
    exact (hx a ha).add (ht b hb)

theorem hasValue_foldl_mul {fs : List Expr} {xs : List (Option ℚ)}
    (h : List.Forall₂ (fun e x => e.IsValue ρ x) fs xs) {r : RationalFunction} {x : Option ℚ}
    (hx : ∀ y, x = some y → r.HasValue ρ y) :
    ∀ y, xs.foldl Arithmetic.exact.mul x = some y → (r * (fs.map rational).prod).HasValue ρ y := by
  induction h generalizing r x with
  | nil => simpa using hx
  | @cons f z fs zs hf _ ih =>
    rw [List.map_cons, List.prod_cons, ← mul_assoc, List.foldl_cons]
    refine ih fun y hy => ?_
    obtain ⟨a, b, ha, hb, rfl⟩ := Option.map₂_eq_some_iff.mp hy
    exact (hx a ha).mul (hf b hb)

theorem value_exponent {p : Expr} {k : ℤ} (h : p.exponent? = some k) :
    p.value .exact s env = .ok (some (k : ℚ)) := by
  obtain rfl | rfl := exponent?_eq_some h
  · rw [value]
    rfl
  · rw [value, value]
    simp [Arithmetic.exact, Number.toRat?]

/-- A rational expression can be evaluated, and what comes out is the value of its function. -/
theorem Expr.IsRational.value_eq {e : Expr} (he : e.IsRational)
    (hbound : e.Every (IsBoundNode s env ρ)) :
    ∃ x, e.value .exact s env = .ok x ∧ e.IsValue ρ x := by
  induction he with
  | literal q =>
    refine ⟨some q, by rw [value]; rfl, fun y hy => ?_⟩
    obtain rfl := Option.some.inj hy
    simpa [rational_rat] using RationalFunction.hasValue_polynomial (MvPolynomial.C q) ρ
  | @symbol n hpi he =>
    refine ⟨some (ρ n), by rw [value]; exact every_symbol.mp hbound n rfl, fun y hy => ?_⟩
    obtain rfl := Option.some.inj hy
    simpa [rational_symbol] using RationalFunction.hasValue_polynomial (MvPolynomial.X n) ρ
  | @negation e _ ih =>
    obtain ⟨x, hx, hvalue⟩ := ih (every_negation.mp hbound).2
    refine ⟨Arithmetic.exact.neg x, by rw [value, hx]; rfl, fun y hy => ?_⟩
    obtain ⟨a, ha, rfl⟩ := Option.map_eq_some_iff.mp hy
    rw [rational_negation]
    exact (hvalue a ha).neg
  | @sum ts _ ih =>
    obtain ⟨xs, hxs, hvalues⟩ := exists_values fun t ht => ih t ht ((every_sum.mp hbound).2 t ht)
    refine ⟨_, by rw [value, hxs]; rfl, fun y hy => ?_⟩
    rw [rational_sum, ← zero_add (List.sum _)]
    refine hasValue_foldl_add hvalues (fun z hz => ?_) y hy
    obtain rfl := Option.some.inj hz
    exact RationalFunction.hasValue_zero
  | @product fs _ ih =>
    obtain ⟨xs, hxs, hvalues⟩ :=
      exists_values fun f hf => ih f hf ((every_product.mp hbound).2 f hf)
    refine ⟨_, by rw [value, hxs]; rfl, fun y hy => ?_⟩
    rw [rational_product, ← one_mul (List.prod _)]
    refine hasValue_foldl_mul hvalues (fun z hz => ?_) y hy
    obtain rfl := Option.some.inj hz
    exact RationalFunction.hasValue_one
  | @power b p k _ hp _ ih =>
    obtain ⟨x, hx, hvalue⟩ := ih (every_power.mp hbound).2.1
    refine ⟨_, by rw [value, hx, ok_bind, value_exponent hp]; rfl, fun y hy => ?_⟩
    rw [rational_power hp]
    obtain ⟨rfl, rfl⟩ | ⟨b, hb, hzero, rfl⟩ := exact_pow_intCast x hy
    · simpa using RationalFunction.hasValue_one
    · exact (hvalue b hb).zpow hzero

end

/-! ## Samples -/

/-- Every variable is bound to a value of the grid at every point. -/
theorem exists_bindings {α : Type} (a : Sampling α) {P : α → Prop} {grid : List Float}
    (hgrid : grid ≠ []) (hP : ∀ x ∈ grid, P (a.ofDouble x)) (names : List String) (point : ℕ) :
    ∃ env, a.bindings grid names point = .ok env ∧
      ∀ n ∈ names, ∃ x, env.value? n = some x ∧ P x := by
  have hpair : ∀ nk : String × ℕ, ∃ x, grid[(2 * point + nk.2) % grid.length]? = some x := by
    intro nk
    have hlt : (2 * point + nk.2) % grid.length < grid.length :=
      Nat.mod_lt _ (List.length_pos_iff.mpr hgrid)
    exact ⟨_, List.getElem?_eq_getElem hlt⟩
  choose double hdouble using hpair
  refine ⟨names.zipIdx.map fun nk => (nk.1, a.ofDouble (double nk)), ?_, fun n hn => ?_⟩
  · refine mapM_eq_ok_iff.mpr ?_
    rw [List.forall₂_map_right_iff, List.forall₂_same]
    rintro ⟨name, k⟩ _
    have hk : grid[(2 * point + k) % grid.length]? = some (double (name, k)) := hdouble (name, k)
    simp only [hk]
  · -- the last pair with this name counts, and each pair has a value
    obtain ⟨k, hk⟩ : ∃ k, (n, k) ∈ names.zipIdx := by
      obtain ⟨k, hk, rfl⟩ := List.getElem_of_mem hn
      exact ⟨k, List.mem_zipIdx_iff_getElem?.mpr (List.getElem?_eq_getElem hk)⟩
    have hsome : (Bindings.value?
        (names.zipIdx.map fun nk => (nk.1, a.ofDouble (double nk))) n).isSome := by
      refine List.lookup_isSome_iff.mpr ⟨(n, a.ofDouble (double (n, k))), ?_, by simp⟩
      exact List.mem_reverse.mpr (List.mem_map.mpr ⟨(n, k), hk, rfl⟩)
    obtain ⟨v, hv⟩ := Option.isSome_iff_exists.mp hsome
    obtain ⟨l, r, hlr, -⟩ := List.lookup_eq_some_iff.mp hv
    have hmem : (n, v) ∈ names.zipIdx.map fun nk => (nk.1, a.ofDouble (double nk)) :=
      List.mem_reverse.mp (hlr ▸ by simp)
    obtain ⟨nk, -, heq⟩ := List.mem_map.mp hmem
    exact ⟨v, hv, (Prod.mk.inj heq).2 ▸ hP _ (List.mem_of_getElem? (hdouble nk))⟩

/-- The value of an expression at a point of the sample. -/
def Sampling.sampleValue {α : Type} (a : Sampling α) (s : Settings) (names : List String)
    (e : Expr) (point : ℕ) : Except Fault α := do
  let env ← a.bindings s.sampleGrid names point
  e.value a.toArithmetic s env

/-- The text of an exact value, or of none. -/
def exactCode (text : Int → ℚ → List Char) (s : Settings) : Option ℚ → List Char
  | some q => text s.samplePlaces q
  | none => "nan".toList

theorem code_exact {text : Int → ℚ → List Char} {s : Settings} {names : List String} {e : Expr}
    {point : ℕ} {x : Option ℚ}
    (h : (Sampling.exact text).sampleValue s names e point = .ok x) (rs : List Report) :
    ∃ ts, ((Sampling.exact text).code s names e point).run.run rs =
      (.ok (exactCode text s x), ts) := by
  obtain ⟨env, henv, hx⟩ := bind_eq_ok_iff.mp h
  refine ⟨if x.isSome then rs else rs ++ [.notFinite point],
    reporting_bind_eq_ok_iff.mpr ⟨env, rs, reporting_ofExcept_eq_ok_iff.mpr ⟨henv, rfl⟩,
      reporting_bind_eq_ok_iff.mpr ⟨x, rs, reporting_ofExcept_eq_ok_iff.mpr ⟨hx, rfl⟩,
        reporting_bind_eq_ok_iff.mpr ⟨_, rs, reporting_ofExcept_eq_ok_iff.mpr ⟨rfl, rfl⟩, ?_⟩⟩⟩⟩
  cases x with
  | none => rfl
  | some q => rfl

/-- Computations that return on every element return on the list, whatever they report. -/
theorem exists_reporting_mapM {α β : Type} {f : α → Reporting β} {g : α → β} {xs : List α}
    (h : ∀ x ∈ xs, ∀ rs, ∃ ts, (f x).run.run rs = (.ok (g x), ts)) (rs : List Report) :
    ∃ ts, (xs.mapM f).run.run rs = (.ok (xs.map g), ts) := by
  induction xs generalizing rs with
  | nil => exact ⟨rs, rfl⟩
  | cons x xs ih =>
    rw [List.forall_mem_cons] at h
    obtain ⟨us, hx⟩ := h.1 rs
    obtain ⟨ts, hxs⟩ := ih h.2 us
    rw [List.mapM_cons]
    exact ⟨ts, reporting_bind_eq_ok_iff.mpr ⟨_, us, hx,
      reporting_bind_eq_ok_iff.mpr ⟨_, ts, hxs, reporting_pure_eq_ok_iff.mpr ⟨rfl, rfl⟩⟩⟩⟩

/-- No variable of a rational expression is a constant. -/
theorem Expr.IsRational.every_variable {e : Expr} (h : e.IsRational) :
    e.Every fun d => ∀ n, d = .symbol n → (Settings.standard.constant? n).isNone := by
  induction h with
  | literal q => simp
  | @symbol n hpi he =>
    simp [Settings.constant?, Settings.standard, Ne.symm hpi, Ne.symm he]
  | negation _ ih => simpa using ih
  | sum _ ih => simpa using ih
  | product _ ih => simpa using ih
  | power _ hp _ ih =>
    obtain rfl | rfl := exponent?_eq_some hp
    · simpa using ih
    · simpa using ih

/-- The free symbols of an expression are those of its symbols that are no constants. -/
theorem mem_freeSymbols {s : Settings} {e : Expr} {n : String} (hn : symbol n ∈ e.walk)
    (hconstant : (s.constant? n).isNone) : n ∈ e.freeSymbols s :=
  List.mem_filter.mpr ⟨mem_sortNames.mpr (List.mem_filterMap.mpr ⟨_, hn, rfl⟩), hconstant⟩

/-- At each point of the sample, a rational expression has the value of its function, or none. -/
theorem exists_point (text : Int → ℚ → List Char) (names : List String) (point : ℕ) :
    ∃ ρ : String → ℚ, ∀ e : Expr, e.IsRational → (∀ n ∈ e.freeSymbols .standard, n ∈ names) →
      ∃ x, (Sampling.exact text).sampleValue .standard names e point = .ok x ∧ e.IsValue ρ x := by
  have hgrid : Settings.standard.sampleGrid ≠ [] := by decide
  have hexact : ∀ x ∈ Settings.standard.sampleGrid, (Decimal.exactValue? x).isSome := by
    decide +kernel
  obtain ⟨env, henv, hvalues⟩ := exists_bindings (Sampling.exact text)
    (P := fun x => ∃ q, x = some q) hgrid
    (fun x hx => Option.isSome_iff_exists.mp (hexact x hx)) names point
  refine ⟨fun n => ((env.value? n).getD none).getD 0, fun e he hnames => ?_⟩
  have hbound : e.Every (IsBoundNode .standard env
      fun n => ((env.value? n).getD none).getD 0) := by
    rintro d hd n rfl
    have hfree := mem_freeSymbols hd (he.every_variable _ hd n rfl)
    obtain ⟨_, hq, q, rfl⟩ := hvalues n (hnames n hfree)
    simp only [lookup, hq, Option.getD_some]
  obtain ⟨x, hx, hvalue⟩ := he.value_eq hbound
  exact ⟨x, by rw [Sampling.sampleValue, henv]; exact hx, hvalue⟩

/-- The expression has a value at the point. -/
def Expr.IsFiniteAt (text : Int → ℚ → List Char) (names : List String) (e : Expr) (point : ℕ) :
    Prop :=
  ∃ q, (Sampling.exact text).sampleValue .standard names e point = .ok (some q)

/-- The fingerprint of the values at all points. -/
def exactDigest (text : Int → ℚ → List Char) (s : Settings) (x : ℕ → Option ℚ) : String :=
  let texts := (List.range (Sampling.points s)).map fun point => exactCode text s (x point)
  Blake2b.hexText (Blake2b.digest (String.ofList (['|'].intercalate texts)).toUTF8.toList)

theorem fingerprint_exact {text : Int → ℚ → List Char} {s : Settings} {names : List String}
    {e : Expr} {x : ℕ → Option ℚ}
    (h : ∀ point, (Sampling.exact text).sampleValue s names e point = .ok (x point))
    (rs : List Report) :
    ∃ ts, ((Sampling.exact text).fingerprint s names e).run.run rs =
      (.ok (exactDigest text s x), ts) := by
  have hcodes : ∀ point ∈ List.range (Sampling.points s), ∀ rs, ∃ ts,
      ((Sampling.exact text).code s names e point).run.run rs =
        (.ok (exactCode text s (x point)), ts) := fun point _ => code_exact (h point)
  obtain ⟨ts, hts⟩ := exists_reporting_mapM hcodes rs
  exact ⟨ts, reporting_bind_eq_ok_iff.mpr ⟨_, ts, hts, reporting_pure_eq_ok_iff.mpr ⟨rfl, rfl⟩⟩⟩

/-- Expressions of one function have the same exact value at a point where both have one. -/
theorem exists_sampleValues (text : Int → ℚ → List Char) {names : List String} {e f : Expr}
    (he : e.IsRational) (hf : f.IsRational) (hfun : e.rational = f.rational)
    (henames : ∀ n ∈ e.freeSymbols .standard, n ∈ names)
    (hfnames : ∀ n ∈ f.freeSymbols .standard, n ∈ names) :
    ∃ x y : ℕ → Option ℚ,
      (∀ point, (Sampling.exact text).sampleValue .standard names e point = .ok (x point)) ∧
      (∀ point, (Sampling.exact text).sampleValue .standard names f point = .ok (y point)) ∧
      ∀ point, x point = y point ↔
        (e.IsFiniteAt text names point ↔ f.IsFiniteAt text names point) := by
  choose ρ hρ using exists_point text names
  choose x hx hxvalue using fun point => hρ point e he henames
  choose y hy hyvalue using fun point => hρ point f hf hfnames
  refine ⟨x, y, hx, hy, fun point => ?_⟩
  have hxvalue := hxvalue point
  have hyvalue := hyvalue point
  simp only [Expr.IsFiniteAt, hx, hy, Except.ok.injEq]
  cases hxp : x point with
  | none => cases y point <;> simp
  | some u =>
    cases hyp : y point with
    | none => simp
    | some v =>
      have huv : u = v := (hxvalue u hxp).unique (hfun ▸ hyvalue v hyp)
      simp [huv]

/-- Expressions of one function have one fingerprint if they have values at the same points. -/
theorem exists_fingerprint (text : Int → ℚ → List Char) {names : List String} {e f : Expr}
    (he : e.IsRational) (hf : f.IsRational) (hfun : e.rational = f.rational)
    (henames : ∀ n ∈ e.freeSymbols .standard, n ∈ names)
    (hfnames : ∀ n ∈ f.freeSymbols .standard, n ∈ names)
    (hfinite : ∀ point < Sampling.points .standard,
      (e.IsFiniteAt text names point ↔ f.IsFiniteAt text names point)) :
    ∃ digest,
      (∀ rs, ∃ ts, ((Sampling.exact text).fingerprint .standard names e).run.run rs =
        (.ok digest, ts)) ∧
      ∀ rs, ∃ ts, ((Sampling.exact text).fingerprint .standard names f).run.run rs =
        (.ok digest, ts) := by
  obtain ⟨x, y, hx, hy, hsame⟩ := exists_sampleValues text he hf hfun henames hfnames
  have hdigest : exactDigest text .standard y = exactDigest text .standard x := by
    have hcodes : (List.range (Sampling.points .standard)).map
          (fun point => exactCode text .standard (y point)) =
        (List.range (Sampling.points .standard)).map
          (fun point => exactCode text .standard (x point)) := by
      refine List.map_congr_left fun point hpoint => ?_
      rw [(hsame point).mpr (hfinite point (List.mem_range.mp hpoint))]
    rw [exactDigest, exactDigest, hcodes]
  exact ⟨_, fingerprint_exact hx, hdigest ▸ fingerprint_exact hy⟩

/-! ## Verdicts -/

/-- A representative can be written, unless the limit for digits stops that. -/
theorem form_gives {kind : FormKind} {e r : Expr} (he : e.IsReadable)
    (h : e.representative .standard kind = .ok r) :
    DigitLimit.standard.Gives (e.form .standard kind) fun _ => True := by
  rw [form, h]
  exact (print_gives .standard (representative_sound he h).2).mono fun _ _ _ => trivial

/-- Forms can be compared if the expressions strip, unless the limit for digits stops a form. -/
theorem sameExprForm_gives {e f r t : Expr} (he : e.IsReadable) (hf : f.IsReadable)
    (hr : stripped .standard e = .ok r) (ht : stripped .standard f = .ok t) (kind : FormKind) :
    DigitLimit.standard.Gives (sameExprForm .standard kind e f) fun _ => True := by
  have hform : ∀ {d u : Expr}, d.IsReadable → stripped .standard d = .ok u →
      DigitLimit.standard.Gives (d.form .standard kind) fun _ => True := by
    intro d u hd hu
    cases kind with
    | normal =>
      obtain ⟨c, hc, -⟩ := bind_eq_ok_iff.mp hu
      exact form_gives hd hc
    | stripped => exact form_gives hd hu
  exact (hform he hr).bind fun _ _ _ => (hform hf ht).bind fun _ _ _ => .ok trivial

/-- Two texts that are read are compared as what they denote. -/
theorem compareTextsWith_run {s : Settings} {evidence : Evidence} {a b : String} {e f : Expr}
    (ha : ofString s a = .ok e) (hb : ofString s b = .ok f) (rs : List Report) :
    (compareTextsWith s evidence a b).run.run rs = (compareExprs s evidence e f).run.run rs := by
  rw [compareTextsWith, reporting_bind_run, readText_of_ok ha]
  dsimp only
  rw [reporting_bind_run, readText_of_ok hb]

/-- Two texts of one rational function are accepted, if they strip and have exact values at the
same points of the sample, unless the limit for digits stops one of their forms. The certificate is
any that certifies the rational functions that are equal. -/
theorem accepted_of_one_function {text : Int → ℚ → List Char}
    {certificate : Expr → Expr → Except Fault Bool}
    (hcertificate : ∀ e f : Expr, e.IsRational → f.IsRational →
      (certificate e f = .ok true ↔ e.rational = f.rational))
    {a b : String} {e f : Expr} (ha : ofString .standard a = .ok e)
    (hb : ofString .standard b = .ok f) (he : e.IsRational) (hf : f.IsRational)
    (hfun : e.rational = f.rational) {r t : Expr} (hr : stripped .standard e = .ok r)
    (ht : stripped .standard f = .ok t)
    (hfinite : ∀ point < Sampling.points .standard,
      (e.IsFiniteAt text (sharedVariables .standard e f) point ↔
        f.IsFiniteAt text (sharedVariables .standard e f) point)) :
    DigitLimit.standard.Gives
      (compareTextsWith .standard ⟨(Sampling.exact text).fingerprint .standard, certificate⟩
        a b).result.1 fun v => v.isEqual = true := by
  obtain ⟨digest, hedigest, hfdigest⟩ := exists_fingerprint text he hf hfun
    (fun n hn => mem_sortNames.mpr (List.mem_append_left _ hn))
    (fun n hn => mem_sortNames.mpr (List.mem_append_right _ hn)) hfinite
  obtain ⟨rs, hrs⟩ := hedigest []
  obtain ⟨ts, hts⟩ := hfdigest rs
  have hforms := sameExprForm_gives (ofString_isReadable ha) (ofString_isReadable hb) hr ht
  suffices hcompare : DigitLimit.standard.Gives ((compareExprs .standard
      ⟨(Sampling.exact text).fingerprint .standard, certificate⟩ e f).run.run []).1
      fun v => v.isEqual = true by
    rwa [← compareTextsWith_run ha hb] at hcompare
  obtain ⟨normal, hnormal, -⟩ | ⟨fault, hfault, hnormal⟩ := hforms .normal
  swap
  · rw [compareExprs, hnormal]
    exact .inr ⟨fault, hfault, rfl⟩
  cases normal with
  | true =>
    rw [compareExprs, hnormal]
    exact .ok rfl
  | false =>
    obtain ⟨strips, hstrips, -⟩ | ⟨fault, hfault, hstrips⟩ := hforms .stripped
    swap
    · rw [compareExprs, hnormal, hstrips]
      exact .inr ⟨fault, hfault, rfl⟩
    rw [compareExprs, hnormal, hstrips]
    cases strips with
    | true => exact .ok rfl
    | false =>
      suffices hrun : _ = ((.ok .certified : Except Fault Verdict), ts) from
        .inl ⟨.certified, congrArg Prod.fst hrun, rfl⟩
      refine reporting_bind_eq_ok_iff.mpr ⟨false, [], rfl,
        reporting_bind_eq_ok_iff.mpr ⟨false, [], rfl, ?_⟩⟩
      refine reporting_bind_eq_ok_iff.mpr ⟨digest, rs, hrs,
        reporting_bind_eq_ok_iff.mpr ⟨digest, ts, hts, ?_⟩⟩
      rw [if_neg (by simp)]
      refine reporting_bind_eq_ok_iff.mpr ⟨true, ts, ?_, rfl⟩
      exact reporting_ofExcept_eq_ok_iff.mpr ⟨(hcertificate e f he hf).mpr hfun, rfl⟩

theorem isRational_intPower {b : Expr} {k : ℤ} (hb : b.IsRational) (h : k < 0 → b.rational ≠ 0) :
    (power b (rat k)).IsRational :=
  .power hb (exponent?_rat_intCast k) h

theorem ofPolynomial_X_ne_zero (n : String) :
    RationalFunction.ofPolynomial (MvPolynomial.X n) ≠ 0 :=
  (map_ne_zero_iff _ RationalFunction.ofPolynomial_injective).mpr (MvPolynomial.X_ne_zero n)

open Classical in
/-- Both texts have a pole at zero, which is no point of the sample. -/
theorem accepted_of_one_function_square :
    let x := symbol "x"
    let e := product [power (sum [x, rat 1]) (rat 2), power x minusOne]
    let f := sum [x, rat 2, product [rat 1, power x minusOne]]
    let certificate : Expr → Expr → Except Fault Bool :=
      fun e f => .ok (decide (e.rational = f.rational))
    ofString .standard "(x+1)^2/x" = .ok e ∧ ofString .standard "x+2+1/x" = .ok f ∧
      (∃ r, stripped .standard e = .ok r) ∧ (∃ t, stripped .standard f = .ok t) ∧
      e.rational = f.rational ∧
      DigitLimit.standard.Gives (compareTextsWith .standard
        ⟨(Sampling.exact fun _ q => Number.ratText q).fingerprint .standard, certificate⟩
        "(x+1)^2/x" "x+2+1/x").result.1 fun v => v.isEqual = true := by
  intro x e f certificate
  have ha : ofString .standard "(x+1)^2/x" = .ok e :=
    ofString_eq_ok_of_returns (by simp [e, x, minusOne]) (by decide +kernel)
  have hb : ofString .standard "x+2+1/x" = .ok f :=
    ofString_eq_ok_of_returns (by simp [f, x, minusOne]) (by decide +kernel)
  have hx : x.IsRational := .symbol (by decide) (by decide)
  have hx0 : x.rational ≠ 0 := by
    rw [rational_symbol]
    exact ofPolynomial_X_ne_zero "x"
  have hinv : (power x minusOne).IsRational := isRational_intPower (k := -1) hx fun _ => hx0
  have he : e.IsRational := .product (by
    simp only [List.forall_mem_cons, List.not_mem_nil, false_implies, implies_true, and_true]
    refine ⟨isRational_intPower (k := 2) (.sum ?_) (by simp), hinv⟩
    simp [hx, IsRational.literal])
  have hf : f.IsRational := .sum (by
    simp only [List.forall_mem_cons, List.not_mem_nil, false_implies, implies_true, and_true]
    refine ⟨hx, .literal 2, .product ?_⟩
    simp [hinv, IsRational.literal])
  have hfun : e.rational = f.rational := by
    simp only [e, f, rational_product, rational_sum, rational_power (k := 2) (p := rat 2) rfl,
      rational_power (k := -1) (p := minusOne) rfl, rational_rat, List.map_cons, List.map_nil,
      List.sum_cons, List.sum_nil, List.prod_cons, List.prod_nil, map_one, map_ofNat]
    field_simp
    ring
  have hstrips :
      (stripped .standard e).toOption.isSome ∧ (stripped .standard f).toOption.isSome := by
    decide +kernel
  obtain ⟨⟨r, hr⟩, t, ht⟩ := hstrips.imp Option.isSome_iff_exists.mp Option.isSome_iff_exists.mp
  have hfinite : ∀ d, d = e ∨ d = f → ∀ point < Sampling.points .standard,
      d.IsFiniteAt (fun _ q => Number.ratText q) (sharedVariables .standard e f) point := by
    have hvalues : ∀ d ∈ [e, f], ∀ point < Sampling.points .standard,
        ((Sampling.exact fun _ q => Number.ratText q).sampleValue .standard
          (sharedVariables .standard e f) d point).toOption.join.isSome := by
      decide +kernel
    intro d hd point hpoint
    obtain ⟨q, hq⟩ := Option.isSome_iff_exists.mp (hvalues d (by simpa using hd) point hpoint)
    exact ⟨q, eq_ok_of_toOption (Option.join_eq_some_iff.mp hq)⟩
  exact ⟨ha, hb, ⟨r, eq_ok_of_toOption hr⟩, ⟨t, eq_ok_of_toOption ht⟩, hfun,
    accepted_of_one_function (fun e f _ _ => by simp [certificate]) ha hb he hf hfun
      (eq_ok_of_toOption hr) (eq_ok_of_toOption ht) fun point hpoint =>
        iff_of_true (hfinite e (.inl rfl) point hpoint) (hfinite f (.inr rfl) point hpoint)⟩

open Classical in
/-- The two texts are one function, but at one, which is a point of the sample, only the second one
has a value; the sample refuses them. -/
theorem refused_at_removable_pole :
    let x := symbol "x"
    let e := product [sum [power x (rat 2), negation (rat 1)],
      power (sum [x, negation (rat 1)]) minusOne]
    let f := sum [x, rat 1]
    let certificate : Expr → Expr → Except Fault Bool :=
      fun e f => .ok (decide (e.rational = f.rational))
    ofString .standard "(x^2-1)/(x-1)" = .ok e ∧ ofString .standard "x+1" = .ok f ∧
      e.IsRational ∧ f.IsRational ∧ e.rational = f.rational ∧
      (compareTextsWith .standard
        ⟨(Sampling.exact fun _ q => Number.ratText q).fingerprint .standard, certificate⟩
        "(x^2-1)/(x-1)" "x+1").result.1 = .ok .differentValues := by
  intro x e f certificate
  have hx : x.IsRational := .symbol (by decide) (by decide)
  have hsquare : (power x (rat 2)).IsRational := isRational_intPower (k := 2) hx (by simp)
  have hsub : (sum [x, negation (rat 1)]).IsRational := .sum (by
    simp [hx, IsRational.negation, IsRational.literal])
  have hsubfun : (sum [x, negation (rat 1)]).rational = x.rational - 1 := by
    simp [rational_sum, rational_negation, rational_rat, sub_eq_add_neg]
  have hsub0 : (sum [x, negation (rat 1)]).rational ≠ 0 := by
    have hpoly : x.rational - 1 =
        RationalFunction.ofPolynomial (MvPolynomial.X "x" - MvPolynomial.C 1) := by
      simp [x, rational_symbol]
    rw [hsubfun, hpoly, map_ne_zero_iff _ RationalFunction.ofPolynomial_injective]
    intro hzero
    simpa using congrArg (MvPolynomial.eval fun _ => 0) hzero
  refine ⟨ofString_eq_ok_of_returns (by simp [e, x, minusOne]) (by decide +kernel),
    ofString_eq_ok_of_returns (by simp [f, x]) (by decide +kernel), .product ?_, .sum ?_, ?_,
    eq_ok_of_toOption (by decide +kernel)⟩
  · simp only [List.forall_mem_cons, List.not_mem_nil, false_implies, implies_true, and_true]
    refine ⟨.sum ?_, isRational_intPower (k := -1) hsub fun _ => hsub0⟩
    simp [hsquare, IsRational.negation, IsRational.literal]
  · simp [hx, IsRational.literal]
  · simp only [e, f, rational_product, rational_sum, rational_negation,
      rational_power (k := 2) (p := rat 2) rfl, rational_power (k := -1) (p := minusOne) rfl,
      rational_rat, List.map_cons, List.map_nil, List.sum_cons, List.sum_nil, List.prod_cons,
      List.prod_nil, map_one]
    rw [hsubfun] at hsub0
    simp only [add_zero, mul_one, ← sub_eq_add_neg, zpow_neg_one]
    rw [← div_eq_mul_inv, div_eq_iff hsub0]
    norm_cast
    ring

end AlgebraicForm
