import AlgebraicForm.Proofs.BuilderSteps
import AlgebraicForm.Proofs.RealMeaning

/-!
# The laws of normalisation

`Rewrites a b` says that `b` comes from `a` by laws of algebra, each used anywhere in the expression
and in one direction only: the one in which normalisation uses it. The laws are about fractions; no
law introduces a symbol or a function. That normalisation uses these laws and nothing else is in
`AlgebraicForm.Proofs.BuilderLaws`; whatever is to hold of it needs checking here, law by law.

* `Rewrites.refines`: a law keeps the value wherever there is one.
* `Rewrites.every`: a law keeps a property of all parts that only symbols and calls can fail.
-/

namespace AlgebraicForm

open AlgebraicForm.Expr

namespace Expr

/-- The factor with a base and an exponent. An exponent of one is left out, but not over a
literal. -/
def ofPower (b p : Expr) : Expr :=
  match p with
  | number (.exact q) => if q = 1 ∧ b.isNumber = false then b else power b p
  | _ => power b p

end Expr

/-- Rewriting by laws. -/
inductive Rewrites : Expr → Expr → Prop
  | refl (e : Expr) : Rewrites e e
  | trans {a b c : Expr} : Rewrites a b → Rewrites b c → Rewrites a c
  -- in an operand
  | sum_head {t u : Expr} (ts : List Expr) :
      Rewrites t u → Rewrites (sum (t :: ts)) (sum (u :: ts))
  | product_head {f g : Expr} (fs : List Expr) :
      Rewrites f g → Rewrites (product (f :: fs)) (product (g :: fs))
  | power_base {b c : Expr} (p : Expr) : Rewrites b c → Rewrites (power b p) (power c p)
  | power_exponent (b : Expr) {p q : Expr} : Rewrites p q → Rewrites (power b p) (power b q)
  | negation_operand {d e : Expr} : Rewrites d e → Rewrites (negation d) (negation e)
  | call_argument (n : String) (ds : List Expr) {d e : Expr} (es : List Expr) :
      Rewrites d e → Rewrites (call n (ds ++ d :: es)) (call n (ds ++ e :: es))
  -- sums
  | sum_perm {ts us : List Expr} : ts.Perm us → Rewrites (sum ts) (sum us)
  | sum_flatten (ts us : List Expr) : Rewrites (sum (sum ts :: us)) (sum (ts ++ us))
  | sum_literals (a b : Rat) (ts : List Expr) :
      Rewrites (sum (rat a :: rat b :: ts)) (sum (rat (a + b) :: ts))
  | sum_zero (ts : List Expr) : Rewrites (sum (zero :: ts)) (sum ts)
  | sum_like (a b : Rat) (body : Expr) (ts : List Expr) :
      Rewrites (sum (scale (.exact a) body :: scale (.exact b) body :: ts))
        (sum (scale (.exact (a + b)) body :: ts))
  | sum_vanish (body : Expr) (ts : List Expr) :
      Rewrites (sum (scale (.exact 0) body :: ts)) (sum ts)
  | sum_empty : Rewrites (sum []) zero
  | sum_single (t : Expr) : Rewrites (sum [t]) t
  -- products
  | product_perm {fs gs : List Expr} : fs.Perm gs → Rewrites (product fs) (product gs)
  | product_flatten (fs gs : List Expr) :
      Rewrites (product (product fs :: gs)) (product (fs ++ gs))
  | product_literals (a b : Rat) (fs : List Expr) :
      Rewrites (product (rat a :: rat b :: fs)) (product (rat (a * b) :: fs))
  | product_one (fs : List Expr) : Rewrites (product (one :: fs)) (product fs)
  | product_zero (fs : List Expr) : Rewrites (product (zero :: fs)) zero
  | product_empty : Rewrites (product []) one
  | product_single (f : Expr) : Rewrites (product [f]) f
  | coefficient (a : Rat) (fs : List Expr) :
      Rewrites (product (rat a :: fs)) (scale (.exact a) (ofFactors fs))
  | like_bases (b : Expr) {es : List Expr} {p : Expr} (fs : List Expr) :
      2 ≤ es.length → Rewrites (sum es) p →
      ((∀ e ∈ es, e.isIntegerNumber = true) → p.isIntegerNumber = true) →
      Rewrites (product (es.map (ofPower b) ++ fs)) (product (power b p :: fs))
  | distribute_sign (ts : List Expr) :
      Rewrites (product [minusOne, sum ts]) (sum (ts.map fun t => product [minusOne, t]))
  -- powers
  | power_zero (b : Expr) : Rewrites (power b zero) one
  | power_one (b : Expr) : Rewrites (power b one) b
  | one_power (p : Expr) : Rewrites (power one p) one
  | zero_power {q : Rat} : 0 < q → Rewrites (power zero (rat q)) zero
  | whole_power (x : Rat) (k : Int) :
      ¬(x = 0 ∧ k < 0) → Rewrites (power (rat x) (rat k)) (rat (x ^ k))
  | square_root {x z : Rat} :
      sqrt? x = some z → Rewrites (power (rat x) (number .half)) (rat z)
  | power_power (b : Expr) {p q : Expr} (k : Int) :
      Rewrites (product [p, rat k]) q →
      (p.isIntegerNumber = true → q.isIntegerNumber = true) →
      Rewrites (power (power b p) (rat k)) (power b q)
  | power_product (fs : List Expr) (k : Int) :
      Rewrites (power (product fs) (rat k)) (product (fs.map fun f => power f (rat k)))
  -- other spellings
  | negation_literal (a : Rat) : Rewrites (negation (rat a)) (rat (-a))
  | negation (e : Expr) : Rewrites (negation e) (product [minusOne, e])
  | call_sqrt (e : Expr) : Rewrites (call "sqrt" [e]) (power e (number .half))

/-! ## Every law keeps the value -/

section

variable {M : Interpretation}

@[simp] theorem meaning_half : (number .half).meaning M = some (1 / 2) := by
  simp [Number.half, Rat.mkRat_eq_div]

@[simp] theorem meaning_ofPower (b p : Expr) : (ofPower b p).meaning M = (power b p).meaning M := by
  unfold ofPower
  split
  · split
    next q h =>
      ext x
      simp [meaning_power_eq_some_iff, h.1]
    · rfl
  · rfl

/-- The factors of an expression have its value as their product. -/
@[simp] theorem meaning_product_factors (e : Expr) :
    (product e.factors).meaning M = e.meaning M := by
  cases e <;> simp [factors]

/-- The terms of an expression have its value as their sum. -/
@[simp] theorem meaning_sum_terms (e : Expr) : (sum e.terms).meaning M = e.meaning M := by
  cases e <;> simp [terms]

@[simp] theorem meaning_ofFactors (fs : List Expr) :
    (ofFactors fs).meaning M = (product fs).meaning M := by
  unfold ofFactors
  split <;> simp

theorem meaning_scale_eq_some_iff {a : Rat} {body : Expr} {x : ℝ} :
    (scale (.exact a) body).meaning M = some x ↔ ∃ y, body.meaning M = some y ∧ a * y = x := by
  unfold scale
  split
  next h =>
    have ha : a = 1 := by simpa [Number.isOne, Number.equals, Number.ofInt] using h
    simp [ha]
  next => simp [meaning_product_cons_eq_some_iff]

/-- One of several operands may be refined. -/
theorem meanings_append_cons {ds es : List Expr} {d e : Expr}
    (h : ∀ x, d.meaning M = some x → e.meaning M = some x) {xs : List ℝ}
    (hxs : meanings M (ds ++ d :: es) = some xs) : meanings M (ds ++ e :: es) = some xs := by
  induction ds generalizing xs with
  | nil =>
    obtain ⟨y, ys, hy, hys, rfl⟩ := meanings_cons_eq_some_iff.mp hxs
    exact meanings_cons_eq_some_iff.mpr ⟨y, ys, h y hy, hys, rfl⟩
  | cons c ds ih =>
    obtain ⟨y, ys, hy, hys, rfl⟩ := meanings_cons_eq_some_iff.mp hxs
    exact meanings_cons_eq_some_iff.mpr ⟨y, ys, hy, ih hys, rfl⟩

theorem sqrt?_eq_some {x z : Rat} (h : sqrt? x = some z) : 0 ≤ z ∧ z * z = x := by
  unfold sqrt? at h
  split at h
  next => simp at h
  next hx =>
    simp only [Option.ite_none_right_eq_some, Option.some.injEq] at h
    obtain ⟨⟨hn, hd⟩, rfl⟩ := h
    have hnum : (x.num.toNat : Int) = x.num := Int.toNat_of_nonneg (by simpa using hx)
    refine ⟨?_, ?_⟩
    · rw [Rat.mkRat_eq_div]
      positivity
    · rw [Rat.mkRat_eq_div, div_mul_div_comm]
      conv_rhs => rw [← Rat.num_div_den x, ← hnum, ← hn, ← hd]
      push_cast
      rfl

/-- Powers of one base multiply to the power of the sum of the exponents. -/
theorem meaning_map_ofPower {b : Expr} {es : List Expr} {fs : List Expr} {x : ℝ} (hes : es ≠ [])
    (h : (product (es.map (ofPower b) ++ fs)).meaning M = some x) :
    (product (power b (sum es) :: fs)).meaning M = some x := by
  obtain ⟨y, z, hy, hz, rfl⟩ := meaning_product_append_eq_some_iff.mp h
  refine meaning_product_cons_eq_some_iff.mpr ⟨y, z, ?_, hz, rfl⟩
  clear h hz
  induction es generalizing y with
  | nil => exact absurd rfl hes
  | cons e es ih =>
    obtain ⟨u, v, hu, hv, rfl⟩ := meaning_product_cons_eq_some_iff.mp hy
    rw [meaning_ofPower, meaning_power_eq_some_iff] at hu
    obtain ⟨β, p, hβ, hp, hu⟩ := hu
    cases es with
    | nil =>
      obtain rfl : (1 : ℝ) = v := by simpa using hv
      exact meaning_power_eq_some_iff.mpr ⟨β, p, hβ, by simpa using hp, by simpa using hu⟩
    | cons e' es =>
      obtain ⟨β', q, hβ', hq, hv⟩ := meaning_power_eq_some_iff.mp (ih (by simp) v hv)
      obtain rfl : β = β' := Option.some_injective _ (hβ.symm.trans hβ')
      exact meaning_power_eq_some_iff.mpr ⟨β, p + q, hβ,
        meaning_sum_cons_eq_some_iff.mpr ⟨p, q, hp, hq, rfl⟩, realPower_add hu hv⟩

/-- A minus sign before a sum belongs before each term. -/
theorem meaning_sum_map_minusOne {ts : List Expr} {x : ℝ} (h : (sum ts).meaning M = some x) :
    (sum (ts.map fun t => product [minusOne, t])).meaning M = some (-x) := by
  induction ts generalizing x with
  | nil =>
    obtain rfl : (0 : ℝ) = x := by simpa using h
    simp
  | cons t ts ih =>
    obtain ⟨y, z, hy, hz, rfl⟩ := meaning_sum_cons_eq_some_iff.mp h
    refine meaning_sum_cons_eq_some_iff.mpr ⟨-y, -z, ?_, ih hz, by ring⟩
    simp [meaning_product_cons_eq_some_iff, hy]

theorem meaning_product_map_power {fs : List Expr} {k : Int} {y x : ℝ}
    (hy : (product fs).meaning M = some y) (hx : realPower y k = some x) :
    (product (fs.map fun f => power f (rat k))).meaning M = some x := by
  induction fs generalizing y x with
  | nil =>
    obtain rfl : (1 : ℝ) = y := by simpa using hy
    simpa using hx
  | cons f fs ih =>
    obtain ⟨u, v, hu, hv, rfl⟩ := meaning_product_cons_eq_some_iff.mp hy
    obtain ⟨a, b, ha, hb, rfl⟩ := realPower_mul hx
    refine meaning_product_cons_eq_some_iff.mpr ⟨a, b, ?_, ih hv hb, rfl⟩
    exact meaning_power_eq_some_iff.mpr ⟨u, k, hu, by simp, ha⟩

end

/-- Each law keeps the value wherever there is one. -/
theorem Rewrites.refines {a b : Expr} (h : Rewrites a b) : Refines a b := by
  intro M
  induction h with
  | refl => exact fun _ h => h
  | trans _ _ ih₁ ih₂ => exact fun x h => ih₂ x (ih₁ x h)
  | sum_head ts _ ih =>
    intro x h
    obtain ⟨y, z, hy, hz, rfl⟩ := meaning_sum_cons_eq_some_iff.mp h
    exact meaning_sum_cons_eq_some_iff.mpr ⟨y, z, ih y hy, hz, rfl⟩
  | product_head fs _ ih =>
    intro x h
    obtain ⟨y, z, hy, hz, rfl⟩ := meaning_product_cons_eq_some_iff.mp h
    exact meaning_product_cons_eq_some_iff.mpr ⟨y, z, ih y hy, hz, rfl⟩
  | power_base p _ ih =>
    intro x h
    obtain ⟨y, z, hy, hz, hx⟩ := meaning_power_eq_some_iff.mp h
    exact meaning_power_eq_some_iff.mpr ⟨y, z, ih y hy, hz, hx⟩
  | power_exponent b _ ih =>
    intro x h
    obtain ⟨y, z, hy, hz, hx⟩ := meaning_power_eq_some_iff.mp h
    exact meaning_power_eq_some_iff.mpr ⟨y, z, hy, ih z hz, hx⟩
  | negation_operand _ ih =>
    intro x h
    obtain ⟨y, hy, rfl⟩ := meaning_negation_eq_some_iff.mp h
    exact meaning_negation_eq_some_iff.mpr ⟨y, ih y hy, rfl⟩
  | call_argument n ds es _ ih =>
    intro x h
    obtain ⟨xs, hxs, hx⟩ := meaning_call_eq_some_iff.mp h
    exact meaning_call_eq_some_iff.mpr ⟨xs, meanings_append_cons ih hxs, hx⟩
  | sum_perm hperm =>
    intro x h
    obtain ⟨xs, hxs, rfl⟩ := meaning_sum_eq_some_iff.mp h
    obtain ⟨ys, hys, hxy⟩ := meanings_perm hperm hxs
    exact meaning_sum_eq_some_iff.mpr ⟨ys, hys, hxy.sum_eq.symm⟩
  | sum_flatten ts us =>
    intro x h
    rwa [meaning_sum_append_eq_some_iff, ← meaning_sum_cons_eq_some_iff]
  | sum_literals a b ts =>
    intro x h
    simp only [meaning_sum_cons_eq_some_iff, meaning_rat, Option.some.injEq] at h ⊢
    obtain ⟨_, _, rfl, ⟨_, z, rfl, hz, rfl⟩, rfl⟩ := h
    exact ⟨_, z, rfl, hz, by push_cast; ring⟩
  | sum_zero ts =>
    intro x h
    simpa [meaning_sum_cons_eq_some_iff] using h
  | sum_like a b body ts =>
    intro x h
    simp only [meaning_sum_cons_eq_some_iff, meaning_scale_eq_some_iff] at h ⊢
    obtain ⟨_, _, ⟨y, hy, rfl⟩, ⟨_, z, ⟨y', hy', rfl⟩, hz, rfl⟩, rfl⟩ := h
    -- both terms have the same body, so it has one value
    obtain rfl : y = y' := Option.some_injective _ (hy.symm.trans hy')
    exact ⟨_, z, ⟨y, hy, rfl⟩, hz, by push_cast; ring⟩
  | sum_vanish body ts =>
    intro x h
    simp only [meaning_sum_cons_eq_some_iff, meaning_scale_eq_some_iff] at h
    -- the body has a value, which zero takes away
    obtain ⟨_, z, ⟨y, _, rfl⟩, hz, rfl⟩ := h
    simpa using hz
  | sum_empty => simp
  | sum_single t => simp
  | product_perm hperm =>
    intro x h
    obtain ⟨xs, hxs, rfl⟩ := meaning_product_eq_some_iff.mp h
    obtain ⟨ys, hys, hxy⟩ := meanings_perm hperm hxs
    exact meaning_product_eq_some_iff.mpr ⟨ys, hys, hxy.prod_eq.symm⟩
  | product_flatten fs gs =>
    intro x h
    rwa [meaning_product_append_eq_some_iff, ← meaning_product_cons_eq_some_iff]
  | product_literals a b fs =>
    intro x h
    simp only [meaning_product_cons_eq_some_iff, meaning_rat, Option.some.injEq] at h ⊢
    obtain ⟨_, _, rfl, ⟨_, z, rfl, hz, rfl⟩, rfl⟩ := h
    exact ⟨_, z, rfl, hz, by push_cast; ring⟩
  | product_one fs =>
    intro x h
    simpa [meaning_product_cons_eq_some_iff] using h
  | product_zero fs =>
    intro x h
    simp only [meaning_product_cons_eq_some_iff, meaning_zero, Option.some.injEq] at h ⊢
    obtain ⟨_, z, rfl, _, rfl⟩ := h
    exact (zero_mul z).symm
  | product_empty => simp
  | product_single f => simp
  | coefficient a fs =>
    intro x h
    rw [meaning_scale_eq_some_iff, meaning_ofFactors]
    simpa [meaning_product_cons_eq_some_iff] using h
  | like_bases b fs hes _ _ ih =>
    intro x h
    -- each power has a value, so the base may be raised to the sum of the exponents
    obtain ⟨y, z, hy, hz, rfl⟩ := meaning_product_cons_eq_some_iff.mp
      (meaning_map_ofPower (by rintro rfl; simp at hes) h)
    obtain ⟨u, v, hu, hv, hy⟩ := meaning_power_eq_some_iff.mp hy
    exact meaning_product_cons_eq_some_iff.mpr
      ⟨y, z, meaning_power_eq_some_iff.mpr ⟨u, v, hu, ih v hv, hy⟩, hz, rfl⟩
  | distribute_sign ts =>
    intro x h
    simp only [meaning_product_cons_eq_some_iff, meaning_minusOne, Option.some.injEq,
      meaning_product_nil] at h
    obtain ⟨_, _, rfl, ⟨y, _, hy, rfl, rfl⟩, rfl⟩ := h
    simpa using meaning_sum_map_minusOne hy
  | power_zero b =>
    intro x h
    obtain ⟨y, z, _, hz, hx⟩ := meaning_power_eq_some_iff.mp h
    obtain rfl : (0 : ℝ) = z := by simpa using hz
    simpa using hx
  | power_one b =>
    intro x h
    obtain ⟨y, z, hy, hz, hx⟩ := meaning_power_eq_some_iff.mp h
    obtain rfl : (1 : ℝ) = z := by simpa using hz
    rwa [hy, ← realPower_one]
  | one_power p =>
    intro x h
    obtain ⟨y, z, hy, _, hx⟩ := meaning_power_eq_some_iff.mp h
    obtain rfl : (1 : ℝ) = y := by simpa using hy
    simpa using hx
  | @zero_power q hq =>
    intro x h
    obtain ⟨y, z, hy, hz, hx⟩ := meaning_power_eq_some_iff.mp h
    obtain rfl : (0 : ℝ) = y := by simpa using hy
    obtain rfl : (q : ℝ) = z := by simpa using hz
    rw [realPower_zero_left (by exact_mod_cast hq)] at hx
    simpa using hx
  | whole_power x k hk =>
    intro z h
    obtain ⟨y, p, hy, hp, hx⟩ := meaning_power_eq_some_iff.mp h
    obtain rfl : (x : ℝ) = y := by simpa using hy
    obtain rfl : ((k : Rat) : ℝ) = p := by simpa using hp
    rw [Rat.cast_intCast, realPower_intCast_eq_some_iff] at hx
    simp [← hx.2]
  | @square_root x z hz =>
    intro w h
    obtain ⟨y, p, hy, hp, hx⟩ := meaning_power_eq_some_iff.mp h
    -- the root is not negative, so that it is the one that the power means
    obtain ⟨hz0, rfl⟩ := sqrt?_eq_some hz
    obtain rfl : ((z * z : Rat) : ℝ) = y := by simpa using hy
    obtain rfl : (1 / 2 : ℝ) = p := Option.some_injective _ (meaning_half.symm.trans hp)
    have hz0 : (0 : ℝ) ≤ z := by exact_mod_cast hz0
    rw [Rat.cast_mul, realPower_mul_self_half hz0] at hx
    simpa using hx
  | power_power b k _ _ ih =>
    intro x h
    simp only [meaning_power_eq_some_iff] at h ⊢
    obtain ⟨y, z, ⟨u, v, hu, hv, hy⟩, hz, hx⟩ := h
    obtain rfl : ((k : Rat) : ℝ) = z := by simpa using hz
    rw [Rat.cast_intCast] at hx
    -- a whole exponent outside multiplies the one inside, whatever the base is
    refine ⟨u, v * k, hu, ih _ ?_, realPower_power hy hx⟩
    simp [meaning_product_cons_eq_some_iff, hv]
  | power_product fs k =>
    intro x h
    obtain ⟨y, z, hy, hz, hx⟩ := meaning_power_eq_some_iff.mp h
    obtain rfl : ((k : Rat) : ℝ) = z := by simpa using hz
    rw [Rat.cast_intCast] at hx
    exact meaning_product_map_power hy hx
  | negation_literal a =>
    intro x h
    simpa [meaning_negation_eq_some_iff] using h
  | negation e =>
    intro x h
    simpa [meaning_negation_eq_some_iff, meaning_product_cons_eq_some_iff] using h
  | call_sqrt e =>
    intro x h
    obtain ⟨xs, hxs, hx⟩ := meaning_call_eq_some_iff.mp h
    obtain ⟨y, ys, hy, hnil, rfl⟩ := meanings_cons_eq_some_iff.mp hxs
    obtain rfl : [] = ys := by simpa using hnil
    -- a root of one argument has no meaning but this
    rw [Interpretation.apply, if_pos rfl] at hx
    exact meaning_power_eq_some_iff.mpr ⟨y, 1 / 2, hy, meaning_half, hx⟩

/-! ## Every law keeps symbols and calls -/

/-- A property of nodes that only symbols and calls, doubles and holes can fail; of a call it may
depend on the name and the number of arguments. -/
structure LeafProperty (P : Expr → Prop) : Prop where
  rat (q : Rat) : P (rat q)
  sum (ts : List Expr) : P (sum ts)
  product (fs : List Expr) : P (product fs)
  power (b p : Expr) : P (power b p)
  negation (e : Expr) : P (negation e)
  call {n : String} {ds es : List Expr} : ds.length = es.length → P (call n ds) → P (call n es)

theorem leafProperty_isExactNode : LeafProperty IsExactNode where
  rat _ := trivial
  sum _ := trivial
  product _ := trivial
  power _ _ := trivial
  negation _ := trivial
  call _ _ := trivial

namespace LeafProperty

variable {P Q : Expr → Prop}

theorem and (hP : LeafProperty P) (hQ : LeafProperty Q) : LeafProperty fun e => P e ∧ Q e where
  rat q := ⟨hP.rat q, hQ.rat q⟩
  sum ts := ⟨hP.sum ts, hQ.sum ts⟩
  product fs := ⟨hP.product fs, hQ.product fs⟩
  power b p := ⟨hP.power b p, hQ.power b p⟩
  negation e := ⟨hP.negation e, hQ.negation e⟩
  call hlen h := ⟨hP.call hlen h.1, hQ.call hlen h.2⟩

theorem every_sum_iff (hP : LeafProperty P) {ts : List Expr} :
    (Expr.sum ts).Every P ↔ ∀ t ∈ ts, t.Every P :=
  every_sum.trans (and_iff_right (hP.sum ts))

theorem every_product_iff (hP : LeafProperty P) {fs : List Expr} :
    (Expr.product fs).Every P ↔ ∀ f ∈ fs, f.Every P :=
  every_product.trans (and_iff_right (hP.product fs))

theorem every_power_iff (hP : LeafProperty P) {b p : Expr} :
    (Expr.power b p).Every P ↔ b.Every P ∧ p.Every P :=
  every_power.trans (and_iff_right (hP.power b p))

theorem every_negation_iff (hP : LeafProperty P) {e : Expr} :
    (Expr.negation e).Every P ↔ e.Every P :=
  every_negation.trans (and_iff_right (hP.negation e))

theorem every_rat (hP : LeafProperty P) (q : Rat) : (Expr.rat q).Every P :=
  every_number.mpr (hP.rat q)

theorem every_scale_iff (hP : LeafProperty P) {a : Rat} {body : Expr} :
    (scale (.exact a) body).Every P ↔ body.Every P := by
  unfold scale
  split
  · rfl
  · cases body <;> simp [factors, hP.every_product_iff, hP.every_rat]

theorem every_ofPower_iff (hP : LeafProperty P) {b p : Expr} :
    (ofPower b p).Every P ↔ b.Every P ∧ p.Every P := by
  unfold ofPower
  split
  next q =>
    split
    · simp [hP.every_rat q]
    · exact hP.every_power_iff
  · exact hP.every_power_iff

theorem every_ofFactors_iff (hP : LeafProperty P) {fs : List Expr} :
    (ofFactors fs).Every P ↔ ∀ f ∈ fs, f.Every P := by
  unfold ofFactors
  split
  · simp
  · exact hP.every_product_iff

end LeafProperty

/-- Each law keeps a property that only symbols and calls can fail. -/
theorem Rewrites.every {P : Expr → Prop} (hP : LeafProperty P) {a b : Expr} (h : Rewrites a b)
    (ha : a.Every P) : b.Every P := by
  induction h with
  | refl => exact ha
  | trans _ _ ih₁ ih₂ => exact ih₂ (ih₁ ha)
  | sum_head ts _ ih | product_head ts _ ih =>
    simp only [hP.every_sum_iff, hP.every_product_iff, List.forall_mem_cons] at ha ⊢
    exact ⟨ih ha.1, ha.2⟩
  | power_base p _ ih =>
    rw [hP.every_power_iff] at ha ⊢
    exact ⟨ih ha.1, ha.2⟩
  | power_exponent b _ ih =>
    rw [hP.every_power_iff] at ha ⊢
    exact ⟨ha.1, ih ha.2⟩
  | negation_operand _ ih =>
    rw [hP.every_negation_iff] at ha ⊢
    exact ih ha
  | call_argument n ds es _ ih =>
    rw [every_call, List.forall_mem_append, List.forall_mem_cons] at ha ⊢
    exact ⟨hP.call (by simp) ha.1, ha.2.1, ih ha.2.2.1, ha.2.2.2⟩
  | sum_perm hperm | product_perm hperm =>
    simp only [hP.every_sum_iff, hP.every_product_iff] at ha ⊢
    exact fun e he => ha e (hperm.mem_iff.mpr he)
  | @like_bases b es p fs hes _ _ ih =>
    simp only [hP.every_product_iff, List.forall_mem_append, List.forall_mem_map,
      hP.every_ofPower_iff, List.forall_mem_cons, hP.every_power_iff] at ha ⊢
    obtain ⟨e, he⟩ := List.exists_mem_of_length_pos (l := es) (by omega)
    refine ⟨⟨(ha.1 e he).1, ih ?_⟩, ha.2⟩
    exact hP.every_sum_iff.mpr fun e he => (ha.1 e he).2
  | power_power b k _ _ ih =>
    simp only [hP.every_power_iff] at ha ⊢
    refine ⟨ha.1.1, ih ?_⟩
    simp [hP.every_product_iff, ha.1.2, hP.every_rat]
  | call_sqrt e =>
    rw [every_call] at ha
    exact hP.every_power_iff.mpr ⟨ha.2 e (by simp), hP.every_rat _⟩
  | sum_literals | sum_zero | sum_like | sum_vanish | sum_empty | sum_single | sum_flatten
  | product_literals | product_one | product_zero | product_empty | product_single
  | product_flatten | coefficient | distribute_sign | power_zero | power_one | one_power
  | zero_power | whole_power | square_root | power_product | negation_literal | negation =>
    simp_all [hP.every_sum_iff, hP.every_product_iff, hP.every_power_iff, hP.every_negation_iff,
      hP.every_scale_iff, hP.every_ofFactors_iff, hP.every_rat, zero, one, minusOne, or_imp,
      forall_and]

end AlgebraicForm
