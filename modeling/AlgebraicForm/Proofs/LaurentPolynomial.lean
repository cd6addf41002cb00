import AlgebraicForm.Proofs.Lexing
import AlgebraicForm.Proofs.RealMeaning
import Mathlib.Algebra.MonoidAlgebra.Basic
import Mathlib.LinearAlgebra.LinearIndependent.Basic

/-!
# Expressions that are Laurent polynomials

Sums of products of literals, symbols and whole powers of such products are Laurent polynomials with
rational coefficients (`IsMonomial`, `IsLaurent`). `Expr.laurent` is the polynomial that such an
expression stands for; a power is taken in the ring, where a monomial other than zero is a unit.

Laurent polynomials are functions of what their symbols stand for, as long as that is not zero, and
different ones are different functions: monomials are characters of the group of these points, and
characters are linearly independent. So the real meaning of an expression tells its polynomial.

* `meaning_of_isLaurent`: the meaning at a point is the value of the polynomial.
* `Laurent.ext_eval`: a polynomial is known from its values.
-/

namespace AlgebraicForm

open AlgebraicForm.Expr

/-- Laurent polynomials in symbols, with rational coefficients: the exponents of a monomial are
whole numbers, of which finitely many are not zero. -/
abbrev Laurent : Type :=
  AddMonoidAlgebra ℚ (String →₀ ℤ)

namespace Laurent

/-! ## Powers of monomials -/

/-- A monomial with its coefficient. -/
noncomputable def monomial (v : String →₀ ℤ) (q : ℚ) : Laurent :=
  AddMonoidAlgebra.single v q

theorem monomial_mul (v w : String →₀ ℤ) (q r : ℚ) :
    monomial v q * monomial w r = monomial (v + w) (q * r) :=
  AddMonoidAlgebra.single_mul_single ..

theorem monomial_pow (v : String →₀ ℤ) (q : ℚ) (n : ℕ) :
    monomial v q ^ n = monomial (n • v) (q ^ n) :=
  AddMonoidAlgebra.single_pow ..

@[simp] theorem monomial_zero_right (v : String →₀ ℤ) : monomial v 0 = 0 :=
  AddMonoidAlgebra.single_zero v

theorem monomial_zero_one : monomial 0 1 = 1 :=
  rfl

theorem neg_monomial (v : String →₀ ℤ) (q : ℚ) : -monomial v q = monomial v (-q) :=
  (AddMonoidAlgebra.single_neg v q).symm

theorem monomial_eq_zero_iff {v : String →₀ ℤ} {q : ℚ} : monomial v q = 0 ↔ q = 0 :=
  AddMonoidAlgebra.single_eq_zero

/-- A whole power; a negative one is the power of the inverse. -/
noncomputable def power (f : Laurent) (k : ℤ) : Laurent :=
  if 0 ≤ k then f ^ k.toNat else Ring.inverse f ^ (-k).toNat

theorem inverse_monomial (v : String →₀ ℤ) {q : ℚ} (hq : q ≠ 0) :
    Ring.inverse (monomial v q) = monomial (-v) q⁻¹ := by
  have hleft : monomial v q * monomial (-v) q⁻¹ = 1 := by
    rw [monomial_mul, add_neg_cancel, mul_inv_cancel₀ hq, monomial_zero_one]
  have hunit : Ring.inverse ((Units.mkOfMulEqOne _ _ hleft : Laurentˣ) : Laurent) = _ :=
    Ring.inverse_unit _
  exact hunit

/-- A whole power of a monomial multiplies its exponents. -/
theorem power_monomial (v : String →₀ ℤ) {q : ℚ} {k : ℤ} (h : q = 0 → 0 < k) :
    power (monomial v q) k = monomial (k • v) (q ^ k) := by
  unfold power
  split
  next hk =>
    obtain ⟨n, rfl⟩ := Int.eq_ofNat_of_zero_le hk
    rw [Int.toNat_natCast, monomial_pow, natCast_zsmul, zpow_natCast]
  next hk =>
    have hq : q ≠ 0 := fun hq => by have := h hq; omega
    obtain ⟨n, hn⟩ := Int.eq_ofNat_of_zero_le (show 0 ≤ -k by omega)
    obtain rfl : k = -n := by omega
    rw [inverse_monomial v hq, neg_neg, Int.toNat_natCast, monomial_pow, neg_smul, natCast_zsmul,
      smul_neg, zpow_neg, zpow_natCast, inv_pow]

end Laurent

namespace Expr

/-! ## The polynomial of an expression -/

/-- The whole number that an exponent is, written as a literal or as the negation of one. -/
def exponent? : Expr → Option ℤ
  | number (.exact q) => if q.den = 1 then some q.num else none
  | negation (number (.exact q)) => if q.den = 1 then some (-q.num) else none
  | _ => none

mutual

/-- The Laurent polynomial that an expression stands for. What is no polynomial stands for zero. -/
noncomputable def laurent : Expr → Laurent
  | number (.exact q) => Laurent.monomial 0 q
  | symbol n => Laurent.monomial (Finsupp.single n 1) 1
  | sum ts => (laurents ts).sum
  | product fs => (laurents fs).prod
  | power b p =>
    match p.exponent? with
    | some k => (laurent b).power k
    | none => 0
  | negation e => -laurent e
  | number (.approx _) | call _ _ | hole => 0

/-- The polynomials of several expressions. -/
noncomputable def laurents : List Expr → List Laurent
  | [] => []
  | e :: es => laurent e :: laurents es

end

/-- A monomial: literals, symbols, and what negation, products and whole powers make of them. The
exponents are of an allowed kind, and zero has positive powers only. -/
inductive IsMonomial (allowed : ℤ → Prop) : Expr → Prop
  | literal (q : Rat) : IsMonomial allowed (rat q)
  | symbol {n : String} : IsIdentifier n → IsMonomial allowed (symbol n)
  | negation {e : Expr} : IsMonomial allowed e → IsMonomial allowed (negation e)
  | product {fs : List Expr} : (∀ f ∈ fs, IsMonomial allowed f) → IsMonomial allowed (product fs)
  | power {b p : Expr} {k : ℤ} : IsMonomial allowed b → p.exponent? = some k → allowed k →
      (b.laurent = 0 → 0 < k) → IsMonomial allowed (power b p)

/-- A Laurent polynomial: monomials, and what negation and sums make of them. -/
inductive IsLaurent (allowed : ℤ → Prop) : Expr → Prop
  | monomial {e : Expr} : IsMonomial allowed e → IsLaurent allowed e
  | negation {e : Expr} : IsLaurent allowed e → IsLaurent allowed (negation e)
  | sum {ts : List Expr} : (∀ t ∈ ts, IsLaurent allowed t) → IsLaurent allowed (sum ts)

theorem laurents_eq_map (es : List Expr) : laurents es = es.map laurent := by
  induction es with
  | nil => rfl
  | cons e es ih => rw [laurents, ih, List.map_cons]

theorem laurent_rat (q : Rat) : (rat q).laurent = Laurent.monomial 0 q := by
  rw [laurent]

theorem laurent_symbol (n : String) :
    (symbol n).laurent = Laurent.monomial (Finsupp.single n 1) 1 := by
  rw [laurent]

theorem laurent_sum (ts : List Expr) : (sum ts).laurent = (ts.map laurent).sum := by
  rw [laurent, laurents_eq_map]

theorem laurent_product (fs : List Expr) : (product fs).laurent = (fs.map laurent).prod := by
  rw [laurent, laurents_eq_map]

theorem laurent_negation (e : Expr) : (negation e).laurent = -e.laurent := by
  rw [laurent]

theorem laurent_power {b p : Expr} {k : ℤ} (h : p.exponent? = some k) :
    (power b p).laurent = b.laurent.power k := by
  rw [laurent, h]

@[simp] theorem exponent?_rat_intCast (k : ℤ) : (rat k).exponent? = some k := by
  simp [exponent?]

theorem exponent?_eq_some {p : Expr} {k : ℤ} (h : p.exponent? = some k) :
    p = rat k ∨ p = negation (rat (-k)) := by
  unfold exponent? at h
  split at h
  next q =>
    simp only [Option.ite_none_right_eq_some, Option.some.injEq] at h
    obtain ⟨hden, rfl⟩ := h
    exact .inl (by rw [(Rat.den_eq_one_iff q).mp hden])
  next q =>
    simp only [Option.ite_none_right_eq_some, Option.some.injEq] at h
    obtain ⟨hden, rfl⟩ := h
    refine .inr ?_
    rw [Int.cast_neg, neg_neg, (Rat.den_eq_one_iff q).mp hden]
  next => simp at h

/-- The polynomial of a monomial is a monomial. -/
theorem IsMonomial.laurent_eq {allowed : ℤ → Prop} {e : Expr} (h : IsMonomial allowed e) :
    ∃ v q, e.laurent = Laurent.monomial v q := by
  induction h with
  | literal q => exact ⟨0, q, laurent_rat q⟩
  | @symbol n _ => exact ⟨_, 1, laurent_symbol n⟩
  | @negation e _ ih =>
    obtain ⟨v, q, hvq⟩ := ih
    exact ⟨v, -q, by rw [laurent_negation, hvq, Laurent.neg_monomial]⟩
  | @product fs _ ih =>
    rw [laurent_product]
    induction fs with
    | nil => exact ⟨0, 1, Laurent.monomial_zero_one.symm⟩
    | cons f fs ihfs =>
      obtain ⟨v, q, hvq⟩ := ih f List.mem_cons_self
      obtain ⟨w, r, hwr⟩ := ihfs (fun f hf => by grind) fun f hf => ih f (List.mem_cons_of_mem _ hf)
      exact ⟨v + w, q * r, by
        rw [List.map_cons, List.prod_cons, hvq, hwr, Laurent.monomial_mul]⟩
  | @power b p k _ hp _ hzero ih =>
    obtain ⟨v, q, hvq⟩ := ih
    refine ⟨k • v, q ^ k, ?_⟩
    rw [laurent_power hp, hvq, Laurent.power_monomial v]
    rintro rfl
    exact hzero (by rw [hvq, Laurent.monomial_zero_right])

end Expr

namespace Laurent

/-! ## Values -/

/-- The value of a monomial at a point where no symbol is zero. -/
noncomputable def value (x : String → ℝˣ) : Multiplicative (String →₀ ℤ) →* ℝˣ where
  toFun v := v.toAdd.prod fun n k => x n ^ k
  map_one' := Finsupp.prod_zero_index
  map_mul' _ _ := Finsupp.prod_add_index' (fun n => zpow_zero (x n)) fun n => zpow_add (x n)

/-- As a function of the point, a monomial is a character. -/
noncomputable def character (v : String →₀ ℤ) : (String → ℝˣ) →* ℝ where
  toFun x := value x (Multiplicative.ofAdd v)
  map_one' := by simp [value]
  map_mul' x y := by simp [value, mul_zpow, Finsupp.prod_mul]

theorem character_zero (x : String → ℝˣ) : character 0 x = 1 :=
  congrArg Units.val (map_one (value x))

theorem character_zsmul (k : ℤ) (v : String →₀ ℤ) (x : String → ℝˣ) :
    character (k • v) x = character v x ^ k := by
  have hvalue := congrArg Units.val (map_zpow (value x) (Multiplicative.ofAdd v) k)
  rw [Units.val_zpow_eq_zpow_val] at hvalue
  exact hvalue

theorem character_single (n : String) (x : String → ℝˣ) :
    character (Finsupp.single n 1) x = x n := by
  have hsingle : (Finsupp.single n (1 : ℤ)).prod (fun n k => x n ^ k) = x n ^ (1 : ℤ) :=
    Finsupp.prod_single_index (zpow_zero (x n))
  rw [zpow_one] at hsingle
  exact congrArg Units.val hsingle

theorem character_ne_zero (v : String →₀ ℤ) (x : String → ℝˣ) : character v x ≠ 0 :=
  Units.ne_zero _

/-- Different monomials are different characters: one symbol stands for two, the others for one. -/
theorem character_injective : Function.Injective character := by
  intro v w h
  have hvalue : ∀ (v : String →₀ ℤ) (n : String),
      character v (Pi.mulSingle n (Units.mk0 2 two_ne_zero)) = 2 ^ v n := by
    intro v n
    -- only the symbol `n` contributes to the value
    show ((v.prod fun m k => (Pi.mulSingle n (Units.mk0 (2 : ℝ) two_ne_zero) : String → ℝˣ) m ^ k :
      ℝˣ) : ℝ) = _
    rw [Finsupp.prod, Units.coe_prod,
      Finset.prod_eq_single n (fun m _ hm => by simp [Pi.mulSingle_eq_of_ne hm])
        (fun hn => by simp [Finsupp.notMem_support_iff.mp hn])]
    simp
  ext n
  have hn := DFunLike.congr_fun h (Pi.mulSingle n (Units.mk0 2 two_ne_zero))
  rw [hvalue, hvalue] at hn
  exact zpow_right_injective₀ two_pos (by norm_num) hn

/-- The value of a polynomial at a point where no symbol is zero. -/
noncomputable def eval (x : String → ℝˣ) : Laurent →ₐ[ℚ] ℝ :=
  AddMonoidAlgebra.lift ℚ ℝ (String →₀ ℤ) ((Units.coeHom ℝ).comp (value x))

theorem eval_monomial (x : String → ℝˣ) (v : String →₀ ℤ) (q : ℚ) :
    eval x (monomial v q) = q * character v x := by
  rw [eval, monomial, AddMonoidAlgebra.lift_single, Rat.smul_def]
  rfl

/-- A polynomial is known from its values, since characters are linearly independent. -/
theorem ext_eval {f g : Laurent} (h : ∀ x, eval x f = eval x g) : f = g := by
  have hindependent : LinearIndependent ℝ
      fun v : String →₀ ℤ => (character v : (String → ℝˣ) → ℝ) :=
    (linearIndependent_monoidHom (String → ℝˣ) ℝ).comp character character_injective
  have hzero : ∀ x, eval x (f - g) = 0 := fun x => by rw [map_sub, h, sub_self]
  -- the difference is a combination of characters that vanishes at every point
  have hcombination : Finsupp.linearCombination ℝ
      (fun v : String →₀ ℤ => (character v : (String → ℝˣ) → ℝ))
      ((f - g).coeff.mapRange (fun q : ℚ => (q : ℝ)) Rat.cast_zero) = 0 := by
    have hsum : ((f - g).coeff.mapRange (fun q : ℚ => (q : ℝ)) Rat.cast_zero).sum
        (fun v a => a • (character v : (String → ℝˣ) → ℝ)) =
        (f - g).coeff.sum fun v q => (q : ℝ) • (character v : (String → ℝˣ) → ℝ) :=
      Finsupp.sum_mapRange_index fun v => zero_smul ℝ _
    funext x
    rw [Finsupp.linearCombination_apply, hsum, Finsupp.sum, Finset.sum_apply]
    exact hzero x
  have hcoeff := linearIndependent_iff.mp hindependent _ hcombination
  refine sub_eq_zero.mp (AddMonoidAlgebra.coeff_injective (Finsupp.ext fun v => ?_))
  have hv := DFunLike.congr_fun hcoeff v
  rw [Finsupp.mapRange_apply, Finsupp.zero_apply, Rat.cast_eq_zero] at hv
  exact hv

end Laurent

/-! ## The meaning of a polynomial -/

/-- The point as an interpretation, with no functions. -/
def Interpretation.ofPoint (x : String → ℝˣ) : Interpretation :=
  ⟨fun n => x n, fun _ _ => none⟩

namespace Expr

variable {x : String → ℝˣ}

theorem meanings_of_laurent {es : List Expr}
    (h : ∀ e ∈ es, e.meaning (.ofPoint x) = some (Laurent.eval x e.laurent)) :
    meanings (.ofPoint x) es = some ((es.map laurent).map (Laurent.eval x)) := by
  induction es with
  | nil => rfl
  | cons e es ih =>
    rw [List.forall_mem_cons] at h
    rw [meanings_cons, h.1, ih h.2]
    rfl

theorem meaning_of_exponent? {p : Expr} {k : ℤ} {M : Interpretation} (h : p.exponent? = some k) :
    p.meaning M = some (k : ℝ) := by
  rcases exponent?_eq_some h with rfl | rfl
  · simp
  · simp [meaning_negation]

/-- Where no symbol is zero, a monomial means the value of its polynomial. -/
theorem meaning_of_isMonomial {allowed : ℤ → Prop} {e : Expr} (h : IsMonomial allowed e) :
    e.meaning (.ofPoint x) = some (Laurent.eval x e.laurent) := by
  induction h with
  | literal q =>
    rw [meaning_rat, laurent_rat, Laurent.eval_monomial, Laurent.character_zero, mul_one]
  | @symbol n _ =>
    rw [meaning_symbol, laurent_symbol, Laurent.eval_monomial, Laurent.character_single,
      Rat.cast_one, one_mul]
    rfl
  | negation _ ih => rw [meaning_negation, ih, laurent_negation, map_neg, Option.map_some]
  | product _ ih =>
    rw [meaning_product, meanings_of_laurent ih, laurent_product, map_list_prod, Option.map_some]
  | @power b p k hb hp _ hzero ih =>
    obtain ⟨v, q, hvq⟩ := hb.laurent_eq
    have hpositive : q = 0 → 0 < k := by
      rintro rfl
      exact hzero (by rw [hvq, Laurent.monomial_zero_right])
    -- a monomial is not zero at a point, so a base of zero comes from the coefficient alone
    have hbase : (q : ℝ) * Laurent.character v x ≠ 0 ∨ 0 ≤ k := by
      by_cases hq : q = 0
      · exact .inr (hpositive hq).le
      · exact .inl (mul_ne_zero (by exact_mod_cast hq) (Laurent.character_ne_zero v x))
    rw [laurent_power hp, meaning_power, ih, meaning_of_exponent? hp, hvq,
      Laurent.power_monomial v hpositive, Laurent.eval_monomial, Laurent.eval_monomial]
    show realPower _ _ = _
    rw [realPower_intCast hbase, mul_zpow, Rat.cast_zpow, Laurent.character_zsmul]

/-- Where no symbol is zero, a Laurent polynomial means its value. -/
theorem meaning_of_isLaurent {allowed : ℤ → Prop} {e : Expr} (h : IsLaurent allowed e) :
    e.meaning (.ofPoint x) = some (Laurent.eval x e.laurent) := by
  induction h with
  | monomial h => exact meaning_of_isMonomial h
  | negation _ ih => rw [meaning_negation, ih, laurent_negation, map_neg, Option.map_some]
  | sum _ ih =>
    rw [meaning_sum, meanings_of_laurent ih, laurent_sum, map_list_sum, Option.map_some]

end Expr

end AlgebraicForm
