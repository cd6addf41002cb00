import AlgebraicForm.Proofs.BuilderLaws
import Mathlib.Algebra.Order.BigOperators.Group.List
import Mathlib.Tactic.NormNum
import Mathlib.Tactic.Positivity

/-!
# A measure that no law increases

The energy of an expression is a number that the laws of normalisation never increase. Sums add and
products multiply the energies of their operands; a power has the square of the energy of its base,
less one, times the energy of its exponent unless that is a whole literal. So distributing a whole
exponent costs nothing, and the laws that make room for another pass gain something: flattening a
sum, distributing a minus sign, and merging powers of one base.

* `Rewrites.energy_le`: no law increases the energy.
* `energy_power_lt`: merging the exponents of a base decreases it.
-/

namespace AlgebraicForm

open AlgebraicForm.Expr

/-! ## Energy -/

namespace Expr

mutual

/-- The energy of an expression. -/
def energy : Expr → Nat
  | number _ => 2
  | symbol _ | hole => 4
  | sum ts => max 4 (1 + sumEnergy ts)
  | product fs => max 4 (productEnergy fs)
  | power b p => (energy b * energy b - 1) * if p.isIntegerNumber then 1 else energy p
  | negation e => 2 * energy e
  | call _ es => 4 + squareEnergy es

/-- The energies of operands, added up. -/
def sumEnergy : List Expr → Nat
  | [] => 0
  | e :: es => energy e + sumEnergy es

/-- The energies of operands, multiplied. -/
def productEnergy : List Expr → Nat
  | [] => 1
  | e :: es => energy e * productEnergy es

/-- The squares of the energies of operands, added up twice. -/
def squareEnergy : List Expr → Nat
  | [] => 0
  | e :: es => 2 * (energy e * energy e) + squareEnergy es

end

/-- What an exponent contributes to the energy of a power. -/
def exponentEnergy (p : Expr) : Nat :=
  if p.isIntegerNumber then 1 else p.energy

@[simp] theorem energy_number (v : Number) : (number v).energy = 2 := rfl

@[simp] theorem energy_sum (ts : List Expr) :
    (sum ts).energy = max 4 (1 + sumEnergy ts) := rfl

@[simp] theorem energy_product (fs : List Expr) :
    (product fs).energy = max 4 (productEnergy fs) := rfl

theorem energy_power (b p : Expr) :
    (power b p).energy = (b.energy * b.energy - 1) * exponentEnergy p :=
  rfl

@[simp] theorem energy_negation (e : Expr) : (negation e).energy = 2 * e.energy := rfl

@[simp] theorem energy_call (n : String) (es : List Expr) :
    (call n es).energy = 4 + squareEnergy es := rfl

@[simp] theorem sumEnergy_nil : sumEnergy [] = 0 := rfl

@[simp] theorem sumEnergy_cons (e : Expr) (es : List Expr) :
    sumEnergy (e :: es) = e.energy + sumEnergy es := rfl

@[simp] theorem productEnergy_nil : productEnergy [] = 1 := rfl

@[simp] theorem productEnergy_cons (e : Expr) (es : List Expr) :
    productEnergy (e :: es) = e.energy * productEnergy es := rfl

@[simp] theorem squareEnergy_nil : squareEnergy [] = 0 := rfl

@[simp] theorem squareEnergy_cons (e : Expr) (es : List Expr) :
    squareEnergy (e :: es) = 2 * (e.energy * e.energy) + squareEnergy es := rfl

@[simp] theorem sumEnergy_append (es fs : List Expr) :
    sumEnergy (es ++ fs) = sumEnergy es + sumEnergy fs := by
  induction es with
  | nil => simp
  | cons e es ih => simp [ih, add_assoc]

@[simp] theorem productEnergy_append (es fs : List Expr) :
    productEnergy (es ++ fs) = productEnergy es * productEnergy fs := by
  induction es with
  | nil => simp
  | cons e es ih => simp [ih, mul_assoc]

@[simp] theorem squareEnergy_append (es fs : List Expr) :
    squareEnergy (es ++ fs) = squareEnergy es + squareEnergy fs := by
  induction es with
  | nil => simp
  | cons e es ih => simp [ih, add_assoc]

theorem sumEnergy_perm {es fs : List Expr} (h : es.Perm fs) : sumEnergy es = sumEnergy fs := by
  induction h with
  | nil => rfl
  | cons _ _ ih => simp [ih]
  | swap e f _ =>
    simp only [sumEnergy_cons]
    omega
  | trans _ _ ih₁ ih₂ => exact ih₁.trans ih₂

theorem productEnergy_perm {es fs : List Expr} (h : es.Perm fs) :
    productEnergy es = productEnergy fs := by
  induction h with
  | nil => rfl
  | cons _ _ ih => simp [ih]
  | swap e f _ => simp only [productEnergy_cons, mul_left_comm]
  | trans _ _ ih₁ ih₂ => exact ih₁.trans ih₂

theorem two_le_energy (e : Expr) : 2 ≤ e.energy := by
  induction e with
  | number v => simp
  | symbol n => simp [energy]
  | sum ts _ => simp
  | product fs _ => simp
  | power b p ihb ihp =>
    have hbase : 3 ≤ b.energy * b.energy - 1 := by
      have := Nat.mul_le_mul ihb ihb
      omega
    have hexponent : 1 ≤ exponentEnergy p := by
      unfold exponentEnergy
      split <;> omega
    rw [energy_power]
    have := Nat.mul_le_mul hbase hexponent
    omega
  | negation e ih =>
    rw [energy_negation]
    omega
  | call n es _ =>
    rw [energy_call]
    omega
  | hole => simp [energy]

theorem one_le_productEnergy (es : List Expr) : 1 ≤ productEnergy es := by
  induction es with
  | nil => simp
  | cons e es ih =>
    rw [productEnergy_cons]
    have := Nat.mul_le_mul e.two_le_energy ih
    omega

/-- The square of the energy of a base, less one. -/
theorem three_le_square (b : Expr) : 3 ≤ b.energy * b.energy - 1 := by
  have := Nat.mul_le_mul b.two_le_energy b.two_le_energy
  omega

theorem one_le_exponentEnergy (p : Expr) : 1 ≤ exponentEnergy p := by
  have := p.two_le_energy
  unfold exponentEnergy
  split <;> omega

@[simp] theorem exponentEnergy_intCast (k : Int) : exponentEnergy (rat k) = 1 := by
  rw [exponentEnergy, if_pos (isIntegerNumber_intCast k)]

/-- The energy of a power is at least that of its base. -/
theorem energy_le_square (b : Expr) : b.energy ≤ b.energy * b.energy - 1 := by
  have h := b.two_le_energy
  have := Nat.mul_le_mul_right b.energy h
  omega

theorem three_le_energy_power (b p : Expr) : 3 ≤ (power b p).energy := by
  rw [energy_power]
  exact Nat.mul_le_mul b.three_le_square p.one_le_exponentEnergy

theorem three_le_energy {e : Expr} (h : e.isNumber = false) : 3 ≤ e.energy := by
  cases e with
  | number v => simp [isNumber] at h
  | symbol | hole => simp [energy]
  | sum | product => simp
  | call n es =>
    rw [energy_call]
    omega
  | power b p => exact three_le_energy_power b p
  | negation e =>
    have := e.two_le_energy
    rw [energy_negation]
    omega

end Expr

/-! ## Merging the exponents of a base -/

/-- A factor has at least the energy of its base. -/
theorem energy_ofPower_ge (b e : Expr) :
    b.energy ≤ (ofPower b e).energy ∧ 3 ≤ (ofPower b e).energy := by
  have hpower : b.energy ≤ (power b e).energy ∧ 3 ≤ (power b e).energy := by
    refine ⟨?_, three_le_energy_power b e⟩
    rw [energy_power]
    exact b.energy_le_square.trans (Nat.le_mul_of_pos_right _ e.one_le_exponentEnergy)
  unfold ofPower
  split
  next q =>
    split
    next h => exact ⟨le_rfl, three_le_energy h.2⟩
    next => exact hpower
  next => exact hpower

theorem energy_ofPower_eq {b e : Expr} (he : e.isIntegerNumber = false) :
    (ofPower b e).energy = (b.energy * b.energy - 1) * e.energy := by
  have hpower : (power b e).energy = (b.energy * b.energy - 1) * e.energy := by
    rw [energy_power, exponentEnergy, he]
    rfl
  unfold ofPower
  split
  next q =>
    split
    next h =>
      have hone : (rat q).isIntegerNumber = true :=
        (isIntegerNumber_iff (isExact_rat q)).mpr ⟨1, by rw [h.1]; norm_num⟩
      rw [hone] at he
      simp at he
    next => exact hpower
  next => exact hpower

theorem energy_of_isIntegerNumber {e : Expr} (h : e.isIntegerNumber = true) : e.energy = 2 := by
  cases e with
  | number v => exact energy_number v
  | _ => cases h

/-- The factors of a base have more energy than their exponents. -/
theorem sumEnergy_lt_productEnergy (b : Expr) (es : List Expr) :
    1 + sumEnergy es ≤ productEnergy (es.map (ofPower b)) := by
  induction es with
  | nil => simp
  | cons e es ih =>
    rw [List.map_cons, productEnergy_cons, sumEnergy_cons]
    cases he : e.isIntegerNumber with
    | true =>
      have htwo := energy_of_isIntegerNumber he
      have := Nat.mul_le_mul (energy_ofPower_ge b e).2 ih
      omega
    | false =>
      rw [energy_ofPower_eq he]
      have hge := Nat.mul_le_mul (Nat.mul_le_mul_right e.energy b.three_le_square) ih
      have := e.two_le_energy
      nlinarith

/-- The same, with the base counted, if one of the exponents is no whole literal. -/
theorem mul_sumEnergy_le (b : Expr) {es : List Expr}
    (hes : ∃ e ∈ es, e.isIntegerNumber = false) :
    (b.energy * b.energy - 1) * sumEnergy es ≤ productEnergy (es.map (ofPower b)) ∧
      (2 ≤ es.length → (b.energy * b.energy - 1) * (1 + sumEnergy es) <
        productEnergy (es.map (ofPower b))) := by
  have hsum : ∀ {es : List Expr}, es ≠ [] → 2 ≤ sumEnergy es := by
    intro es hne
    obtain ⟨e, es, rfl⟩ := List.exists_cons_of_ne_nil hne
    have := e.two_le_energy
    rw [sumEnergy_cons]
    omega
  have hsquare := b.three_le_square
  induction es with
  | nil => simp at hes
  | cons e es ih =>
    rw [List.map_cons, productEnergy_cons, sumEnergy_cons]
    cases he : e.isIntegerNumber with
    | true =>
      have htwo := energy_of_isIntegerNumber he
      have hrest : ∃ d ∈ es, d.isIntegerNumber = false := by
        obtain ⟨d, hd, hdint⟩ := hes
        obtain rfl | hd := List.mem_cons.mp hd
        · simp [he] at hdint
        · exact ⟨d, hd, hdint⟩
      have hmul := Nat.mul_le_mul (energy_ofPower_ge b e).2 (ih hrest).1
      obtain ⟨d, hd, -⟩ := hrest
      have hne := hsum (List.ne_nil_of_mem hd)
      have hlt : (b.energy * b.energy - 1) * (1 + (e.energy + sumEnergy es)) <
          3 * ((b.energy * b.energy - 1) * sumEnergy es) := by
        rw [htwo]
        nlinarith
      have hle : (b.energy * b.energy - 1) * (e.energy + sumEnergy es) ≤
          (b.energy * b.energy - 1) * (1 + (e.energy + sumEnergy es)) :=
        Nat.mul_le_mul_left _ (by omega)
      exact ⟨by omega, fun _ => by omega⟩
    | false =>
      rw [energy_ofPower_eq he, mul_assoc]
      have hmul := Nat.mul_le_mul_left e.energy (sumEnergy_lt_productEnergy b es)
      have htwo := e.two_le_energy
      refine ⟨Nat.mul_le_mul_left _ ?_, fun hlen => ?_⟩
      · nlinarith
      · have hnil : es ≠ [] := by
          rintro rfl
          simp at hlen
        have hne := hsum hnil
        refine Nat.mul_lt_mul_of_pos_left ?_ (by omega)
        nlinarith

/-- Several factors of a base have at least the square of its energy. -/
theorem mul_energy_le_productEnergy (b : Expr) {es : List Expr} (hes : 2 ≤ es.length) :
    b.energy * b.energy ≤ productEnergy (es.map (ofPower b)) := by
  match es, hes with
  | d :: e :: es, _ =>
    simp only [List.map_cons, productEnergy_cons]
    have htail := Nat.mul_le_mul (energy_ofPower_ge b e).1
      (one_le_productEnergy (es.map (ofPower b)))
    rw [mul_one] at htail
    exact Nat.mul_le_mul (energy_ofPower_ge b d).1 htail

/-- Merging the exponents of a base decreases the energy. -/
theorem energy_power_lt {b p : Expr} {es : List Expr} (hes : 2 ≤ es.length)
    (hp : p.energy ≤ (sum es).energy)
    (hint : (∀ e ∈ es, e.isIntegerNumber = true) → p.isIntegerNumber = true) :
    (power b p).energy < productEnergy (es.map (ofPower b)) := by
  rw [energy_power, exponentEnergy]
  cases hpint : p.isIntegerNumber with
  | true =>
    have hmul := mul_energy_le_productEnergy b hes
    have := b.three_le_square
    rw [if_pos rfl]
    omega
  | false =>
    have hwhole : ∃ e ∈ es, e.isIntegerNumber = false := by
      by_contra hall
      push Not at hall
      have := hint fun e he => by simpa using hall e he
      simp [this] at hpint
    have hsum : (sum es).energy = 1 + sumEnergy es := by
      match es, hes with
      | d :: e :: es, _ =>
        have hd := d.two_le_energy
        have he := e.two_le_energy
        simp only [energy_sum, sumEnergy_cons]
        omega
    rw [hsum] at hp
    rw [if_neg (by simp)]
    exact lt_of_le_of_lt (Nat.mul_le_mul_left _ hp) ((mul_sumEnergy_le b hwhole).2 hes)

/-! ## Every law -/

theorem Rewrites.eq_of_isNumber {a b : Expr} (h : Rewrites a b) (ha : a.isNumber = true) :
    b = a := by
  induction h with
  | refl => rfl
  | trans _ _ ih₁ ih₂ =>
    obtain rfl := ih₁ ha
    exact ih₂ ha
  | _ => simp [isNumber] at ha

/-- The factors of an expression have its energy, or both are small. -/
theorem energy_factors (e : Expr) : productEnergy e.factors ≤ e.energy ∧
    e.energy ≤ max 4 (2 * productEnergy e.factors) ∧
      max 4 (2 * productEnergy e.factors) ≤ 2 * e.energy := by
  have := e.two_le_energy
  cases e with
  | product fs =>
    simp only [energy_product, factors]
    omega
  | _ =>
    simp only [factors, productEnergy_cons, productEnergy_nil] at *
    omega

/-- A coefficient that is not one doubles the energy of a body. -/
theorem energy_scale (a : Rat) (body : Expr) : (scale (.exact a) body).energy =
    if a = 1 then body.energy else max 4 (2 * productEnergy body.factors) := by
  unfold scale
  rw [Number.isOne_exact]
  by_cases ha : a = 1 <;> simp [ha]

theorem energy_distribute_lt (ts : List Expr) :
    (sum (ts.map fun t => product [minusOne, t])).energy <
      (product [minusOne, sum ts]).energy := by
  have hsum : sumEnergy (ts.map fun t => product [minusOne, t]) = 2 * sumEnergy ts := by
    induction ts with
    | nil => simp
    | cons t ts ih =>
      have := t.two_le_energy
      rw [List.map_cons, sumEnergy_cons, ih]
      simp only [sumEnergy_cons, energy_product, productEnergy_cons, productEnergy_nil, minusOne,
        energy_number]
      omega
  rw [energy_sum, hsum]
  simp only [energy_product, productEnergy_cons, productEnergy_nil, minusOne, energy_number,
    energy_sum]
  omega

theorem energy_flatten_lt (ts us : List Expr) :
    (sum (ts ++ us)).energy < (sum (sum ts :: us)).energy := by
  simp only [energy_sum, sumEnergy_append, sumEnergy_cons]
  omega

/-- A whole power of several factors has less energy than the power of their product. -/
theorem productEnergy_powers_lt {fs : List Expr} (hfs : fs ≠ []) (k : Int) :
    productEnergy (fs.map fun f => power f (rat k)) < productEnergy fs * productEnergy fs := by
  have hpower : ∀ f : Expr, (power f (rat k)).energy < f.energy * f.energy := by
    intro f
    have := f.three_le_square
    rw [energy_power, exponentEnergy_intCast]
    omega
  induction fs with
  | nil => exact absurd rfl hfs
  | cons f fs ih =>
    have hle : productEnergy (fs.map fun f => power f (rat k)) ≤
        productEnergy fs * productEnergy fs := by
      by_cases hne : fs = []
      · simp [hne]
      · exact (ih hne).le
    simp only [List.map_cons, productEnergy_cons]
    calc (power f (rat k)).energy * productEnergy (fs.map fun f => power f (rat k))
        ≤ (power f (rat k)).energy * (productEnergy fs * productEnergy fs) :=
          Nat.mul_le_mul_left _ hle
      _ < f.energy * f.energy * (productEnergy fs * productEnergy fs) := by
          have := one_le_productEnergy fs
          exact Nat.mul_lt_mul_of_pos_right (hpower f) (by positivity)
      _ = f.energy * productEnergy fs * (f.energy * productEnergy fs) := by ring

/-- No law increases the energy. -/
theorem Rewrites.energy_le {a b : Expr} (h : Rewrites a b) : b.energy ≤ a.energy := by
  induction h with
  | refl => exact le_rfl
  | trans _ _ ih₁ ih₂ => exact ih₂.trans ih₁
  | sum_head ts _ ih =>
    simp only [energy_sum, sumEnergy_cons]
    omega
  | product_head fs _ ih =>
    have := Nat.mul_le_mul_right (productEnergy fs) ih
    simp only [energy_product, productEnergy_cons]
    omega
  | power_base p _ ih =>
    rw [energy_power, energy_power]
    have := Nat.mul_le_mul ih ih
    exact Nat.mul_le_mul_right _ (by omega)
  | @power_exponent b p q hpq ih =>
    rw [energy_power, energy_power]
    refine Nat.mul_le_mul_left _ ?_
    unfold exponentEnergy
    -- a whole literal is not rewritten, and any other exponent counts by its energy
    cases hp : p.isIntegerNumber with
    | true =>
      have hnumber : p.isNumber = true := by
        cases p <;> simp_all [isIntegerNumber, isNumber]
      rw [hpq.eq_of_isNumber hnumber, hp]
    | false =>
      have := p.two_le_energy
      split
      · simp only [Bool.false_eq_true, if_false]
        omega
      · simpa using ih
  | negation_operand _ ih =>
    rw [energy_negation, energy_negation]
    omega
  | call_argument n ds es _ ih =>
    have := Nat.mul_le_mul ih ih
    simp only [energy_call, squareEnergy_append, squareEnergy_cons]
    omega
  | sum_perm hperm => rw [energy_sum, energy_sum, sumEnergy_perm hperm]
  | sum_flatten ts us => exact (energy_flatten_lt ts us).le
  | sum_literals | sum_zero | sum_empty | sum_single | product_single =>
    simp only [energy_sum, energy_product, sumEnergy_cons, sumEnergy_nil, productEnergy_cons,
      productEnergy_nil, energy_number, zero]
    omega
  | sum_like a b body ts =>
    obtain ⟨-, hle, hge⟩ := energy_factors body
    simp only [energy_sum, sumEnergy_cons, energy_scale]
    -- two terms of one body become one, with a coefficient or without
    split_ifs <;> omega
  | sum_vanish body ts =>
    simp only [energy_sum, sumEnergy_cons]
    omega
  | product_perm hperm => rw [energy_product, energy_product, productEnergy_perm hperm]
  | product_flatten fs gs =>
    have := Nat.mul_le_mul_right (productEnergy gs) (le_max_right 4 (productEnergy fs))
    simp only [energy_product, productEnergy_cons, productEnergy_append]
    omega
  | product_literals | product_one | product_zero | product_empty =>
    simp only [energy_product, productEnergy_cons, productEnergy_nil, energy_number, zero, one]
    omega
  | coefficient a fs =>
    have hfactors : productEnergy (ofFactors fs).factors ≤ productEnergy fs := by
      unfold ofFactors
      split
      next f => simpa using (energy_factors f).1
      next => exact le_rfl
    have hle := (energy_factors (ofFactors fs)).2.1
    rw [energy_scale, energy_product, productEnergy_cons, energy_number]
    split <;> omega
  | @like_bases b es p fs hes _ hint ih =>
    -- merging pays for the exponent that comes out of it
    have hlt : (power b p).energy ≤ productEnergy (es.map (ofPower b)) :=
      (energy_power_lt hes ih hint).le
    have := Nat.mul_le_mul_right (productEnergy fs) hlt
    simp only [energy_product, productEnergy_cons, productEnergy_append]
    omega
  | distribute_sign ts => exact (energy_distribute_lt ts).le
  | power_zero b => exact (Nat.le_succ 2).trans (three_le_energy_power b zero)
  | power_one b =>
    rw [energy_power]
    exact b.energy_le_square.trans (Nat.le_mul_of_pos_right _ one.one_le_exponentEnergy)
  | one_power p => exact (Nat.le_succ 2).trans (three_le_energy_power one p)
  | zero_power | whole_power | square_root =>
    exact (Nat.le_succ 2).trans (three_le_energy_power _ _)
  | @power_power b p q k _ hint ih =>
    -- the product of the exponents counts at most twice what the inner one does
    have hq : exponentEnergy q ≤ 2 * exponentEnergy p := by
      have := p.two_le_energy
      simp only [energy_product, productEnergy_cons, productEnergy_nil, energy_number] at ih
      unfold exponentEnergy
      cases hpint : p.isIntegerNumber with
      | true => simp [hint hpint]
      | false =>
        simp only [Bool.false_eq_true, if_false]
        split <;> omega
    have hthree := three_le_energy_power b p
    calc (power b q).energy
        = (b.energy * b.energy - 1) * exponentEnergy q := energy_power b q
      _ ≤ (b.energy * b.energy - 1) * (2 * exponentEnergy p) := Nat.mul_le_mul_left _ hq
      _ = 2 * (power b p).energy := by rw [energy_power, mul_left_comm]
      _ ≤ (power b p).energy * (power b p).energy - 1 := by
        have := Nat.mul_le_mul_right (power b p).energy hthree
        omega
      _ = (power (power b p) (rat k)).energy := by
        rw [energy_power (power b p), exponentEnergy_intCast, mul_one]
  | power_product fs k =>
    have hle : productEnergy (fs.map fun f => power f (rat k)) ≤
        max 4 (productEnergy fs) * max 4 (productEnergy fs) - 1 := by
      -- without factors there is nothing to raise
      by_cases hfs : fs = []
      · simp [hfs]
      · have hlt := productEnergy_powers_lt hfs k
        have := Nat.mul_le_mul (le_max_right 4 (productEnergy fs))
          (le_max_right 4 (productEnergy fs))
        omega
    have hfour := Nat.mul_le_mul (le_max_left 4 (productEnergy fs))
      (le_max_left 4 (productEnergy fs))
    rw [energy_power, exponentEnergy_intCast, mul_one, energy_product, energy_product]
    omega
  | negation_literal a => simp
  | negation e =>
    have := e.two_le_energy
    simp only [energy_product, productEnergy_cons, productEnergy_nil, energy_negation, minusOne,
      energy_number]
    omega
  | call_sqrt e =>
    have hhalf : exponentEnergy (number .half) ≤ 2 := by
      unfold exponentEnergy
      split <;> simp
    have := Nat.mul_le_mul_left (e.energy * e.energy - 1) hhalf
    rw [energy_power, energy_call, squareEnergy_cons, squareEnergy_nil]
    omega

end AlgebraicForm
