import AlgebraicForm.Proofs.Fuel

/-!
# The depth of the builders does not matter

The recursion of the builders is cut off at a depth so that it can be followed. What comes out does
not show it: a computation that has not been cut off goes on in the same way to every greater depth
(`Continues`), whether it returns or fails. Since neither builder is ever cut off at the depth it is
started with, the two of them call each other as if there were no depth at all.

* `productStep`, `powerStep`: one step of a builder, with the calls that it makes left open.
* `buildProduct_mono`, `buildPower_mono`: more depth.
* `product_eq_productStep`, `power_eq_powerStep`: the recursion without a depth.
* `builders_terminate`: the calls end, at a depth that the operands bound.
-/

namespace AlgebraicForm

open AlgebraicForm.Expr

/-! ## Computations that go on -/

/-- The second computation is the first, if that does not run out of fuel. -/
def Continues {α : Type} (x y : Except Fault α) : Prop :=
  HasFuel x → y = x

namespace Continues

variable {α β : Type}

theorem refl (x : Except Fault α) : Continues x x :=
  fun _ => rfl

theorem trans {x y z : Except Fault α} (h : Continues x y) (h' : Continues y z) :
    Continues x z := by
  intro hx
  have hy := h hx
  rw [← hy] at hx ⊢
  exact h' hx

theorem ok {x y : Except Fault α} {a : α} (h : Continues x y) (hx : x = .ok a) : y = .ok a :=
  (h (hx ▸ .of_ok a)).trans hx

theorem bind {x y : Except Fault α} {f g : α → Except Fault β} (h : Continues x y)
    (hfg : ∀ a, Continues (f a) (g a)) : Continues (x >>= f) (y >>= g) := by
  intro hfuel
  cases x with
  | ok a =>
    rw [h (.of_ok a)]
    exact hfg a hfuel
  | error fault =>
    have hfault : fault ≠ .outOfFuel := HasFuel.of_error.mp hfuel
    rw [h (HasFuel.of_error.mpr hfault)]
    rfl

theorem ite {c : Prop} [Decidable c] {x x' y y' : Except Fault α} (h : Continues x y)
    (h' : Continues x' y') : Continues (if c then x else x') (if c then y else y') := by
  split
  · exact h
  · exact h'

theorem mapM {f g : α → Except Fault β} (h : ∀ a, Continues (f a) (g a)) (xs : List α) :
    Continues (xs.mapM f) (xs.mapM g) := by
  induction xs with
  | nil => exact .refl _
  | cons x xs ih =>
    rw [List.mapM_cons, List.mapM_cons]
    exact (h x).bind fun y => ih.bind fun ys => .refl _

end Continues

/-! ## One step -/

/-- One step of a product, with `product` and `power` for the calls that it makes. -/
def productStep (s : Settings) (product : List Expr → Except Fault Expr)
    (power : Expr → Expr → Except Fault Expr) (es : List Expr) : Except Fault Expr := do
  let (coefficient, bases) ← collectFactors (.ofInt 1) [] (es.flatMap Expr.factors)
  if coefficient.isZero then return .zero
  let (coefficient, factors) ← buildBases s power coefficient [] bases
  if coefficient.isZero then return .zero
  let factors ← sortFactors s factors
  match factors with
  | [] => return .number coefficient
  | [.sum ts] =>
    if coefficient.isMinusOne then do
      let negated ← ts.mapM fun t => product [.minusOne, t]
      buildSum s negated
    else return withCoefficient coefficient [.sum ts]
  | fs => return withCoefficient coefficient fs

/-- One step of a power. -/
def powerStep (s : Settings) (product : List Expr → Except Fault Expr)
    (power : Expr → Expr → Except Fault Expr) (b p : Expr) : Except Fault Expr :=
  match literalPower? s b p with
  | some e => .ok e
  | none =>
    if p.isIntegerNumber then
      match b with
      | .power base exponent => do
        let exponent ← product [exponent, p]
        power base exponent
      | .product fs => do
        let powers ← fs.mapM fun f => power f p
        product powers
      | b => .ok (.power b p)
    else .ok (.power b p)

theorem buildProduct_succ (s : Settings) (fuel : Nat) (es : List Expr) :
    buildProduct s (fuel + 1) es = productStep s (buildProduct s fuel) (buildPower s fuel) es := by
  rw [buildProduct]
  rfl

theorem buildPower_succ (s : Settings) (fuel : Nat) (b p : Expr) :
    buildPower s (fuel + 1) b p = powerStep s (buildProduct s fuel) (buildPower s fuel) b p := by
  unfold buildPower
  rfl

section

variable {s : Settings} {product product' : List Expr → Except Fault Expr}
  {power power' : Expr → Expr → Except Fault Expr}

theorem buildBases_continues (h : ∀ b p, Continues (power b p) (power' b p)) (c : Number)
    (fs : List Expr) (bs : List (Expr × List Expr)) :
    Continues (buildBases s power c fs bs) (buildBases s power' c fs bs) := by
  induction bs generalizing c fs with
  | nil => exact .refl _
  | cons g bs ih =>
    rw [buildBases, buildBases]
    exact .bind (.refl _) fun e => (h g.1 e).bind fun p => .bind (.refl _) fun d => ih d.1 d.2

/-- A step goes on if the calls that it makes do. -/
theorem productStep_continues (hproduct : ∀ es, Continues (product es) (product' es))
    (hpower : ∀ b p, Continues (power b p) (power' b p)) (es : List Expr) :
    Continues (productStep s product power es) (productStep s product' power' es) := by
  unfold productStep
  refine .bind (.refl _) fun collected => .ite (.refl _) ?_
  refine .bind (buildBases_continues hpower _ _ _) fun built => .ite (.refl _) ?_
  refine .bind (.refl _) fun gs => ?_
  split
  next => exact .refl _
  next ts => exact .ite (.bind (.mapM (fun t => hproduct _) ts) fun us => .refl _) (.refl _)
  next => exact .refl _

theorem powerStep_continues (hproduct : ∀ es, Continues (product es) (product' es))
    (hpower : ∀ b p, Continues (power b p) (power' b p)) (b p : Expr) :
    Continues (powerStep s product power b p) (powerStep s product' power' b p) := by
  unfold powerStep
  split
  next => exact .refl _
  next =>
    refine .ite ?_ (.refl _)
    split
    next => exact (hproduct _).bind fun q => hpower _ q
    next fs _ => exact .bind (.mapM (fun f => hpower f p) fs) hproduct
    next => exact .refl _

end

/-! ## More depth -/

section

variable (s : Settings)

/-- One more step of depth, by induction on the depth. -/
theorem builders_continue (fuel : Nat) :
    (∀ es, Continues (buildProduct s fuel es) (buildProduct s (fuel + 1) es)) ∧
    (∀ b p, Continues (buildPower s fuel b p) (buildPower s (fuel + 1) b p)) := by
  induction fuel with
  | zero =>
    constructor
    · intro es h
      rw [buildProduct] at h
      exact absurd rfl h
    · intro b p h
      rw [buildPower] at h
      exact absurd rfl h
  | succ fuel ih =>
    obtain ⟨hproduct, hpower⟩ := ih
    constructor
    · intro es
      rw [buildProduct_succ, buildProduct_succ]
      exact productStep_continues hproduct hpower es
    · intro b p
      rw [buildPower_succ, buildPower_succ]
      exact powerStep_continues hproduct hpower b p

variable {s} {n m : Nat}

theorem buildPower_mono (hnm : n ≤ m) (b p : Expr) :
    Continues (buildPower s n b p) (buildPower s m b p) := by
  induction hnm with
  | refl => exact .refl _
  | @step m _ ih => exact ih.trans ((builders_continue s m).2 b p)

theorem buildProduct_mono (hnm : n ≤ m) (es : List Expr) :
    Continues (buildProduct s n es) (buildProduct s m es) := by
  induction hnm with
  | refl => exact .refl _
  | @step m _ ih => exact ih.trans ((builders_continue s m).1 es)

/-! ## No depth -/

/-- Where it is not cut off, a power is what it comes to at the depth it is started with. -/
theorem buildPower_continues (n : Nat) (b p : Expr) :
    Continues (buildPower s n b p) (s.power b p) := by
  intro hfuel
  have hown := buildPower_mono (le_max_right n _) b p (power_hasFuel s b p)
  exact hown.symm.trans (buildPower_mono (le_max_left n _) b p hfuel)

theorem buildProduct_continues (n : Nat) (es : List Expr) :
    Continues (buildProduct s n es) (s.product es) := by
  intro hfuel
  have hown := buildProduct_mono (le_max_right n _) es (product_hasFuel s es)
  exact hown.symm.trans (buildProduct_mono (le_max_left n _) es hfuel)

variable (s)

/-- A power calls powers and products as if there were no depth. -/
theorem power_eq_powerStep (b p : Expr) : s.power b p = powerStep s s.product s.power b p := by
  obtain ⟨n, hn⟩ := depthBound_eq (b.weight + p.weight)
  have hfuel := power_hasFuel s b p
  rw [Settings.power, hn, buildPower_succ] at hfuel ⊢
  exact (powerStep_continues (buildProduct_continues _) (buildPower_continues _) b p hfuel).symm

theorem product_eq_productStep (es : List Expr) :
    s.product es = productStep s s.product s.power es := by
  obtain ⟨n, hn⟩ := depthBound_eq (weightAll es)
  have hfuel := product_hasFuel s es
  rw [Settings.product, hn, buildProduct_succ] at hfuel ⊢
  exact (productStep_continues (buildProduct_continues _) (buildPower_continues _) es hfuel).symm

end

/-- The calls of the builders end, for any operands and settings. Without a limit on the depth a
power and a product are defined by their steps alone, and the calls go no deeper than twice the
weight of the base or of the factors. -/
theorem builders_terminate (s : Settings) :
    (∀ b p, HasFuel (s.power b p) ∧ s.power b p = powerStep s s.product s.power b p ∧
      ∀ extra, buildPower s (2 * b.weight + 1 + extra) b p = s.power b p) ∧
    ∀ es, HasFuel (s.product es) ∧ s.product es = productStep s s.product s.power es ∧
      ∀ extra, buildProduct s (2 * weightAll es + 2 + extra) es = s.product es := by
  constructor
  · intro b p
    refine ⟨power_hasFuel s b p, power_eq_powerStep s b p, fun extra => ?_⟩
    have hends := (builders_end s b.weight).power p (Nat.le_add_right _ extra) (within_weight b).1
    exact (buildPower_continues _ b p hends.fuel).symm
  · intro es
    refine ⟨product_hasFuel s es, product_eq_productStep s es, fun extra => ?_⟩
    have hes : ∀ e ∈ es, MultipliesWithin (weightAll es) e := fun e he =>
      (within_weight e).2.mono ((flatWeight_le_weight e).trans (weight_lt_weightAll he).le)
    have hends := (builders_end s (weightAll es)).product (Nat.le_add_right _ extra) hes
    exact (buildProduct_continues _ es hends.fuel).symm

end AlgebraicForm
