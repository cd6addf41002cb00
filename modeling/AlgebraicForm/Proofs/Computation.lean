import AlgebraicForm.Sorting
import AlgebraicForm.Number
import Mathlib.Data.List.Perm.Basic
import Mathlib.Data.Rat.Cast.CharZero

/-!
# Computations that may fail, and numbers that are fractions

Small facts that every later module uses: how a computation in `Except` succeeds, one step or one
list element at a time, when two of them succeed alike (`SameResult`), at which faults one fails
(`FailsWithin`), and what the operations on numbers do to fractions.
-/

namespace AlgebraicForm

/-! ## Success -/

section

variable {ε α β : Type}

theorem bind_eq_ok_iff {x : Except ε α} {f : α → Except ε β} {r : β} :
    (x >>= f) = .ok r ↔ ∃ a, x = .ok a ∧ f a = .ok r := by
  cases x <;> simp [bind, Except.bind]

@[simp] theorem ok_bind (a : α) (f : α → Except ε β) : (Except.ok a >>= f) = f a :=
  rfl

@[simp] theorem error_bind (e : ε) (f : α → Except ε β) :
    ((Except.error e : Except ε α) >>= f) = .error e :=
  rfl

@[simp] theorem pure_eq_ok (a : α) : (pure a : Except ε α) = .ok a :=
  rfl

theorem mapM_eq_ok_iff {f : α → Except ε β} {xs : List α} {ys : List β} :
    xs.mapM f = .ok ys ↔ List.Forall₂ (fun x y => f x = .ok y) xs ys := by
  induction xs generalizing ys with
  | nil => cases ys <;> simp
  | cons x xs ih =>
    simp only [List.mapM_cons, bind_eq_ok_iff, ih, pure_eq_ok, Except.ok.injEq,
      List.forall₂_cons_left_iff]
    constructor
    · rintro ⟨y, hy, zs, hzs, rfl⟩
      exact ⟨y, zs, hy, hzs, rfl⟩
    · rintro ⟨y, zs, hy, hzs, rfl⟩
      exact ⟨y, hy, zs, hzs, rfl⟩

/-- Computations that agree on the elements of a list agree on the list. -/
theorem mapM_congr {f g : α → Except ε β} {xs : List α} (h : ∀ x ∈ xs, f x = g x) :
    xs.mapM f = xs.mapM g := by
  induction xs with
  | nil => rfl
  | cons x xs ih =>
    rw [List.forall_mem_cons] at h
    rw [List.mapM_cons, List.mapM_cons, h.1, ih h.2]

/-- Each element of a related list has a partner in the other one. -/
theorem exists_mem_of_forall₂ {R : α → β → Prop} {xs : List α} {ys : List β}
    (h : List.Forall₂ R xs ys) {y : β} (hy : y ∈ ys) : ∃ x ∈ xs, R x y := by
  induction h with
  | nil => simp at hy
  | @cons x _ _ _ hxy _ ih =>
    obtain rfl | hy := List.mem_cons.mp hy
    · exact ⟨x, by simp, hxy⟩
    · obtain ⟨x', hx', hxy'⟩ := ih hy
      exact ⟨x', by simp [hx'], hxy'⟩

/-- Related lists have the same images under functions that agree on related elements. -/
theorem map_eq_map_of_forall₂ {γ : Type} {R : α → β → Prop} {f : α → γ} {g : β → γ}
    {xs : List α} {ys : List β} (h : List.Forall₂ R xs ys) (hR : ∀ x y, R x y → f x = g y) :
    xs.map f = ys.map g := by
  induction h with
  | nil => rfl
  | cons hxy _ ih => rw [List.map_cons, List.map_cons, hR _ _ hxy, ih]

/-- A computation on rearranged elements has the results in another order. -/
theorem exists_mapM_perm {f : α → Except ε β} {xs ys : List α} {zs : List β} (hperm : xs.Perm ys)
    (h : xs.mapM f = .ok zs) : ∃ ws, ys.mapM f = .ok ws ∧ zs.Perm ws := by
  obtain ⟨ws, hws, hzs⟩ := List.perm_comp_forall₂ hperm.symm (mapM_eq_ok_iff.mp h)
  exact ⟨ws, mapM_eq_ok_iff.mpr hws, hzs.symm⟩

theorem eq_ok_of_toOption {x : Except ε α} {a : α} (h : x.toOption = some a) : x = .ok a := by
  cases x with
  | error => exact nomatch h
  | ok => exact congrArg _ (Option.some.inj h)

/-- The results of a computation on the elements of a list, as a function of these. -/
theorem map_getD_of_forall₂ {f : α → Except ε β} {xs : List α} {ys : List β} (y : β)
    (h : List.Forall₂ (fun x y => f x = .ok y) xs ys) :
    (xs.map fun x => (f x).toOption.getD y) = ys := by
  conv_rhs => rw [← List.map_id ys]
  exact map_eq_map_of_forall₂ h fun x y hy => by rw [hy]; rfl

end

/-! ## Results -/

/-- Two computations have the same result, or neither has one. -/
def SameResult {ε α : Type} (x y : Except ε α) : Prop :=
  ∀ a, x = .ok a ↔ y = .ok a

namespace SameResult

variable {ε α β γ : Type}

theorem refl (x : Except ε α) : SameResult x x :=
  fun _ => Iff.rfl

theorem of_eq {x y : Except ε α} (h : x = y) : SameResult x y :=
  h ▸ refl x

theorem trans {x y z : Except ε α} (h : SameResult x y) (h' : SameResult y z) : SameResult x z :=
  fun a => (h a).trans (h' a)

theorem eq_of_ok {x y : Except ε α} (h : SameResult x y) {a : α} (hx : x = .ok a) : x = y :=
  hx.trans ((h a).mp hx).symm

theorem bind {x y : Except ε α} {f g : α → Except ε β} (h : SameResult x y)
    (hf : ∀ a, x = .ok a → SameResult (f a) (g a)) : SameResult (x >>= f) (y >>= g) := by
  intro b
  rw [bind_eq_ok_iff, bind_eq_ok_iff]
  constructor
  · rintro ⟨a, hx, hb⟩
    exact ⟨a, (h a).mp hx, (hf a hx b).mp hb⟩
  · rintro ⟨a, hy, hb⟩
    have hx := (h a).mpr hy
    exact ⟨a, hx, (hf a hx b).mpr hb⟩

theorem mapM {f g : α → Except ε β} {xs : List α} (h : ∀ x ∈ xs, SameResult (f x) (g x)) :
    SameResult (xs.mapM f) (xs.mapM g) := by
  induction xs with
  | nil => exact refl _
  | cons x xs ih =>
    rw [List.forall_mem_cons] at h
    rw [List.mapM_cons, List.mapM_cons]
    exact h.1.bind fun _ _ => (ih h.2).bind fun _ _ => refl _

theorem ite {c : Prop} [Decidable c] {x y x' y' : Except ε α} (h : SameResult x x')
    (h' : SameResult y y') : SameResult (if c then x else y) (if c then x' else y') := by
  split
  · exact h
  · exact h'

/-- Where the order of the results is no matter, neither is the order of the elements. It decides at
most which of them fails first. -/
theorem bind_mapM_perm {f : α → Except ε β} {g g' : List β → Except ε γ} {xs ys : List α}
    (hperm : xs.Perm ys)
    (hg : ∀ zs ws, xs.mapM f = .ok zs → zs.Perm ws → SameResult (g zs) (g' ws)) :
    SameResult (xs.mapM f >>= g) (ys.mapM f >>= g') := by
  intro c
  rw [bind_eq_ok_iff, bind_eq_ok_iff]
  constructor
  · rintro ⟨zs, hzs, hc⟩
    obtain ⟨ws, hws, hzw⟩ := exists_mapM_perm hperm hzs
    exact ⟨ws, hws, (hg zs ws hzs hzw c).mp hc⟩
  · rintro ⟨ws, hws, hc⟩
    obtain ⟨zs, hzs, hwz⟩ := exists_mapM_perm hperm.symm hws
    exact ⟨zs, hzs, (hg zs ws hzs hwz.symm c).mpr hc⟩

end SameResult

/-! ## Ways to fail -/

/-- The computation fails, if at all, by one of these faults. -/
def FailsWithin {α : Type} (F : Fault → Prop) (x : Except Fault α) : Prop :=
  ∀ fault, x = .error fault → F fault

/-- The computation fails, if at all, by this fault. -/
abbrev FailsOnlyBy {α : Type} (fault : Fault) (x : Except Fault α) : Prop :=
  FailsWithin (· = fault) x

/-- The computation fails, if at all, by running out of fuel. -/
abbrev NeedsOnlyFuel {α : Type} (x : Except Fault α) : Prop :=
  FailsOnlyBy .outOfFuel x

namespace FailsWithin

variable {α β : Type} {F G : Fault → Prop} {fault : Fault}

theorem ok (a : α) : FailsWithin F (Except.ok a : Except Fault α) :=
  fun _ h => nomatch h

theorem error (h : F fault) : FailsWithin F (Except.error fault : Except Fault α) :=
  fun _ hfault => Except.error.inj hfault ▸ h

theorem mono {x : Except Fault α} (hx : FailsWithin F x) (h : ∀ fault, F fault → G fault) :
    FailsWithin G x :=
  fun fault hfault => h fault (hx fault hfault)

theorem bind {x : Except Fault α} {f : α → Except Fault β} (hx : FailsWithin F x)
    (hf : ∀ a, x = .ok a → FailsWithin F (f a)) : FailsWithin F (x >>= f) := by
  cases x with
  | ok a => exact hf a rfl
  | error e => exact error (hx e rfl)

theorem map {x : Except Fault α} (hx : FailsWithin F x) (f : α → β) : FailsWithin F (x.map f) := by
  cases x with
  | ok a => exact ok (f a)
  | error e => exact error (hx e rfl)

theorem mapM {f : α → Except Fault β} {xs : List α} (h : ∀ x ∈ xs, FailsWithin F (f x)) :
    FailsWithin F (xs.mapM f) := by
  induction xs with
  | nil => exact ok []
  | cons x xs ih =>
    rw [List.forall_mem_cons] at h
    rw [List.mapM_cons]
    exact h.1.bind fun _ _ => (ih h.2).bind fun _ _ => ok _

end FailsWithin

/-! ## Fractions -/

namespace Number

@[simp] theorem add_exact (p q : Rat) : (exact p).add (exact q) = .ok (exact (p + q)) := rfl

@[simp] theorem mul_exact (p q : Rat) : (exact p).mul (exact q) = .ok (exact (p * q)) := rfl

@[simp] theorem neg_exact (q : Rat) : (exact q).neg = exact (-q) := rfl

@[simp] theorem canonical_exact (q : Rat) : (exact q).canonical = exact q := rfl

@[simp] theorem isZero_exact (q : Rat) : (exact q).isZero = decide (q = 0) := by
  simp [isZero, equals, ofInt, beq_eq_decide]

@[simp] theorem isOne_exact (q : Rat) : (exact q).isOne = decide (q = 1) := by
  simp [isOne, equals, ofInt, beq_eq_decide]

@[simp] theorem isMinusOne_exact (q : Rat) : (exact q).isMinusOne = decide (q = -1) := by
  simp [isMinusOne, equals, ofInt, beq_eq_decide]

@[simp] theorem isHalf_exact (q : Rat) : (exact q).isHalf = decide (q = 1 / 2) := by
  simp [isHalf, equals, half, beq_eq_decide, Rat.mkRat_eq_div]

@[simp] theorem isNegative_exact (q : Rat) : (exact q).isNegative = decide (q < 0) := rfl

@[simp] theorem isPositive_exact (q : Rat) : (exact q).isPositive = decide (0 < q) := rfl

theorem half_eq : half = exact (1 / 2) := by
  simp [half, Rat.mkRat_eq_div]

theorem isInteger_exact_iff {q : Rat} : (exact q).isInteger = true ↔ ∃ k : Int, q = k := by
  have h : (exact q).isInteger = decide (q.den = 1) := by
    by_cases hq : q.den = 1 <;> simp [isInteger, toInt?, toRat?, hq]
  rw [h, decide_eq_true_iff]
  exact ⟨fun hq => ⟨q.num, (Rat.den_eq_one_iff q).mp hq |>.symm⟩, by rintro ⟨k, rfl⟩; rfl⟩

end Number

end AlgebraicForm
