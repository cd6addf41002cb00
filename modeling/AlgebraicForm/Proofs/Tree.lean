import AlgebraicForm.Expr

/-!
# Induction over expressions, and properties of all their parts

* `Expr.inductionOn`: induction with a hypothesis for every operand of a list of operands.
* `Expr.Every P e`: every part of `e` has the property `P`. Parts are those that `walk` visits, so
  `Every` comes with one equation for each constructor and descends to any part.
* `Expr.IsExact`: all literals are fractions, and there is no hole. On such expressions being the
  same is being equal (`Expr.same_iff_eq`).
-/

namespace AlgebraicForm.Expr

/-! ## Induction -/

/-- Induction over expressions. -/
@[elab_as_elim, induction_eliminator]
theorem inductionOn {motive : Expr → Prop}
    (number : ∀ v, motive (number v))
    (symbol : ∀ n, motive (symbol n))
    (sum : ∀ ts, (∀ t ∈ ts, motive t) → motive (sum ts))
    (product : ∀ fs, (∀ f ∈ fs, motive f) → motive (product fs))
    (power : ∀ b p, motive b → motive p → motive (power b p))
    (negation : ∀ e, motive e → motive (negation e))
    (call : ∀ n es, (∀ e ∈ es, motive e) → motive (call n es))
    (hole : motive hole) (e : Expr) : motive e :=
  Expr.rec (motive_1 := motive) (motive_2 := fun es => ∀ e ∈ es, motive e)
    number symbol sum product power negation call hole
    (fun _ h => absurd h List.not_mem_nil)
    (fun _ _ he hes => List.forall_mem_cons.mpr ⟨he, hes⟩) e

/-! ## Parts -/

@[simp] theorem walk_number (v : Number) : (number v).walk = [number v] := rfl

@[simp] theorem walk_symbol (n : String) : (symbol n).walk = [symbol n] := rfl

@[simp] theorem walk_hole : hole.walk = [hole] := rfl

@[simp] theorem walkAll_eq_flatMap (es : List Expr) : walkAll es = es.flatMap walk := by
  induction es with
  | nil => rfl
  | cons e es ih => exact congrArg (e.walk ++ ·) ih

@[simp] theorem walk_sum (ts : List Expr) : (sum ts).walk = sum ts :: ts.flatMap walk :=
  congrArg (sum ts :: ·) (walkAll_eq_flatMap ts)

@[simp] theorem walk_product (fs : List Expr) :
    (product fs).walk = product fs :: fs.flatMap walk :=
  congrArg (product fs :: ·) (walkAll_eq_flatMap fs)

@[simp] theorem walk_power (b p : Expr) : (power b p).walk = power b p :: (b.walk ++ p.walk) :=
  rfl

@[simp] theorem walk_negation (e : Expr) : (negation e).walk = negation e :: e.walk := rfl

@[simp] theorem walk_call (n : String) (es : List Expr) :
    (call n es).walk = call n es :: es.flatMap walk :=
  congrArg (call n es :: ·) (walkAll_eq_flatMap es)

theorem mem_walk_self (e : Expr) : e ∈ e.walk := by
  cases e <;> simp

theorem mem_walk_trans {c d e : Expr} (hc : c ∈ d.walk) (hd : d ∈ e.walk) : c ∈ e.walk := by
  induction e with
  | number _ | symbol _ | hole => simp_all
  | sum ts ih | product ts ih | call _ ts ih =>
    simp only [walk_sum, walk_product, walk_call, List.mem_cons, List.mem_flatMap] at hd
    obtain rfl | ⟨t, ht, hdt⟩ := hd
    · exact hc
    · simp only [walk_sum, walk_product, walk_call, List.mem_cons, List.mem_flatMap]
      exact .inr ⟨t, ht, ih t ht hdt⟩
  | power b p ihb ihp =>
    simp only [walk_power, List.mem_cons, List.mem_append] at hd
    obtain rfl | hd | hd := hd
    · exact hc
    · simp [ihb hd]
    · simp [ihp hd]
  | negation e ih =>
    simp only [walk_negation, List.mem_cons] at hd
    obtain rfl | hd := hd
    · exact hc
    · simp [ih hd]

/-! ## Properties of all parts -/

/-- Every part of an expression has a property. -/
def Every (P : Expr → Prop) (e : Expr) : Prop :=
  ∀ d ∈ e.walk, P d

section

variable {P Q : Expr → Prop}

theorem Every.self {e : Expr} (h : e.Every P) : P e :=
  h e e.mem_walk_self

/-- A property of all parts descends to the parts of a part. -/
theorem Every.of_mem_walk {d e : Expr} (h : e.Every P) (hd : d ∈ e.walk) : d.Every P :=
  fun _ hc => h _ (mem_walk_trans hc hd)

theorem Every.mono {e : Expr} (h : e.Every P) (hPQ : ∀ d, P d → Q d) : e.Every Q :=
  fun d hd => hPQ d (h d hd)

@[simp] theorem every_number {v : Number} : (number v).Every P ↔ P (number v) :=
  List.forall_mem_singleton

@[simp] theorem every_symbol {n : String} : (symbol n).Every P ↔ P (symbol n) :=
  List.forall_mem_singleton

@[simp] theorem every_hole : hole.Every P ↔ P hole :=
  List.forall_mem_singleton

theorem forall_mem_flatMap_walk {es : List Expr} :
    (∀ d ∈ es.flatMap walk, P d) ↔ ∀ e ∈ es, e.Every P := by
  simp only [List.mem_flatMap]
  exact ⟨fun h e he d hd => h d ⟨e, he, hd⟩, fun h d ⟨e, he, hd⟩ => h e he d hd⟩

@[simp] theorem every_sum {ts : List Expr} :
    (sum ts).Every P ↔ P (sum ts) ∧ ∀ t ∈ ts, t.Every P := by
  show (∀ d ∈ (sum ts).walk, P d) ↔ _
  rw [walk_sum, List.forall_mem_cons, forall_mem_flatMap_walk]

@[simp] theorem every_product {fs : List Expr} :
    (product fs).Every P ↔ P (product fs) ∧ ∀ f ∈ fs, f.Every P := by
  show (∀ d ∈ (product fs).walk, P d) ↔ _
  rw [walk_product, List.forall_mem_cons, forall_mem_flatMap_walk]

@[simp] theorem every_call {n : String} {es : List Expr} :
    (call n es).Every P ↔ P (call n es) ∧ ∀ e ∈ es, e.Every P := by
  show (∀ d ∈ (call n es).walk, P d) ↔ _
  rw [walk_call, List.forall_mem_cons, forall_mem_flatMap_walk]

@[simp] theorem every_power {b p : Expr} :
    (power b p).Every P ↔ P (power b p) ∧ b.Every P ∧ p.Every P :=
  List.forall_mem_cons.trans (and_congr_right' List.forall_mem_append)

@[simp] theorem every_negation {e : Expr} :
    (negation e).Every P ↔ P (negation e) ∧ e.Every P :=
  List.forall_mem_cons

end

/-! ## Names -/

/-- Inserting a name adds it and nothing else. -/
theorem mem_insertName {n name : String} {names : List String} :
    n ∈ insertName name names ↔ n = name ∨ n ∈ names := by
  induction names with
  | nil => simp [insertName]
  | cons other rest ih =>
    unfold insertName
    split
    · simp_all
    · split <;> simp_all [or_left_comm]

/-- Sorting names keeps them all. -/
theorem mem_sortNames {n : String} {names : List String} :
    n ∈ sortNames names ↔ n ∈ names := by
  induction names with
  | nil => rfl
  | cons name names ih =>
    show n ∈ insertName name (sortNames names) ↔ _
    simp only [mem_insertName, ih, List.mem_cons]

/-! ## Exact expressions -/

/-- Neither a double nor a hole. -/
def IsExactNode : Expr → Prop
  | number (.approx _) | hole => False
  | _ => True

/-- All literals are fractions, and there is no hole. -/
def IsExact (e : Expr) : Prop :=
  e.Every IsExactNode

@[simp] theorem isExact_rat (q : Rat) : (rat q).IsExact :=
  every_number.mpr trivial

@[simp] theorem isExact_symbol (n : String) : (symbol n).IsExact :=
  every_symbol.mpr trivial

@[simp] theorem isExact_sum {ts : List Expr} : (sum ts).IsExact ↔ ∀ t ∈ ts, t.IsExact :=
  every_sum.trans (and_iff_right trivial)

@[simp] theorem isExact_product {fs : List Expr} :
    (product fs).IsExact ↔ ∀ f ∈ fs, f.IsExact :=
  every_product.trans (and_iff_right trivial)

@[simp] theorem isExact_power {b p : Expr} : (power b p).IsExact ↔ b.IsExact ∧ p.IsExact :=
  every_power.trans (and_iff_right trivial)

@[simp] theorem isExact_negation {e : Expr} : (negation e).IsExact ↔ e.IsExact :=
  every_negation.trans (and_iff_right trivial)

@[simp] theorem isExact_call {n : String} {es : List Expr} :
    (call n es).IsExact ↔ ∀ e ∈ es, e.IsExact :=
  every_call.trans (and_iff_right trivial)

@[simp] theorem not_isExact_hole : ¬hole.IsExact :=
  fun h => every_hole.mp h

/-- A literal of an exact expression is a fraction. -/
theorem IsExact.exists_rat {v : Number} (h : (number v).IsExact) : ∃ q, v = .exact q := by
  cases v with
  | exact q => exact ⟨q, rfl⟩
  | approx x => exact (every_number.mp h).elim

/-! ## Equality -/

theorem sameAll_iff_eq {es : List Expr}
    (ih : ∀ e ∈ es, ∀ f : Expr, f.IsExact → (e.same f = true ↔ e = f)) :
    ∀ fs : List Expr, (∀ f ∈ fs, f.IsExact) → (sameAll es fs = true ↔ es = fs) := by
  induction es with
  | nil => intro fs _; cases fs <;> simp [sameAll]
  | cons e es ihes =>
    intro fs hfs
    cases fs with
    | nil => simp [sameAll]
    | cons f fs =>
      rw [List.forall_mem_cons] at hfs
      rw [sameAll, Bool.and_eq_true, ih e (by simp) f hfs.1,
        ihes (fun d hd => ih d (by simp [hd])) fs hfs.2, List.cons.injEq]

/-- Exact expressions are the same only if they are equal. -/
theorem same_iff_eq {e : Expr} (h : e.IsExact) :
    ∀ f : Expr, f.IsExact → (e.same f = true ↔ e = f) := by
  -- expressions of different kinds are neither the same nor equal
  induction e with
  | number v =>
    obtain ⟨p, rfl⟩ := h.exists_rat
    intro f hf
    cases f with
    | number w =>
      obtain ⟨q, rfl⟩ := hf.exists_rat
      simp [same, Number.equals]
    | _ => exact iff_of_false Bool.false_ne_true nofun
  | symbol m =>
    intro f _
    cases f with
    | symbol n => rw [same, beq_iff_eq, symbol.injEq]
    | _ => exact iff_of_false Bool.false_ne_true nofun
  | sum ts ih =>
    intro f hf
    rw [isExact_sum] at h
    cases f with
    | sum us =>
      rw [same, sameAll_iff_eq (fun e he => ih e he (h e he)) us (isExact_sum.mp hf), sum.injEq]
    | _ => exact iff_of_false Bool.false_ne_true nofun
  | product fs ih =>
    intro f hf
    rw [isExact_product] at h
    cases f with
    | product gs =>
      rw [same, sameAll_iff_eq (fun e he => ih e he (h e he)) gs (isExact_product.mp hf),
        product.injEq]
    | _ => exact iff_of_false Bool.false_ne_true nofun
  | power b p ihb ihp =>
    intro f hf
    rw [isExact_power] at h
    cases f with
    | power c q =>
      rw [isExact_power] at hf
      rw [same, Bool.and_eq_true, ihb h.1 c hf.1, ihp h.2 q hf.2, power.injEq]
    | _ => exact iff_of_false Bool.false_ne_true nofun
  | negation e ih =>
    intro f hf
    rw [isExact_negation] at h
    cases f with
    | negation d => rw [same, ih h d (isExact_negation.mp hf), negation.injEq]
    | _ => exact iff_of_false Bool.false_ne_true nofun
  | call m es ih =>
    intro f hf
    rw [isExact_call] at h
    cases f with
    | call n ds =>
      rw [same, Bool.and_eq_true, beq_iff_eq,
        sameAll_iff_eq (fun e he => ih e he (h e he)) ds (isExact_call.mp hf), call.injEq]
    | _ => exact iff_of_false Bool.false_ne_true nofun
  | hole => exact absurd h not_isExact_hole

/-- Whether a computation returns an expression. -/
def returns (x : Except Fault Expr) (e : Expr) : Bool :=
  match x with
  | .ok d => d.same e
  | .error _ => false

/-- A computation with exact results returns an exact expression if it is found to. -/
theorem eq_ok_of_returns {x : Except Fault Expr} {e : Expr} (hx : ∀ d, x = .ok d → d.IsExact)
    (he : e.IsExact) (h : returns x e = true) : x = .ok e := by
  cases x with
  | error f => simp [returns] at h
  | ok d => rw [(same_iff_eq (hx d rfl) e he).mp h]

end AlgebraicForm.Expr
