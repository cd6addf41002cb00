import AlgebraicForm.Proofs.RealMeaning
import Mathlib.Algebra.Order.BigOperators.Group.List

/-!
# Weights of nodes, added up

A measure of an expression that counts some of its nodes is a weight of nodes, added up over all
parts. It comes with one equation for each constructor.
-/

namespace AlgebraicForm

open AlgebraicForm.Expr

/-- The weights of all parts of an expression, added up. -/
def Expr.total (w : Expr → Nat) (e : Expr) : Nat :=
  (e.walk.map w).sum

/-- The weights of all parts of several expressions. -/
def totalAll (w : Expr → Nat) (es : List Expr) : Nat :=
  (es.map (Expr.total w)).sum

section

variable {w : Expr → Nat}

@[simp] theorem totalAll_nil : totalAll w [] = 0 :=
  rfl

@[simp] theorem totalAll_cons (e : Expr) (es : List Expr) :
    totalAll w (e :: es) = e.total w + totalAll w es := by
  simp [totalAll]

@[simp] theorem totalAll_append (es fs : List Expr) :
    totalAll w (es ++ fs) = totalAll w es + totalAll w fs := by
  simp [totalAll]

theorem totalAll_perm {es fs : List Expr} (h : es.Perm fs) : totalAll w es = totalAll w fs :=
  (h.map _).sum_eq

theorem sum_flatMap_walk (es : List Expr) : ((es.flatMap walk).map w).sum = totalAll w es := by
  induction es with
  | nil => rfl
  | cons e es ih =>
    rw [List.flatMap_cons, List.map_append, List.sum_append, ih, totalAll_cons, total]

@[simp] theorem total_number (v : Number) : (number v).total w = w (number v) := by
  simp [total]

@[simp] theorem total_symbol (n : String) : (symbol n).total w = w (symbol n) := by
  simp [total]

@[simp] theorem total_hole : hole.total w = w hole := by
  simp [total]

@[simp] theorem total_sum (ts : List Expr) :
    (sum ts).total w = w (sum ts) + totalAll w ts := by
  rw [total, walk_sum, List.map_cons, List.sum_cons, sum_flatMap_walk]

@[simp] theorem total_product (fs : List Expr) :
    (product fs).total w = w (product fs) + totalAll w fs := by
  rw [total, walk_product, List.map_cons, List.sum_cons, sum_flatMap_walk]

@[simp] theorem total_power (b p : Expr) :
    (power b p).total w = w (power b p) + (b.total w + p.total w) := by
  rw [total, walk_power, List.map_cons, List.sum_cons, List.map_append, List.sum_append, total,
    total]

@[simp] theorem total_negation (e : Expr) :
    (negation e).total w = w (negation e) + e.total w := by
  rw [total, walk_negation, List.map_cons, List.sum_cons, total]

@[simp] theorem total_call (n : String) (es : List Expr) :
    (call n es).total w = w (call n es) + totalAll w es := by
  rw [total, walk_call, List.map_cons, List.sum_cons, sum_flatMap_walk]

end

theorem totalAll_le {w w' : Expr → Nat} {ds es : List Expr}
    (h : List.Forall₂ (fun d e => e.total w ≤ d.total w') ds es) :
    totalAll w es ≤ totalAll w' ds := by
  induction h with
  | nil => exact le_rfl
  | cons hde _ ih =>
    rw [totalAll_cons, totalAll_cons]
    omega

theorem totalAll_map_le {α : Type} {w w' : Expr → Nat} {f g : α → Expr} {ls : List α}
    (h : ∀ l ∈ ls, (f l).total w ≤ (g l).total w') :
    totalAll w (ls.map f) ≤ totalAll w' (ls.map g) := by
  have hall : List.Forall₂ (fun d e => e.total w ≤ d.total w') (ls.map g) (ls.map f) := by
    rw [List.forall₂_map_left_iff, List.forall₂_map_right_iff, List.forall₂_same]
    exact h
  exact totalAll_le hall

/-- A weight of at most one counts no more than all nodes. -/
theorem total_le_size {w : Expr → Nat} (hw : ∀ e, w e ≤ 1) (e : Expr) : e.total w ≤ e.size := by
  have hall : ∀ es : List Expr, (∀ e ∈ es, e.total w ≤ e.size) → totalAll w es ≤ sizeAll es := by
    intro es
    induction es with
    | nil => exact fun _ => le_rfl
    | cons e es ih =>
      intro h
      rw [List.forall_mem_cons] at h
      rw [totalAll_cons]
      exact Nat.add_le_add h.1 (ih h.2)
  induction e with
  | number v => exact (total_number v).trans_le (hw _)
  | symbol n => exact (total_symbol n).trans_le (hw _)
  | sum ts ih => exact (total_sum ts).trans_le (Nat.add_le_add (hw _) (hall ts ih))
  | product fs ih => exact (total_product fs).trans_le (Nat.add_le_add (hw _) (hall fs ih))
  | power b p ihb ihp =>
    have hnode := hw (power b p)
    rw [total_power, size]
    omega
  | negation e ih => exact (total_negation e).trans_le (Nat.add_le_add (hw _) ih)
  | call n es ih => exact (total_call n es).trans_le (Nat.add_le_add (hw _) (hall es ih))
  | hole => exact total_hole.trans_le (hw _)

end AlgebraicForm
