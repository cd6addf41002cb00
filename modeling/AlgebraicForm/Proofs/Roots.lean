import AlgebraicForm.Proofs.LimitedForms
import AlgebraicForm.Proofs.LiteralRoots
import AlgebraicForm.Proofs.RoundTrip
import AlgebraicForm.Proofs.Weights

/-!
# Roots that are lost in a text

A reciprocal square root `1/sqrt(q)` of the square `q` of a fraction is a power when it is built,
but its text is read back as the reciprocal of a call, and a pass over that takes the root. So a
tree with such a node does not come back from its text. The proof counts roots: no law makes one,
what is read back has no more of them than what was written, and a pass over it loses one for each
of these nodes.

A node counts by its weight. Besides `rootWeight` there are two weights that count less: on the side
of the tree `properWeight` leaves out the reciprocal roots, and on the side of what is read back
`keptWeight` leaves out whatever a pass makes a literal of. Reading back leads from the first to the
second.

* `Rewrites.roots_le`: no law makes a root.
* `roots_le_kept`: a pass leaves no more roots than are kept.
* `Reads.kept_le`: what is read back keeps no more roots than there are proper ones.
* `roots_lt_of_reads`: a pass over what is read back loses the reciprocal roots.
* `normalForm_reread_iff`: the normal forms that come back from their texts.
-/

namespace AlgebraicForm

open AlgebraicForm.Expr

/-! ## Roots -/

/-- One for a root: a power whose exponent is no whole literal, or a call of `sqrt`. Those of a
literal zero do not count. -/
def rootWeight : Expr → Nat
  | power b p => if p.isIntegerNumber || b.isZeroNumber then 0 else 1
  | call n [e] => if n = "sqrt" && !e.isZeroNumber then 1 else 0
  | _ => 0

theorem rootWeight_le_one (e : Expr) : rootWeight e ≤ 1 := by
  unfold rootWeight
  split
  · split <;> omega
  · split <;> omega
  · omega

/-- A weight of roots only. -/
def CountsRoots (w : Expr → Nat) : Prop :=
  ∀ e, w e ≤ rootWeight e

namespace CountsRoots

variable {w : Expr → Nat} (hw : CountsRoots w)

include hw

theorem number (v : Number) : (number v).total w = 0 := by
  rw [total_number]
  exact Nat.le_zero.mp (hw _)

theorem symbol (n : String) : (symbol n).total w = 0 := by
  rw [total_symbol]
  exact Nat.le_zero.mp (hw _)

theorem sum (ts : List Expr) : (sum ts).total w = totalAll w ts := by
  have hnode : w (.sum ts) = 0 := Nat.le_zero.mp (hw _)
  rw [total_sum, hnode, Nat.zero_add]

theorem product (fs : List Expr) : (product fs).total w = totalAll w fs := by
  have hnode : w (.product fs) = 0 := Nat.le_zero.mp (hw _)
  rw [total_product, hnode, Nat.zero_add]

theorem negation (e : Expr) : (negation e).total w = e.total w := by
  have hnode : w (.negation e) = 0 := Nat.le_zero.mp (hw _)
  rw [total_negation, hnode, Nat.zero_add]

theorem ofFactors (fs : List Expr) : (ofFactors fs).total w = totalAll w fs := by
  unfold Expr.ofFactors
  split
  next f => rw [totalAll_cons, totalAll_nil, Nat.add_zero]
  next => exact hw.product fs

end CountsRoots

/-- The number of roots. -/
def Expr.roots (e : Expr) : Nat :=
  e.total rootWeight

/-- The number of roots in several expressions. -/
def rootsAll (es : List Expr) : Nat :=
  totalAll rootWeight es

theorem rootWeight_countsRoots : CountsRoots rootWeight := fun _ => le_rfl

@[simp] theorem roots_number (v : Number) : (number v).roots = 0 :=
  rootWeight_countsRoots.number v

@[simp] theorem roots_symbol (n : String) : (symbol n).roots = 0 :=
  rootWeight_countsRoots.symbol n

@[simp] theorem roots_sum (ts : List Expr) : (sum ts).roots = rootsAll ts :=
  rootWeight_countsRoots.sum ts

@[simp] theorem roots_product (fs : List Expr) : (product fs).roots = rootsAll fs :=
  rootWeight_countsRoots.product fs

@[simp] theorem roots_negation (e : Expr) : (negation e).roots = e.roots :=
  rootWeight_countsRoots.negation e

@[simp] theorem roots_ofFactors (fs : List Expr) : (ofFactors fs).roots = rootsAll fs :=
  rootWeight_countsRoots.ofFactors fs

theorem roots_power (b p : Expr) :
    (power b p).roots = rootWeight (power b p) + (b.roots + p.roots) := by
  rw [roots, total_power, roots, roots]

theorem roots_call (n : String) (es : List Expr) :
    (call n es).roots = rootWeight (call n es) + rootsAll es := by
  rw [roots, total_call, rootsAll]

@[simp] theorem rootsAll_nil : rootsAll [] = 0 :=
  rfl

@[simp] theorem rootsAll_cons (e : Expr) (es : List Expr) :
    rootsAll (e :: es) = e.roots + rootsAll es :=
  totalAll_cons e es

@[simp] theorem rootsAll_append (es fs : List Expr) :
    rootsAll (es ++ fs) = rootsAll es + rootsAll fs :=
  totalAll_append es fs

@[simp] theorem rootWeight_power_intCast (b : Expr) (k : Int) :
    rootWeight (power b (rat k)) = 0 := by
  simp [rootWeight, isIntegerNumber_intCast]

@[simp] theorem roots_scale (a : Rat) (body : Expr) :
    (scale (.exact a) body).roots = body.roots := by
  unfold scale
  split
  · rfl
  · cases body <;> simp [factors]

@[simp] theorem roots_ofPower (b p : Expr) : (ofPower b p).roots = (power b p).roots := by
  unfold ofPower
  split
  next q =>
    split
    next h =>
      have hone := rootWeight_power_intCast b 1
      rw [Int.cast_one] at hone
      rw [h.1, roots_power, hone, roots_number]
      omega
    next => rfl
  next => rfl

/-- A power with another base and another exponent is no root where the first is none. -/
theorem rootWeight_power_le {b c p q : Expr}
    (hbase : b.isZeroNumber = true → c.isZeroNumber = true)
    (hexponent : p.isIntegerNumber = true → q.isIntegerNumber = true) :
    rootWeight (power c q) ≤ rootWeight (power b p) := by
  show (if _ then 0 else 1) ≤ (if _ then 0 else 1)
  split
  next => omega
  next hno =>
    rw [if_neg]
    intro hyes
    rcases Bool.or_eq_true_iff.mp hyes with hp | hb
    · exact hno (by rw [hexponent hp]; rfl)
    · exact hno (by rw [hbase hb, Bool.or_true])

theorem Rewrites.isZeroNumber {b c : Expr} (h : Rewrites b c) (hb : b.isZeroNumber = true) :
    c.isZeroNumber = true := by
  have hnumber : b.isNumber = true := by
    cases b <;> simp_all [Expr.isZeroNumber, isNumber]
  rwa [h.eq_of_isNumber hnumber]

theorem Rewrites.isIntegerNumber {p q : Expr} (h : Rewrites p q) (hp : p.isIntegerNumber = true) :
    q.isIntegerNumber = true := by
  have hnumber : p.isNumber = true := by
    cases p <;> simp_all [Expr.isIntegerNumber, isNumber]
  rwa [h.eq_of_isNumber hnumber]

/-- The roots in factors of one base. -/
theorem rootsAll_map_ofPower (b : Expr) (es : List Expr) : rootsAll (es.map (ofPower b)) =
    (es.map fun e => rootWeight (power b e)).sum + (es.length * b.roots + rootsAll es) := by
  induction es with
  | nil => simp
  | cons e es ih =>
    rw [List.map_cons, rootsAll_cons, ih, roots_ofPower, roots_power, rootsAll_cons, List.map_cons,
      List.sum_cons, List.length_cons]
    ring

/-- A merged exponent makes no root, unless one of the exponents did. -/
theorem rootWeight_merged {b p : Expr} {es : List Expr}
    (hint : (∀ e ∈ es, e.isIntegerNumber = true) → p.isIntegerNumber = true) :
    rootWeight (power b p) ≤ (es.map fun e => rootWeight (power b e)).sum := by
  by_cases hall : ∀ e ∈ es, e.isIntegerNumber = true
  · simp [rootWeight, hint hall]
  · push Not at hall
    obtain ⟨e, he, hfraction⟩ := hall
    have hle : rootWeight (power b p) ≤ rootWeight (power b e) := by
      simp only [rootWeight, hfraction]
      split <;> split <;> simp_all
    exact hle.trans (List.le_sum_of_mem (List.mem_map_of_mem he))

/-- Operands that are each changed without changing their roots. -/
theorem rootsAll_map {f : Expr → Expr} (h : ∀ e, (f e).roots = e.roots) (es : List Expr) :
    rootsAll (es.map f) = rootsAll es := by
  induction es with
  | nil => rfl
  | cons e es ih => rw [List.map_cons, rootsAll_cons, rootsAll_cons, h, ih]

theorem rootWeight_call_le (n : String) {ds es : List Expr} (h : List.Forall₂ (fun d e =>
    d.isZeroNumber = true → e.isZeroNumber = true) ds es) :
    rootWeight (call n es) ≤ rootWeight (call n ds) := by
  match h with
  | .nil => exact le_rfl
  | .cons hde .nil =>
    show (if _ then 1 else 0) ≤ (if _ then 1 else 0)
    split
    next hyes =>
      rw [if_pos]
      simp only [Bool.and_eq_true, Bool.not_eq_true'] at hyes ⊢
      refine ⟨hyes.1, Bool.eq_false_iff.mpr fun hd => ?_⟩
      simp [hde hd] at hyes
    next => omega
  | .cons _ (.cons _ _) => exact le_rfl

/-- No law makes a root. -/
theorem Rewrites.roots_le {a b : Expr} (h : Rewrites a b) : b.roots ≤ a.roots := by
  induction h with
  | refl => exact le_rfl
  | trans _ _ ih₁ ih₂ => exact ih₂.trans ih₁
  | sum_head ts _ ih | product_head ts _ ih =>
    simp only [roots_sum, roots_product, rootsAll_cons]
    omega
  | power_base p h ih =>
    have := rootWeight_power_le (p := p) h.isZeroNumber id
    rw [roots_power, roots_power]
    omega
  | @power_exponent b p q h ih =>
    have := rootWeight_power_le (b := b) id h.isIntegerNumber
    rw [roots_power, roots_power]
    omega
  | negation_operand _ ih => simpa using ih
  | call_argument n ds es h ih =>
    have harguments : List.Forall₂ (fun d e : Expr => d.isZeroNumber = true →
        e.isZeroNumber = true) (ds ++ _ :: es) (ds ++ _ :: es) :=
      List.rel_append (List.forall₂_same.mpr fun _ _ => id)
        (.cons h.isZeroNumber (List.forall₂_same.mpr fun _ _ => id))
    have := rootWeight_call_le n harguments
    simp only [roots_call, rootsAll_append, rootsAll_cons]
    omega
  | sum_perm hperm => rw [roots_sum, roots_sum, rootsAll, rootsAll, totalAll_perm hperm]
  | product_perm hperm =>
    rw [roots_product, roots_product, rootsAll, rootsAll, totalAll_perm hperm]
  | @like_bases b es p fs hes _ hint ih =>
    have hweight := rootWeight_merged (b := b) hint
    have hbase := Nat.le_mul_of_pos_left b.roots (show 0 < es.length by omega)
    rw [roots_sum] at ih
    rw [roots_product, roots_product, rootsAll_cons, rootsAll_append, rootsAll_map_ofPower,
      roots_power]
    omega
  | @power_power b p q k _ hint ih =>
    -- the whole exponent outside is no root
    have hweight : rootWeight (power b q) ≤ rootWeight (power b p) := by
      cases hp : p.isIntegerNumber with
      | true => simp [rootWeight, hint hp]
      | false =>
        simp only [rootWeight, hp]
        split <;> split <;> simp_all
    simp only [roots_product, rootsAll_cons, rootsAll_nil, roots_number] at ih
    rw [roots_power, roots_power, roots_power]
    omega
  | power_product fs k =>
    have hmap : rootsAll (fs.map fun f => power f (rat k)) = rootsAll fs :=
      rootsAll_map (fun f => by simp [roots_power]) fs
    rw [roots_power, roots_product, roots_product, hmap]
    omega
  | distribute_sign ts =>
    have hmap : rootsAll (ts.map fun t => product [minusOne, t]) = rootsAll ts :=
      rootsAll_map (fun t => by simp [minusOne]) ts
    rw [roots_sum, roots_product, hmap]
    simp [minusOne]
  | call_sqrt e =>
    have hweight : rootWeight (power e (number .half)) ≤ rootWeight (call "sqrt" [e]) := by
      have hhalf : (number .half).isIntegerNumber = false := by decide
      simp only [rootWeight, hhalf]
      split <;> simp_all
    rw [roots_power, roots_call]
    simpa using hweight
  | power_zero b => simp [one]
  | power_one b =>
    rw [roots_power]
    omega
  | one_power p => simp [one]
  | zero_power | whole_power | square_root | negation_literal => simp [zero]
  | _ => simp [zero, one, minusOne]

/-! ## Roots that a pass keeps -/

/-- The weight of a root, unless a pass makes a literal of it. -/
def keptWeight (e : Expr) : Nat :=
  match normalPass .unbounded e with
  | .ok (number _) => 0
  | _ => rootWeight e

theorem keptWeight_countsRoots : CountsRoots keptWeight := by
  intro e
  unfold keptWeight
  split
  · omega
  · exact le_rfl

/-- What a pass makes a literal of has no weight. -/
theorem keptWeight_of_pass {e : Expr} {v : Number} (h : normalPass .unbounded e = .ok (number v)) :
    keptWeight e = 0 := by
  rw [keptWeight, h]

/-- A pass over a node keeps what the node and its parts keep. -/
theorem roots_le_keptWeight {r d c : Expr} {k : Nat} (h : normalPass .unbounded r = .ok c)
    (hlaws : Rewrites d c) (hle : d.roots ≤ rootWeight r + k) : c.roots ≤ keptWeight r + k := by
  cases hnumber : c.isNumber with
  | true =>
    have hzero : c.roots = 0 := by
      cases c <;> simp_all [isNumber]
    omega
  | false =>
    -- no literal, so that the node has its full weight
    have hfull : keptWeight r = rootWeight r := by
      unfold keptWeight
      rw [h]
      cases c <;> simp_all [isNumber]
    have := hlaws.roots_le
    omega

/-- The roots of a node are those of its parts and perhaps itself. -/
theorem Expr.OnParts.roots_le {r d : Expr}
    (h : OnParts (fun a b => Rewrites a b ∧ b.roots ≤ a.total keptWeight) r d) :
    ∃ k, r.total keptWeight = keptWeight r + k ∧ d.roots ≤ rootWeight r + k := by
  have hlist : ∀ {ds es : List Expr},
      List.Forall₂ (fun a b => Rewrites a b ∧ b.roots ≤ a.total keptWeight) ds es →
      rootsAll es ≤ totalAll keptWeight ds := fun h => totalAll_le (h.imp fun _ _ h => h.2)
  cases h with
  | literal q => exact ⟨0, by simp⟩
  | symbol n => exact ⟨0, by simp⟩
  | @sum ts us hts =>
    refine ⟨totalAll keptWeight ts, total_sum ts, ?_⟩
    rw [roots_sum]
    exact (hlist hts).trans (Nat.le_add_left _ _)
  | @product fs gs hfs =>
    refine ⟨totalAll keptWeight fs, total_product fs, ?_⟩
    rw [roots_product]
    exact (hlist hfs).trans (Nat.le_add_left _ _)
  | @power b c p q hb hp =>
    refine ⟨b.total keptWeight + p.total keptWeight, total_power b p, ?_⟩
    have hnode := rootWeight_power_le hb.1.isZeroNumber hp.1.isIntegerNumber
    rw [roots_power]
    omega
  | @negation d e he =>
    refine ⟨d.total keptWeight, total_negation d, ?_⟩
    rw [roots_negation]
    exact he.2.trans (Nat.le_add_left _ _)
  | @call n ds es hes =>
    refine ⟨totalAll keptWeight ds, total_call n ds, ?_⟩
    have hnode := rootWeight_call_le n (hes.imp fun _ _ h => h.1.isZeroNumber)
    have hparts := hlist hes
    rw [roots_call]
    omega

/-- A pass leaves no more roots than are kept. -/
theorem roots_le_kept {r c : Expr} (hr : r.IsExact) (h : normalPass .unbounded r = .ok c) :
    c.roots ≤ r.total keptWeight := by
  have hboth : Rewrites r c ∧ c.roots ≤ r.total keptWeight := by
    refine normalPass_induction (motive := fun r c => Rewrites r c ∧ c.roots ≤ r.total keptWeight)
      (fun {r d c} hr hpass hparts hd => ?_) hr h
    have hlaws : Rewrites r d := (hparts.mono fun _ _ h => h.1).rewrites
    have hd := hd (hlaws.isExact hr)
    obtain ⟨k, hk, hle⟩ := hparts.roots_le
    refine ⟨hlaws.trans hd, ?_⟩
    rw [hk]
    exact roots_le_keptWeight hpass hd hle
  exact hboth.2

/-! ## Reading back -/

/-- What is left when a sign is taken out has the parts of the expression. -/
theorem CountsRoots.splitSign_le {w : Expr → Nat} (hw : CountsRoots w) {e m : Expr}
    (h : e.splitSign = (true, m)) : m.total w ≤ e.total w := by
  have hremaining : ∀ es : List Expr, (ofRemaining es).total w = totalAll w es := by
    intro es
    unfold ofRemaining
    split
    next => exact hw.number _
    next f => rw [totalAll_cons, totalAll_nil, Nat.add_zero]
    next => exact hw.product _
  unfold Expr.splitSign at h
  split at h
  next v =>
    split at h
    next =>
      obtain rfl := (Prod.mk.inj h).2
      rw [hw.number]
      exact Nat.zero_le _
    next => simp at h
  next d =>
    obtain rfl := (Prod.mk.inj h).2
    exact (hw.negation d).ge
  next v rest =>
    split at h
    next =>
      obtain rfl := (Prod.mk.inj h).2
      rw [hremaining, hw.product, totalAll_cons]
      split
      next => omega
      next => rw [totalAll_cons, hw.number, hw.number]
    next => simp at h
  next d rest =>
    obtain rfl := (Prod.mk.inj h).2
    rw [hremaining, hw.product, totalAll_cons, totalAll_cons, hw.negation]
  next => simp at h

theorem CountsRoots.literalFactors {w : Expr → Nat} (hw : CountsRoots w) (q : Rat) :
    totalAll w (literalFactors q) = 0 := by
  have hden : (power (rat q.den) minusOne).total w = 0 := by
    have hnode : w (power (rat q.den) minusOne) = 0 := by
      have hle := hw (power (rat q.den) minusOne)
      have hone : rootWeight (power (rat q.den) (rat ((-1 : Int) : Rat))) = 0 :=
        rootWeight_power_intCast _ _
      rw [Int.cast_neg, Int.cast_one] at hone
      rw [minusOne] at hle ⊢
      omega
    rw [total_power, hnode, minusOne, hw.number, hw.number]
  unfold Expr.literalFactors
  split
  next => rw [totalAll_cons, totalAll_nil, hw.number]
  next => rw [totalAll_cons, totalAll_cons, totalAll_nil, hw.number, hden]

theorem Reads.isZeroNumber {e : Expr} {fs : List Expr} (h : Reads e fs)
    (he : e.isZeroNumber = true) : (ofFactors fs).isZeroNumber = true := by
  cases h with
  | @literal q hq =>
    obtain rfl : q = 0 := by simpa [Expr.isZeroNumber] using he
    rfl
  | @signed _ m fs _ hexact hsplit _ _ =>
    obtain rfl := hexact.eq_zero he
    simp [zero, splitSign] at hsplit
  | _ => simp [Expr.isZeroNumber] at he

/-- A whole literal that is not negative is read back as one. -/
theorem Reads.isIntegerNumber {p : Expr} {fs : List Expr} (h : Reads p fs)
    (hp : p.isIntegerNumber = true) (hneg : p.isNegativeNumber = false) :
    (ofFactors fs).isIntegerNumber = true := by
  cases h with
  | @literal q hq =>
    obtain ⟨k, hk⟩ := (isIntegerNumber_iff (isExact_rat q)).mp hp
    obtain rfl : q = k := by simpa using hk
    rw [Expr.literalFactors, if_pos (Rat.den_intCast k)]
    exact (isIntegerNumber_iff (isExact_rat _)).mpr ⟨k, by simp⟩
  | @signed _ m fs _ hexact hsplit _ _ =>
    obtain ⟨k, rfl⟩ := (isIntegerNumber_iff hexact).mp hp
    have hk : ¬(k : Rat) < 0 := by simpa [isNegativeNumber] using hneg
    simp [splitSign, hk] at hsplit
  | _ => simp [Expr.isIntegerNumber] at hp

/-- The weight of a root that is no reciprocal root of a square. -/
def properWeight (e : Expr) : Nat :=
  if e.isReciprocalRoot then 0 else rootWeight e

theorem properWeight_countsRoots : CountsRoots properWeight := by
  intro e
  unfold properWeight
  split
  · omega
  · exact le_rfl

theorem isIntegerNumber_neg_half : (rat (-1 / 2)).isIntegerNumber = false := by
  rw [Bool.eq_false_iff]
  intro h
  obtain ⟨k, hk⟩ := (isIntegerNumber_iff (isExact_rat _)).mp h
  have hk : (-1 / 2 : Rat) = k := by simpa using hk
  have hdouble : (2 * k : Int) = -1 := by
    have : (2 * (k : Rat)) = -1 := by rw [← hk]; norm_num
    exact_mod_cast this
  omega

/-- A pass takes the root of what a square is read back as. -/
theorem pass_root_of_square {q z : Rat} {fs : List Expr} (hz : sqrt? q = some z)
    (h : Reads (rat q) fs) :
    ∃ v, normalPass .unbounded (call "sqrt" [ofFactors fs]) = .ok (number v) := by
  have hroot : literalRoot q = number (.exact z) := literalRoot_eq_number_iff.mpr ⟨z, rfl, hz⟩
  refine ⟨.exact z, ?_⟩
  rw [← hroot]
  exact pass_sqrt (pass_of_reads (isStable_rat q) h)

/-- A node keeps no more than one that is no reciprocal root and a root wherever that is. -/
theorem keptWeight_le {r e : Expr} (hno : e.isReciprocalRoot = false)
    (hle : rootWeight r ≤ rootWeight e) : keptWeight r ≤ properWeight e := by
  rw [properWeight, hno]
  exact (keptWeight_countsRoots r).trans hle

/-- Below the line no more is kept than there is in the power that is written there. -/
theorem kept_belowLine_le {b : Expr} {v : Rat} {fs : List Expr} (h : Reads b fs) (hv : v < 0)
    (hb : b.isZeroNumber = false) : (belowLine (-v) (ofFactors fs)).total keptWeight ≤
      properWeight (power b (rat v)) + (ofFactors fs).total keptWeight := by
  unfold belowLine
  split_ifs with hone hhalf
  · omega
  · rw [total_call, totalAll_cons, totalAll_nil, Nat.add_zero]
    refine Nat.add_le_add_right ?_ _
    cases hroot : (power b (rat v)).isReciprocalRoot with
    | true =>
      unfold Expr.isReciprocalRoot at hroot
      split at hroot
      next q w heq =>
        obtain ⟨rfl, -⟩ := Expr.power.inj heq
        simp only [Bool.and_eq_true] at hroot
        obtain ⟨z, hz⟩ := Option.isSome_iff_exists.mp hroot.2
        obtain ⟨u, hu⟩ := pass_root_of_square hz h
        rw [keptWeight_of_pass hu]
        exact Nat.zero_le _
      next => simp at hroot
    | false =>
      refine keptWeight_le hroot ((rootWeight_le_one _).trans ?_)
      have hfraction : (rat v).isIntegerNumber = false := by
        rw [show v = -1 / 2 by linarith, isIntegerNumber_neg_half]
      simp [rootWeight, hfraction, hb]
  · have hroot : (power b (rat v)).isReciprocalRoot = false := by
      have hne : v ≠ -1 / 2 := by
        rintro rfl
        norm_num at hhalf
      unfold Expr.isReciprocalRoot
      split
      next q w heq =>
        obtain ⟨-, hw⟩ := Expr.power.inj heq
        obtain rfl : v = w := by simpa using hw
        simp [hne]
      next => rfl
    have hexponent : (ofFactors (literalFactors (-v))).total keptWeight = 0 := by
      rw [keptWeight_countsRoots.ofFactors, keptWeight_countsRoots.literalFactors]
    have hle : rootWeight (power (ofFactors fs) (ofFactors (literalFactors (-v)))) ≤
        rootWeight (power b (rat v)) := by
      cases hinteger : (rat v).isIntegerNumber with
      | true =>
        have hpositive : 0 ≤ -v := by linarith
        obtain ⟨k, hk⟩ := (isIntegerNumber_iff (isExact_rat v)).mp hinteger
        have hneg : (rat (-v)).isIntegerNumber = true := by
          refine (isIntegerNumber_iff (isExact_rat _)).mpr ⟨-k, ?_⟩
          have hk : v = k := by simpa using hk
          rw [hk, Int.cast_neg]
        have hread := (Reads.literal hpositive).isIntegerNumber hneg
          (by simpa [isNegativeNumber] using hv.le)
        simp [rootWeight, hread]
      | false =>
        refine (rootWeight_le_one _).trans ?_
        simp [rootWeight, hinteger, hb]
    have hnode := keptWeight_le hroot hle
    rw [total_power, hexponent]
    omega

theorem kept_reciprocal (r : Expr) : (power r minusOne).total keptWeight = r.total keptWeight := by
  have hnode : keptWeight (power r minusOne) = 0 := by
    have hle := keptWeight_countsRoots (power r minusOne)
    have hone := rootWeight_power_intCast r (-1)
    rw [Int.cast_neg, Int.cast_one] at hone
    rw [minusOne] at hle ⊢
    omega
  rw [total_power, hnode, minusOne, keptWeight_countsRoots.number]
  omega

theorem kept_quotientFactors (ns ds : List Expr) : totalAll keptWeight (quotientFactors ns ds) =
    totalAll keptWeight ns + totalAll keptWeight ds := by
  have htop : totalAll keptWeight (if ns = [] then [one] else ns) = totalAll keptWeight ns := by
    split
    next h => rw [h, totalAll_cons, one, keptWeight_countsRoots.number, Nat.zero_add]
    next => rfl
  have hbottom : totalAll keptWeight (if ds = [] then [] else [power (ofFactors ds) minusOne]) =
      totalAll keptWeight ds := by
    split
    next h => rw [h]
    next => rw [totalAll_cons, totalAll_nil, kept_reciprocal, keptWeight_countsRoots.ofFactors,
      Nat.add_zero]
  rw [quotientFactors, totalAll_append, htop, hbottom]

/-- A power whose exponent is no negative literal is no reciprocal root. -/
theorem isReciprocalRoot_of_isNegativeNumber {b p : Expr} (hp : p.isNegativeNumber = false) :
    (power b p).isReciprocalRoot = false := by
  unfold Expr.isReciprocalRoot
  split
  next q v heq =>
    obtain ⟨-, rfl⟩ := Expr.power.inj heq
    have hv : v ≠ -1 / 2 := by
      rintro rfl
      norm_num [isNegativeNumber] at hp
    simp [hv]
  next => rfl

/-- Later terms, which may have a sign in front. -/
theorem kept_laterTerms_le {ls : List (Expr × List Expr)}
    (h : ∀ l ∈ ls, totalAll keptWeight l.2 ≤ l.1.splitSign.2.total properWeight) :
    totalAll keptWeight (ls.map signedTerm) ≤ totalAll properWeight (ls.map (·.1)) := by
  refine totalAll_map_le fun l hl => ?_
  have hterm : (signedTerm l).total keptWeight = totalAll keptWeight l.2 := by
    unfold signedTerm
    split
    next => rw [keptWeight_countsRoots.negation, keptWeight_countsRoots.ofFactors]
    next => rw [keptWeight_countsRoots.ofFactors]
  rw [hterm]
  refine (h l hl).trans ?_
  cases hs : l.1.splitSign with
  | mk sign m =>
    cases sign with
    | true => exact properWeight_countsRoots.splitSign_le hs
    | false => rw [splitSign_eq_self hs]

/-- Factors above the line are written as they are, and those below it as roots where they are
reciprocals of roots. The literals in front hold no root. -/
theorem kept_quotient_le {q : Rat} {es : List Expr} {ls : ReadPieces}
    (hexact : (product es).IsExact)
    (hes : es = rat q :: ls.map (·.1) ∨ (q = 1 ∧ es = ls.map (·.1)))
    (hreads : ∀ l ∈ ls, Reads l.1.pieceBody l.2)
    (h : ∀ l ∈ ls, totalAll keptWeight l.2 ≤ l.1.pieceBody.total properWeight) :
    totalAll keptWeight (quotientFactors ((if q.num = 1 then [] else [rat q.num]) ++ ls.above)
      ((if q.den = 1 then [] else [rat q.den]) ++ ls.below)) ≤
        (product es).total properWeight := by
  have hk := keptWeight_countsRoots
  have hp := properWeight_countsRoots
  have hcoefficient : ∀ (c : Prop) [Decidable c] (v : Rat) (fs : List Expr),
      totalAll keptWeight ((if c then [] else [rat v]) ++ fs) = totalAll keptWeight fs := by
    intro c _ v fs
    split
    next => rfl
    next => rw [totalAll_append, totalAll_cons, totalAll_nil, hk.number, Nat.zero_add]
  have hfactors : totalAll properWeight es = totalAll properWeight (ls.map (·.1)) := by
    rcases hes with rfl | ⟨-, rfl⟩
    · rw [totalAll_cons, hp.number, Nat.zero_add]
    · rfl
  have habove : totalAll keptWeight ls.above ≤
      totalAll properWeight ((ls.filter (!·.1.isDivided)).map (·.1)) := by
    refine totalAll_map_le fun l hl => ?_
    simp only [List.mem_filter, Bool.not_eq_true'] at hl
    have hl' := h l hl.1
    rwa [pieceBody_of_isDivided_eq_false hl.2, ← hk.ofFactors] at hl'
  have hbelow : totalAll keptWeight ls.below ≤
      totalAll properWeight ((ls.filter (·.1.isDivided)).map (·.1)) := by
    refine totalAll_map_le fun l hl => ?_
    rw [List.mem_filter] at hl
    have hl1 : l.1.IsExact := isExact_product.mp hexact _ (mem_of_pieces hes l hl.1)
    obtain ⟨b, v, heq, hv, hb, hbody, hexponent⟩ := divided_of_isDivided hl1 hl.2
    have hread := hreads l hl.1
    have hl' := h l hl.1
    rw [hbody] at hread hl'
    have hle := kept_belowLine_le hread hv hb
    rw [hk.ofFactors] at hle
    rw [hexponent, heq, total_power, hp.number]
    omega
  have hperm := totalAll_perm (w := properWeight) ls.perm
  rw [totalAll_append] at hperm
  rw [kept_quotientFactors, hcoefficient, hcoefficient, hp.product, hfactors]
  omega

/-- What is read back keeps no more roots than there are proper ones. -/
theorem Reads.kept_le {e : Expr} {fs : List Expr} (h : Reads e fs) :
    totalAll keptWeight fs ≤ e.total properWeight := by
  have hk := keptWeight_countsRoots
  have hp := properWeight_countsRoots
  induction h with
  | literal => simp [hk.literalFactors]
  | symbol n => simp [hk.symbol]
  | @signed e m fs gs _ hsplit _ hneg ih =>
    -- a sign in front adds a negation, which is no root
    have hsame : totalAll keptWeight gs = totalAll keptWeight fs := by
      cases hneg with
      | all => rw [totalAll_cons, totalAll_nil, hk.negation, hk.ofFactors, Nat.add_zero]
      | first => rw [totalAll_cons, totalAll_cons, hk.negation]
    rw [hsame]
    exact ih.trans (hp.splitSign_le hsplit)
  | @singleTerm t fs gs _ hgs ih =>
    rw [hp.sum, totalAll_cons, totalAll_nil]
    rcases hgs with rfl | rfl
    · exact ih
    · rw [totalAll_cons, totalAll_nil, hk.ofFactors]
      exact Nat.add_le_add_right ih 0
  | @sum t fs ls _ _ _ _ iht ihl =>
    have hlater := kept_laterTerms_le ihl
    rw [totalAll_cons, totalAll_nil, hk.sum, hp.sum, totalAll_cons, totalAll_cons, hk.ofFactors]
    omega
  | quotient ls hexact _ hes _ hreads ih => exact kept_quotient_le hexact hes hreads ih
  | @root b fs hb ih =>
    -- the root that is read is the one that was written
    have hnode : keptWeight (Expr.call "sqrt" [ofFactors fs]) ≤
        properWeight (Expr.power b (rat (1 / 2))) := by
      refine keptWeight_le
        (isReciprocalRoot_of_isNegativeNumber (by norm_num [isNegativeNumber])) ?_
      cases hzero : b.isZeroNumber with
      | true => simp [rootWeight, hb.isZeroNumber hzero]
      | false =>
        refine (rootWeight_le_one _).trans ?_
        have hhalf : (number Number.half).isIntegerNumber = false := by decide
        rw [Number.half_eq] at hhalf
        rw [rootWeight, hzero, hhalf]
        rfl
    rw [totalAll_cons, totalAll_nil, total_call, totalAll_cons, totalAll_nil, total_power,
      hp.number, hk.ofFactors]
    omega
  | @zeroReciprocal v fs _ _ ih =>
    have hnode : keptWeight (Expr.power zero (ofFactors fs)) = 0 := by
      have hle := hk (Expr.power zero (ofFactors fs))
      simpa [rootWeight, zero, Expr.isZeroNumber] using hle
    rw [hp.number] at ih
    rw [totalAll_cons, totalAll_nil, total_power, hnode, zero, hk.number, hk.ofFactors]
    omega
  | @reciprocal b v fs hv hzero hb ih =>
    have hle := kept_belowLine_le hb hv hzero
    rw [hk.ofFactors] at hle
    rw [totalAll_cons, totalAll_cons, totalAll_nil, one, hk.number, kept_reciprocal, total_power,
      hp.number]
    omega
  | @power b p fs gs _ hneg hb hexponent ihb ihp =>
    have hnode : keptWeight (Expr.power (ofFactors fs) (ofFactors gs)) ≤
        properWeight (Expr.power b p) := by
      refine keptWeight_le (isReciprocalRoot_of_isNegativeNumber hneg)
        (rootWeight_power_le hb.isZeroNumber fun hinteger =>
          hexponent.isIntegerNumber hinteger hneg)
    rw [totalAll_cons, totalAll_nil, total_power, total_power, hk.ofFactors, hk.ofFactors]
    omega
  | call n ls hreads ih =>
    have hnode : keptWeight (Expr.call n (ls.map (ofFactors ·.2))) ≤
        properWeight (Expr.call n (ls.map (·.1))) := by
      refine keptWeight_le rfl (rootWeight_call_le n ?_)
      rw [List.forall₂_map_left_iff, List.forall₂_map_right_iff, List.forall₂_same]
      exact fun l hl => (hreads l hl).isZeroNumber
    have harguments : totalAll keptWeight (ls.map (ofFactors ·.2)) ≤
        totalAll properWeight (ls.map (·.1)) :=
      totalAll_map_le fun l hl => (hk.ofFactors l.2).trans_le (ih l hl)
    rw [totalAll_cons, totalAll_nil, total_call, total_call]
    omega

/-! ## Which normal forms come back -/

/-- A reciprocal root of a square is a root that is not proper. -/
theorem total_proper_lt {c : Expr} (h : ∃ d ∈ c.walk, d.isReciprocalRoot = true) :
    c.total properWeight < c.roots := by
  refine List.sum_lt_sum _ _ (fun d _ => properWeight_countsRoots d) ?_
  obtain ⟨d, hd, hroot⟩ := h
  refine ⟨d, hd, ?_⟩
  rw [properWeight, if_pos hroot]
  unfold Expr.isReciprocalRoot at hroot
  split at hroot
  next q v =>
    simp only [Bool.and_eq_true, decide_eq_true_eq] at hroot
    simp [rootWeight, isZeroNumber, hroot.1, isIntegerNumber_neg_half]
  next => simp at hroot

/-- A pass over what is read back loses the reciprocal roots of squares. -/
theorem roots_lt_of_reads {c d : Expr} {fs : List Expr} (h : Reads c fs)
    (hexact : (ofFactors fs).IsExact) (hroot : ∃ d ∈ c.walk, d.isReciprocalRoot = true)
    (hd : normalPass .unbounded (ofFactors fs) = .ok d) : d.roots < c.roots := by
  have hpass := roots_le_kept hexact hd
  rw [keptWeight_countsRoots.ofFactors] at hpass
  exact hpass.trans_lt (h.kept_le.trans_lt (total_proper_lt hroot))

/-- A normal form is what the laws make of the first pass. -/
theorem exists_pass_of_normalForm {s : Settings} {e c : Expr} (he : e.IsExact)
    (h : normalForm s e = .ok c) : ∃ d, normalPass s e = .ok d ∧ Rewrites d c := by
  refine normalForm_induction
    (motive := fun e c => e.IsExact → ∃ d, normalPass s e = .ok d ∧ Rewrites d c)
    (fun {_ d} hpass _ _ => ⟨d, hpass, .refl d⟩) (fun {_ d c} hpass ih he => ?_) h he
  have hd := (normalPass_rewrites he hpass).isExact he
  obtain ⟨f, hf, hlater⟩ := ih hd
  exact ⟨d, hpass, (normalPass_rewrites hd hf).trans hlater⟩

/-- What the text of a normal form is read back as has the same normal form again exactly if there
is no reciprocal square root of the square of a fraction in it. -/
theorem normalForm_iff_of_reads {e c : Expr} {fs : List Expr} (he : e.IsReadable)
    (hc : normalForm .unbounded e = .ok c) (hreads : Reads c fs) (hexact : (ofFactors fs).IsExact) :
    normalForm .unbounded (ofFactors fs) = .ok c ↔ ∀ d ∈ c.walk, d.isReciprocalRoot = false := by
  constructor
  · intro hform
    by_contra hroot
    push Not at hroot
    obtain ⟨d, hd, hrewrites⟩ := exists_pass_of_normalForm hexact hform
    have hlt := roots_lt_of_reads hreads hexact (by simpa using hroot) hd
    have := hrewrites.roots_le
    omega
  · intro hroots
    have hcread := normalForm_isReadable he hc
    have hstable : c.IsStable := fun d hd => ⟨normalForm_isBuilt he.isExact hc d hd,
      normalForm_isSettled he.isExact hc d hd, hcread.printable d hd, hroots d hd⟩
    exact normalForm_of_fixpoint (by decide) hstable.isExact (pass_of_reads hstable hreads)
      (normalForm_fixpoint he.isExact hc)

/-- The text of a normal form is read back, and what is read has the same normal form again exactly
if there is no reciprocal square root of the square of a fraction in it, such as `1/sqrt(4)`. The
limit for digits may stop the text, or the normal form of what is read. -/
theorem normalForm_reread_iff {text : String} {e c : Expr} (he : ofString .standard text = .ok e)
    (hc : normalForm .standard e = .ok c) :
    DigitLimit.standard.Gives c.print fun again => ∃ r, ofString .standard again = .ok r ∧
      (DigitLimit.standard.Stops (normalForm .standard r) ∨
        (normalForm .standard r = .ok c ↔ ∀ d ∈ c.walk, d.isReciprocalRoot = false)) := by
  have hread := ofString_isReadable he
  have hc := normalForm_unlimited hc
  refine (print_gives .standard (normalForm_isReadable hread hc)).mono ?_
  rintro again - ⟨fs, hparse, hreads⟩
  refine ⟨ofFactors fs, hparse, ?_⟩
  obtain hsame | hstop := normalForm_restricts .standard (ofFactors fs)
  · right
    rw [hsame]
    exact normalForm_iff_of_reads hread hc hreads (ofString_isReadable hparse).isExact
  · exact .inl hstop

/-- A difference of two quotients, the second one by a root that is no fraction. -/
theorem normalForm_reread_iff_quotients :
    let e := sum [product [symbol "x", power (product [rat 2, symbol "y"]) minusOne],
      negation (product [rat 3, power (call "sqrt" [rat 2]) minusOne])]
    let c := sum [product [rat (-3), power (rat 2) (rat (-1 / 2))],
      product [rat (1 / 2), symbol "x", power (symbol "y") minusOne]]
    ofString .standard "x/(2y)-3/sqrt(2)" = .ok e ∧ normalForm .standard e = .ok c ∧
      c.print = .ok "-3/sqrt(2)+x/(2y)" ∧
      DigitLimit.standard.Gives c.print fun again => ∃ r, ofString .standard again = .ok r ∧
        (DigitLimit.standard.Stops (normalForm .standard r) ∨
          (normalForm .standard r = .ok c ↔ ∀ d ∈ c.walk, d.isReciprocalRoot = false)) := by
  intro e c
  have he : ofString .standard "x/(2y)-3/sqrt(2)" = .ok e := by
    refine ofString_eq_ok_of_returns ?_ (by decide +kernel)
    simp [e, minusOne]
  have hexact := (ofString_isReadable he).isExact
  have hc : normalForm .standard e = .ok c :=
    normalForm_eq_ok_of_returns hexact (by simp [c, minusOne]) (by decide +kernel)
  exact ⟨he, hc, by decide +kernel, normalForm_reread_iff he hc⟩

/-- The normal form of `4^(-1/2)` is written `1/sqrt(4)`, which has the normal form `1/2`. -/
theorem normalForm_reread_inverse_root :
    let e := power (rat 4) (product [negation one, power (rat 2) minusOne])
    let c := power (rat 4) (rat (-1 / 2))
    let r := product [one, power (call "sqrt" [rat 4]) minusOne]
    ofString .standard "4^(-1/2)" = .ok e ∧ normalForm .standard e = .ok c ∧
      c.print = .ok "1/sqrt(4)" ∧ ofString .standard "1/sqrt(4)" = .ok r ∧
      normalForm .standard r = .ok (rat (1 / 2)) ∧ normalForm .standard r ≠ .ok c := by
  intro e c r
  have he : e.IsExact := by simp [e, one, minusOne]
  have hr : r.IsExact := by simp [r, one, minusOne]
  have hlost : normalForm .standard r = .ok (rat (1 / 2)) :=
    normalForm_eq_ok_of_returns hr (by simp) (by decide +kernel)
  refine ⟨ofString_eq_ok_of_returns he (by decide +kernel),
    normalForm_eq_ok_of_returns he (by simp [c]) (by decide +kernel),
    by decide +kernel, ofString_eq_ok_of_returns hr (by decide +kernel), hlost, ?_⟩
  rw [hlost]
  simp [c]

end AlgebraicForm
