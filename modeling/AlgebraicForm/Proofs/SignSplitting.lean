import AlgebraicForm.Proofs.Opposite
import AlgebraicForm.Proofs.Signs

/-!
# How signs are taken out

What `splitSigns` does at each kind of node, as a condition for its result, and what that comes to
for normal forms: a sign that is put back makes the opposite, and of a sum and its opposite the one
that comes first stands for both.

* `splitSigns_sum_iff`, `splitSigns_product_iff`, `splitSigns_power_iff`, `splitSigns_call_iff`: the
  nodes.
* `splitSigns_mono`: more depth changes no outcome.
* `splitSigns_isFixed`, `splitSigns_isKept`: bodies are normal forms.
* `Signed.rebuild_eq`: putting a sign back.
* `comesFirst_or_opposite`, `eq_opposite_of_comesFirst`: one of two opposite sums comes first, and
  only one.
-/

namespace AlgebraicForm

open AlgebraicForm.Expr

section

variable {s : Settings} {n : Nat}

/-- The expression with its sign taken out and put back. -/
def RebuildsAs (s : Settings) (n : Nat) (e r : Expr) : Prop :=
  ∃ p, splitSigns s n e = .ok p ∧ p.rebuild s = .ok r

/-- What becomes of the normal form of a sum whose terms have been rebuilt. -/
def ChoosesSign (s : Settings) (n : Nat) : Expr → Signed → Prop
  | sum us, p => ∃ flipped, normalForm s (product [minusOne, sum us]) = .ok flipped ∧
      ∃ flippedKey, flipped.orientationKey s.digits = .ok flippedKey ∧
      ∃ key, (sum us).orientationKey s.digits = .ok key ∧
        (if orientationLt flippedKey key then ⟨true, flipped⟩ else ⟨false, sum us⟩) = p
  | a, p => splitSigns s n a = .ok p

/-- The sign of several factors together. -/
def signOf (ps : List Signed) : Bool :=
  ps.foldl (fun sign p => sign ^^ p.negative) false

theorem foldl_negative (sign : Bool) (ps : List Signed) :
    ps.foldl (fun sign p => sign ^^ p.negative) sign = (sign ^^ signOf ps) := by
  unfold signOf
  induction ps generalizing sign with
  | nil => simp
  | cons p ps ih =>
    rw [List.foldl_cons, List.foldl_cons, ih, ih (false ^^ p.negative), Bool.false_xor,
      Bool.xor_assoc]

theorem signOf_cons (p : Signed) (ps : List Signed) :
    signOf (p :: ps) = (p.negative ^^ signOf ps) := by
  rw [signOf, List.foldl_cons, foldl_negative, Bool.false_xor]

theorem splitSigns_rat (n : Nat) (q : Rat) :
    splitSigns s (n + 1) (rat q) = .ok ⟨decide (q < 0), rat |q|⟩ := by
  by_cases hq : q < 0
  · simp [splitSigns, hq, abs_of_neg hq]
  · simp [splitSigns, hq, abs_of_nonneg (not_lt.mp hq)]

theorem mapM_rebuild_iff {es rs : List Expr} :
    (es.mapM fun e => do
      let p ← splitSigns s n e
      p.rebuild s) = .ok rs ↔ List.Forall₂ (RebuildsAs s n) es rs := by
  rw [mapM_eq_ok_iff]
  simp only [bind_eq_ok_iff]
  rfl

theorem splitSigns_sum_iff {ts : List Expr} {p : Signed} :
    splitSigns s (n + 1) (sum ts) = .ok p ↔ ∃ rs, List.Forall₂ (RebuildsAs s n) ts rs ∧
      ∃ a, normalForm s (sum rs) = .ok a ∧ ChoosesSign s n a p := by
  rw [splitSigns]
  simp only [bind_eq_ok_iff (f := fun _ => _), mapM_rebuild_iff]
  refine exists_congr fun rs => and_congr_right fun _ => exists_congr fun a =>
    and_congr_right fun _ => ?_
  cases a <;> simp only [ChoosesSign, bind_eq_ok_iff, pure_eq_ok, Except.ok.injEq]

theorem choosesSign_iff {a : Expr} {p : Signed} (h : a.isSum = false) :
    ChoosesSign s n a p ↔ splitSigns s n a = .ok p := by
  cases a with
  | sum => cases h
  | _ => rfl

theorem splitSigns_product_iff {fs : List Expr} {p : Signed} :
    splitSigns s (n + 1) (product fs) = .ok p ↔
      ∃ ps, List.Forall₂ (fun f q => splitSigns s n f = .ok q) fs ps ∧
      ∃ body, normalForm s (product (ps.map (·.body))) = .ok body ∧ ⟨signOf ps, body⟩ = p := by
  rw [splitSigns]
  simp only [bind_eq_ok_iff, mapM_eq_ok_iff, pure_eq_ok, Except.ok.injEq]
  rfl

theorem splitSigns_call_iff {name : String} {es : List Expr} {p : Signed} :
    splitSigns s (n + 1) (call name es) = .ok p ↔ ∃ rs, List.Forall₂ (RebuildsAs s n) es rs ∧
      ∃ body, normalForm s (call name rs) = .ok body ∧ ⟨false, body⟩ = p := by
  rw [splitSigns]
  simp only [bind_eq_ok_iff (f := fun _ => _), mapM_rebuild_iff, pure_eq_ok, Except.ok.injEq]

theorem integer?_intCast (k : Int) : (rat k).integer? = some k := by
  simp [integer?, Number.toInt?, Number.toRat?]

/-- The sign of a power: that of its base, if it has one and the exponent is whole and odd. -/
inductive RaisesSign (s : Settings) : Signed → Expr → Signed → Prop
  | whole {base : Signed} {exponent body : Expr} {k : Int} : base.negative = true →
      exponent.integer? = some k → normalForm s (power base.body exponent) = .ok body →
      RaisesSign s base exponent ⟨k % 2 ≠ 0, body⟩
  | kept {base : Signed} {b exponent body : Expr} :
      (base.negative = true → exponent.integer? = none) → base.rebuild s = .ok b →
      normalForm s (power b exponent) = .ok body → RaisesSign s base exponent ⟨false, body⟩

theorem splitSigns_power_iff {b e : Expr} {p : Signed} :
    splitSigns s (n + 1) (power b e) = .ok p ↔ ∃ base, splitSigns s n b = .ok base ∧
      ∃ exponent, RebuildsAs s n e exponent ∧ RaisesSign s base exponent p := by
  rw [splitSigns]
  simp only [bind_eq_ok_iff]
  constructor
  · rintro ⟨base, hbase, q, hq, exponent, hexponent, h⟩
    refine ⟨base, hbase, exponent, ⟨q, hq, hexponent⟩, ?_⟩
    split at h
    next k hneg hk =>
      obtain ⟨body, hbody, hp⟩ := bind_eq_ok_iff.mp h
      exact Except.ok.inj hp ▸ .whole hneg hk hbody
    next hother =>
      obtain ⟨c, hc, h⟩ := bind_eq_ok_iff.mp h
      obtain ⟨body, hbody, hp⟩ := bind_eq_ok_iff.mp h
      refine Except.ok.inj hp ▸ .kept (fun hneg => ?_) hc hbody
      cases hk : exponent.integer? with
      | none => rfl
      | some k => exact (hother k hneg hk).elim
  · rintro ⟨base, hbase, exponent, ⟨q, hq, hexponent⟩, h⟩
    refine ⟨base, hbase, q, hq, exponent, hexponent, ?_⟩
    cases h with
    | whole hneg hk hbody =>
      rw [hneg, hk]
      exact bind_eq_ok_iff.mpr ⟨_, hbody, rfl⟩
    | kept hnone hc hbody =>
      split
      next k hneg hk => cases (hnone hneg).symm.trans hk
      next => exact bind_eq_ok_iff.mpr ⟨_, hc, bind_eq_ok_iff.mpr ⟨_, hbody, rfl⟩⟩

end

/-! ## Depth -/

/-- One more step of depth, by induction on the depth. -/
theorem splitSigns_continues (s : Settings) (n : Nat) (e : Expr) :
    Continues (splitSigns s n e) (splitSigns s (n + 1) e) := by
  induction n generalizing e with
  | zero => exact fun h => absurd rfl h
  | succ n ih =>
    have hrebuild : ∀ es : List Expr, Continues
        (es.mapM fun e => do let p ← splitSigns s n e; p.rebuild s)
        (es.mapM fun e => do let p ← splitSigns s (n + 1) e; p.rebuild s) :=
      .mapM fun e => (ih e).bind fun _ => .refl _
    cases e with
    | number v => exact .refl _
    | symbol name => exact .refl _
    | sum ts =>
      rw [splitSigns, splitSigns]
      refine (hrebuild ts).bind fun rs => .bind (.refl _) fun a => ?_
      cases a with
      | sum us => exact .refl _
      | _ => exact ih _
    | product fs =>
      rw [splitSigns, splitSigns]
      exact .bind (.mapM ih fs) fun _ => .refl _
    | power b p =>
      rw [splitSigns, splitSigns]
      exact (ih b).bind fun _ => (ih p).bind fun _ => .refl _
    | negation e =>
      rw [splitSigns, splitSigns]
      exact (ih e).bind fun _ => .refl _
    | call name es =>
      rw [splitSigns, splitSigns]
      exact (hrebuild es).bind fun _ => .refl _
    | hole => exact .refl _

/-- An outcome stays the same if there is more depth, unless that has been missing. -/
theorem splitSigns_mono {s : Settings} {n m : Nat} (hnm : n ≤ m) (e : Expr) :
    Continues (splitSigns s n e) (splitSigns s m e) := by
  induction hnm with
  | refl => exact .refl _
  | @step m _ ih => exact ih.trans (splitSigns_continues s m e)

/-- The depth decides whether there is a result, but not which. -/
theorem splitSigns_unique {s : Settings} {n m : Nat} {e : Expr} {p q : Signed}
    (hp : splitSigns s n e = .ok p) (hq : splitSigns s m e = .ok q) : p = q :=
  Except.ok.inj (((splitSigns_mono (le_max_left n m) e).ok hp).symm.trans
    ((splitSigns_mono (le_max_right n m) e).ok hq))

/-- Operands give the same parts to any depth. -/
theorem forall₂_splitSigns_unique {s : Settings} {n m : Nat} {es : List Expr} {ps qs : List Signed}
    (hp : List.Forall₂ (fun e p => splitSigns s n e = .ok p) es ps)
    (hq : List.Forall₂ (fun e p => splitSigns s m e = .ok p) es qs) : ps = qs := by
  induction hp generalizing qs with
  | nil => cases hq; rfl
  | cons hp _ ih =>
    cases hq with
    | cons hq hqs => rw [splitSigns_unique hp hq, ih hqs]

/-! ## Bodies -/

section

variable {s : Settings} {n : Nat}

section

variable {P : Expr → Prop} (hP : LeafProperty P) (hexact : ∀ d, P d → IsExactNode d)

include hP hexact

theorem RebuildsAs.every {e r : Expr} (he : e.Every P) (h : RebuildsAs s n e r) : r.Every P := by
  obtain ⟨p, hp, hr⟩ := h
  exact ((splitSigns_sound hP hexact he hp).rebuild hP hexact hr).2

theorem forall₂_rebuildsAs_every {es rs : List Expr} (hes : ∀ e ∈ es, e.Every P)
    (h : List.Forall₂ (RebuildsAs s n) es rs) : ∀ r ∈ rs, r.Every P := by
  intro r hr
  obtain ⟨e, -, he, her⟩ := exists_mem_of_forall₂ ((List.forall₂_and_left es rs).mpr ⟨hes, h⟩) hr
  exact her.every hP hexact he

theorem forall_mem_bodies_every {es : List Expr} {ps : List Signed} (hes : ∀ e ∈ es, e.Every P)
    (h : List.Forall₂ (fun e p => splitSigns s n e = .ok p) es ps) :
    ∀ b ∈ ps.map (·.body), b.Every P := by
  refine List.forall_mem_map.mpr fun p hp => ?_
  obtain ⟨e, -, he, hep⟩ := exists_mem_of_forall₂ ((List.forall₂_and_left es ps).mpr ⟨hes, h⟩) hp
  exact (splitSigns_sound hP hexact he hep).every

end

theorem splitSigns_named {e : Expr} {p : Signed} (he : e.Every IsNamedNode)
    (h : splitSigns s n e = .ok p) : p.body.Every IsNamedNode :=
  (splitSigns_sound leafProperty_isNamedNode (fun _ hd => hd.isExactNode) he h).every

theorem forall₂_rebuildsAs_named {es rs : List Expr} (hes : ∀ e ∈ es, e.Every IsNamedNode)
    (h : List.Forall₂ (RebuildsAs s n) es rs) : ∀ r ∈ rs, r.Every IsNamedNode :=
  forall₂_rebuildsAs_every leafProperty_isNamedNode (fun _ hd => hd.isExactNode) hes h

theorem Signed.isFixed_rebuild {p : Signed} {r : Expr} (hp : p.body.IsFixed s)
    (h : p.rebuild s = .ok r) : r.IsFixed s := by
  rw [Signed.rebuild] at h
  split at h
  · exact normalForm_isFixed (by simp [minusOne, hp.isExact]) h
  · exact Except.ok.inj h ▸ hp

theorem RaisesSign.isFixed {base p : Signed} {exponent : Expr} (h : RaisesSign s base exponent p)
    (hbase : base.body.IsFixed s) (hexponent : exponent.IsExact) : p.body.IsFixed s := by
  cases h with
  | whole _ _ hbody =>
    exact normalForm_isFixed (isExact_power.mpr ⟨hbase.isExact, hexponent⟩) hbody
  | kept _ hb hbody =>
    exact normalForm_isFixed
      (isExact_power.mpr ⟨(Signed.isFixed_rebuild hbase hb).isExact, hexponent⟩) hbody

/-- The body that is left when the signs are out is fixed, by induction on the depth: a sum whose
terms collapse is taken up again as what it has become. -/
theorem splitSigns_isFixed {e : Expr} {p : Signed} (he : e.IsExact)
    (h : splitSigns s n e = .ok p) : p.body.IsFixed s := by
  have hleaf := leafProperty_isExactNode
  induction n generalizing e p with
  | zero => cases h
  | succ n ih =>
    cases e with
    | number v =>
      obtain ⟨q, rfl⟩ := he.exists_rat
      obtain rfl := Except.ok.inj ((splitSigns_rat n q).symm.trans h)
      exact isFixed_rat _
    | symbol name =>
      obtain rfl := Except.ok.inj h
      exact ⟨every_symbol.mpr trivial, every_symbol.mpr ⟨trivial, rfl⟩⟩
    | sum ts =>
      obtain ⟨rs, hrs, a, ha, hp⟩ := splitSigns_sum_iff.mp h
      have hfixed := normalForm_isFixed (isExact_sum.mpr
        (forall₂_rebuildsAs_every hleaf (fun _ hd => hd) (isExact_sum.mp he) hrs)) ha
      cases hasum : a.isSum with
      | true =>
        obtain ⟨us, rfl⟩ := exists_of_isSum hasum
        obtain ⟨flipped, hflipped, -, -, -, -, rfl⟩ := hp
        split
        · exact normalForm_isFixed (by simp [minusOne, hfixed.isExact]) hflipped
        · exact hfixed
      | false => exact ih hfixed.isExact ((choosesSign_iff hasum).mp hp)
    | product fs =>
      obtain ⟨ps, hps, body, hbody, rfl⟩ := splitSigns_product_iff.mp h
      exact normalForm_isFixed (isExact_product.mpr
        (forall_mem_bodies_every hleaf (fun _ hd => hd) (isExact_product.mp he) hps)) hbody
    | power b x =>
      obtain ⟨base, hbase, exponent, hexponent, hp⟩ := splitSigns_power_iff.mp h
      obtain ⟨hb, hx⟩ := isExact_power.mp he
      exact hp.isFixed (ih hb hbase) (hexponent.every hleaf (fun _ hd => hd) hx)
    | negation e =>
      rw [splitSigns] at h
      obtain ⟨q, hq, hp⟩ := bind_eq_ok_iff.mp h
      obtain rfl := Except.ok.inj hp
      show q.body.IsFixed s
      exact ih (isExact_negation.mp he) hq
    | call name es =>
      obtain ⟨rs, hrs, body, hbody, rfl⟩ := splitSigns_call_iff.mp h
      exact normalForm_isFixed (isExact_call.mpr
        (forall₂_rebuildsAs_every hleaf (fun _ hd => hd) (isExact_call.mp he) hrs)) hbody
    | hole => exact absurd he not_isExact_hole

theorem RebuildsAs.isFixed {e r : Expr} (he : e.IsExact) (h : RebuildsAs s n e r) :
    r.IsFixed s := by
  obtain ⟨p, hp, hr⟩ := h
  exact Signed.isFixed_rebuild (splitSigns_isFixed he hp) hr

theorem RebuildsAs.eq_rat {q : Rat} {r : Expr} (h : RebuildsAs s n (rat q) r) : r = rat q := by
  obtain ⟨p, hp, hr⟩ := h
  obtain rfl := splitSigns_unique hp (splitSigns_rat 0 q)
  rw [Signed.rebuild] at hr
  split at hr
  next hneg =>
    have hq : q < 0 := of_decide_eq_true hneg
    obtain ⟨fuel, hfuel⟩ := depthBound_eq (weightAll [rat (-1), rat |q|])
    have hpass : normalPass s (product [minusOne, rat |q|]) = .ok (rat q) := by
      rw [minusOne, normalPass, normalPassAll_of_fixed (by simp), ok_bind, Settings.product, hfuel]
      simpa [abs_of_neg hq] using buildProduct_literals s (fuel + 3) [-1, |q|]
    exact normalForm_eq_of_fixpoint hpass rfl hr
  next hpos =>
    have hq : ¬q < 0 := fun hq => hpos (decide_eq_true hq)
    rw [← Except.ok.inj hr, abs_of_nonneg (not_lt.mp hq)]

end

/-- The body that is left when the signs are out is a normal form. -/
theorem splitSigns_isKept {n : Nat} {e : Expr} {p : Signed} (he : e.Every IsNamedNode)
    (h : splitSigns .unbounded n e = .ok p) : p.body.IsKept :=
  (splitSigns_isFixed (isExact_of_named he) h).isKept (splitSigns_named he h)

/-! ## Putting signs back -/

/-- The expression that a sign and a body stand for. -/
def Signed.value (p : Signed) : Expr :=
  if p.negative then p.body.opposite else p.body

theorem value_rat (q : Rat) : (⟨decide (q < 0), rat |q|⟩ : Signed).value = rat q := by
  by_cases hq : q < 0
  · simp [Signed.value, hq, abs_of_neg hq]
  · simp [Signed.value, hq, abs_of_nonneg (not_lt.mp hq)]

theorem normalForm_minusOne {e : Expr} (h : e.IsKept) :
    normalForm .unbounded (product [minusOne, e]) = .ok e.opposite := by
  refine normalForm_of_pass ?_ h.opposite
  rw [normalPass, normalPassAll_of_isKept (by simp [minusOne, h]), ok_bind, product_minusOne h]

theorem Signed.rebuild_eq {p : Signed} (h : p.body.IsKept) :
    p.rebuild .unbounded = .ok p.value := by
  rw [Signed.rebuild, Signed.value, normalForm_minusOne h]
  split <;> rfl

theorem Signed.value_isKept {p : Signed} (h : p.body.IsKept) : p.value.IsKept := by
  unfold Signed.value
  split
  · exact h.opposite
  · exact h

/-! ## Opposite sums -/

/-- The opposite does not come before the expression. -/
def Expr.ComesFirst (e : Expr) : Prop :=
  ∀ k l, e.orientationKey .unlimited = .ok k → e.opposite.orientationKey .unlimited = .ok l →
    orientationLt l k = false

theorem Expr.IsPrintable.exists_orientationKey {e : Expr} (h : e.IsPrintable) :
    ∃ k, e.orientationKey .unlimited = .ok k := by
  obtain ⟨cs, hcs⟩ := h.exists_text
  exact ⟨_, by rw [orientationKey, hcs]; rfl⟩

theorem Expr.IsKept.exists_orientationKey {e : Expr} (h : e.IsKept) :
    ∃ k, e.orientationKey .unlimited = .ok k :=
  h.tidy.isPrintable.exists_orientationKey

theorem orientationLt_asymm {k l : Nat × List Char} (h : orientationLt k l = true) :
    orientationLt l k = false := by
  unfold orientationLt at h ⊢
  by_cases hcount : k.1 = l.1
  · rw [if_pos hcount, decide_eq_true_eq] at h
    rw [if_pos hcount.symm, decide_eq_false_iff_not]
    exact lt_asymm h
  · rw [if_neg hcount, decide_eq_true_eq] at h
    rw [if_neg (Ne.symm hcount), decide_eq_false_iff_not]
    exact lt_asymm h

/-- Keys of which neither comes before the other have the same text. -/
theorem text_eq_of_orientationLt {k l : Nat × List Char} (h : orientationLt k l = false)
    (h' : orientationLt l k = false) : k.2 = l.2 := by
  unfold orientationLt at h h'
  by_cases hcount : k.1 = l.1
  · rw [if_pos hcount, decide_eq_false_iff_not, not_lt] at h
    rw [if_pos hcount.symm, decide_eq_false_iff_not, not_lt] at h'
    exact le_antisymm h' h
  · rw [if_neg hcount, decide_eq_false_iff_not, not_lt] at h
    rw [if_neg (Ne.symm hcount), decide_eq_false_iff_not, not_lt] at h'
    exact absurd (le_antisymm h' h) hcount

/-- Of two opposites, one comes first. -/
theorem comesFirst_or_opposite {e : Expr} (h : e.IsKept) :
    e.ComesFirst ∨ e.opposite.ComesFirst := by
  obtain ⟨k, hk⟩ := h.exists_orientationKey
  obtain ⟨l, hl⟩ := h.opposite.exists_orientationKey
  cases hlt : orientationLt l k with
  | false =>
    refine .inl fun k' l' hk' hl' => ?_
    rwa [← Except.ok.inj (hk.symm.trans hk'), ← Except.ok.inj (hl.symm.trans hl')]
  | true =>
    refine .inr fun l' k' hl' hk' => ?_
    rw [h.opposite_opposite] at hk'
    rw [← Except.ok.inj (hk.symm.trans hk'), ← Except.ok.inj (hl.symm.trans hl')]
    exact orientationLt_asymm hlt

/-- Both come first only if they are the same. -/
theorem eq_opposite_of_comesFirst {e : Expr} (h : e.IsKept) (hfirst : e.ComesFirst)
    (hopposite : e.opposite.ComesFirst) : e = e.opposite := by
  obtain ⟨cs, hcs⟩ := h.tidy.isPrintable.exists_text
  obtain ⟨ds, hds⟩ := h.opposite.tidy.isPrintable.exists_text
  have hk : e.orientationKey .unlimited = .ok (e.negativeTerms, cs) := by
    rw [orientationKey, hcs]
    rfl
  have hl : e.opposite.orientationKey .unlimited = .ok (e.opposite.negativeTerms, ds) := by
    rw [orientationKey, hds]; rfl
  have htext : ds = cs := text_eq_of_orientationLt (hfirst _ _ hk hl)
    (hopposite _ _ hl (h.opposite_opposite.symm ▸ hk))
  exact eq_of_text_eq h.tidy h.opposite.tidy (by rw [hcs, hds, htext])

end AlgebraicForm
