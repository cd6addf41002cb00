import AlgebraicForm.SignClass
import AlgebraicForm.Proofs.BuilderLaws

/-!
# Taking out signs keeps the value

`Signed.toExpr` puts the sign of a body back as a negation. `SignedOf P e p` says that the result
`p` of taking the signs out of `e` still means what `e` means, and that its body has the property
`P` of all parts that `e` has. One lemma for each kind of node shows how signs come out of it if
they have come out of its operands, and the induction is on the depth.

* `splitSigns_sound`: signs taken out of an expression.
* `stripped_sound`: the representative of a sign class means what the expression means.
* `stripped_meaning`: both for the values alone, with the sign as a factor of the value.
-/

namespace AlgebraicForm

open AlgebraicForm.Expr

/-! ## A sign and a body as an expression -/

/-- The body with the sign in front of it. -/
def Signed.toExpr (p : Signed) : Expr :=
  if p.negative then negation p.body else p.body

/-- A value with a sign in front of it. -/
def withSign (negative : Bool) (x : ℝ) : ℝ :=
  if negative then -x else x

@[simp] theorem withSign_false (x : ℝ) : withSign false x = x :=
  rfl

@[simp] theorem withSign_true (x : ℝ) : withSign true x = -x :=
  rfl

theorem withSign_mul (a b : Bool) (x y : ℝ) :
    withSign a x * withSign b y = withSign (a ^^ b) (x * y) := by
  cases a <;> cases b <;> simp

theorem meaning_toExpr_eq_some_iff {M : Interpretation} {p : Signed} {x : ℝ} :
    p.toExpr.meaning M = some x ↔ ∃ y, p.body.meaning M = some y ∧ withSign p.negative y = x := by
  unfold Signed.toExpr withSign
  cases p.negative with
  | true => simp [meaning_negation_eq_some_iff]
  | false => simp

/-- The signs of an expression have been taken out of it. -/
structure SignedOf (P : Expr → Prop) (e : Expr) (p : Signed) : Prop where
  every : p.body.Every P
  refines : Refines e p.toExpr

/-! ## Operands may be refined -/

theorem Refines.sum {ts us : List Expr} (h : List.Forall₂ Refines ts us) :
    Refines (sum ts) (sum us) := by
  intro M x hx
  obtain ⟨xs, hxs, rfl⟩ := meaning_sum_eq_some_iff.mp hx
  exact meaning_sum_eq_some_iff.mpr ⟨xs, Refines.meanings h hxs, rfl⟩

theorem Refines.call (n : String) {ds es : List Expr} (h : List.Forall₂ Refines ds es) :
    Refines (call n ds) (call n es) := by
  intro M x hx
  obtain ⟨xs, hxs, hx⟩ := meaning_call_eq_some_iff.mp hx
  exact meaning_call_eq_some_iff.mpr ⟨xs, Refines.meanings h hxs, hx⟩

theorem Refines.power {b c p q : Expr} (hb : Refines b c) (hp : Refines p q) :
    Refines (power b p) (power c q) := by
  intro M x hx
  obtain ⟨y, z, hy, hz, hx⟩ := meaning_power_eq_some_iff.mp hx
  exact meaning_power_eq_some_iff.mpr ⟨y, z, hb M y hy, hp M z hz, hx⟩

section

variable {s : Settings} {P : Expr → Prop}

/-! ## Putting a sign back -/

/-- The sign that is put back is the sign that was taken out. -/
theorem rebuild_rewrites {p : Signed} (hp : p.body.IsExact) {r : Expr}
    (h : p.rebuild s = .ok r) : Rewrites p.toExpr r := by
  unfold Signed.rebuild at h
  unfold Signed.toExpr
  split at h
  next hneg =>
    rw [if_pos hneg]
    have hexact : (product [minusOne, p.body]).IsExact := by simp [minusOne, hp]
    exact (Rewrites.negation p.body).trans (normalForm_rewrites hexact h)
  next hpos =>
    obtain rfl : p.body = r := by simpa using h
    rw [if_neg hpos]
    exact .refl _

theorem SignedOf.rebuild (hP : LeafProperty P) (hexact : ∀ d, P d → IsExactNode d) {e r : Expr}
    {p : Signed} (hp : SignedOf P e p) (h : p.rebuild s = .ok r) : Refines e r ∧ r.Every P := by
  have hrewrites := rebuild_rewrites (hp.every.mono hexact) h
  refine ⟨hp.refines.trans hrewrites.refines, hrewrites.every hP ?_⟩
  unfold Signed.toExpr
  split
  · exact hP.every_negation_iff.mpr hp.every
  · exact hp.every

theorem forall₂_rebuild (hP : LeafProperty P) (hexact : ∀ d, P d → IsExactNode d)
    {split : Expr → Except Fault Signed} {es rs : List Expr}
    (hsplit : ∀ e ∈ es, ∀ p, split e = .ok p → SignedOf P e p)
    (h : es.mapM (fun e => do
      let p ← split e
      p.rebuild s) = .ok rs) : List.Forall₂ Refines es rs ∧ ∀ r ∈ rs, r.Every P := by
  have hboth := (List.forall₂_and_left es rs).mpr ⟨hsplit, mapM_eq_ok_iff.mp h⟩
  have hall : List.Forall₂ (fun e r => Refines e r ∧ r.Every P) es rs := by
    refine hboth.imp fun e r ⟨he, hr⟩ => ?_
    obtain ⟨p, hp, hr⟩ := bind_eq_ok_iff.mp hr
    exact (he p hp).rebuild hP hexact hr
  refine ⟨hall.imp fun _ _ h => h.1, fun r hr => ?_⟩
  obtain ⟨e, -, he⟩ := exists_mem_of_forall₂ hall hr
  exact he.2

/-! ## Signs of the kinds of nodes -/

theorem signedOf_literal (hP : LeafProperty P) (q : Rat) :
    SignedOf P (rat q)
      (if (Number.exact q).isNegative then ⟨true, number (Number.exact q).neg⟩
        else ⟨false, number (.exact q)⟩) := by
  split
  · refine ⟨hP.every_rat _, fun M x hx => meaning_toExpr_eq_some_iff.mpr ⟨-x, ?_, by simp⟩⟩
    obtain rfl : (q : ℝ) = x := by simpa using hx
    simp
  · exact ⟨hP.every_rat _, Refines.refl _⟩

/-- The sign of a sum, which is the sign of the smaller one of it and its negation. -/
theorem signedOf_flipped (hP : LeafProperty P) (hexact : ∀ d, P d → IsExactNode d)
    {us : List Expr} (hus : (sum us).Every P) {flipped : Expr}
    (h : normalForm s (product [minusOne, sum us]) = .ok flipped) :
    SignedOf P (sum us) ⟨true, flipped⟩ := by
  have hmul : (product [minusOne, sum us]).Every P :=
    hP.every_product_iff.mpr (by simpa [minusOne, hP.every_rat] using hus)
  have hrewrites := normalForm_rewrites (hmul.mono hexact) h
  refine ⟨hrewrites.every hP hmul, fun M x hx => ?_⟩
  refine meaning_toExpr_eq_some_iff.mpr ⟨-x, hrewrites.refines M _ ?_, by simp⟩
  simp [meaning_product_cons_eq_some_iff, hx]

/-- The signs of factors multiply. -/
theorem signedOf_product (hP : LeafProperty P) (hexact : ∀ d, P d → IsExactNode d)
    {fs : List Expr} {parts : List Signed} (hparts : List.Forall₂ (SignedOf P) fs parts)
    {body : Expr} (h : normalForm s (product (parts.map (·.body))) = .ok body) :
    SignedOf P (product fs) ⟨parts.foldl (fun sign p => sign ^^ p.negative) false, body⟩ := by
  -- the sign of the factors so far is in front of the product of the others
  have hsign : ∀ (M : Interpretation) (sign : Bool) (x : ℝ),
      (product fs).meaning M = some x → ∃ y,
        (product (parts.map (·.body))).meaning M = some y ∧
        withSign (parts.foldl (fun sign p => sign ^^ p.negative) sign) y = withSign sign x := by
    intro M
    clear h
    induction hparts with
    | nil => exact fun sign x hx => ⟨x, hx, rfl⟩
    | @cons f p fs parts hp _ ih =>
      intro sign x hx
      obtain ⟨u, v, hu, hv, rfl⟩ := meaning_product_cons_eq_some_iff.mp hx
      obtain ⟨a, ha, rfl⟩ := meaning_toExpr_eq_some_iff.mp (hp.refines M u hu)
      obtain ⟨b, hb, hsign⟩ := ih (sign ^^ p.negative) v hv
      refine ⟨a * b, meaning_product_cons_eq_some_iff.mpr ⟨a, b, ha, hb, rfl⟩, ?_⟩
      have hfirst := withSign_mul false (parts.foldl (fun s p => s ^^ p.negative)
        (sign ^^ p.negative)) a b
      rw [hsign] at hfirst
      rw [List.foldl_cons, ← Bool.false_xor (List.foldl _ _ _), ← hfirst, withSign_false]
      cases sign <;> cases p.negative <;> simp
  have hbodies : (product (parts.map (·.body))).Every P := by
    refine hP.every_product_iff.mpr (List.forall_mem_map.mpr fun p hp => ?_)
    obtain ⟨f, -, hf⟩ := exists_mem_of_forall₂ hparts hp
    exact hf.every
  have hrewrites := normalForm_rewrites (hbodies.mono hexact) h
  refine ⟨hrewrites.every hP hbodies, fun M x hx => meaning_toExpr_eq_some_iff.mpr ?_⟩
  obtain ⟨y, hy, hxy⟩ := hsign M false x hx
  exact ⟨y, hrewrites.refines M y hy, hxy⟩

theorem realPower_neg_left {y x : ℝ} {k : ℤ} (h : realPower (-y) k = some x) :
    ∃ z, realPower y k = some z ∧ withSign (k % 2 ≠ 0) z = x := by
  obtain ⟨hdef, rfl⟩ := realPower_intCast_eq_some_iff.mp h
  refine ⟨y ^ k, realPower_intCast_eq_some_iff.mpr ⟨by simpa using hdef, rfl⟩, ?_⟩
  by_cases hk : k % 2 = 0
  · have heven : Even k := Int.even_iff.mpr hk
    simp [hk, heven.neg_zpow]
  · have hodd : Odd k := Int.odd_iff.mpr (by omega)
    simp [hk, hodd.neg_zpow]

theorem eq_of_integer? {e : Expr} {k : ℤ} (he : e.IsExact) (h : e.integer? = some k) :
    e = rat k := by
  unfold integer? at h
  split at h
  next v =>
    obtain ⟨q, rfl⟩ := he.exists_rat
    simp only [Number.toInt?, Number.toRat?, Option.ite_none_right_eq_some,
      Option.some.injEq] at h
    obtain ⟨hden, rfl⟩ := h
    rw [(Rat.den_eq_one_iff q).mp hden]
  next => simp at h

/-- A whole power keeps an odd sign of its base. -/
theorem signedOf_wholePower (hP : LeafProperty P) (hexact : ∀ d, P d → IsExactNode d)
    {b p c : Expr} {k : ℤ} (hb : SignedOf P b ⟨true, c⟩) (hp : Refines p (rat k)) {body : Expr}
    (h : normalForm s (power c (rat k)) = .ok body) :
    SignedOf P (power b p) ⟨k % 2 ≠ 0, body⟩ := by
  have hpower : (power c (rat k)).Every P :=
    hP.every_power_iff.mpr ⟨hb.every, hP.every_rat _⟩
  have hrewrites := normalForm_rewrites (hpower.mono hexact) h
  refine ⟨hrewrites.every hP hpower, fun M x hx => meaning_toExpr_eq_some_iff.mpr ?_⟩
  obtain ⟨y, z, hy, hz, hx⟩ := meaning_power_eq_some_iff.mp hx
  obtain ⟨w, hw, rfl⟩ := meaning_toExpr_eq_some_iff.mp (hb.refines M y hy)
  obtain rfl : (k : ℝ) = z := by simpa using hp M z hz
  obtain ⟨v, hv, rfl⟩ := realPower_neg_left hx
  refine ⟨v, hrewrites.refines M v (meaning_power_eq_some_iff.mpr ?_), rfl⟩
  exact ⟨w, k, hw, by simp, hv⟩

/-- An expression that is rebuilt with its signs inside has no sign outside. -/
theorem signedOf_rebuilt (hP : LeafProperty P) (hexact : ∀ d, P d → IsExactNode d) {e d : Expr}
    (hd : d.Every P) (hrefines : Refines e d) {body : Expr} (h : normalForm s d = .ok body) :
    SignedOf P e ⟨false, body⟩ := by
  have hrewrites := normalForm_rewrites (hd.mono hexact) h
  exact ⟨hrewrites.every hP hd, hrefines.trans hrewrites.refines⟩

/-! ## All signs -/

/-- Taking the signs out of an expression keeps its value and what all its parts have in common. -/
theorem splitSigns_sound (hP : LeafProperty P) (hexact : ∀ d, P d → IsExactNode d) {fuel : Nat}
    {e : Expr} (he : e.Every P) {p : Signed} (h : splitSigns s fuel e = .ok p) :
    SignedOf P e p := by
  induction fuel generalizing e p with
  | zero => simp [splitSigns] at h
  | succ fuel ih =>
    cases e with
    | number v =>
      obtain ⟨q, rfl⟩ := IsExact.exists_rat (he.mono hexact)
      rw [splitSigns] at h
      rw [← Except.ok.inj h]
      exact signedOf_literal hP q
    | symbol n =>
      rw [splitSigns] at h
      rw [← Except.ok.inj h]
      exact ⟨he, Refines.refl _⟩
    | sum ts =>
      rw [splitSigns] at h
      obtain ⟨us, hus, h⟩ := bind_eq_ok_iff.mp h
      obtain ⟨a, ha, h⟩ := bind_eq_ok_iff.mp h
      have hts := hP.every_sum_iff.mp he
      obtain ⟨hrefines, husP⟩ := forall₂_rebuild hP hexact
        (fun t ht _ hsplit => ih (hts t ht) hsplit) hus
      have hsumP : (Expr.sum us).Every P := hP.every_sum_iff.mpr husP
      -- the sum is rebuilt with the signs of its terms inside
      have hrewrites := normalForm_rewrites (hsumP.mono hexact) ha
      have haP := hrewrites.every hP hsumP
      have hsum : Refines (Expr.sum ts) a := (Refines.sum hrefines).trans hrewrites.refines
      split at h
      next us =>
        -- of a sum and its negation, the smaller one is taken
        obtain ⟨flipped, hflipped, h⟩ := bind_eq_ok_iff.mp h
        obtain ⟨flippedKey, -, h⟩ := bind_eq_ok_iff.mp h
        obtain ⟨key, -, h⟩ := bind_eq_ok_iff.mp h
        rw [pure_eq_ok, Except.ok.injEq] at h
        split at h
        next =>
          have hflip := signedOf_flipped hP hexact haP hflipped
          exact h ▸ ⟨hflip.every, hsum.trans hflip.refines⟩
        next => exact h ▸ ⟨haP, hsum⟩
      next =>
        -- what is no sum any more is split once again
        have hsplit := ih haP h
        exact ⟨hsplit.every, hsum.trans hsplit.refines⟩
    | product fs =>
      rw [splitSigns] at h
      obtain ⟨parts, hparts, h⟩ := bind_eq_ok_iff.mp h
      obtain ⟨body, hbody, h⟩ := bind_eq_ok_iff.mp h
      rw [pure_eq_ok, Except.ok.injEq] at h
      have hfs := hP.every_product_iff.mp he
      have hboth := (List.forall₂_and_left fs parts).mpr ⟨hfs, mapM_eq_ok_iff.mp hparts⟩
      exact h ▸ signedOf_product hP hexact (hboth.imp fun f q ⟨hf, hq⟩ => ih hf hq) hbody
    | power b p =>
      rw [splitSigns] at h
      obtain ⟨base, hbase, h⟩ := bind_eq_ok_iff.mp h
      obtain ⟨signedExponent, hsigned, h⟩ := bind_eq_ok_iff.mp h
      obtain ⟨exponent, hexponent, h⟩ := bind_eq_ok_iff.mp h
      rw [hP.every_power_iff] at he
      have hb := ih he.1 hbase
      obtain ⟨hp, hpP⟩ := (ih he.2 hsigned).rebuild hP hexact hexponent
      split at h
      -- a whole power of a base with a sign: the sign comes out if the exponent is odd
      next k hneg hk =>
        obtain ⟨body, hbody, hresult⟩ := bind_eq_ok_iff.mp h
        rw [pure_eq_ok, Except.ok.injEq] at hresult
        obtain rfl := eq_of_integer? (hpP.mono hexact) hk
        obtain ⟨negative, c⟩ := base
        obtain rfl : negative = true := hneg
        exact hresult ▸ signedOf_wholePower hP hexact hb hp hbody
      next =>
        obtain ⟨c, hc, h⟩ := bind_eq_ok_iff.mp h
        obtain ⟨body, hbody, h⟩ := bind_eq_ok_iff.mp h
        rw [pure_eq_ok, Except.ok.injEq] at h
        obtain ⟨hbc, hcP⟩ := hb.rebuild hP hexact hc
        exact h ▸ signedOf_rebuilt hP hexact (hP.every_power_iff.mpr ⟨hcP, hpP⟩)
          (Refines.power hbc hp) hbody
    | negation d =>
      rw [splitSigns] at h
      obtain ⟨q, hq, h⟩ := bind_eq_ok_iff.mp h
      rw [pure_eq_ok, Except.ok.injEq] at h
      have hd := ih (hP.every_negation_iff.mp he) hq
      refine h ▸ ⟨hd.every, fun M x hx => meaning_toExpr_eq_some_iff.mpr ?_⟩
      obtain ⟨y, hy, rfl⟩ := meaning_negation_eq_some_iff.mp hx
      obtain ⟨z, hz, rfl⟩ := meaning_toExpr_eq_some_iff.mp (hd.refines M y hy)
      exact ⟨z, hz, by cases q.negative <;> simp⟩
    | call n es =>
      rw [splitSigns] at h
      obtain ⟨cs, hcs, h⟩ := bind_eq_ok_iff.mp h
      obtain ⟨body, hbody, h⟩ := bind_eq_ok_iff.mp h
      rw [pure_eq_ok, Except.ok.injEq] at h
      obtain ⟨hcall, hes⟩ := every_call.mp he
      obtain ⟨hrefines, hcsP⟩ := forall₂_rebuild hP hexact
        (fun t ht _ hsplit => ih (hes t ht) hsplit) hcs
      have hcallP : (Expr.call n cs).Every P :=
        every_call.mpr ⟨hP.call hrefines.length_eq hcall, hcsP⟩
      exact h ▸ signedOf_rebuilt hP hexact hcallP (Refines.call n hrefines) hbody
    | hole => exact absurd (he.mono hexact) not_isExact_hole

/-- The representative of a sign class keeps the value and what all parts have in common. -/
theorem stripped_sound (hP : LeafProperty P) (hexact : ∀ d, P d → IsExactNode d) {e r : Expr}
    (he : e.Every P) (h : stripped s e = .ok r) : Refines e r ∧ r.Every P := by
  unfold stripped at h
  obtain ⟨c, hc, h⟩ := bind_eq_ok_iff.mp h
  obtain ⟨p, hp, h⟩ := bind_eq_ok_iff.mp h
  obtain ⟨d, hd, h⟩ := bind_eq_ok_iff.mp h
  have hform := normalForm_rewrites (he.mono hexact) hc
  have hsigned := splitSigns_sound hP hexact (hform.every hP he) hp
  obtain ⟨hrefines, hdP⟩ := hsigned.rebuild hP hexact hd
  have hagain := normalForm_rewrites (hdP.mono hexact) h
  exact ⟨hform.refines.trans (hrefines.trans hagain.refines), hagain.every hP hdP⟩

end

/-- A sign and a body may be computed and compared. -/
theorem splitSigns_eq_ok_of_same {s : Settings} {n : Nat} {e : Expr} {p : Signed} (he : e.IsExact)
    (hp : p.body.IsExact) (h : ((splitSigns s n e).toOption.map fun q =>
      (q.negative, q.body.same p.body)) = some (p.negative, true)) : splitSigns s n e = .ok p := by
  cases hq : splitSigns s n e with
  | error f => simp [hq, Except.toOption] at h
  | ok q =>
    have hbody := (splitSigns_sound leafProperty_isExactNode (fun _ hd => hd) he hq).every
    simp only [hq, Except.toOption, Option.map_some, Option.some.injEq, Prod.mk.injEq] at h
    obtain ⟨negative, body⟩ := q
    obtain ⟨rfl, hsame⟩ := h
    rw [show body = p.body from (same_iff_eq hbody p.body hp).mp hsame]

theorem stripped_eq_ok_of_returns {s : Settings} {e r : Expr} (he : e.IsExact) (hr : r.IsExact)
    (h : returns (stripped s e) r = true) : stripped s e = .ok r :=
  eq_ok_of_returns (fun _ hd => (stripped_sound leafProperty_isExactNode (fun _ hd => hd) he hd).2)
    hr h

/-! ## The value of a stripped expression -/

/-- The sign as a number. -/
def Signed.sign (p : Signed) : ℤ :=
  if p.negative then -1 else 1

theorem Signed.sign_eq_one_or (p : Signed) : p.sign = 1 ∨ p.sign = -1 := by
  unfold Signed.sign
  cases p.negative with
  | true => exact .inr rfl
  | false => exact .inl rfl

theorem withSign_eq_sign_mul (p : Signed) (x : ℝ) : withSign p.negative x = p.sign * x := by
  unfold Signed.sign
  cases p.negative <;> simp

/-- A stripped expression has the value of the expression wherever that has one, and an expression
is the sign that is taken out of it times the body, to whatever depth the signs are taken out. -/
theorem stripped_meaning (s : Settings) (M : Interpretation) :
    (∀ e r : Expr, e.IsExact → e.stripped s = .ok r →
      ∀ x, e.meaning M = some x → r.meaning M = some x) ∧
    ∀ (c : Expr) (p : Signed) (depth : Nat), c.IsExact → splitSigns s depth c = .ok p →
      (p.sign = 1 ∨ p.sign = -1) ∧
      ∀ x, c.meaning M = some x → ∃ y, p.body.meaning M = some y ∧ x = p.sign * y := by
  constructor
  · intro e r he h x hx
    have hsound := stripped_sound leafProperty_isExactNode (fun _ hd => hd) he h
    exact hsound.1 M x hx
  · intro c p depth hc h
    refine ⟨p.sign_eq_one_or, fun x hx => ?_⟩
    have hsound := splitSigns_sound leafProperty_isExactNode (fun _ hd => hd) hc h
    obtain ⟨y, hy, hxy⟩ := meaning_toExpr_eq_some_iff.mp (hsound.refines M x hx)
    exact ⟨y, hy, by rw [← hxy, withSign_eq_sign_mul]⟩

/-- The cube of `1 - x` is stripped to the negated cube of `x - 1`; at three, both are `-8`. -/
theorem stripped_meaning_cube :
    let x := symbol "x"
    let c := power (sum [rat 1, product [rat (-1), x]]) (rat 3)
    let b := power (sum [rat (-1), x]) (rat 3)
    let M : Interpretation := ⟨fun _ => 3, fun _ _ => none⟩
    (c.IsExact ∧ c.stripped .standard = .ok (product [rat (-1), b]) ∧
      c.meaning M = some (-8) ∧ (product [rat (-1), b]).meaning M = some (-8)) ∧
    splitSigns .standard 5 c = .ok ⟨true, b⟩ ∧
      ∃ y, b.meaning M = some y ∧ (-8 : ℝ) = (Signed.sign ⟨true, b⟩) * y := by
  intro x c b M
  have hc : c.IsExact := by simp [c, x]
  have hstripped : c.stripped .standard = .ok (product [rat (-1), b]) :=
    stripped_eq_ok_of_returns hc (by simp [b, x]) (by decide +kernel)
  have hsplit : splitSigns .standard 5 c = .ok ⟨true, b⟩ :=
    splitSigns_eq_ok_of_same hc (by simp [b, x]) (by decide +kernel)
  have hvalue : c.meaning M = some (-8) := by
    have hbase : (sum [rat 1, product [rat (-1), x]]).meaning M = some (-2) :=
      meaning_sum_eq_some_iff.mpr
        ⟨[1, -3], by simp [meanings_cons, meaning_product, x, M], by norm_num⟩
    refine meaning_power_eq_some_iff.mpr ⟨-2, (3 : ℤ), hbase, by simp, ?_⟩
    rw [realPower_intCast (.inr (by decide))]
    norm_num
  exact ⟨⟨hc, hstripped, hvalue, (stripped_meaning .standard M).1 c _ hc hstripped _ hvalue⟩,
    hsplit, ((stripped_meaning .standard M).2 c _ 5 hc hsplit).2 _ hvalue⟩

end AlgebraicForm
