import AlgebraicForm.Proofs.OppositeSigns

/-!
# Sums turned round

As one of the factors of a product, a sum can be turned round at the cost of a sign. Both ways round
it has the same body, and its whole powers have powers of that body, with the sign of the base if
the exponent is odd. So it does not matter which exponents a sum and its opposite have, as long as
the total is the same.

* `OrientsAs`, `orientation`: the sign and the body of an expression, or of its opposite.
* `turned`: those of a whole power of a sum.
* `SameTotals.signOf_eq`, `SameTotals.samePowers`: powers with the same totals.
-/

namespace AlgebraicForm

open AlgebraicForm.Expr

/-! ## Orientation -/

/-- The other sign with the same body. -/
def Signed.flip (p : Signed) : Signed :=
  ⟨!p.negative, p.body⟩

@[simp] theorem Signed.flip_flip (p : Signed) : p.flip.flip = p := by
  simp [Signed.flip]

theorem Signed.flip_comp_flip : Signed.flip ∘ Signed.flip = id :=
  funext Signed.flip_flip

@[simp] theorem Signed.flip_body (p : Signed) : p.flip.body = p.body :=
  rfl

@[simp] theorem Signed.flip_negative (p : Signed) : p.flip.negative = !p.negative :=
  rfl

/-- The sign and the body of an expression, as they come out of it or, if it is a sum, out of its
opposite. -/
def OrientsAs (e : Expr) (p : Signed) : Prop :=
  Splits e p ∨ e.isSum = true ∧ Splits e.opposite p.flip

theorem Splits.opposite_eq {e : Expr} {p q : Signed} (he : e.IsKept) (hp : Splits e p)
    (hq : Splits e.opposite q) : q.body = p.body ∧ (p.body = zero ∨ q.negative = !p.negative) :=
  hp.elim fun _ hp => splitSigns_opposite he hp hq

namespace OrientsAs

variable {e : Expr} {p q : Signed}

theorem isKept (h : OrientsAs e p) (he : e.IsKept) : p.body.IsKept := by
  rcases h with h | ⟨-, h⟩
  · exact h.isKept he
  · have hbody := h.isKept he.opposite
    exact hbody

/-- The body is determined, and so is the sign if that is not zero. -/
theorem unique (he : e.IsKept) (hp : OrientsAs e p) (hq : OrientsAs e q) :
    q.body = p.body ∧ (p.body = zero ∨ q.negative = p.negative) := by
  rcases hp with hp | ⟨-, hp⟩ <;> rcases hq with hq | ⟨-, hq⟩
  · rw [hp.unique hq]
    exact ⟨rfl, .inr rfl⟩
  · obtain ⟨hbody, hsign⟩ := hp.opposite_eq he hq
    exact ⟨hbody, hsign.imp_right Bool.not_inj⟩
  · obtain ⟨hbody, hsign⟩ := hq.opposite_eq he hp
    exact ⟨hbody.symm, hsign.imp (fun hzero => (hbody.trans hzero : p.body = zero)) fun h =>
      (Bool.not_inj h).symm⟩
  · obtain ⟨hsign, hbody⟩ := Signed.mk.inj (hp.unique hq)
    exact ⟨hbody.symm, .inr (Bool.not_inj hsign).symm⟩

theorem opposite (he : e.IsKept) (hsum : e.isSum = true) (h : OrientsAs e p) :
    OrientsAs e.opposite p.flip := by
  rcases h with h | ⟨-, h⟩
  · exact .inr ⟨by rwa [isSum_opposite he], by rwa [he.opposite_opposite, Signed.flip_flip]⟩
  · exact .inl h

end OrientsAs

/-- A sum that leaves a sum when its signs are out. -/
structure IsTurnable (b : Expr) : Prop where
  kept : b.IsKept
  sum : b.isSum = true
  orients : ∃ p, OrientsAs b p ∧ p.body.isSum = true

instance : Nonempty Signed :=
  ⟨⟨false, zero⟩⟩

/-- The sign and the body of a sum. -/
noncomputable def orientation (b : Expr) : Signed :=
  Classical.epsilon (OrientsAs b)

namespace IsTurnable

variable {b : Expr} {p : Signed}

theorem orientsAs (h : IsTurnable b) : OrientsAs b (orientation b) :=
  Classical.epsilon_spec (h.orients.imp fun _ hp => hp.1)

theorem body_isKept (h : IsTurnable b) : (orientation b).body.IsKept :=
  h.orientsAs.isKept h.kept

theorem body_isSum (h : IsTurnable b) : (orientation b).body.isSum = true := by
  obtain ⟨p, hp, hsum⟩ := h.orients
  rwa [(hp.unique h.kept h.orientsAs).1]

theorem eq_orientation (h : IsTurnable b) (hp : OrientsAs b p) : p = orientation b := by
  obtain ⟨hbody, hzero | hsign⟩ := h.orientsAs.unique h.kept hp
  · have hsum := h.body_isSum
    rw [hzero] at hsum
    cases hsum
  · cases p
    simp only at hbody hsign
    rw [hbody, hsign]

theorem opposite (h : IsTurnable b) : IsTurnable b.opposite :=
  ⟨h.kept.opposite, by rw [isSum_opposite h.kept, h.sum], _, h.orientsAs.opposite h.kept h.sum,
    h.body_isSum⟩

theorem orientation_opposite (h : IsTurnable b) :
    orientation b.opposite = (orientation b).flip :=
  (h.opposite.eq_orientation (h.orientsAs.opposite h.kept h.sum)).symm

end IsTurnable

/-! ## Whole powers -/

theorem ofPower_sum {b : Expr} (hb : b.isSum = true) (k : Int) :
    ofPower b (rat k) = if k = 1 then b else power b (rat k) := by
  obtain ⟨ts, rfl⟩ := exists_of_isSum hb
  simp [ofPower, isNumber]

theorem splitPower_ofPower {b : Expr} (hb : b.isSum = true) (k : Int) :
    (ofPower b (rat k)).splitPower = (b, rat k) := by
  rw [ofPower_sum hb]
  split
  next hk =>
    obtain ⟨ts, rfl⟩ := exists_of_isSum hb
    rw [hk, Int.cast_one]
    rfl
  next => rfl

theorem isFactor_ofPower {b : Expr} (hb : b.isSum = true) (k : Int) :
    (ofPower b (rat k)).IsFactor := by
  rw [ofPower_sum hb]
  split
  · obtain ⟨ts, rfl⟩ := exists_of_isSum hb
    exact ⟨rfl, rfl⟩
  · exact ⟨rfl, rfl⟩

theorem literalPower?_sum {b : Expr} (hb : b.isSum = true) {k : Int} (hk : k ≠ 0) (hk' : k ≠ 1) :
    literalPower? .unbounded b (rat k) = none := by
  obtain ⟨ts, rfl⟩ := exists_of_isSum hb
  exact literalPower?_of_isNumber_eq_false rfl (by exact_mod_cast hk) (by exact_mod_cast hk')

/-- A power of a sum to a whole exponent. -/
theorem buildPower_sum {b : Expr} (hb : b.isSum = true) (k : Int) (fuel : Nat) :
    buildPower .unbounded (fuel + 1) b (rat k) =
      .ok (if k = 0 then one else ofPower b (rat k)) := by
  rw [ofPower_sum hb]
  unfold buildPower
  obtain ⟨ts, rfl⟩ := exists_of_isSum hb
  by_cases hzero : k = 0
  · subst hzero
    simp [literalPower?]
  by_cases hone : k = 1
  · subst hone
    simp [literalPower?]
  · rw [literalPower?_sum hb hzero hone, if_neg hzero, if_neg hone]
    simp [isIntegerNumber_intCast]

theorem isKept_ofPower {b : Expr} (h : b.IsKept) (hb : b.isSum = true) {k : Int} (hk : k ≠ 0) :
    (ofPower b (rat k)).IsKept := by
  rw [ofPower_sum hb]
  split
  next => exact h
  next hone =>
    have hshape : (∀ c e, b ≠ power c e) ∧ ∀ fs, b ≠ product fs := by
      obtain ⟨ts, rfl⟩ := exists_of_isSum hb
      exact ⟨nofun, nofun⟩
    exact isKept_power h (isKept_rat _) (literalPower?_sum hb hk hone) fun _ => hshape

/-- What comes of a whole power when the sign of its base is out: the sign is passed on by an odd
exponent. -/
noncomputable def turned (g : Expr × Int) : Signed :=
  ⟨(orientation g.1).negative && decide (g.2 % 2 ≠ 0), ofPower (orientation g.1).body (rat g.2)⟩

theorem orientsAs_ofPower {b : Expr} (h : IsTurnable b) {k : Int} (hk : k ≠ 0) {p : Signed}
    (hp : OrientsAs (ofPower b (rat k)) p) : p = turned (b, k) := by
  have hbody := isKept_ofPower h.body_isKept h.body_isSum hk
  rw [ofPower_sum h.sum] at hp
  split at hp
  next hone =>
    rw [h.eq_orientation hp, turned, ofPower_sum h.body_isSum, if_pos hone, hone]
    simp
  next hone =>
    rcases hp with ⟨n, hp⟩ | ⟨hsum, -⟩
    · cases n with
      | zero => cases hp
      | succ n =>
        obtain ⟨base, hbase, exponent, hexponent, hp⟩ := splitSigns_power_iff.mp hp
        obtain rfl := h.eq_orientation (.inl ⟨n, hbase⟩)
        obtain rfl := hexponent.eq_rat
        rw [ofPower_sum h.body_isSum, if_neg hone] at hbody
        have hform := hbody.normalForm
        rw [turned, ofPower_sum h.body_isSum, if_neg hone]
        cases hp with
        | whole hneg hk' hr =>
          obtain rfl := Option.some.inj ((integer?_intCast k).symm.trans hk')
          obtain rfl := Except.ok.inj (hform.symm.trans hr)
          rw [hneg, Bool.true_and]
        | kept hnone hb hr =>
          have hpositive : (orientation b).negative = false := Bool.eq_false_iff.mpr fun hneg => by
            cases (integer?_intCast k).symm.trans (hnone hneg)
          rw [Signed.rebuild, hpositive] at hb
          obtain rfl := Except.ok.inj hb
          obtain rfl := Except.ok.inj (hform.symm.trans hr)
          rw [hpositive, Bool.false_and]
    · cases hsum

/-! ## Total exponents -/

/-- Two lists of powers in which each base has the same total exponent: they count the same,
whatever each base counts. -/
def SameTotals (ks ls : List (Expr × Int)) : Prop :=
  ∀ count : Expr → Int,
    (ks.map fun g => g.2 * count g.1).sum = (ls.map fun g => g.2 * count g.1).sum

/-- The sign is that of the total exponent of the bases with a sign. -/
theorem signOf_turned (ks : List (Expr × Int)) : signOf (ks.map turned) =
    decide ((ks.map fun g => g.2 * if (orientation g.1).negative then 1 else 0).sum % 2 ≠ 0) := by
  induction ks with
  | nil => rfl
  | cons g ks ih =>
    rw [List.map_cons, signOf_cons, ih, List.map_cons, List.sum_cons, turned, Bool.eq_iff_iff]
    generalize (ks.map fun g => g.2 * if (orientation g.1).negative then 1 else 0).sum = total
    cases (orientation g.1).negative with
    | true => simp; omega
    | false => simp

theorem SameTotals.signOf_eq {ks ls : List (Expr × Int)} (h : SameTotals ks ls) :
    signOf (ks.map turned) = signOf (ls.map turned) := by
  rw [signOf_turned, signOf_turned, h fun b => if (orientation b).negative then 1 else 0]

section

variable {ks ls : List (Expr × Int)}

theorem isFactor_turned (h : ∀ g ∈ ks, IsTurnable g.1) :
    ∀ f ∈ (ks.map turned).map (·.body), f.IsFactor := by
  rw [List.map_map]
  exact List.forall_mem_map.mpr fun g hg => isFactor_ofPower (h g hg).body_isSum g.2

theorem flatMap_factors_turned (h : ∀ g ∈ ks, IsTurnable g.1) :
    ((ks.map turned).map (·.body)).flatMap factors = (ks.map turned).map (·.body) :=
  flatMap_factors_eq_self fun f hf => (isFactor_turned h f hf).2

open Classical in
/-- The exponents of one base among the bodies. -/
theorem weighTerms_exponentsOf_turned (h : ∀ g ∈ ks, IsTurnable g.1) (b : Expr)
    (w : Option Expr → Rat) :
    weighTerms w ((exponentsOf b ((ks.map turned).map (·.body))).flatMap terms) =
      ((ks.map fun g => g.2 * if (orientation g.1).body = b then 1 else 0).sum : Int) * w none := by
  induction ks with
  | nil => simp [exponentsOf]
  | cons g ks ih =>
    rw [List.forall_mem_cons] at h
    have hsplit := splitPower_ofPower h.1.body_isSum g.2
    rw [List.map_cons, List.map_cons, List.map_cons, List.sum_cons, ← List.singleton_append,
      exponentsOf_append, List.flatMap_append, weighTerms_append, ih h.2, Int.cast_add, add_mul]
    congr 1
    by_cases hb : (orientation g.1).body = b
    · subst hb
      rw [turned, exponentsOf_of_base hsplit]
      simp [terms]
    · rw [turned, exponentsOf_eq_nil (by simpa [hsplit] using Ne.symm hb)]
      simp [hb]

open Classical in
/-- Next to the same factors, bodies with the same total exponents are the same powers. -/
theorem SameTotals.samePowers (h : SameTotals ks ls) (hks : ∀ g ∈ ks, IsTurnable g.1)
    (hls : ∀ g ∈ ls, IsTurnable g.1) (rs : List Expr) :
    SamePowers ((rs ++ (ks.map turned).map (·.body)).flatMap factors)
      ((rs ++ (ls.map turned).map (·.body)).flatMap factors) := by
  have hself : ∀ {ks : List (Expr × Int)}, (∀ g ∈ ks, IsTurnable g.1) →
      otherFactors ((ks.map turned).map (·.body)) = (ks.map turned).map (·.body) ∧
      literalProduct ((ks.map turned).map (·.body)) = 1 := fun hks =>
    otherFactors_eq_self fun f hf => (isFactor_turned hks f hf).1
  rw [List.flatMap_append, List.flatMap_append, flatMap_factors_turned hks,
    flatMap_factors_turned hls]
  refine ⟨?_, fun b w => ?_, fun b hb => ?_⟩
  · rw [literalProduct_append, literalProduct_append, (hself hks).2, (hself hls).2]
  · rw [otherFactors_append, otherFactors_append, exponentsOf_append, exponentsOf_append,
      List.flatMap_append, List.flatMap_append, weighTerms_append, weighTerms_append,
      (hself hks).1, (hself hls).1, weighTerms_exponentsOf_turned hks,
      weighTerms_exponentsOf_turned hls, h fun c => if (orientation c).body = b then 1 else 0]
  · -- a body is a power of a sum
    have hnew : ∀ {ks : List (Expr × Int)}, (∀ g ∈ ks, IsTurnable g.1) →
        b ∉ ((ks.map turned).map (·.body)).map fun f => f.splitPower.1 := by
      intro ks hks hmem
      rw [List.map_map, List.map_map] at hmem
      obtain ⟨g, hg, rfl⟩ := List.mem_map.mp hmem
      have hsum := (hks g hg).body_isSum
      have hbase : ((turned g).body).splitPower.1 = (orientation g.1).body :=
        congrArg Prod.fst (splitPower_ofPower hsum g.2)
      obtain ⟨ts, hts⟩ := exists_of_isSum hsum
      rw [Function.comp_apply, Function.comp_apply, hbase, hts] at hb
      cases hb
    rw [otherFactors_append, otherFactors_append, (hself hks).1, (hself hls).1, List.map_append,
      List.map_append, List.mem_append, List.mem_append, or_iff_left (hnew hks),
      or_iff_left (hnew hls)]

end

end AlgebraicForm
