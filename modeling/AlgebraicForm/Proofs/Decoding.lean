import AlgebraicForm.Proofs.RoundTrip

/-!
# Different trees have different texts

A pass may change what a text is read back as: it folds powers and merges equal bases, and so it
does not always come back to the tree that was printed. `Expr.decode` only takes back what the
printer did. It turns quotients into powers with negative exponents, minus signs into coefficients
and square roots into powers one half, and puts the factors of a product in order; it computes
nothing else. So every tree of the shape that a pass returns (`Expr.IsTidy`), settled or not, is
decoded from what its text reads back as.

* `sameFactors_decode`: what is decoded from a term has the factors decoded from its factors.
* `Reads.decodes`: the tree is decoded from whatever its text may be read back as, by cases on the
  rules of the printer.
* `eq_of_text_eq`, `eq_of_factorKey_eq`: tidy trees with the same text, and factors with the same
  key, are equal.
* `print_injective`: so are normal forms.
-/

namespace AlgebraicForm

open AlgebraicForm.Expr

/-! ## Tidy trees -/

/-- The shape that a pass returns, with names that can be written. -/
structure IsTidyNode (e : Expr) : Prop where
  built : IsBuiltNode .unbounded e
  printable : IsReadableNode (.written .standard True) e

/-- The tree has the shape that a pass returns, and it has a text. -/
def Expr.IsTidy (e : Expr) : Prop :=
  e.Every IsTidyNode

theorem isTidy_iff {e : Expr} : e.IsTidy ↔ e.IsBuilt .unbounded ∧ e.IsPrintable :=
  ⟨fun h => ⟨h.mono fun _ hd => hd.built, h.mono fun _ hd => hd.printable⟩,
    fun h d hd => ⟨h.1 d hd, h.2 d hd⟩⟩

namespace Expr.IsTidy

variable {e : Expr}

theorem isBuilt (h : e.IsTidy) : e.IsBuilt .unbounded :=
  (isTidy_iff.mp h).1

theorem isPrintable (h : e.IsTidy) : e.IsPrintable :=
  (isTidy_iff.mp h).2

theorem isExact (h : e.IsTidy) : e.IsExact :=
  h.isBuilt.isExact

theorem named (h : e.IsTidy) : e.Every IsNamedNode :=
  h.isPrintable.named

theorem isProper (h : e.IsTidy) : e.IsProper .unbounded :=
  ⟨h.isBuilt, h.named⟩

theorem of_mem_sum {ts : List Expr} (h : (sum ts).IsTidy) : ∀ t ∈ ts, t.IsTidy :=
  (every_sum.mp h).2

theorem of_mem_product {fs : List Expr} (h : (product fs).IsTidy) : ∀ f ∈ fs, f.IsTidy :=
  (every_product.mp h).2

theorem of_mem_call {n : String} {es : List Expr} (h : (call n es).IsTidy) : ∀ e ∈ es, e.IsTidy :=
  (every_call.mp h).2

theorem base {b p : Expr} (h : (power b p).IsTidy) : b.IsTidy :=
  (every_power.mp h).2.1

theorem exponent {b p : Expr} (h : (power b p).IsTidy) : p.IsTidy :=
  (every_power.mp h).2.2

/-- The factors of a tidy tree other than its coefficient. -/
theorem of_mem_otherFactors (h : e.IsTidy) :
    ∀ f ∈ otherFactors e.factors, f.IsTidy ∧ f.IsFactor := by
  intro f hf
  refine ⟨?_, (h.isBuilt.eq_ofScaled.2 f hf).2⟩
  have hmem := (mem_otherFactors.mp hf).1
  cases e with
  | product fs => exact h.of_mem_product f hmem
  | _ => exact List.mem_singleton.mp hmem ▸ h

theorem pieceBody (h : e.IsTidy) : e.pieceBody.IsTidy := by
  unfold Expr.pieceBody
  split
  · split
    · exact h.base
    · exact h
  · exact h

end Expr.IsTidy

theorem isTidy_iff_proper {e : Expr} : e.IsTidy ↔ e.IsProper .unbounded :=
  ⟨fun h => h.isProper, fun h => isTidy_iff.mpr ⟨h.built, h.isPrintable⟩⟩

theorem isTidy_iff_within {e : Expr} (limit : DigitLimit) :
    e.IsTidy ↔ e.IsProper (Settings.standard.within limit) :=
  isTidy_iff_proper.trans ((isProper_within .unlimited).trans (isProper_within limit).symm)

/-- Trees of the right shape are tidy where the names are those of the notation. -/
theorem isTidy_iff_named {e : Expr} : e.IsTidy ↔ e.IsBuilt .unbounded ∧ e.Every IsNamedNode :=
  isTidy_iff_proper.trans ⟨fun h => ⟨h.built, h.named⟩, fun h => ⟨h.1, h.2⟩⟩

@[simp] theorem isTidy_rat (q : Rat) : (rat q).IsTidy :=
  every_number.mpr ⟨trivial, trivial⟩

theorem Expr.IsBuilt.ordered_otherFactors {s : Settings} {e : Expr} (h : e.IsBuilt s) :
    (otherFactors e.factors).Pairwise FactorsInOrder := by
  cases e with
  | product fs =>
    obtain ⟨⟨-, q, gs, -, -, rfl, hgs⟩, -⟩ := isBuilt_product.mp h
    show (otherFactors (coefficientFactor q ++ gs)).Pairwise _
    rw [otherFactors_append, otherFactors_coefficientFactor, List.nil_append]
    exact hgs.ordered.sublist List.filter_sublist
  | _ => exact (List.pairwise_singleton _ _).sublist List.filter_sublist

/-! ## Products of factors -/

/-- No factor of the tree is a product. -/
def Expr.IsFlat (e : Expr) : Prop :=
  ∀ f ∈ e.factors, f.isProduct = false

theorem isFlat_of_isProduct_eq_false {e : Expr} (h : e.isProduct = false) : e.IsFlat := by
  rw [IsFlat, factors_of_isProduct_eq_false h]
  exact List.forall_mem_singleton.mpr h

theorem Expr.IsBuilt.isFlat {s : Settings} {e : Expr} (h : e.IsBuilt s) : e.IsFlat := by
  intro f hf
  cases hnumber : f.isNumber with
  | true => exact isProduct_of_isNumber hnumber
  | false => exact ((forall_mem_factors h f hf).2 hnumber).2

theorem factors_ofFactors {fs : List Expr} (h : ∀ f ∈ fs, f.isProduct = false) :
    (ofFactors fs).factors = fs := by
  unfold ofFactors
  split
  next f => exact factors_of_isProduct_eq_false (h f List.mem_cons_self)
  next => rfl

theorem sameFactors_ofScaled (q : Rat) {gs : List Expr} (h : ∀ g ∈ gs, g.isProduct = false) :
    SameFactors (ofScaled q gs).factors (rat q :: gs) ∧ (ofScaled q gs).IsFlat := by
  cases gs with
  | nil => exact ⟨.refl _, isFlat_of_isProduct_eq_false rfl⟩
  | cons g gs =>
    have hall : ∀ f ∈ coefficientFactor q ++ g :: gs, f.isProduct = false := by
      rw [List.forall_mem_append]
      refine ⟨?_, h⟩
      unfold coefficientFactor
      split <;> simp [isProduct]
    rw [IsFlat, ofScaled_eq (List.cons_ne_nil g gs), factors_ofFactors hall]
    exact ⟨sameFactors_coefficientFactor q _, hall⟩

/-- A list has the product of its literals and its other factors, in any order. -/
theorem sameFactors_split {fs gs : List Expr} (h : gs.Perm (otherFactors fs)) :
    SameFactors (rat (literalProduct fs) :: gs) fs := by
  have hnumber : ∀ g ∈ gs, g.isNumber = false := fun g hg =>
    (mem_otherFactors.mp (h.mem_iff.mp hg)).2
  obtain ⟨hother, hone⟩ := otherFactors_eq_self hnumber
  refine ⟨?_, ?_⟩
  · rw [literalProduct_cons_rat, hone, mul_one]
  · rw [otherFactors_cons_rat, hother]
    exact h

theorem Expr.IsTidy.magnitude {e m : Expr} (h : e.IsTidy) (hsplit : e.splitSign = (true, m)) :
    m.IsTidy ∧ SameFactors (minusOne :: m.factors) e.factors := by
  obtain ⟨hneg, heq⟩ := h.isBuilt.splitSign_eq hsplit
  have hfactor := h.of_mem_otherFactors
  have hsame := (sameFactors_ofScaled (-literalProduct e.factors) fun f hf => (hfactor f hf).2.2).1
  have hprintable := h.isPrintable.splitSign
  rw [hsplit] at hprintable
  rw [← heq] at hsame
  refine ⟨isTidy_iff.mpr ⟨?_, hprintable⟩, ?_⟩
  · rw [heq]
    unfold ofScaled
    split
    next => exact isBuilt_rat _
    next hne =>
      exact withCoefficient_isBuilt (by linarith) hne
        ⟨fun f hf => (hfactor f hf).2, h.isBuilt.ordered_otherFactors⟩
        fun f hf => (hfactor f hf).1.isBuilt
  · have hminus := (SameFactors.refl [minusOne]).append hsame
    have hsign : SameFactors ([minusOne] ++ rat (-literalProduct e.factors) ::
        otherFactors e.factors) (rat (literalProduct e.factors) :: otherFactors e.factors) :=
      ⟨by simp [minusOne], .refl _⟩
    exact hminus.trans (hsign.trans (sameFactors_split (.refl _)))

/-! ## Decoding -/

/-- Factors in the order of their keys, or as they are if one of them has none. -/
def inKeyOrder (fs : List Expr) : List Expr :=
  match sortFactors .unbounded fs with
  | .ok gs => gs
  | .error _ => fs

/-- The product of the literals among operands with their other factors, in order. -/
def gather (es : List Expr) : Expr :=
  ofScaled (literalProduct (es.flatMap factors)) (inKeyOrder (otherFactors (es.flatMap factors)))

namespace Expr

/-- The reciprocal of a factor: its exponent has the other sign. -/
def inverted : Expr → Expr
  | power b (number (.exact v)) => power b (rat (-v))
  | e => power e minusOne

/-- The reciprocal of an expression, factor by factor. -/
def inverse (e : Expr) : Expr :=
  product (rat (literalProduct e.factors)⁻¹ :: (otherFactors e.factors).map inverted)

/-- Whether an expression is the literal minus one. -/
def isMinusOne : Expr → Bool
  | number v => v.isMinusOne
  | _ => false

mutual

/-- The tree that was printed, from what its text is read back as. -/
def decode : Expr → Expr
  | number v => number v
  | symbol n => symbol n
  | sum ts => sum (decodeAll ts)
  | product fs => gather (decodeAll fs)
  | power b p => if p.isMinusOne then (decode b).inverse else power (decode b) (decode p)
  | negation e => gather [minusOne, decode e]
  | call n es =>
    match decodeAll es with
    | [e] => if n = "sqrt" then power e (rat (1 / 2)) else call n [e]
    | es => call n es
  | hole => hole

/-- The same for several trees. -/
def decodeAll : List Expr → List Expr
  | [] => []
  | e :: es => decode e :: decodeAll es

end

theorem decodeAll_eq_map (es : List Expr) : decodeAll es = es.map decode := by
  induction es with
  | nil => rfl
  | cons e es ih => exact congrArg (e.decode :: ·) ih

theorem decode_sum (ts : List Expr) : (sum ts).decode = sum (ts.map decode) :=
  congrArg sum (decodeAll_eq_map ts)

theorem decode_product (fs : List Expr) : (product fs).decode = gather (fs.map decode) :=
  congrArg gather (decodeAll_eq_map fs)

theorem decode_negation (e : Expr) : (negation e).decode = gather [minusOne, e.decode] :=
  rfl

theorem decode_division (e : Expr) : (power e minusOne).decode = e.decode.inverse :=
  rfl

theorem decode_power {p : Expr} (hp : p.isMinusOne = false) (b : Expr) :
    (power b p).decode = power b.decode p.decode := by
  rw [decode, hp]
  rfl

theorem decode_root (e : Expr) : (call "sqrt" [e]).decode = power e.decode (rat (1 / 2)) :=
  rfl

theorem decode_call {n : String} {es : List Expr} (h : n = "sqrt" → es.length ≠ 1) :
    (call n es).decode = call n (es.map decode) := by
  rw [decode, decodeAll_eq_map]
  split
  next heq =>
    rw [if_neg, heq]
    intro hn
    exact h hn (by simpa using congrArg List.length heq)
  next => rfl

end Expr

/-! ## What is decoded from a term -/

theorem inKeyOrder_perm (fs : List Expr) : (inKeyOrder fs).Perm fs := by
  unfold inKeyOrder
  split
  next hsort => exact sortFactors_perm hsort
  next => exact .refl _

theorem sameFactors_gather {es : List Expr} (h : ∀ e ∈ es, e.IsFlat) :
    SameFactors (gather es).factors (es.flatMap factors) ∧ (gather es).IsFlat := by
  have hperm := inKeyOrder_perm (otherFactors (es.flatMap factors))
  have hall : ∀ g ∈ inKeyOrder (otherFactors (es.flatMap factors)), g.isProduct = false := by
    intro g hg
    obtain ⟨e, he, hge⟩ := List.mem_flatMap.mp (mem_otherFactors.mp (hperm.mem_iff.mp hg)).1
    exact h e he g hge
  obtain ⟨hsame, hflat⟩ := sameFactors_ofScaled (literalProduct (es.flatMap factors)) hall
  exact ⟨hsame.trans (sameFactors_split hperm), hflat⟩

/-- What is decoded from a term has the factors decoded from its factors. -/
theorem sameFactors_decode {fs : List Expr} (h : ∀ f ∈ fs, f.decode.IsFlat) :
    SameFactors (ofFactors fs).decode.factors ((fs.map decode).flatMap factors) ∧
      (ofFactors fs).decode.IsFlat := by
  unfold ofFactors
  split
  next f =>
    rw [List.map_singleton, List.flatMap_singleton]
    exact ⟨.refl _, h f List.mem_cons_self⟩
  next =>
    rw [decode_product]
    exact sameFactors_gather (List.forall_mem_map.mpr h)

/-- Factors with one key are equal. -/
def KeysDetermine (e : Expr) : Prop :=
  ∀ f ∈ otherFactors e.factors, ∀ g ∈ otherFactors e.factors,
    f.factorKey .unlimited = g.factorKey .unlimited → f = g

theorem gather_eq {e : Expr} (he : e.IsTidy) (hkeys : KeysDetermine e) {es : List Expr}
    (h : SameFactors (es.flatMap factors) e.factors) : gather es = e := by
  have hprintable : ∀ f ∈ otherFactors (es.flatMap factors), f.IsPrintable := fun f hf =>
    (he.of_mem_otherFactors f (h.other.mem_iff.mp hf)).1.isPrintable
  obtain ⟨gs, hgs⟩ := exists_sortFactors .standard hprintable
  have hperm := (sortFactors_perm hgs).trans h.other
  -- both lists are in order, and factors that tie are equal
  have hself : gs = otherFactors e.factors := by
    refine hperm.eq_of_pairwise ?_ (sortFactors_pairwise hgs) he.isBuilt.ordered_otherFactors
    intro f g hf hg hle hge
    have hf := hperm.mem_iff.mp hf
    obtain ⟨k, hk⟩ := (he.of_mem_otherFactors f hf).1.isPrintable.exists_factorKey
    obtain ⟨l, hl⟩ := (he.of_mem_otherFactors g hg).1.isPrintable.exists_factorKey
    refine hkeys f hf g hg ?_
    rw [hk, hl, factorLe_antisymm (hle k l hk hl) (hge l k hl hk)]
  have horder : inKeyOrder (otherFactors (es.flatMap factors)) = otherFactors e.factors := by
    rw [inKeyOrder, hgs]
    exact hself
  rw [gather, horder, h.literal]
  exact he.isBuilt.eq_ofScaled.1.symm

/-! ## Powers below the line -/

/-- A base that is divided by is no literal but zero. -/
theorem isNumber_of_reciprocal {b : Expr} (h : (power b minusOne).IsTidy)
    (hb : b.isZeroNumber = false) : b.isNumber = false := by
  rcases h.base.isExact.rat_or_isNumber_eq_false with ⟨x, rfl⟩ | hnumber
  · have hx : x ≠ 0 := by simpa [isZeroNumber] using hb
    obtain ⟨⟨hliteral, -⟩, -⟩ := isBuilt_power.mp h.isBuilt
    rcases hliteral with hnone | ⟨hzero, -⟩
    · -- such a power is a literal
      by_cases hone : x = 1
      · norm_num [minusOne, literalPower?, hone] at hnone
        cases hnone
      · rw [minusOne, literalPower?_rat hx hone (by norm_num) (by norm_num)] at hnone
        simp [foldPower?, hx] at hnone
    · rw [hzero] at hb
      simp [isZeroNumber, zero] at hb
  · exact hnumber

/-- A divided factor is the reciprocal of what is written below the line, which is a factor. -/
theorem inverted_flipped {f : Expr} (h : f.IsTidy) (hdivided : f.isDivided = true) :
    f.flipped.inverted = f ∧ f.flipped.IsFactor := by
  obtain ⟨b, v, rfl, hv, hb, -⟩ := divided_of_isDivided h.isExact hdivided
  by_cases hone : v = -1
  · -- a bare base: neither a power nor a product, as a whole exponent would have gone into those
    subst hone
    have hinteger : (rat (-1)).isIntegerNumber = true :=
      (isIntegerNumber_iff (isExact_rat _)).mpr ⟨-1, by norm_num⟩
    obtain ⟨⟨-, hwhole⟩, -⟩ := isBuilt_power.mp h.isBuilt
    obtain ⟨hpower, hproduct⟩ := hwhole hinteger
    have hflip : (power b (rat (-1))).flipped = b := by simp [flipped]
    rw [hflip]
    refine ⟨?_, isNumber_of_reciprocal h hb, ?_⟩
    · cases b with
      | power c p => exact absurd rfl (hpower c p)
      | _ => rfl
    · cases b with
      | product fs => exact absurd rfl (hproduct fs)
      | _ => rfl
  · have hflip : (power b (rat v)).flipped = power b (rat (-v)) := by simp [flipped, hone]
    rw [hflip]
    exact ⟨by simp [inverted], rfl, rfl⟩

/-- The reciprocal of what is written below the line. -/
theorem sameFactors_inverse {c : Expr} {d : Rat} {fs : List Expr}
    (hfs : ∀ f ∈ fs, f.IsTidy ∧ f.isDivided = true)
    (h : SameFactors c.factors (coefficientFactor d ++ fs.map flipped)) :
    SameFactors c.inverse.factors (rat d⁻¹ :: fs) := by
  have hfs : ∀ f ∈ fs, f.flipped.inverted = f ∧ f.flipped.IsFactor := fun f hf =>
    inverted_flipped (hfs f hf).1 (hfs f hf).2
  obtain ⟨hother, hone⟩ := otherFactors_eq_self
    (List.forall_mem_map.mpr fun f hf => (hfs f hf).2.1)
  have hlit : literalProduct c.factors = d := by
    rw [h.literal, literalProduct_append, literalProduct_coefficientFactor, hone, mul_one]
  -- flipping and inverting cancel, factor by factor
  have hperm : ((otherFactors c.factors).map inverted).Perm fs := by
    have hflipped := h.other
    rw [otherFactors_append, otherFactors_coefficientFactor, List.nil_append, hother] at hflipped
    have hback : (fs.map flipped).map inverted = fs := by
      rw [List.map_map]
      exact (List.map_congr_left fun f hf => (hfs f hf).1).trans (List.map_id fs)
    exact hback ▸ hflipped.map inverted
  show SameFactors (rat (literalProduct c.factors)⁻¹ :: (otherFactors c.factors).map inverted) _
  rw [hlit]
  exact .perm (hperm.cons _)

theorem isFlat_inverse (c : Expr) : c.inverse.IsFlat := by
  show ∀ f ∈ rat (literalProduct c.factors)⁻¹ :: (otherFactors c.factors).map inverted,
    f.isProduct = false
  rw [List.forall_mem_cons, List.forall_mem_map]
  refine ⟨rfl, fun f _ => ?_⟩
  unfold inverted
  split <;> rfl

/-! ## Texts are decoded -/

/-- What is decoded from the factors that a tree is read back as: its factors, in some order and
nesting, and from all of them the tree. -/
structure Decodes (e : Expr) (fs : List Expr) : Prop where
  flat : ∀ f ∈ fs, f.decode.IsFlat
  parts : SameFactors ((fs.map decode).flatMap factors) e.factors
  whole : (ofFactors fs).decode = e

/-- The tree is decoded from whatever its text may be read back as. -/
structure Decodable (e : Expr) : Prop where
  keys : KeysDetermine e
  decodes : ∀ {fs : List Expr}, Reads e fs → Decodes e fs

section

variable {e : Expr} {fs : List Expr}

/-- A single factor that the tree is decoded from. -/
theorem Decodes.of_single {f : Expr} (he : e.IsTidy) (h : f.decode = e) : Decodes e [f] where
  flat := by simpa [h] using he.isBuilt.isFlat
  parts := by
    rw [List.map_singleton, List.flatMap_singleton, h]
    exact .refl _
  whole := h

/-- Several factors that the factors of the tree are decoded from. -/
theorem Decodes.of_several (he : e.IsTidy) (hkeys : KeysDetermine e) (hlen : fs.length ≠ 1)
    (hflat : ∀ f ∈ fs, f.decode.IsFlat)
    (hparts : SameFactors ((fs.map decode).flatMap factors) e.factors) : Decodes e fs where
  flat := hflat
  parts := hparts
  whole := by
    unfold ofFactors
    split
    next => exact absurd rfl hlen
    next =>
      rw [decode_product]
      exact gather_eq he hkeys hparts

theorem Decodable.eq_of_text_eq {d : Expr} (hd : Decodable d) (he : Decodable e) (hdt : d.IsTidy)
    (het : e.IsTidy) (htext : d.text .unlimited = e.text .unlimited) : d = e := by
  obtain ⟨_, cs, _, fs, hprints⟩ := exists_prints hdt.isPrintable
  obtain ⟨_, cs', _, gs, hprints'⟩ := exists_prints het.isPrintable
  obtain rfl : cs = cs' := Except.ok.inj (hprints.text.symm.trans (htext.trans hprints'.text))
  have hread := hprints.unique hprints'
  rw [← (hd.decodes hprints.reads).whole, hread, (he.decodes hprints'.reads).whole]

theorem isMinusOne_ofFactors (h : ∀ f ∈ fs, f.isMinusOne = false) :
    (ofFactors fs).isMinusOne = false := by
  unfold ofFactors
  split
  next f => exact h f List.mem_cons_self
  next => rfl

/-- No factor is read back as the literal minus one, which is therefore always a division. -/
theorem isMinusOne_of_reads (h : Reads e fs) : ∀ f ∈ fs, f.isMinusOne = false := by
  have hnonneg : ∀ k : Rat, 0 ≤ k → (rat k).isMinusOne = false := by
    intro k hk
    simp only [isMinusOne, Number.isMinusOne_exact, decide_eq_false_iff_not]
    intro h
    linarith
  induction h with
  | @literal q hq =>
    rw [literalFactors, List.forall_mem_cons]
    refine ⟨hnonneg _ (by exact_mod_cast Rat.num_nonneg.mpr hq), ?_⟩
    split <;> simp [isMinusOne]
  | signed _ _ _ hneg ih =>
    cases hneg with
    | all => simp [isMinusOne]
    | first fs _ =>
      rw [List.forall_mem_cons] at ih ⊢
      exact ⟨rfl, ih.2⟩
  | singleTerm _ hgs ih =>
    rcases hgs with rfl | rfl
    · exact ih
    · simpa using isMinusOne_ofFactors ih
  | @quotient q es ls _ hq _ _ _ ih =>
    have htop : ∀ f ∈ (if q.num = 1 then [] else [rat q.num]) ++ ls.above,
        f.isMinusOne = false := by
      rw [List.forall_mem_append]
      refine ⟨?_, ?_⟩
      · split
        · simp
        · simpa using hnonneg _ (by exact_mod_cast Rat.num_nonneg.mpr hq)
      · rw [ReadPieces.above, List.forall_mem_map]
        exact fun l hl => isMinusOne_ofFactors (ih l (List.mem_filter.mp hl).1)
    generalize (if q.num = 1 then [] else [rat q.num]) ++ ls.above = ns at htop ⊢
    rw [quotientFactors, List.forall_mem_append]
    refine ⟨?_, by split <;> simp [isMinusOne]⟩
    split
    · simpa [one] using hnonneg 1 zero_le_one
    · exact htop
  | reciprocal => simpa [isMinusOne, one] using hnonneg 1 zero_le_one
  | _ => simp [isMinusOne]

/-- A tree that is no product has at most one factor. -/
theorem keysDetermine_of_isProduct_eq_false (h : e.isProduct = false) : KeysDetermine e := by
  intro f hf g hg _
  rw [factors_of_isProduct_eq_false h, mem_otherFactors, List.mem_singleton] at hf hg
  rw [hf.1, hg.1]

/-- A fraction is decoded from its numerator and its denominator. -/
theorem decodes_literal (q : Rat) : Decodes (rat q) (literalFactors q) := by
  have hkeys : KeysDetermine (rat q) := keysDetermine_of_isProduct_eq_false rfl
  unfold literalFactors
  split
  next hone =>
    refine .of_single (isTidy_rat q) ?_
    rw [(Rat.den_eq_one_iff q).mp hone]
    rfl
  next =>
    refine .of_several (isTidy_rat q) hkeys (by simp) ?_ ?_
    · rw [List.forall_mem_cons, List.forall_mem_singleton]
      exact ⟨isFlat_of_isProduct_eq_false rfl, isFlat_inverse _⟩
    · have hq : (q.num : Rat) * (q.den : Rat)⁻¹ = q := by
        rw [← div_eq_mul_inv, Rat.num_div_den]
      refine ⟨?_, .refl _⟩
      show literalProduct [rat q.num, rat (literalProduct [rat q.den])⁻¹] = literalProduct [rat q]
      simp [hq]

/-! ## Signs -/

/-- The negation of what the magnitude is decoded from. -/
theorem decode_negated (he : e.IsTidy) (hkeys : KeysDetermine e) {m r : Expr}
    (hsplit : e.splitSign = (true, m)) (h : r.decode = m) : (negation r).decode = e := by
  rw [decode_negation, h]
  refine gather_eq he hkeys ?_
  rw [List.flatMap_cons, List.flatMap_singleton]
  exact (he.magnitude hsplit).2

/-- What is read back of a magnitude, with the sign in front. -/
theorem decodes_signed (he : e.IsTidy) (hkeys : KeysDetermine e) {m : Expr} {gs : List Expr}
    (hsplit : e.splitSign = (true, m)) (hm : Decodes m fs) (hneg : Negates fs gs) :
    Decodes e gs := by
  obtain ⟨hflat, hparts, hwhole⟩ := hm
  cases hneg with
  | all => exact .of_single he (decode_negated he hkeys hsplit hwhole)
  | @first f fs _ =>
    cases fs with
    | nil => exact .of_single he (decode_negated he hkeys hsplit hwhole)
    | cons g fs =>
      -- the first of several factors has taken the minus sign
      rw [List.forall_mem_cons] at hflat
      have hminus : ∀ d ∈ [minusOne, f.decode], d.IsFlat := by
        rw [List.forall_mem_cons, List.forall_mem_singleton]
        exact ⟨isFlat_of_isProduct_eq_false rfl, hflat.1⟩
      obtain ⟨hfirst, hfirstflat⟩ := sameFactors_gather hminus
      refine .of_several he hkeys (by simp) ?_ ?_
      · rw [List.forall_mem_cons]
        exact ⟨hfirstflat, hflat.2⟩
      · -- the minus sign moves to the front of all factors
        rw [List.flatMap_cons, List.flatMap_singleton] at hfirst
        have hall := hfirst.append (.refl (((g :: fs).map decode).flatMap factors))
        rw [List.append_assoc] at hall
        have hmagnitude := (SameFactors.refl minusOne.factors).append hparts
        exact hall.trans (hmagnitude.trans (he.magnitude hsplit).2)

/-- A later term is decoded with its sign. -/
theorem decode_signedTerm {l : Expr × List Expr} (he : l.1.IsTidy) (hkeys : KeysDetermine l.1)
    (h : (ofFactors l.2).decode = l.1.splitSign.2) : (signedTerm l).decode = l.1 := by
  unfold signedTerm
  cases hs : l.1.splitSign with
  | mk sign m =>
    rw [hs] at h
    cases sign with
    | true => exact decode_negated he hkeys hs h
    | false => exact h.trans (splitSign_eq_self hs)

/-! ## Quotients -/

/-- What is written below the line is decoded as the power there. -/
theorem decode_belowLine {b r : Expr} {v : Rat} (hv : v < 0) (h : r.decode = b) :
    (belowLine (-v) r).decode = (power b (rat v)).flipped := by
  by_cases hone : v = -1
  · subst hone
    simpa [belowLine, flipped] using h
  · have hflip : (power b (rat v)).flipped = power b (rat (-v)) := by simp [flipped, hone]
    rw [hflip, belowLine, if_neg fun h => hone (by linarith)]
    split
    next hhalf => rw [decode_root, h, hhalf]
    next =>
      have hliteral : Reads (rat (-v)) (literalFactors (-v)) := .literal (by linarith)
      rw [decode_power (isMinusOne_ofFactors (isMinusOne_of_reads hliteral)), h,
        (decodes_literal (-v)).whole]

/-- A power with a negative exponent is decoded from the quotient that it is written as. -/
theorem decodes_reciprocal {b : Expr} {v : Rat} (he : (power b (rat v)).IsTidy) (hv : v < 0)
    (hb : b.isZeroNumber = false) (h : (ofFactors fs).decode = b) :
    Decodes (power b (rat v)) [one, power (belowLine (-v) (ofFactors fs)) minusOne] := by
  have hdivided : (power b (rat v)).isDivided = true := by simp [isDivided, hv, hb]
  have hfactor := (inverted_flipped he hdivided).2
  refine .of_several he (keysDetermine_of_isProduct_eq_false rfl) (by simp) ?_ ?_
  · rw [List.forall_mem_cons, List.forall_mem_singleton]
    exact ⟨isFlat_of_isProduct_eq_false rfl, isFlat_inverse _⟩
  · have hinverse : SameFactors (power b (rat v)).flipped.inverse.factors
        (rat (1 : Rat)⁻¹ :: [power b (rat v)]) := by
      refine sameFactors_inverse (List.forall_mem_singleton.mpr ⟨he, hdivided⟩) ?_
      rw [factors_of_isProduct_eq_false hfactor.2]
      simpa [coefficientFactor] using .refl _
    have hall := (SameFactors.refl [one]).append hinverse
    rw [List.map_cons, List.map_singleton, decode_division, decode_belowLine hv h,
      List.flatMap_cons, List.flatMap_singleton]
    refine hall.trans ⟨?_, .refl _⟩
    simp [one, factors]

theorem map_decode_coefficientFactor (c : Rat) :
    (coefficientFactor c).map decode = coefficientFactor c := by
  unfold coefficientFactor
  split <;> rfl

/-- What stands above the line, which is one if it is empty. -/
theorem sameFactors_top {c : Rat} {ns fs : List Expr} (hfs : ∀ f ∈ fs, f.isProduct = false)
    (h : ns.map decode = coefficientFactor c ++ fs) :
    SameFactors (((if ns = [] then [one] else ns).map decode).flatMap factors) (rat c :: fs) ∧
      ∀ n ∈ (if ns = [] then [one] else ns), n.decode.IsFlat := by
  have hall : ∀ f ∈ coefficientFactor c ++ fs, f.isProduct = false := by
    rw [List.forall_mem_append]
    refine ⟨?_, hfs⟩
    unfold coefficientFactor
    split <;> simp [isProduct]
  split
  next hnil =>
    have hsame := sameFactors_coefficientFactor c fs
    rw [hnil, List.map_nil] at h
    rw [← h] at hsame
    have hone : SameFactors (([one].map decode).flatMap factors) [] :=
      ⟨by simp [one, decode, factors], .refl _⟩
    exact ⟨hone.trans hsame, List.forall_mem_singleton.mpr (isFlat_of_isProduct_eq_false rfl)⟩
  next =>
    rw [h, flatMap_factors_eq_self hall]
    refine ⟨sameFactors_coefficientFactor c fs, fun n hn => ?_⟩
    have hmem := List.mem_map_of_mem (f := decode) hn
    exact isFlat_of_isProduct_eq_false (hall _ (h ▸ hmem))

/-- What stands below the line, if anything does. -/
theorem sameFactors_bottom {d : Rat} {ds fs : List Expr}
    (hfs : ∀ f ∈ fs, f.IsTidy ∧ f.isDivided = true)
    (h : ds.map decode = coefficientFactor d ++ fs.map flipped) :
    SameFactors (((if ds = [] then [] else [power (ofFactors ds) minusOne]).map decode).flatMap
        factors) (rat d⁻¹ :: fs) ∧
      ∀ n ∈ (if ds = [] then [] else [power (ofFactors ds) minusOne]), n.decode.IsFlat := by
  have hall : ∀ f ∈ coefficientFactor d ++ fs.map flipped, f.isProduct = false := by
    rw [List.forall_mem_append, List.forall_mem_map]
    refine ⟨?_, fun f hf => (inverted_flipped (hfs f hf).1 (hfs f hf).2).2.2⟩
    unfold coefficientFactor
    split <;> simp [isProduct]
  split
  next hnil =>
    rw [hnil, List.map_nil, eq_comm, List.append_eq_nil_iff, List.map_eq_nil_iff] at h
    obtain ⟨hone, rfl⟩ := h
    have hd : d = 1 := by
      by_contra hd
      simp [coefficientFactor, hd] at hone
    subst hd
    exact ⟨⟨by simp, .refl _⟩, by simp⟩
  next =>
    have hflat : ∀ d ∈ ds, d.decode.IsFlat := fun d hd =>
      isFlat_of_isProduct_eq_false (hall _ (h ▸ List.mem_map_of_mem hd))
    have hsame := (sameFactors_decode hflat).1
    rw [h, flatMap_factors_eq_self hall] at hsame
    rw [List.map_singleton, List.flatMap_singleton, decode_division]
    exact ⟨sameFactors_inverse hfs hsame, List.forall_mem_singleton.mpr (isFlat_inverse _)⟩

theorem decodes_quotient {q : Rat} {es : List Expr} {ls : ReadPieces} (he : (product es).IsTidy)
    (hkeys : KeysDetermine (product es))
    (hes : es = rat q :: ls.map (·.1) ∨ (q = 1 ∧ es = ls.map (·.1)))
    (h : ∀ l ∈ ls, (ofFactors l.2).decode = l.1.pieceBody) :
    Decodes (product es) (quotientFactors
      ((if q.num = 1 then [] else [rat q.num]) ++ ls.above)
      ((if q.den = 1 then [] else [rat q.den]) ++ ls.below)) := by
  have htidy : ∀ l ∈ ls, l.1.IsTidy := fun l hl => he.of_mem_product _ (mem_of_pieces hes l hl)
  have hnum : (if q.num = 1 then [] else [rat q.num]) = coefficientFactor (q.num : Rat) := by
    simp [coefficientFactor]
  have hden : (if q.den = 1 then [] else [rat q.den]) = coefficientFactor (q.den : Rat) := by
    simp [coefficientFactor]
  have habove : (coefficientFactor (q.num : Rat) ++ ls.above).map decode =
      coefficientFactor (q.num : Rat) ++ (ls.filter (!·.1.isDivided)).map (·.1) := by
    rw [List.map_append, map_decode_coefficientFactor, ReadPieces.above, List.map_map]
    refine congrArg _ (List.map_congr_left fun l hl => ?_)
    simp only [List.mem_filter, Bool.not_eq_true'] at hl
    exact (h l hl.1).trans (pieceBody_of_isDivided_eq_false hl.2)
  have hbelow : (coefficientFactor (q.den : Rat) ++ ls.below).map decode =
      coefficientFactor (q.den : Rat) ++ ((ls.filter (·.1.isDivided)).map (·.1)).map flipped := by
    rw [List.map_append, map_decode_coefficientFactor, ReadPieces.below, List.map_map,
      List.map_map]
    refine congrArg _ (List.map_congr_left fun l hl => ?_)
    rw [List.mem_filter] at hl
    obtain ⟨b, v, heq, hv, -, hbody, hexponent⟩ := divided_of_isDivided (htidy l hl.1).isExact hl.2
    rw [Function.comp_apply, Function.comp_apply, hexponent, heq]
    exact decode_belowLine hv ((h l hl.1).trans hbody)
  have hlen := two_le_length_pieces he.isBuilt hes
  rw [hnum, hden]
  obtain ⟨htops, htopsflat⟩ := sameFactors_top (by
    rw [List.forall_mem_map]
    intro l hl
    have hmem := mem_of_pieces hes l (List.mem_filter.mp hl).1
    exact he.isBuilt.isFlat l.1 hmem) habove
  obtain ⟨hbottoms, hbottomsflat⟩ := sameFactors_bottom (by
    rw [List.forall_mem_map]
    intro l hl
    rw [List.mem_filter] at hl
    exact ⟨htidy l hl.1, hl.2⟩) hbelow
  refine .of_several he hkeys (by omega) (List.forall_mem_append.mpr ⟨htopsflat, hbottomsflat⟩) ?_
  rw [quotientFactors, List.map_append, List.flatMap_append]
  exact (htops.append hbottoms).trans ((sameFactors_line q ls).trans (sameFactors_pieces hes))

/-! ## Every tidy tree -/

/-- What the parts of a tree are decoded from decides what the tree is decoded from. -/
theorem Reads.decodes (h : Reads e fs) (he : e.IsTidy) (hkeys : KeysDetermine e)
    (ih : ∀ d : Expr, printRank d < printRank e → d.IsTidy → Decodable d) : Decodes e fs := by
  have hsmaller : ∀ {d : Expr} {fs : List Expr}, d.size < e.size → d.IsTidy → Reads d fs →
      (ofFactors fs).decode = d := fun hd htidy hreads =>
    ((ih _ (printRank_lt hd) htidy).decodes hreads).whole
  cases h with
  | literal => exact decodes_literal _
  | symbol n => exact .of_single he rfl
  | @signed _ m fs gs _ hsplit hm hneg =>
    have hmagnitude := (ih m (printRank_splitSign_lt he.isExact hsplit) (he.magnitude hsplit).1)
    exact decodes_signed he hkeys hsplit (hmagnitude.decodes hm) hneg
  | singleTerm =>
    -- no sum of one term is built
    obtain ⟨⟨hlen, -⟩, -⟩ := isBuilt_sum.mp he.isBuilt
    simp at hlen
  | @sum t fs ls _ _ ht hls =>
    have hfirst : t.size < (Expr.sum (t :: ls.map (·.1))).size := by
      simp only [size, sizeAll]
      omega
    refine .of_single he ?_
    rw [decode_sum, List.map_cons, hsmaller hfirst (he.of_mem_sum t List.mem_cons_self) ht,
      List.map_map]
    refine congrArg (fun ts => Expr.sum (t :: ts)) (List.map_congr_left fun l hl => ?_)
    have hmem : l.1 ∈ ls.map (·.1) := List.mem_map_of_mem hl
    have htidy := he.of_mem_sum l.1 (List.mem_cons_of_mem _ hmem)
    have hsize : l.1.size < (Expr.sum (t :: ls.map (·.1))).size := by
      have := size_le_sizeAll hmem
      simp only [size, sizeAll]
      omega
    have hrank := printRank_lt hsize
    refine decode_signedTerm htidy (ih _ hrank htidy).keys ?_
    cases hs : l.1.splitSign with
    | mk sign m =>
      have hreads := hls l hl
      rw [hs] at hreads
      -- a later term is written without its sign
      cases sign with
      | true =>
        have hm := ih m ((printRank_splitSign_lt htidy.isExact hs).trans hrank)
          (htidy.magnitude hs).1
        exact (hm.decodes hreads).whole
      | false =>
        obtain rfl := splitSign_eq_self hs
        exact hsmaller hsize htidy hreads
  | @quotient q es ls _ _ hes _ hreads =>
    refine decodes_quotient he hkeys hes fun l hl => ?_
    have hmem := mem_of_pieces hes l hl
    refine hsmaller ?_ (he.of_mem_product _ hmem).pieceBody (hreads l hl)
    have hsize := size_le_sizeAll hmem
    have hbody := size_pieceBody_le l.1
    simp only [size]
    omega
  | @root b fs hb =>
    refine .of_single he ?_
    rw [decode_root, hsmaller ?_ he.base hb]
    simp only [size]
    omega
  | @zeroReciprocal v fs _ hv =>
    -- this one is written as a power, with its negative exponent
    refine .of_single he ?_
    rw [decode_power (isMinusOne_ofFactors (isMinusOne_of_reads hv)),
      hsmaller ?_ (isTidy_rat v) hv]
    · rfl
    · simp only [size, zero]
      omega
  | @reciprocal b v fs hv hzero hb =>
    refine decodes_reciprocal he hv hzero (hsmaller ?_ he.base hb)
    simp only [size]
    omega
  | @power b p fs gs _ _ hb hp =>
    refine .of_single he ?_
    have := b.size_pos
    have := p.size_pos
    rw [decode_power (isMinusOne_ofFactors (isMinusOne_of_reads hp)),
      hsmaller (by simp only [size]; omega) he.base hb,
      hsmaller (by simp only [size]; omega) he.exponent hp]
  | call n ls hreads =>
    refine .of_single he ?_
    rw [decode_call fun hn hlen => (isBuilt_call.mp he.isBuilt).1 hn (by simpa using hlen),
      List.map_map]
    refine congrArg (Expr.call n) (List.map_congr_left fun l hl => ?_)
    have hmem : l.1 ∈ ls.map (·.1) := List.mem_map_of_mem hl
    refine hsmaller ?_ (he.of_mem_call l.1 hmem) (hreads l hl)
    have := size_le_sizeAll hmem
    simp only [size]
    omega

/-- A factor is the power of its base and its exponent. -/
theorem eq_of_splitPower_eq {f g : Expr} (hf : f.IsTidy) (hg : g.IsTidy)
    (h : f.splitPower = g.splitPower) : f = g := by
  -- a power with the exponent one is a literal or its base
  have hone : ∀ b : Expr, ¬(power b one).IsTidy := by
    intro b hb
    obtain ⟨⟨hliteral, -⟩, -⟩ := isBuilt_power.mp hb.isBuilt
    rcases hliteral with hnone | ⟨-, hzero⟩
    · cases b <;> simp [literalPower?, one] at hnone
    · simp [one, zero] at hzero
  cases f with
  | power b p =>
    cases g with
    | power c q =>
      obtain ⟨rfl, rfl⟩ := Prod.mk.inj h
      rfl
    | _ =>
      obtain ⟨-, rfl⟩ := Prod.mk.inj h
      exact absurd hf (hone b)
  | _ =>
    cases g with
    | power c q =>
      obtain ⟨-, rfl⟩ := Prod.mk.inj h
      exact absurd hg (hone c)
    | _ => exact (Prod.mk.inj h).1

theorem text_eq_of_factorKey_eq {f g : Expr} (hf : f.IsPrintable)
    (h : f.factorKey .unlimited = g.factorKey .unlimited) :
    f.splitPower.1.text .unlimited = g.splitPower.1.text .unlimited ∧
      f.splitPower.2.text .unlimited = g.splitPower.2.text .unlimited := by
  obtain ⟨k, hk⟩ := hf.exists_factorKey
  have htexts : ∀ {e : Expr}, e.factorKey .unlimited = .ok k →
      e.splitPower.1.text .unlimited = .ok k.1 ∧ e.splitPower.2.text .unlimited = .ok k.2 := by
    intro e he
    obtain ⟨base, hbase, he⟩ := bind_eq_ok_iff.mp he
    obtain ⟨exponent, hexponent, he⟩ := bind_eq_ok_iff.mp he
    obtain rfl := Except.ok.inj he
    exact ⟨hbase, hexponent⟩
  obtain ⟨hfb, hfe⟩ := htexts hk
  obtain ⟨hgb, hge⟩ := htexts (h.symm.trans hk)
  exact ⟨hfb.trans hgb.symm, hfe.trans hge.symm⟩

theorem splitPower_isTidy {f : Expr} (hf : f.IsTidy) :
    f.splitPower.1.IsTidy ∧ f.splitPower.2.IsTidy := by
  cases f with
  | power b p => exact ⟨hf.base, hf.exponent⟩
  | _ => exact ⟨hf, isTidy_rat 1⟩

theorem size_splitPower_lt {f : Expr} {fs : List Expr} (hf : f ∈ fs) :
    f.splitPower.1.size < (product fs).size ∧ f.splitPower.2.size < (product fs).size := by
  have hsize := size_le_sizeAll hf
  have := f.size_pos
  cases f with
  | power b p =>
    simp only [splitPower, size] at hsize ⊢
    omega
  | _ =>
    simp only [splitPower, size, one] at hsize ⊢
    omega

/-- If the smaller trees are decodable, factors with one key are equal. -/
theorem keysDetermine_of_smaller {e : Expr} (he : e.IsTidy)
    (ih : ∀ d : Expr, d.size < e.size → d.IsTidy → Decodable d) : KeysDetermine e := by
  cases e with
  | product fs =>
    intro f hf g hg hkey
    have hft := (he.of_mem_otherFactors f hf).1
    have hgt := (he.of_mem_otherFactors g hg).1
    obtain ⟨hfb, hfe⟩ := splitPower_isTidy hft
    obtain ⟨hgb, hge⟩ := splitPower_isTidy hgt
    obtain ⟨hfbsize, hfesize⟩ := size_splitPower_lt (mem_otherFactors.mp hf).1
    obtain ⟨hgbsize, hgesize⟩ := size_splitPower_lt (mem_otherFactors.mp hg).1
    obtain ⟨hbase, hexponent⟩ := text_eq_of_factorKey_eq hft.isPrintable hkey
    refine eq_of_splitPower_eq hft hgt (Prod.ext ?_ ?_)
    · exact (ih _ hfbsize hfb).eq_of_text_eq (ih _ hgbsize hgb) hfb hgb hbase
    · exact (ih _ hfesize hfe).eq_of_text_eq (ih _ hgesize hge) hfe hge hexponent
  | _ => exact keysDetermine_of_isProduct_eq_false rfl

end

/-- Every tidy tree is decodable, by induction on the steps of the printer. -/
theorem Expr.IsTidy.decodable {e : Expr} (he : e.IsTidy) : Decodable e := by
  induction hn : printRank e using Nat.strong_induction_on generalizing e with
  | _ n ih =>
  subst hn
  have hkeys : KeysDetermine e := keysDetermine_of_smaller he fun d hd htidy =>
    ih _ (printRank_lt hd) htidy rfl
  exact ⟨hkeys, fun hreads => hreads.decodes he hkeys fun d hd htidy => ih _ hd htidy rfl⟩

/-- Tidy trees with the same text are the same. -/
theorem eq_of_text_eq {d e : Expr} (hd : d.IsTidy) (he : e.IsTidy)
    (h : d.text .unlimited = e.text .unlimited) :
    d = e :=
  hd.decodable.eq_of_text_eq he.decodable hd he h

@[inherit_doc eq_of_text_eq]
theorem eq_of_print_eq {d e : Expr} {text : String} (hd : d.IsTidy) (he : e.IsTidy)
    (h : d.print .unlimited = .ok text) (h' : e.print .unlimited = .ok text) : d = e := by
  obtain ⟨cs, hcs, h⟩ := bind_eq_ok_iff.mp h
  obtain ⟨ds, hds, h'⟩ := bind_eq_ok_iff.mp h'
  have hchars : cs = ds :=
    String.ofList_injective ((Except.ok.inj h).trans (Except.ok.inj h').symm)
  exact eq_of_text_eq hd he (by rw [hcs, hds, hchars])

theorem eq_of_factorKey_eq {f g : Expr} (hf : f.IsTidy) (hg : g.IsTidy)
    (h : f.factorKey .unlimited = g.factorKey .unlimited) : f = g := by
  obtain ⟨hfb, hfe⟩ := splitPower_isTidy hf
  obtain ⟨hgb, hge⟩ := splitPower_isTidy hg
  obtain ⟨hbase, hexponent⟩ := text_eq_of_factorKey_eq hf.isPrintable h
  exact eq_of_splitPower_eq hf hg
    (Prod.ext (eq_of_text_eq hfb hgb hbase) (eq_of_text_eq hfe hge hexponent))

/-! ## Normal forms -/

/-- A normal form of an expression with names of the notation is tidy. -/
theorem normalForm_isTidy {limit : DigitLimit} {e c : Expr} (he : e.Every IsNamedNode)
    (h : normalForm (Settings.standard.within limit) e = .ok c) : c.IsTidy :=
  (isTidy_iff_within limit).mpr (normalForm_isProper he h)

/-- Normal forms that print alike are the same tree, also where the text does not bring it back. -/
theorem print_injective {d e c c' : Expr} {text : String} (hd : d.Every IsNamedNode)
    (he : e.Every IsNamedNode) (hc : normalForm .standard d = .ok c)
    (hc' : normalForm .standard e = .ok c') (h : c.print = .ok text) (h' : c'.print = .ok text) :
    c = c' :=
  eq_of_print_eq (normalForm_isTidy hd hc) (normalForm_isTidy he hc')
    ((print_restricts .standard c).eq_ok h) ((print_restricts .standard c').eq_ok h')

/-- Two expressions whose normal form is written `1/sqrt(4)`, which is read back as another tree. -/
theorem print_injective_inverse_root :
    let d := power (rat 4) (product [minusOne, rat (1 / 2)])
    let e := product [symbol "x", power (rat 4) (rat (-1 / 2)), power (symbol "x") minusOne]
    let c := power (rat 4) (rat (-1 / 2))
    normalForm .standard d = .ok c ∧ c.print = .ok "1/sqrt(4)" ∧
      ∃ c', normalForm .standard e = .ok c' ∧ c'.print = .ok "1/sqrt(4)" ∧ c = c' := by
  intro d e c
  have hx : IsIdentifier "x" := isIdentifier_letter (c := 'x') (by decide)
  have hd : d.Every IsNamedNode := by simp [d, minusOne, IsNamedNode]
  have he : e.Every IsNamedNode := by simp [e, minusOne, IsNamedNode, hx]
  have hexact : c.IsExact := by simp [c]
  have hdc : normalForm .standard d = .ok c :=
    normalForm_eq_ok_of_returns (isExact_of_named hd) hexact (by decide +kernel)
  have hec : normalForm .standard e = .ok c :=
    normalForm_eq_ok_of_returns (isExact_of_named he) hexact (by decide +kernel)
  have hprint : c.print = .ok "1/sqrt(4)" := by decide +kernel
  exact ⟨hdc, hprint, c, hec, hprint, print_injective hd he hdc hec hprint hprint⟩

end AlgebraicForm
