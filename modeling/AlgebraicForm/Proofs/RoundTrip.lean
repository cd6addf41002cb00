import AlgebraicForm.Proofs.Stable

/-!
# A stable tree comes back from its text

A pass turns what the text of a stable tree reads back as into the tree. The proof is by induction
on the steps of the printer, one case for each rule of `Reads`. What the factors of a term come to
is only known up to their order (`Returns`); putting them back in order needs that different bases
have different texts (`KeysDiffer`), which holds because smaller trees come back from their texts.

* `Reads.returns`: what is read back comes to the factors of the tree.
* `pass_of_reads`: a pass over what is read back gives the tree.
-/

namespace AlgebraicForm

open AlgebraicForm.Expr

/-- A pass makes the second expression of the first. -/
def Passes (e c : Expr) : Prop :=
  normalPass .unbounded e = .ok c

/-- A first factor to which the minus sign in front of a term may be given. -/
def TakesSign (f : Expr) : Prop :=
  ∃ h, Passes f h ∧ ((∃ q, h = rat q) ∨ h.IsStable ∧ h.IsFactor ∧ h.isSum = false)

/-- What a pass makes of the factors that an expression is read back as: the expression, if there is
one factor, and else its factors in some order and nesting. -/
structure Returns (e : Expr) (fs : List Expr) : Prop where
  single : ∀ f, fs = [f] → Passes f e
  several : ∃ hs, List.Forall₂ Passes fs hs ∧ (∀ h ∈ hs, h.IsBuilt .unbounded) ∧
    SameFactors (hs.flatMap factors) e.factors
  sign : e.splitSign.1 = false → ∀ f gs, fs = f :: gs → gs ≠ [] → f.isSum = false → TakesSign f

/-- The expression comes back from whatever its text may be read back as. -/
structure Restored (e : Expr) : Prop where
  keys : KeysDiffer e
  returns : ∀ {fs : List Expr}, Reads e fs → Returns e fs

section

variable {e : Expr} {fs : List Expr}

/-- A single factor that comes to the expression. -/
theorem Returns.of_single {f : Expr} (he : e.IsStable) (h : Passes f e) : Returns e [f] where
  single g hg := by
    obtain rfl : f = g := by simpa using hg
    exact h
  several := ⟨[e], .cons h .nil, by simpa using he.isBuilt, by simpa using .refl _⟩
  sign _ g gs hg hne _ := by
    obtain ⟨-, rfl⟩ := List.cons.inj hg
    exact absurd rfl hne

theorem Settings.product_of_sameFactors (he : e.IsStable) (hkeys : KeysDiffer e) {es : List Expr}
    (hes : ∀ d ∈ es, d.IsBuilt .unbounded) (hsame : SameFactors (es.flatMap factors) e.factors) :
    Settings.unbounded.product es = .ok e := by
  obtain ⟨fuel, hfuel⟩ := depthBound_eq (weightAll es)
  rw [Settings.product, hfuel]
  exact AlgebraicForm.product_of_sameFactors he hkeys hes hsame (fuel + 2)

/-- A pass over the product of the factors gives the expression. -/
theorem Returns.pass (h : Returns e fs) (he : e.IsStable) (hkeys : KeysDiffer e) :
    Passes (ofFactors fs) e := by
  obtain ⟨hsingle, ⟨hs, hpass, hbuilt, hsame⟩, -⟩ := h
  unfold ofFactors
  split
  next f => exact hsingle f rfl
  next =>
    unfold Passes
    rw [normalPass, normalPassAll_eq_ok_iff.mpr hpass, ok_bind]
    exact Settings.product_of_sameFactors he hkeys hbuilt hsame

/-- A pass over what is read back gives the expression. -/
theorem Restored.pass (h : Restored e) (he : e.IsStable) (hreads : Reads e fs) :
    Passes (ofFactors fs) e :=
  (h.returns hreads).pass he h.keys

theorem Restored.eq_of_text_eq {d : Expr} (hd : Restored d) (he : Restored e) (hds : d.IsStable)
    (hes : e.IsStable) (htext : d.text .unlimited = e.text .unlimited) : d = e := by
  obtain ⟨_, cs, _, fs, hprints⟩ := exists_prints hds.isPrintable
  obtain ⟨_, cs', _, gs, hprints'⟩ := exists_prints hes.isPrintable
  obtain rfl : cs = cs' := Except.ok.inj (hprints.text.symm.trans (htext.trans hprints'.text))
  have hread := hprints.unique hprints'
  have hpass := hd.pass hds hprints.reads
  rw [hread] at hpass
  exact Except.ok.inj (hpass.symm.trans (he.pass hes hprints'.reads))

/-- If the smaller trees are restored, the bases of factors have different texts. -/
theorem keysDiffer_of_smaller (he : e.IsStable)
    (ih : ∀ d : Expr, d.size < e.size → d.IsStable → Restored d) : KeysDiffer e := by
  intro f hf g hg htext
  have hsmaller : ∀ {f : Expr}, f ∈ otherFactors e.factors → e.isProduct = true →
      f.splitPower.1.size < e.size ∧ f.splitPower.1.IsStable := by
    intro f hf hproduct
    have hstable := he.stableFactors.stable f hf
    cases e with
    | product fs =>
      have hsize := size_le_sizeAll (mem_otherFactors.mp hf).1
      simp only [factors] at hsize
      cases f with
      | power b p =>
        simp only [splitPower, size] at hsize ⊢
        exact ⟨by omega, (isStable_power hstable).1⟩
      | _ =>
        simp only [splitPower, size] at hsize ⊢
        exact ⟨by omega, hstable⟩
    | _ => simp [isProduct] at hproduct
  cases hproduct : e.isProduct with
  | true =>
    obtain ⟨hfsize, hfstable⟩ := hsmaller hf hproduct
    obtain ⟨hgsize, hgstable⟩ := hsmaller hg hproduct
    exact (ih _ hfsize hfstable).eq_of_text_eq (ih _ hgsize hgstable) hfstable hgstable htext
  | false =>
    rw [factors_of_isProduct_eq_false hproduct, mem_otherFactors, List.mem_singleton] at hf hg
    rw [hf.1, hg.1]

/-! ## Literals and signs -/

/-- The numerator and the denominator of a fraction come to it. -/
theorem returns_literal (q : Rat) : Returns (rat q) (literalFactors q) := by
  have hnum : Passes (rat q.num) (rat q.num) := by simp [Passes, normalPass]
  have hden : Passes (power (rat q.den) minusOne) (rat (q.den : Rat)⁻¹) := by
    obtain ⟨fuel, hfuel⟩ := depthBound_eq ((rat q.den).weight + minusOne.weight)
    have hpower : Settings.unbounded.power (rat q.den) minusOne = .ok (rat (q.den : Rat)⁻¹) := by
      rw [Settings.power, hfuel]
      exact power_rat_minusOne (by exact_mod_cast q.den_pos) _
    simpa [Passes, normalPass, minusOne] using hpower
  have hsign : TakesSign (rat q.num) := ⟨rat q.num, hnum, .inl ⟨_, rfl⟩⟩
  by_cases hone : q.den = 1
  · have hq : ((q.num : Int) : Rat) = q := (Rat.den_eq_one_iff q).mp hone
    rw [literalFactors, if_pos hone, hq]
    exact .of_single (isStable_rat q) (by simp [Passes, normalPass])
  · rw [literalFactors, if_neg hone]
    refine ⟨by simp, ⟨_, .cons hnum (.cons hden .nil), by simp, ?_⟩, ?_⟩
    · have hq : (q.num : Rat) * (q.den : Rat)⁻¹ = q := by
        rw [← div_eq_mul_inv, Rat.num_div_den]
      refine ⟨by simp [factors, hq], by simp [factors]⟩
    · rintro - f gs hfs - -
      obtain ⟨rfl, -⟩ := List.cons.inj hfs
      exact hsign

theorem Expr.IsStable.splitSign (he : e.IsStable) : e.splitSign.2.IsStable := by
  cases hs : e.splitSign with
  | mk sign m =>
    cases sign with
    | true => exact (he.magnitude hs).1
    | false => exact splitSign_eq_self hs ▸ he

/-- Minus one and the factors of the magnitude are the factors of the expression. -/
theorem sameFactors_magnitude (he : e.IsStable) {m : Expr} (hsplit : e.splitSign = (true, m)) :
    SameFactors (minusOne :: m.factors) e.factors := by
  obtain ⟨-, hlit, hother⟩ := he.magnitude hsplit
  refine ⟨?_, ?_⟩
  · rw [minusOne, literalProduct_cons_rat, hlit]
    ring
  · rw [minusOne, otherFactors_cons_rat, hother]

/-- A minus sign in front of what comes to the magnitude. -/
theorem passes_negation (he : e.IsStable) (hkeys : KeysDiffer e) {m r : Expr}
    (hsplit : e.splitSign = (true, m)) (h : Passes r m) : Passes (negation r) e := by
  have hm := (he.magnitude hsplit).1
  have hsame := sameFactors_magnitude he hsplit
  unfold Passes at h ⊢
  rw [normalPass, h, ok_bind]
  split
  next v =>
    -- the magnitude is a literal, and so is the expression
    obtain ⟨q, rfl⟩ := hm.isExact.exists_rat
    have heq := he.isBuilt.eq_ofScaled.1
    have hother : otherFactors e.factors = [] := List.perm_nil.mp hsame.other.symm
    have hlit : literalProduct e.factors = -q := by
      rw [← hsame.literal]
      simp [factors, minusOne]
    rw [hother, hlit, ofScaled] at heq
    rw [heq]
    rfl
  next =>
    refine Settings.product_of_sameFactors he hkeys ?_ (by simpa [minusOne, factors] using hsame)
    simpa [minusOne] using hm.isBuilt

/-- A minus sign in front of a single factor. -/
theorem TakesSign.negation {f h : Expr} (hf : TakesSign f) (hpass : Passes f h) :
    ∃ h', Passes (negation f) h' ∧ h'.IsBuilt .unbounded ∧
      SameFactors h'.factors (minusOne :: h.factors) := by
  obtain ⟨c, hc, hcases⟩ := hf
  obtain rfl : c = h := Except.ok.inj (hc.symm.trans hpass)
  rcases hcases with ⟨q, rfl⟩ | ⟨hstable, hfactor, hnosum⟩
  · refine ⟨rat (-q), ?_, isBuilt_rat _, ?_⟩
    · unfold Passes at hpass ⊢
      rw [normalPass, hpass, ok_bind]
      rfl
    · refine ⟨?_, ?_⟩ <;> simp [factors, minusOne]
  · have hfactors : c.factors = [c] := factors_of_isProduct_eq_false hfactor.2
    obtain ⟨hneg, hlit, hother⟩ := isStable_ofScaled (q := -1)
      (show StableFactors (-1) [c] from
        ⟨by simpa using hstable, by simpa using hfactor, by simp [DistinctBases],
          List.pairwise_singleton _ _, by rintro ts ⟨-, hts⟩; simp_all [isSum]⟩) (by norm_num)
    have hkeys : KeysDiffer (ofScaled (-1) [c]) := by
      intro f hf g hg _
      rw [hother, List.mem_singleton] at hf hg
      rw [hf, hg]
    have hsame : SameFactors (ofScaled (-1) [c]).factors (minusOne :: c.factors) := by
      rw [hfactors]
      refine ⟨?_, ?_⟩
      · rw [hlit, minusOne, literalProduct_cons_rat, literalProduct_cons hfactor.1]
        simp
      · rw [hother, minusOne, otherFactors_cons_rat, otherFactors_cons hfactor.1]
        simp
    refine ⟨ofScaled (-1) [c], ?_, hneg.isBuilt, hsame⟩
    unfold Passes at hpass ⊢
    rw [normalPass, hpass, ok_bind]
    split
    next => simp [IsFactor, isNumber] at hfactor
    next =>
      refine Settings.product_of_sameFactors hneg hkeys ?_ ?_
      · simpa [minusOne] using hstable.isBuilt
      · simpa [minusOne, factors] using hsame.symm

/-- What is read back of a magnitude, with the sign in front. -/
theorem returns_signed (he : e.IsStable) (hkeys : KeysDiffer e) {m : Expr} {gs : List Expr}
    (hsplit : e.splitSign = (true, m)) (hm : Restored m) (hreads : Reads m fs)
    (hneg : Negates fs gs) : Returns e gs := by
  obtain ⟨hstable, hlit, -⟩ := he.magnitude hsplit
  have hwhole : Passes (negation (ofFactors fs)) e :=
    passes_negation he hkeys hsplit (hm.pass hstable hreads)
  cases hneg with
  | all => exact .of_single he hwhole
  | @first f fs hnosum =>
    cases fs with
    | nil => exact .of_single he hwhole
    | cons g fs =>
      obtain ⟨-, ⟨hs, hpass, hbuilt, hsame⟩, hsign⟩ := hm.returns hreads
      -- the magnitude has no sign of its own
      have hpositive : m.splitSign.1 = false := by
        cases hm' : m.splitSign with
        | mk sign m' =>
          cases sign with
          | true =>
            have := (hstable.isBuilt.splitSign_eq hm').1
            have := (he.isBuilt.splitSign_eq hsplit).1
            linarith
          | false => rfl
      rcases hpass with _ | @⟨_, h, _, hs, hfh, hrest⟩
      obtain ⟨h', hh', hbuilt', hsame'⟩ :=
        (hsign hpositive f (g :: fs) rfl (by simp) hnosum).negation hfh
      refine ⟨by simp, ⟨h' :: hs, .cons hh' hrest, ?_, ?_⟩, fun hfalse => ?_⟩
      · rw [List.forall_mem_cons] at hbuilt ⊢
        exact ⟨hbuilt', hbuilt.2⟩
      · have hfirst : SameFactors (h'.factors ++ hs.flatMap factors)
            ((minusOne :: h.factors) ++ hs.flatMap factors) := hsame'.append (.refl _)
        have hlater : SameFactors ([minusOne] ++ (h :: hs).flatMap factors)
            ([minusOne] ++ m.factors) := (SameFactors.refl _).append hsame
        exact hfirst.trans (hlater.trans (sameFactors_magnitude he hsplit))
      · rw [hsplit] at hfalse
        simp at hfalse

/-! ## Sums -/

/-- Terms have keys if those of them that are not zero have texts. -/
theorem exists_keyedTerms_iff {s : Settings} {gs : List (Expr × Rat)} :
    (∃ ks, keyedTerms s (exactGroups gs) = .ok ks) ↔
      ∀ g ∈ gs, g.2 ≠ 0 → ∃ cs, g.1.text s.digits = .ok cs := by
  induction gs with
  | nil => exact iff_of_true ⟨[], rfl⟩ nofun
  | cons g gs ih =>
    obtain ⟨body, c⟩ := g
    rw [List.forall_mem_cons, ← ih, exactGroups, List.map_cons, keyedTerms, Number.isZero_exact]
    by_cases hc : c = 0
    · simp [hc, exactGroups]
    · simp only [hc, decide_false, Bool.false_eq_true, ↓reduceIte, ne_eq, not_false_eq_true,
        forall_const, bind_eq_ok_iff]
      constructor
      · rintro ⟨-, cs, hcs, ks, hks, -⟩
        exact ⟨⟨cs, hcs⟩, ks, hks⟩
      · rintro ⟨⟨cs, hcs⟩, ks, hks⟩
        exact ⟨_, cs, hcs, ks, hks, rfl⟩

theorem passes_sum {ts rs : List Expr} (he : (sum ts).IsStable) (h : List.Forall₂ Passes rs ts) :
    Passes (sum rs) (sum ts) := by
  have hflat : ts.flatMap terms = ts := flatMap_terms_eq_self (every_sum.mp he).1.settled
  obtain ⟨⟨-, k, gs, hts, hgs⟩, hbuilt⟩ := isBuilt_sum.mp he.isBuilt
  have hterm : ∀ t ∈ groupTerms gs, t ∈ ts := fun t ht => by rw [hts]; simp [ht]
  have hbodies := hgs.isBuilt fun t ht => hbuilt t (hterm t ht)
  have htexts : ∀ g ∈ gs, ∃ cs, g.1.text .unlimited = .ok cs := by
    intro g hg
    have hprintable := (he.of_mem_sum _ (hterm _ (List.mem_map_of_mem hg))).isPrintable
    have hnamed := leafProperty_isNamedNode.every_scale_iff.mp hprintable.named
    exact ((hbodies g hg).isPrintable hnamed).exists_text
  obtain ⟨ks, hks⟩ :=
    (exists_keyedTerms_iff (s := .unbounded)).mpr fun g hg _ => htexts g hg
  have hcollect := collectTerms_built (k := k) hgs fun t ht => hbuilt t (hterm t ht)
  rw [← hts, ← hflat] at hcollect
  have hsum := (buildSum_eq_ok hcollect).mpr ⟨ks, hks, rfl⟩
  unfold Passes
  rw [normalPass, normalPassAll_eq_ok_iff.mpr h, ok_bind, hsum]
  exact congrArg Except.ok (buildSum_settled he.isBuilt hflat hsum)

/-- A later term comes back with its sign. -/
theorem passes_signedTerm {l : Expr × List Expr} (he : l.1.IsStable) (h : Restored l.1)
    (hmagnitude : Restored l.1.splitSign.2) (hreads : Reads l.1.splitSign.2 l.2) :
    Passes (signedTerm l) l.1 := by
  unfold signedTerm
  cases hs : l.1.splitSign with
  | mk sign m =>
    rw [hs] at hreads hmagnitude
    cases sign with
    | true =>
      have hm := hmagnitude.pass (he.magnitude hs).1 hreads
      simpa using passes_negation he h.keys hs hm
    | false =>
      obtain rfl := splitSign_eq_self hs
      simpa using h.pass he hreads

/-! ## Powers -/

theorem passes_power {b p r t : Expr} (he : (power b p).IsBuilt .unbounded) (hb : Passes r b)
    (hp : Passes t p) : Passes (power r t) (power b p) := by
  obtain ⟨fuel, hfuel⟩ := depthBound_eq (b.weight + p.weight)
  unfold Passes at *
  rw [normalPass, hb, ok_bind, hp, ok_bind, Settings.power, hfuel]
  exact buildPower_of_isBuilt he _

theorem passes_root {b r : Expr} (he : (power b (rat (1 / 2))).IsBuilt .unbounded)
    (hb : Passes r b) : Passes (call "sqrt" [r]) (power b (rat (1 / 2))) := by
  obtain ⟨fuel, hfuel⟩ := depthBound_eq (b.weight + (rat (1 / 2)).weight)
  have hall : normalPassAll .unbounded [r] = .ok [b] :=
    normalPassAll_eq_ok_iff.mpr (.cons hb .nil)
  unfold Passes
  rw [normalPass, hall, ok_bind]
  simp only [if_true, Number.half_eq]
  rw [Settings.power, hfuel]
  exact buildPower_of_isBuilt he _

/-- What is written below the line comes to the power there. -/
theorem passes_belowLine {b r : Expr} {v : Rat} (he : (power b (rat v)).IsStable) (hv : v < 0)
    (hb : b.isZeroNumber = false) (h : Passes r b) :
    Passes (belowLine (-v) r) (power b (rat v)).flipped := by
  have hbuilt := (flipped_isBuilt he hv hb).1
  by_cases hone : v = -1
  · subst hone
    simpa [belowLine, flipped] using h
  · have hne : -v ≠ 1 := fun h => hone (by linarith)
    have hflip : (power b (rat v)).flipped = power b (rat (-v)) := by simp [flipped, hone]
    rw [hflip] at hbuilt ⊢
    rw [belowLine, if_neg hne]
    split
    next hhalf =>
      rw [hhalf] at hbuilt ⊢
      exact passes_root hbuilt h
    next =>
      -- the exponent is a literal or a quotient of two
      have hkeys : KeysDiffer (rat (-v)) := by
        intro f hf
        simp [factors] at hf
      exact passes_power hbuilt h ((returns_literal (-v)).pass (isStable_rat _) hkeys)

/-- A power with a negative exponent comes back from the quotient that it is written as. -/
theorem passes_reciprocal {b r : Expr} {v : Rat} (he : (power b (rat v)).IsStable) (hv : v < 0)
    (hb : b.isZeroNumber = false) (h : Passes r b) :
    Passes (power (belowLine (-v) r) minusOne) (power b (rat v)) := by
  have hbelow := passes_belowLine he hv hb h
  have hminus : Passes minusOne minusOne := by simp [Passes, normalPass, minusOne]
  obtain ⟨fuel, hfuel⟩ := depthBound_eq ((power b (rat v)).flipped.weight + minusOne.weight)
  unfold Passes at *
  rw [normalPass, hbelow, ok_bind, hminus, ok_bind, Settings.power, hfuel]
  exact power_flipped he (fuel + 1)

/-! ## Quotients -/

/-- What stands below the line comes to a divisor whose reciprocal has the factors there. -/
theorem passes_divisor {d : Rat} (hd : 0 < d) {fs ds : List Expr}
    (hfs : ∀ f ∈ fs, f.IsStable ∧ f.isDivided = true) (hdistinct : DistinctBases fs)
    (hds : List.Forall₂ Passes ds (coefficientFactor d ++ fs.map flipped)) :
    ∃ r, Passes (power (ofFactors ds) minusOne) r ∧ r.IsBuilt .unbounded ∧
      SameFactors r.factors (rat d⁻¹ :: fs) := by
  obtain ⟨fuel, hfuel⟩ := depthBound_eq (weightAll (coefficientFactor d ++ fs.map flipped))
  obtain ⟨c, hbuild, hsingle, hpower⟩ := divide_flipped hd hfs hdistinct (fuel + 2)
  obtain ⟨fuel', hfuel'⟩ := depthBound_eq (c.weight + minusOne.weight)
  obtain ⟨r, hsame, hr⟩ := hpower fuel'
  have hbuilt : ∀ x ∈ coefficientFactor d ++ fs.map flipped, x.IsBuilt .unbounded := by
    rw [List.forall_mem_append, List.forall_mem_map]
    refine ⟨?_, fun f hf => ?_⟩
    · unfold coefficientFactor
      split <;> simp
    · obtain ⟨b, v, rfl, hv, hb, -⟩ := divided_of_isDivided (hfs f hf).1.isExact (hfs f hf).2
      exact (flipped_isBuilt (hfs _ hf).1 hv hb).1
  have hc : c.IsBuilt .unbounded := (builders_isBuilt .unbounded _).1 hbuilt hbuild
  have hpass : Passes (ofFactors ds) c := by
    unfold ofFactors
    split
    next x =>
      obtain ⟨y, ys, hxy, hrest, heq⟩ := List.forall₂_cons_left_iff.mp hds
      rw [List.forall₂_nil_left_iff.mp hrest] at heq
      exact hsingle y heq ▸ hxy
    next =>
      unfold Passes
      rw [normalPass, normalPassAll_eq_ok_iff.mpr hds, ok_bind, Settings.product, hfuel]
      exact hbuild
  have hminus : Passes minusOne minusOne := by simp [Passes, normalPass, minusOne]
  refine ⟨r, ?_, (builders_isBuilt .unbounded _).2 hc (isBuilt_rat _) hr, hsame⟩
  unfold Passes at hpass hminus ⊢
  rw [normalPass, hpass, ok_bind, hminus, ok_bind, Settings.power, hfuel']
  exact hr

theorem passes_call {n : String} {es ds : List Expr} (he : (call n es).IsBuilt .unbounded)
    (h : List.Forall₂ Passes ds es) : Passes (call n ds) (call n es) := by
  unfold Passes
  rw [normalPass, normalPassAll_eq_ok_iff.mpr h, ok_bind]
  split
  next d =>
    -- a root has more than one argument
    rw [if_neg fun hn => (isBuilt_call.mp he).1 hn rfl]
    rfl
  next => rfl

theorem Reads.isSum (h : Reads e fs) (he : e.IsBuilt .unbounded) (hsum : e.isSum = true) :
    (ofFactors fs).isSum = true := by
  cases h with
  | sum => rfl
  | singleTerm =>
    obtain ⟨⟨hlen, -⟩, -⟩ := isBuilt_sum.mp he
    simp at hlen
  | signed _ hsplit =>
    cases e <;> simp_all [isSum, splitSign]
  | _ => simp [isSum] at hsum

/-- The pieces above and below the line are the factors, in another order. -/
theorem ReadPieces.perm (ls : ReadPieces) :
    ((ls.filter (!·.1.isDivided)).map (·.1) ++ (ls.filter (·.1.isDivided)).map (·.1)).Perm
      (ls.map (·.1)) := by
  rw [← List.map_append]
  have h := List.filter_append_perm (fun l : Expr × List Expr => !l.1.isDivided) ls
  simp only [Bool.not_not] at h
  exact h.map _

theorem Expr.IsStable.pieceBody (he : e.IsStable) : e.pieceBody.IsStable := by
  unfold Expr.pieceBody
  split
  · split
    · exact (isStable_power he).1
    · exact he
  · exact he

/-- What is read back above the line comes to the factors there. -/
theorem ReadPieces.passes_above {ls : ReadPieces}
    (hpass : ∀ l ∈ ls, Passes (ofFactors l.2) l.1.pieceBody) :
    List.Forall₂ Passes ls.above ((ls.filter (!·.1.isDivided)).map (·.1)) := by
  rw [above, List.forall₂_map_left_iff, List.forall₂_map_right_iff, List.forall₂_same]
  intro l hl
  simp only [List.mem_filter, Bool.not_eq_true'] at hl
  have hbody := hpass l hl.1
  rwa [pieceBody_of_isDivided_eq_false hl.2] at hbody

/-- What is read back below the line comes to the powers there. -/
theorem ReadPieces.passes_below {ls : ReadPieces} (hstable : ∀ l ∈ ls, l.1.IsStable)
    (hpass : ∀ l ∈ ls, Passes (ofFactors l.2) l.1.pieceBody) :
    List.Forall₂ Passes ls.below (((ls.filter (·.1.isDivided)).map (·.1)).map flipped) := by
  rw [List.map_map, below, List.forall₂_map_left_iff, List.forall₂_map_right_iff,
    List.forall₂_same]
  intro l hl
  rw [List.mem_filter] at hl
  obtain ⟨b, v, heq, hv, hb, hbody, hexponent⟩ :=
    divided_of_isDivided (hstable l hl.1).isExact hl.2
  have hl' := hstable l hl.1
  have hr := hpass l hl.1
  rw [hbody] at hr
  rw [heq] at hl'
  rw [Function.comp_apply, hexponent, heq]
  exact passes_belowLine hl' hv hb hr

theorem mem_of_pieces {q : Rat} {es : List Expr} {ls : ReadPieces}
    (hes : es = rat q :: ls.map (·.1) ∨ (q = 1 ∧ es = ls.map (·.1))) : ∀ l ∈ ls, l.1 ∈ es := by
  intro l hl
  rcases hes with rfl | ⟨-, rfl⟩
  · exact List.mem_cons_of_mem _ (List.mem_map_of_mem hl)
  · exact List.mem_map_of_mem hl

/-- A list that is a coefficient and further factors has the factors of these. -/
theorem sameFactors_pieces {q : Rat} {es fs : List Expr}
    (hes : es = rat q :: fs ∨ (q = 1 ∧ es = fs)) : SameFactors (rat q :: fs) es := by
  rcases hes with rfl | ⟨rfl, rfl⟩
  · exact .refl _
  · exact ⟨by simp, .refl _⟩

theorem sameFactors_coefficientFactor (c : Rat) (fs : List Expr) :
    SameFactors (coefficientFactor c ++ fs) (rat c :: fs) := by
  refine ⟨by simp, ?_⟩
  rw [otherFactors_append, otherFactors_coefficientFactor]
  exact .refl _

/-- What stands above the line comes to the numerator and the factors there. -/
theorem passes_top {c : Rat} {ns fs : List Expr}
    (hfs : ∀ f ∈ fs, f.IsBuilt .unbounded ∧ f.isProduct = false)
    (h : List.Forall₂ Passes ns (coefficientFactor c ++ fs)) :
    ∃ hs, List.Forall₂ Passes (if ns = [] then [one] else ns) hs ∧
      (∀ h ∈ hs, h.IsBuilt .unbounded) ∧ SameFactors (hs.flatMap factors) (rat c :: fs) := by
  have hsame := sameFactors_coefficientFactor c fs
  split
  next hnil =>
    -- nothing is written above the line, where the one stands
    rw [hnil, List.forall₂_nil_left_iff] at h
    rw [h] at hsame
    refine ⟨[one], .cons (by simp [Passes, normalPass, one]) .nil, by simp [one], ?_⟩
    refine SameFactors.trans ⟨?_, ?_⟩ hsame <;> simp [one, factors]
  next =>
    refine ⟨_, h, ?_, ?_⟩
    · rw [List.forall_mem_append]
      refine ⟨?_, fun f hf => (hfs f hf).1⟩
      unfold coefficientFactor
      split <;> simp
    · rw [flatMap_factors_eq_self]
      · exact hsame
      · rw [List.forall_mem_append]
        refine ⟨?_, fun f hf => (hfs f hf).2⟩
        unfold coefficientFactor
        split <;> simp [isProduct]

/-- What stands below the line comes to the reciprocals of the denominator and the factors there. -/
theorem passes_bottom {d : Rat} (hd : 0 < d) {ds fs : List Expr}
    (hfs : ∀ f ∈ fs, f.IsStable ∧ f.isDivided = true) (hdistinct : DistinctBases fs)
    (h : List.Forall₂ Passes ds (coefficientFactor d ++ fs.map flipped)) :
    ∃ hs, List.Forall₂ Passes (if ds = [] then [] else [power (ofFactors ds) minusOne]) hs ∧
      (∀ h ∈ hs, h.IsBuilt .unbounded) ∧ SameFactors (hs.flatMap factors) (rat d⁻¹ :: fs) := by
  split
  next hnil =>
    rw [hnil, List.forall₂_nil_left_iff, List.append_eq_nil_iff, List.map_eq_nil_iff] at h
    obtain ⟨hone, rfl⟩ := h
    have hd : d = 1 := by
      by_contra hd
      simp [coefficientFactor, hd] at hone
    subst hd
    exact ⟨[], .nil, by simp, by simp, by simp⟩
  next =>
    obtain ⟨r, hr, hbuilt, hsame⟩ := passes_divisor hd hfs hdistinct h
    exact ⟨[r], .cons hr .nil, by simpa using hbuilt, by simpa using hsame⟩

theorem distinctBases_below {q : Rat} {es : List Expr} {ls : ReadPieces}
    (he : (product es).IsStable)
    (hes : es = rat q :: ls.map (·.1) ∨ (q = 1 ∧ es = ls.map (·.1))) :
    DistinctBases ((ls.filter (·.1.isDivided)).map (·.1)) := by
  have hdistinct : DistinctBases (otherFactors (ls.map (·.1))) :=
    ((sameFactors_pieces hes).other.map _).nodup_iff.mpr he.stableFactors.distinct
  have hsublist :
      ((ls.filter (·.1.isDivided)).map (·.1)).Sublist (otherFactors (ls.map (·.1))) := by
    have hmap : (ls.filter (·.1.isDivided)).map (·.1) = (ls.map (·.1)).filter isDivided := by
      rw [List.filter_map]
      rfl
    rw [hmap]
    refine List.monotone_filter_right _ fun e he => ?_
    cases e <;> simp_all [isDivided, isNumber]
  exact hdistinct.sublist (hsublist.map _)

/-- The factors above and below the line are all factors, and the numerator over the denominator is
the coefficient. -/
theorem sameFactors_line (q : Rat) (ls : ReadPieces) :
    SameFactors (rat q.num :: (ls.filter (!·.1.isDivided)).map (·.1) ++
      rat (q.den : Rat)⁻¹ :: (ls.filter (·.1.isDivided)).map (·.1)) (rat q :: ls.map (·.1)) := by
  have hq : (q.num : Rat) * (q.den : Rat)⁻¹ = q := by
    rw [← div_eq_mul_inv, Rat.num_div_den]
  have hperm := SameFactors.perm ls.perm
  refine ⟨?_, ?_⟩
  · have hlit := hperm.literal
    rw [literalProduct_append] at hlit
    rw [literalProduct_append, literalProduct_cons_rat, literalProduct_cons_rat,
      literalProduct_cons_rat, ← hlit, mul_mul_mul_comm, hq]
  · simpa using hperm.other

/-- A quotient with anything below the line has two factors, and one without has those above. -/
theorem two_le_length_quotientFactors {ns ds : List Expr} (h : ds ≠ [] ∨ 2 ≤ ns.length) :
    2 ≤ (quotientFactors ns ds).length := by
  have hns : 1 ≤ (if ns = [] then [one] else ns).length := by
    split
    next => simp
    next hne => exact List.length_pos_of_ne_nil hne
  unfold quotientFactors
  rw [List.length_append]
  rcases h with hds | hlen
  · rw [if_neg hds, List.length_singleton]
    omega
  · rw [if_neg (by rintro rfl; simp at hlen)]
    omega

theorem two_le_length_pieces {q : Rat} {es : List Expr} {ls : ReadPieces}
    (he : (product es).IsBuilt .unbounded)
    (hes : es = rat q :: ls.map (·.1) ∨ (q = 1 ∧ es = ls.map (·.1))) :
    2 ≤ (quotientFactors (coefficientFactor q.num ++ ls.above)
      (coefficientFactor q.den ++ ls.below)).length := by
  obtain ⟨⟨hlen, q', gs, -, -, heq, hgs⟩, -⟩ := isBuilt_product.mp he
  apply two_le_length_quotientFactors
  by_contra hfew
  push Not at hfew
  obtain ⟨hnil, hone⟩ := hfew
  -- nothing is below the line, so that all factors are above it
  obtain ⟨hden, hbelow⟩ := List.append_eq_nil_iff.mp hnil
  have hden : q.den = 1 := by
    by_contra h
    simp [coefficientFactor, h] at hden
  have hq : (q.num : Rat) = q := (Rat.den_eq_one_iff q).mp hden
  have habove : ls.above.length = ls.length := by
    have hfilter : ls.filter (·.1.isDivided) = [] := by
      simpa [ReadPieces.below] using hbelow
    have := ls.perm.length_eq
    simpa [ReadPieces.above, hfilter] using this
  rw [hq, List.length_append, habove] at hone
  rcases hes with rfl | ⟨-, rfl⟩
  · -- a coefficient that is written is not one
    have hne : q ≠ 1 := by
      rintro rfl
      by_cases hq' : q' = 1
      · rw [hq', coefficientFactor, if_pos rfl, List.nil_append] at heq
        have hfactor := hgs.factor (rat 1) (by rw [← heq]; simp)
        simp [IsFactor, isNumber] at hfactor
      · rw [coefficientFactor, if_neg hq'] at heq
        simp only [List.cons_append, List.cons.injEq, number.injEq, Number.exact.injEq] at heq
        exact hq' heq.1.symm
    have hc : (coefficientFactor q).length = 1 := by simp [coefficientFactor, hne]
    rw [hc] at hone
    rw [List.length_cons, List.length_map] at hlen
    omega
  · rw [List.length_map] at hlen
    omega

/-- What is read back of a quotient. -/
theorem returns_quotient {q : Rat} {es : List Expr} {ls : ReadPieces} (he : (product es).IsStable)
    (hes : es = rat q :: ls.map (·.1) ∨ (q = 1 ∧ es = ls.map (·.1)))
    (hreads : ∀ l ∈ ls, Reads l.1.pieceBody l.2) (hpieces : ∀ l ∈ ls, Restored l.1.pieceBody) :
    Returns (product es) (quotientFactors
      ((if q.num = 1 then [] else [rat q.num]) ++ ls.above)
      ((if q.den = 1 then [] else [rat q.den]) ++ ls.below)) := by
  have hmem := mem_of_pieces hes
  have hstable : ∀ l ∈ ls, l.1.IsStable := fun l hl => he.of_mem_product _ (hmem l hl)
  have hproduct : ∀ l ∈ ls, l.1.isNumber = false → l.1.IsFactor := fun l hl =>
    (forall_mem_factors he.isBuilt l.1 (hmem l hl)).2
  have hpass : ∀ l ∈ ls, Passes (ofFactors l.2) l.1.pieceBody := fun l hl =>
    (hpieces l hl).pass (hstable l hl).pieceBody (hreads l hl)
  have hnum : (if q.num = 1 then [] else [rat q.num]) = coefficientFactor (q.num : Rat) := by
    simp [coefficientFactor]
  have hden : (if q.den = 1 then [] else [rat q.den]) = coefficientFactor (q.den : Rat) := by
    simp [coefficientFactor]
  rw [hnum, hden]
  have hself : ∀ c : Rat, List.Forall₂ Passes (coefficientFactor c) (coefficientFactor c) := by
    intro c
    unfold coefficientFactor
    split
    · exact .nil
    · exact .cons (by simp [Passes, normalPass]) .nil
  have habove := List.rel_append (hself q.num) (ReadPieces.passes_above hpass)
  have hbelow := List.rel_append (hself q.den) (ReadPieces.passes_below hstable hpass)
  obtain ⟨tops, htops, htopsbuilt, htopssame⟩ := passes_top (by
    rw [List.forall_mem_map]
    intro l hl
    have hl := (List.mem_filter.mp hl).1
    refine ⟨(hstable l hl).isBuilt, ?_⟩
    cases hnumber : l.1.isNumber with
    | true => exact isProduct_of_isNumber hnumber
    | false => exact (hproduct l hl hnumber).2) habove
  obtain ⟨bottoms, hbottoms, hbottomsbuilt, hbottomssame⟩ := passes_bottom
    (by exact_mod_cast q.den_pos) (by
      rw [List.forall_mem_map]
      intro l hl
      rw [List.mem_filter] at hl
      exact ⟨hstable l hl.1, hl.2⟩) (distinctBases_below he hes) hbelow
  refine ⟨?_, ⟨tops ++ bottoms, List.rel_append htops hbottoms, ?_, ?_⟩, ?_⟩
  · intro f hf
    have hlen := two_le_length_pieces he.isBuilt hes
    rw [hf] at hlen
    simp at hlen
  · exact List.forall_mem_append.mpr ⟨htopsbuilt, hbottomsbuilt⟩
  · rw [List.flatMap_append]
    exact (htopssame.append hbottomssame).trans
      ((sameFactors_line q ls).trans (sameFactors_pieces hes))
  · rintro - f gs hfs - hnosum
    -- the first factor is one of those above the line
    have hf : f ∈ (if coefficientFactor q.num ++ ls.above = [] then [one]
        else coefficientFactor q.num ++ ls.above) := by
      rw [quotientFactors] at hfs
      generalize htop : (if coefficientFactor (q.num : Rat) ++ ls.above = [] then [one]
        else coefficientFactor q.num ++ ls.above) = top at hfs ⊢
      cases top with
      | nil => split at htop <;> simp_all
      | cons g top => simp_all
    split at hf
    next =>
      obtain rfl := List.mem_singleton.mp hf
      exact ⟨one, by simp [Passes, normalPass, one], .inl ⟨1, rfl⟩⟩
    next =>
      rcases List.mem_append.mp hf with hf | hf
      · unfold coefficientFactor at hf
        split at hf
        · simp at hf
        · obtain rfl := List.mem_singleton.mp hf
          exact ⟨rat q.num, by simp [Passes, normalPass], .inl ⟨_, rfl⟩⟩
      · obtain ⟨l, hl, rfl⟩ := List.mem_map.mp hf
        simp only [List.mem_filter, Bool.not_eq_true'] at hl
        have hbody := pieceBody_of_isDivided_eq_false hl.2
        have hl1 := hstable l hl.1
        refine ⟨l.1, by rw [← hbody]; exact hpass l hl.1, ?_⟩
        rcases hl1.isExact.rat_or_isNumber_eq_false with ⟨a, ha⟩ | hnumber
        · exact .inl ⟨a, ha⟩
        · refine .inr ⟨hl1, hproduct l hl.1 hnumber, ?_⟩
          by_contra hsum
          have hread := hreads l hl.1
          rw [hbody] at hread
          rw [hread.isSum hl1.isBuilt (by simpa using hsum)] at hnosum
          simp at hnosum

/-! ## Every stable tree -/

/-- What the parts of an expression come to decides what the expression comes to. -/
theorem Reads.returns (h : Reads e fs) (he : e.IsStable) (hkeys : KeysDiffer e)
    (ih : ∀ d : Expr, printRank d < printRank e → d.IsStable → Restored d) : Returns e fs := by
  have hsmaller : ∀ {d : Expr}, d.size < e.size → d.IsStable → Restored d := fun hd =>
    ih _ (printRank_lt hd)
  cases h with
  | literal => exact returns_literal _
  | symbol n => exact .of_single he (by simp [Passes, normalPass])
  | @signed _ m fs gs hexact hsplit hm hneg =>
    have hmagnitude := (he.magnitude hsplit).1
    exact returns_signed he hkeys hsplit (ih m (printRank_splitSign_lt hexact hsplit) hmagnitude)
      hm hneg
  | singleTerm =>
    obtain ⟨⟨hlen, -⟩, -⟩ := isBuilt_sum.mp he.isBuilt
    simp at hlen
  | @sum t fs ls _ _ ht hls =>
    refine .of_single he (passes_sum he (.cons ?_ ?_))
    · have hstable := he.of_mem_sum t (by simp)
      refine (hsmaller ?_ hstable).pass hstable ht
      simp only [size, sizeAll]
      omega
    · rw [List.forall₂_map_left_iff, List.forall₂_map_right_iff, List.forall₂_same]
      intro l hl
      have hmem : l.1 ∈ ls.map (·.1) := List.mem_map_of_mem hl
      have hstable := he.of_mem_sum l.1 (List.mem_cons_of_mem _ hmem)
      have hsize : l.1.size < (Expr.sum (t :: ls.map (·.1))).size := by
        have := size_le_sizeAll hmem
        simp only [size, sizeAll]
        omega
      have hmagnitude := l.1.size_splitSign_le
      exact passes_signedTerm hstable (hsmaller hsize hstable)
        (hsmaller (by omega) hstable.splitSign) (hls l hl)
  | @quotient q es ls _ _ hes _ hreads =>
    refine returns_quotient he hes hreads fun l hl => ?_
    have hmem := mem_of_pieces hes l hl
    refine hsmaller ?_ (he.of_mem_product _ hmem).pieceBody
    have hsize := size_le_sizeAll hmem
    have hbody := size_pieceBody_le l.1
    simp only [size]
    omega
  | @root b fs hb =>
    have hstable := (isStable_power he).1
    refine .of_single he (passes_root he.isBuilt ((hsmaller ?_ hstable).pass hstable hb))
    simp only [size]
    omega
  | @zeroReciprocal v fs _ hv =>
    have hzero : Passes zero zero := by simp [Passes, normalPass, zero]
    refine .of_single he (passes_power he.isBuilt hzero
      ((hsmaller ?_ (isStable_rat v)).pass (isStable_rat v) hv))
    simp only [size, zero]
    omega
  | @reciprocal b v fs hv hzero hb =>
    have hstable := (isStable_power he).1
    have hbase : Passes (ofFactors fs) b := by
      refine (hsmaller ?_ hstable).pass hstable hb
      simp only [size]
      omega
    have hone : Passes one one := by simp [Passes, normalPass, one]
    refine ⟨by simp, ⟨[one, Expr.power b (rat v)],
      .cons hone (.cons (passes_reciprocal he hv hzero hbase) .nil), ?_, ?_⟩, ?_⟩
    · simpa [one] using he.isBuilt
    · exact ⟨by simp [one, factors], .refl _⟩
    · rintro - f gs hfs - -
      obtain ⟨rfl, -⟩ := List.cons.inj hfs
      exact ⟨one, hone, .inl ⟨1, rfl⟩⟩
  | @power b p fs gs _ _ hb hp =>
    obtain ⟨hbstable, hpstable⟩ := isStable_power he
    refine .of_single he (passes_power he.isBuilt ((hsmaller ?_ hbstable).pass hbstable hb)
      ((hsmaller ?_ hpstable).pass hpstable hp))
    all_goals
      have := b.size_pos
      have := p.size_pos
      simp only [size]
      omega
  | call n ls hreads =>
    refine .of_single he (passes_call he.isBuilt ?_)
    rw [List.forall₂_map_left_iff, List.forall₂_map_right_iff, List.forall₂_same]
    intro l hl
    have hmem : l.1 ∈ ls.map (·.1) := List.mem_map_of_mem hl
    have hstable := he.of_mem_call l.1 hmem
    refine (hsmaller ?_ hstable).pass hstable (hreads l hl)
    have := size_le_sizeAll hmem
    simp only [size]
    omega

end

/-- Every stable tree comes back from its text, by induction on the steps of the printer. -/
theorem Expr.IsStable.restored {e : Expr} (he : e.IsStable) : Restored e := by
  induction hn : printRank e using Nat.strong_induction_on generalizing e with
  | _ n ih =>
  subst hn
  have hkeys : KeysDiffer e := keysDiffer_of_smaller he fun d hd hstable =>
    ih _ (printRank_lt hd) hstable rfl
  exact ⟨hkeys, fun hreads => hreads.returns he hkeys fun d hd hstable => ih _ hd hstable rfl⟩

/-- A pass over what the text of a stable tree is read back as gives the tree. -/
theorem pass_of_reads {e : Expr} {fs : List Expr} (he : e.IsStable) (h : Reads e fs) :
    normalPass .unbounded (ofFactors fs) = .ok e :=
  he.restored.pass he h

end AlgebraicForm
