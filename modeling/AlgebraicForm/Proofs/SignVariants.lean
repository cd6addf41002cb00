import AlgebraicForm.Answer.Form
import AlgebraicForm.Proofs.ProductParts

/-!
# Sign variants of a product

Negating a factor changes which bases a product collects: `(a-b)(a-b)` is a square, and
`(a-b)(b-a)` is not. When the signs are out, an even number of negations has made no difference.

* `HasParts.value_eq`: products with the same parts have the same value.
* `HasParts.turn_powers`, `HasParts.turn_sums`: turning sums round changes the sign of the
  coefficient.
* `TurnsInto`: what negating some operands does to their factors.
* `TurnsInto.value_eq`: what that does to the product.
* `stripped_negateMarked`: the sign variants of a product have one stripped form.
-/

namespace AlgebraicForm

open AlgebraicForm.Expr

/-! ## Products with the same parts -/

/-- A product with a part that is zero comes to zero. -/
theorem CombinesTo.eq_zero {q : Rat} {ps : List Signed} {p : Signed} (h : CombinesTo q ps p)
    (hzero : zero ∈ ps.map (·.body)) : p.body = zero := by
  have hkept : ∀ e ∈ rat |q| :: ps.map (·.body), e.IsKept := forall_mem_combined h.kept
  have hliteral : literalProduct ((rat |q| :: ps.map (·.body)).flatMap factors) = 0 := by
    obtain ⟨as, bs, hsplit⟩ := List.append_of_mem hzero
    rw [hsplit, ← List.cons_append, List.flatMap_append, List.flatMap_cons, literalProduct_append,
      literalProduct_append]
    simp [zero, factors]
  have htidy : ∀ e ∈ rat |q| :: ps.map (·.body), e.IsTidy := fun e he => (hkept e he).tidy
  obtain ⟨r, hr⟩ := exists_product htidy
  have hpass : normalPass .unbounded (product (rat |q| :: ps.map (·.body))) = .ok r := by
    rw [normalPass, normalPassAll_of_isKept hkept, ok_bind, hr]
  obtain ⟨fuel, hfuel⟩ := depthBound_eq (weightAll (rat |q| :: ps.map (·.body)))
  rw [Settings.product, hfuel] at hr
  obtain ⟨-, -, ⟨-, rfl⟩ | ⟨hne, -⟩⟩ :=
    exists_productResult (fun e he => (htidy e he).isBuilt) hr
  · exact Except.ok.inj (h.body.symm.trans (normalForm_of_pass hpass (isKept_rat 0)))
  · exact absurd hliteral hne

/-- Two choices of parts have the same bodies, and the same sign unless one of them is zero. -/
theorem forall₂_orientsAs_unique {fs : List Expr} {ps qs : List Signed}
    (hfs : ∀ f ∈ fs, f.IsKept) (hps : List.Forall₂ OrientsAs fs ps)
    (hqs : List.Forall₂ OrientsAs fs qs) : qs.map (·.body) = ps.map (·.body) ∧
      (zero ∈ ps.map (·.body) ∨ signOf qs = signOf ps) := by
  induction hps generalizing qs with
  | nil => cases hqs; exact ⟨rfl, .inr rfl⟩
  | cons hp _ ih =>
    cases hqs with
    | cons hq hqs =>
      rw [List.forall_mem_cons] at hfs
      obtain ⟨hbody, hsign⟩ := hp.unique hfs.1 hq
      obtain ⟨hbodies, hsigns⟩ := ih hfs.2 hqs
      refine ⟨by rw [List.map_cons, List.map_cons, hbody, hbodies], ?_⟩
      rw [List.map_cons, List.mem_cons]
      rcases hsign with hzero | hsign
      · exact .inl (.inl hzero.symm)
      · exact hsigns.imp .inr fun hsigns => by rw [signOf_cons, signOf_cons, hsign, hsigns]

/-- Products with the same parts have the same value. -/
theorem HasParts.value_eq {q : Rat} {fs gs : List Expr} {ks : List (Expr × Int)} {c d : Expr}
    {p r : Signed} (h : HasParts q fs ks c) (h' : HasParts q gs ks d) (hperm : fs.Perm gs)
    (hp : Splits c p) (hr : Splits d r) : r.value = p.value := by
  rcases h with ⟨hzero, rfl⟩ | ⟨hne, h⟩
  · rcases h' with ⟨-, rfl⟩ | ⟨hne, -⟩
    · rw [hp.unique hr]
    · exact absurd hzero hne
  rcases h' with ⟨hzero, -⟩ | ⟨-, h'⟩
  · exact absurd hzero hne
  obtain ⟨-, ps, hps, hcombines⟩ := h p hp
  obtain ⟨hkept, rs, hrs, hcombines'⟩ := h' r hr
  obtain ⟨qs, hqs, hperm'⟩ := List.perm_comp_forall₂ hperm.symm hps
  have hcombines := hcombines.perm (hperm'.symm.append_right _)
  obtain ⟨hbodies, hsigns⟩ := forall₂_orientsAs_unique hkept hqs hrs
  have hsame : r.body = p.body := by
    have hform := hcombines'.body
    rw [List.map_append, hbodies, ← List.map_append] at hform
    exact Except.ok.inj (hform.symm.trans hcombines.body)
  rcases hsigns with hzero | hsigns
  · have hzero := hcombines.eq_zero (List.map_append ▸ List.mem_append_left _ hzero)
    rw [Signed.value_of_body_eq_zero hzero, Signed.value_of_body_eq_zero (hsame.trans hzero)]
  · have hnegative : r.negative = p.negative := by
      rw [hcombines.sign, hcombines'.sign, signOf_append, signOf_append, hsigns]
    rw [Signed.value, Signed.value, hsame, hnegative]

/-! ## Turning sums round -/

/-- Whole powers of sums, turned round. -/
theorem HasParts.turn_powers {q : Rat} {fs ss : List Expr} {ks : List (Expr × Int)} {c : Expr}
    (hss : ∀ s ∈ ss, IsTurnable s)
    (h : HasParts q fs (ks ++ (ss.map opposite).map fun s => (s, 1)) c) :
    HasParts ((-1) ^ ss.length * q) fs (ks ++ ss.map fun s => (s, 1)) c := by
  have hflip : ((ss.map opposite).map fun s => (s, (1 : Int))).map turned =
      ((ss.map fun s => (s, (1 : Int))).map turned).map Signed.flip := by
    rw [List.map_map, List.map_map, List.map_map, List.map_map]
    refine List.map_congr_left fun s hs => ?_
    simp [turned, Signed.flip, (hss s hs).orientation_opposite]
  rcases h with ⟨rfl, rfl⟩ | ⟨hne, h⟩
  · exact .inl ⟨mul_zero _, rfl⟩
  refine .inr ⟨by simpa using hne, fun p hp => ?_⟩
  obtain ⟨hkept, ps, hps, hcombines⟩ := h p hp
  refine ⟨hkept, ps, hps, ?_⟩
  rw [List.map_append, hflip, ← List.append_assoc] at hcombines
  have hturned := (hcombines.perm List.perm_append_comm).flip hne
  rw [List.length_map, List.length_map, List.length_map, List.map_map, Signed.flip_comp_flip,
    List.map_id] at hturned
  rw [List.map_append, ← List.append_assoc]
  exact hturned.perm List.perm_append_comm

/-- Sums among the factors, turned round. -/
theorem HasParts.turn_sums {q : Rat} {fs ss : List Expr} {ks : List (Expr × Int)} {c : Expr}
    (hss : ∀ s ∈ ss, s.isSum = true ∧ s.IsKept) (h : HasParts q (ss.map opposite ++ fs) ks c) :
    HasParts ((-1) ^ ss.length * q) (ss ++ fs) ks c := by
  rcases h with ⟨rfl, rfl⟩ | ⟨hne, h⟩
  · exact .inl ⟨mul_zero _, rfl⟩
  refine .inr ⟨by simpa using hne, fun p hp => ?_⟩
  obtain ⟨hkept, ps, hps, hcombines⟩ := h p hp
  rw [List.forall_mem_append] at hkept
  refine ⟨List.forall_mem_append.mpr ⟨fun s hs => (hss s hs).2, hkept.2⟩, ?_⟩
  have hsums := (List.forall₂_take_append ps _ fs hps.flip).flip
  have hothers := (List.forall₂_drop_append ps _ fs hps.flip).flip
  have hlen := hsums.length_eq
  rw [← List.take_append_drop (ss.map opposite).length ps] at hcombines
  generalize ps.take (ss.map opposite).length = us at hsums hlen hcombines
  generalize ps.drop (ss.map opposite).length = vs at hothers hcombines
  refine ⟨us.map Signed.flip ++ vs, List.rel_append ?_ hothers, ?_⟩
  · rw [List.forall₂_map_left_iff] at hsums
    rw [List.forall₂_map_right_iff]
    refine ((List.forall₂_and_left ss us).mpr ⟨hss, hsums⟩).imp ?_
    rintro s u ⟨⟨hsum, hs⟩, hu⟩
    have hu := OrientsAs.opposite hs.opposite (by rwa [isSum_opposite hs]) hu
    rwa [hs.opposite_opposite] at hu
  · rw [List.append_assoc] at hcombines ⊢
    rw [← List.length_map (f := opposite), hlen]
    exact hcombines.flip hne

/-- Factors that turn into others when some of them are negated, `n` times in all: sums turn round,
and for every other time the coefficient changes its sign. -/
structure TurnsInto (n : Nat) (fs fs' gs ss : List Expr) : Prop where
  before : (otherFactors fs).Perm (gs ++ ss)
  after : (otherFactors fs').Perm (gs ++ ss.map opposite)
  literal : literalProduct fs' = (-1) ^ (n + ss.length) * literalProduct fs

namespace TurnsInto

theorem same (fs : List Expr) : TurnsInto 0 fs fs (otherFactors fs) [] :=
  ⟨by simp, by simp, by simp⟩

theorem negated {c : Expr} (h : c.IsKept) (hsum : c.isSum = false) :
    TurnsInto 1 c.factors c.opposite.factors (otherFactors c.factors) [] := by
  obtain ⟨hliteral, hother⟩ := h.tidy.factors_negated
  rw [opposite_of_isSum_eq_false hsum]
  exact ⟨by simp, by simp [hother], by simp [hliteral]⟩

theorem sum {c : Expr} (h : c.IsKept) (hsum : c.isSum = true) :
    TurnsInto 1 c.factors c.opposite.factors [] [c] := by
  obtain ⟨ts, rfl⟩ := exists_of_isSum hsum
  exact ⟨.refl _, .refl _, by simp [Expr.opposite, factors, literalProduct, literalFactor]⟩

theorem append {n m : Nat} {fs fs' gs ss hs hs' us ts : List Expr} (h : TurnsInto n fs fs' gs ss)
    (h' : TurnsInto m hs hs' us ts) :
    TurnsInto (n + m) (fs ++ hs) (fs' ++ hs') (gs ++ us) (ss ++ ts) := by
  have hswap : ∀ as bs cs ds : List Expr,
      ((as ++ bs) ++ (cs ++ ds)).Perm ((as ++ cs) ++ (bs ++ ds)) := by
    intro as bs cs ds
    rw [List.append_assoc, List.append_assoc, ← List.append_assoc bs, ← List.append_assoc cs]
    exact (List.perm_append_comm.append_right ds).append_left as
  refine ⟨?_, ?_, ?_⟩
  · rw [otherFactors_append]
    exact (h.before.append h'.before).trans (hswap ..)
  · rw [otherFactors_append, List.map_append]
    exact (h.after.append h'.after).trans (hswap ..)
  · rw [literalProduct_append, literalProduct_append, h.literal, h'.literal, List.length_append]
    ring

end TurnsInto

/-- A factor that is a sum and the only one with its base, or with the base turned round. -/
def IsAlone (fs : List Expr) (c : Expr) : Prop :=
  ∃ gs, (otherFactors fs).Perm (c :: gs) ∧
    ∀ g ∈ gs, g.splitPower.1 ≠ c ∧ g.splitPower.1 ≠ c.opposite

/-- A sum that stays one when its signs are out and occurs, as it is or turned round, only in whole
powers among factors. -/
structure TurnsAmong (fs : List Expr) (c : Expr) : Prop where
  body : ∃ p, Splits c p ∧ p.body.isSum = true
  whole : ∀ f ∈ otherFactors fs, f.splitPower.1 = c ∨ f.splitPower.1 = c.opposite →
    f.splitPower.2.isIntegerNumber = true

/-- The sums and their opposites. -/
def IsEither (ss : List Expr) (b : Expr) : Prop :=
  ∃ s ∈ ss, b = s ∨ b = s.opposite

section

variable {fs gs ss : List Expr} {z : Expr}

open Classical

/-- What is alone among the factors occurs once, and no other factor has it as its base, or its
opposite. -/
theorem IsAlone.apart (h : IsAlone fs z) (hperm : (otherFactors fs).Perm (gs ++ ss))
    (hz : z ∈ ss) (hss : ∀ s ∈ ss, s.isSum = true) :
    ss.count z = 1 ∧ (∀ g ∈ gs, g.splitPower.1 ≠ z ∧ g.splitPower.1 ≠ z.opposite) ∧
      ∀ s ∈ ss, s ≠ z → s ≠ z.opposite := by
  obtain ⟨hs, hother, hbases⟩ := h
  have herase : ss.Perm (z :: ss.erase z) := List.perm_cons_erase hz
  have hrest : hs.Perm (gs ++ ss.erase z) := by
    refine List.Perm.cons_inv (hother.symm.trans (hperm.trans ?_))
    exact (herase.append_left gs).trans List.perm_middle
  have hbases : ∀ f ∈ gs ++ ss.erase z, f.splitPower.1 ≠ z ∧ f.splitPower.1 ≠ z.opposite :=
    fun f hf => hbases f (hrest.mem_iff.mpr hf)
  have herased : ∀ s ∈ ss.erase z, s ≠ z ∧ s ≠ z.opposite := fun s hs => by
    have hbase := hbases s (List.mem_append_right _ hs)
    rwa [splitPower_of_isSum (hss s (List.mem_of_mem_erase hs))] at hbase
  refine ⟨?_, fun g hg => hbases g (List.mem_append_left _ hg), fun s hs hne => ?_⟩
  · have hnone : z ∉ ss.erase z := fun hmem => (herased z hmem).1 rfl
    rw [herase.count_eq, List.count_cons_self, List.count_eq_zero_of_not_mem hnone]
  · exact (herased s ((List.mem_erase_of_ne hne).mpr hs)).2

/-- Sums that are alone are apart from the others, whichever way round they are. -/
theorem areApart_of_isAlone (hperm : (otherFactors fs).Perm (gs ++ ss))
    (hss : ∀ s ∈ ss, s.isSum = true ∧ s.IsKept) :
    AreApart (IsEither (ss.filter (¬IsAlone fs ·))) gs (ss.filter (IsAlone fs ·)) ∧
    AreApart (IsEither (ss.filter (¬IsAlone fs ·))) gs
      ((ss.filter (IsAlone fs ·)).map opposite) := by
  have hmem : ∀ z ∈ ss.filter (IsAlone fs ·), z ∈ ss ∧ IsAlone fs z := fun z hz =>
    ⟨List.mem_of_mem_filter hz, of_decide_eq_true (List.mem_filter.mp hz).2⟩
  have hapart := fun z hz => (hmem z hz).2.apart hperm (hmem z hz).1 fun s hs => (hss s hs).1
  have hback : ∀ s ∈ ss, s.opposite.opposite = s := fun s hs => (hss s hs).2.opposite_opposite
  -- a sum that is not alone is none of these, as it is or turned round
  have hother : ∀ z ∈ ss.filter (IsAlone fs ·), ∀ s ∈ ss.filter (¬IsAlone fs ·),
      s ∈ ss ∧ s ≠ z ∧ s ≠ z.opposite := by
    intro z hz s hs
    obtain ⟨hs, hnot⟩ := List.mem_filter.mp hs
    have hne : s ≠ z := fun h => of_decide_eq_true hnot (h ▸ (hmem z hz).2)
    exact ⟨hs, hne, (hapart z hz).2.2 s hs hne⟩
  have hdistinct : (ss.filter (IsAlone fs ·)).Nodup := by
    refine List.nodup_iff_count_le_one.mpr fun z => ?_
    by_cases hz : z ∈ ss.filter (IsAlone fs ·)
    · exact (List.filter_sublist.count_le z).trans (hapart z hz).1.le
    · exact (List.count_eq_zero_of_not_mem hz).trans_le zero_le_one
  refine ⟨⟨hdistinct, fun z hz => (hss z (hmem z hz).1).1, ?_, ?_⟩, ⟨?_, ?_, ?_, ?_⟩⟩
  · rintro z hz ⟨s, hs, hzs⟩
    obtain ⟨hs, hne, hopposite⟩ := hother z hz s hs
    rcases hzs with hzs | hzs
    · exact hne hzs.symm
    · exact hopposite (by rw [hzs, hback s hs])
  · intro z hz hbase
    obtain ⟨g, hg, hgz⟩ := List.mem_map.mp hbase
    exact ((hapart z hz).2.1 g hg).1 hgz
  · refine hdistinct.map_on fun y hy z hz heq => ?_
    rw [← hback y (hmem y hy).1, heq, hback z (hmem z hz).1]
  · refine List.forall_mem_map.mpr fun z hz => ?_
    rw [isSum_opposite (hss z (hmem z hz).1).2]
    exact (hss z (hmem z hz).1).1
  · refine List.forall_mem_map.mpr fun z hz => ?_
    rintro ⟨s, hs, hzs⟩
    obtain ⟨hs, hne, hopposite⟩ := hother z hz s hs
    rcases hzs with hzs | hzs
    · exact hopposite hzs.symm
    · exact hne (by rw [← hback s hs, ← hzs, hback z (hmem z hz).1])
  · refine List.forall_mem_map.mpr fun z hz hbase => ?_
    obtain ⟨g, hg, hgz⟩ := List.mem_map.mp hbase
    exact ((hapart z hz).2.1 g hg).2 hgz

end

section

variable {n : Nat} {es ds gs ss zs ts : List Expr} {c d : Expr} {p r : Signed}

theorem TurnsInto.perm {fs fs' : List Expr} (h : TurnsInto n fs fs' gs ss) (hperm : ss.Perm ts) :
    TurnsInto n fs fs' gs ts :=
  ⟨h.before.trans (hperm.append_left gs), h.after.trans ((hperm.map _).append_left gs),
    by rw [← hperm.length_eq, h.literal]⟩

/-- Products that differ in an even number of signs, some of them those of sums, which are apart or
can be turned round in all their powers. -/
theorem TurnsInto.value_eq_of_apart
    (h : TurnsInto n (es.flatMap factors) (ds.flatMap factors) gs (zs ++ ts)) (hn : Even n)
    (hes : ∀ e ∈ es, e.IsKept) (hds : ∀ e ∈ ds, e.IsKept)
    (hzs : ∀ z ∈ zs, z.isSum = true ∧ z.IsKept) (hapart : AreApart (IsEither ts) gs zs)
    (hapart' : AreApart (IsEither ts) gs (zs.map opposite)) (hts : ∀ t ∈ ts, IsTurnable t)
    (hwhole : ∀ f ∈ otherFactors (es.flatMap factors), IsEither ts f.splitPower.1 →
      f.splitPower.2.isIntegerNumber = true)
    (hc : Settings.unbounded.product es = .ok c) (hd : Settings.unbounded.product ds = .ok d)
    (hckept : c.IsKept) (hdkept : d.IsKept) (hp : Splits c p) (hr : Splits d r) :
    r.value = p.value := by
  have hmove : ∀ as bs cs : List Expr, (as ++ (bs ++ cs)).Perm ((bs ++ as) ++ cs) := by
    intro as bs cs
    rw [← List.append_assoc]
    exact List.perm_append_comm.append_right cs
  have hbefore := h.before.trans (hmove gs zs ts)
  have hafter := h.after
  rw [List.map_append] at hafter
  have hafter := hafter.trans (hmove gs (zs.map opposite) (ts.map opposite))
  have heither : ∀ {b}, IsEither ts b → IsTurnable b := by
    rintro b ⟨t, ht, rfl | rfl⟩
    · exact hts _ ht
    · exact (hts t ht).opposite
  have hsum : ∀ {e : Expr}, e.isSum = true → e.splitPower.2.isIntegerNumber = true := fun he => by
    rw [splitPower_of_isSum he]
    exact isIntegerNumber_intCast 1
  have hclass : ∀ f ∈ (zs ++ gs) ++ ts, IsEither ts f.splitPower.1 →
      IsTurnable f.splitPower.1 ∧ f.splitPower.2.isIntegerNumber = true := fun f hf hbase =>
    ⟨heither hbase, hwhole f (hbefore.mem_iff.mpr hf) hbase⟩
  have hclass' : ∀ f ∈ (zs.map opposite ++ gs) ++ ts.map opposite, IsEither ts f.splitPower.1 →
      IsTurnable f.splitPower.1 ∧ f.splitPower.2.isIntegerNumber = true := by
    intro f hf hbase
    refine ⟨heither hbase, ?_⟩
    rcases List.mem_append.mp hf with hf | hf
    · rcases List.mem_append.mp hf with hf | hf
      · exact hsum (hapart'.sum f hf)
      · exact hwhole f (hbefore.mem_iff.mpr (by simp [hf])) hbase
    · obtain ⟨t, ht, rfl⟩ := List.mem_map.mp hf
      exact hsum (hts t ht).opposite.sum
  have hparts := exists_parts_apart hes hbefore hapart hclass
    (fun t ht => ⟨(hts t ht).sum, t, ht, .inl rfl⟩) hc hckept
  have hparts' := exists_parts_apart hds hafter hapart' hclass'
    (List.forall_mem_map.mpr fun t ht => ⟨(hts t ht).opposite.sum, t, ht, .inr rfl⟩) hd hdkept
  have hliteral : literalProduct (ds.flatMap factors) =
      (-1) ^ ts.length * ((-1) ^ zs.length * literalProduct (es.flatMap factors)) := by
    rw [h.literal, pow_add, hn.neg_one_pow, one_mul, List.length_append, pow_add]
    ring
  have hzero :
      literalProduct (ds.flatMap factors) = 0 ↔ literalProduct (es.flatMap factors) = 0 := by
    simp [hliteral]
  rcases hparts with ⟨hnone, rfl⟩ | ⟨rs, hrs, hparts⟩
  · rcases hparts' with ⟨-, rfl⟩ | ⟨us, -, ⟨-, rfl⟩ | ⟨hne, -⟩⟩
    · rw [hp.unique hr]
    · rw [hp.unique hr]
    · exact absurd (hzero.mpr hnone) (left_ne_zero_of_mul hne)
  rcases hparts' with ⟨hnone, rfl⟩ | ⟨us, hus, hparts'⟩
  · rcases hparts with ⟨-, rfl⟩ | ⟨hne, -⟩
    · rw [hp.unique hr]
    · exact absurd (hzero.mp hnone) (left_ne_zero_of_mul hne)
  -- the other bases have the same powers
  have hothers := SameFactors.perm ((hrs.perm hus).flatMap_right factors)
  have hturned := (hparts'.turn_powers hts).turn_sums hzs
  have hcancel : ∀ (k : Nat) (x : Rat), (-1) ^ k * ((-1) ^ k * x) = x := fun k x => by
    rw [← mul_assoc, ← mul_pow, neg_one_mul, neg_neg, one_pow, one_mul]
  rw [hliteral, mul_assoc, mul_assoc, hcancel, hcancel, ← hothers.literal] at hturned
  exact hparts.value_eq hturned (hothers.other.append_left zs) hp hr

/-- Products that differ in an even number of signs, where each sum that is turned round is alone or
can be turned round in all its powers, have the same value. -/
theorem TurnsInto.value_eq (h : TurnsInto n (es.flatMap factors) (ds.flatMap factors) gs ss)
    (hn : Even n) (hes : ∀ e ∈ es, e.IsKept) (hds : ∀ e ∈ ds, e.IsKept)
    (hss : ∀ s ∈ ss, s.isSum = true ∧ s.IsKept)
    (hturn : ∀ s ∈ ss, IsAlone (es.flatMap factors) s ∨ TurnsAmong (es.flatMap factors) s)
    (hc : Settings.unbounded.product es = .ok c) (hd : Settings.unbounded.product ds = .ok d)
    (hckept : c.IsKept) (hdkept : d.IsKept) (hp : Splits c p) (hr : Splits d r) :
    r.value = p.value := by
  classical
  obtain ⟨hapart, hapart'⟩ := areApart_of_isAlone h.before hss
  have hperm := List.filter_append_perm (fun s => decide (IsAlone (es.flatMap factors) s)) ss
  simp only [← decide_not] at hperm
  have hturns : ∀ t ∈ ss.filter (¬IsAlone (es.flatMap factors) ·),
      t ∈ ss ∧ TurnsAmong (es.flatMap factors) t := by
    intro t ht
    obtain ⟨ht, hnot⟩ := List.mem_filter.mp ht
    exact ⟨ht, (hturn t ht).resolve_left (of_decide_eq_true hnot)⟩
  refine (h.perm hperm.symm).value_eq_of_apart hn hes hds
    (fun z hz => hss z (List.mem_of_mem_filter hz)) hapart hapart' (fun t ht => ?_)
    (fun f hf => ?_) hc hd hckept hdkept hp hr
  · obtain ⟨hmem, hbody, -⟩ := hturns t ht
    exact ⟨(hss t hmem).2, (hss t hmem).1, hbody.imp fun _ h => ⟨.inl h.1, h.2⟩⟩
  · rintro ⟨t, ht, hbase⟩
    exact (hturns t ht).2.whole f hf hbase

end

/-! ## Marked factors -/

/-- The factors, with the marked ones negated. -/
def negateMarked (ms : List (Bool × Expr)) : List Expr :=
  ms.map fun m => if m.1 then negation m.2 else m.2

/-- One pass comes to the normal form. -/
def SettlesAtOnce (s : Settings) (e c : Expr) : Prop :=
  normalPass s e = .ok c ∧ normalForm s e = .ok c

theorem settlesAtOnce_of_returns {s : Settings} {e c : Expr} (he : e.IsExact) (hc : c.IsExact)
    (hpass : returns (normalPass s e) c = true) (hform : returns (normalForm s e) c = true) :
    SettlesAtOnce s e c :=
  ⟨eq_ok_of_returns (fun _ hd => (normalPass_rewrites he hd).isExact he) hc hpass,
    normalForm_eq_ok_of_returns he hc hform⟩

theorem SettlesAtOnce.unlimited {s : Settings} {e c : Expr} (h : SettlesAtOnce s e c) :
    SettlesAtOnce s.unlimited e c :=
  ⟨(normalPass_restricts s e).eq_ok h.1, normalForm_unlimited h.2⟩

theorem named_negateMarked {ms : List (Bool × Expr)} (h : ∀ m ∈ ms, m.2.Every IsNamedNode) :
    (product (negateMarked ms)).Every IsNamedNode := by
  refine every_product.mpr ⟨trivial, List.forall_mem_map.mpr fun m hm => ?_⟩
  split
  · exact every_negation.mpr ⟨trivial, h m hm⟩
  · exact h m hm

theorem product_eq_ok_of_pass {es cs : List Expr} {c : Expr}
    (hes : normalPassAll .unbounded es = .ok cs) (h : normalPass .unbounded (product es) = .ok c) :
    Settings.unbounded.product cs = .ok c := by
  rwa [normalPass, hes, ok_bind] at h

theorem stripped_eq_ok {e c r : Expr} (hc : normalForm .unbounded e = .ok c) (hckept : c.IsKept)
    (h : stripped .unbounded e = .ok r) :
    ∃ p, Splits c p ∧ normalForm .unbounded p.value = .ok r := by
  rw [stripped, hc, ok_bind] at h
  obtain ⟨p, hp, h⟩ := bind_eq_ok_iff.mp h
  have hsplits : Splits c p := ⟨_, hp⟩
  rw [Signed.rebuild_eq (hsplits.isKept hckept), ok_bind] at h
  exact ⟨p, hsplits, h⟩

/-- What negating marked factors makes of their normal forms. -/
theorem exists_negated {ms : List (Bool × Expr)} {cs : List Expr} {Q : Expr → Prop}
    (h : List.Forall₂ (fun m c => (normalPass .unbounded m.2 = .ok c ∧ c.IsKept) ∧
      (m.1 = true → c.isSum = true → Q c)) ms cs) :
    ∃ ds gs ss, normalPassAll .unbounded (negateMarked ms) = .ok ds ∧ (∀ d ∈ ds, d.IsKept) ∧
      TurnsInto (ms.countP (·.1)) (cs.flatMap factors) (ds.flatMap factors) gs ss ∧
      ∀ s ∈ ss, s.isSum = true ∧ s.IsKept ∧ Q s := by
  induction h with
  | nil => exact ⟨[], [], [], rfl, List.forall_mem_nil _, .same [], List.forall_mem_nil _⟩
  | @cons m c ms cs h _ ih =>
    obtain ⟨⟨hpass, hc⟩, hsum⟩ := h
    obtain ⟨ds, gs, ss, hds, hdkept, hturns, hss⟩ := ih
    obtain ⟨d, gs', ss', hd, hdkept', hturns', hss'⟩ : ∃ d gs' ss',
        normalPass .unbounded (if m.1 then negation m.2 else m.2) = .ok d ∧ d.IsKept ∧
        TurnsInto (if m.1 then 1 else 0) c.factors d.factors gs' ss' ∧
        ∀ s ∈ ss', s.isSum = true ∧ s.IsKept ∧ Q s := by
      cases hmark : m.1 with
      | false => exact ⟨c, _, [], hpass, hc, .same _, List.forall_mem_nil _⟩
      | true =>
        refine ⟨c.opposite, ?_⟩
        have hneg := normalPass_negation hpass hc
        cases hcsum : c.isSum with
        | false => exact ⟨_, [], hneg, hc.opposite, .negated hc hcsum, List.forall_mem_nil _⟩
        | true => exact ⟨[], [c], hneg, hc.opposite, .sum hc hcsum,
            List.forall_mem_singleton.mpr ⟨hcsum, hc, hsum hmark hcsum⟩⟩
    refine ⟨d :: ds, gs' ++ gs, ss' ++ ss, ?_, List.forall_mem_cons.mpr ⟨hdkept', hdkept⟩, ?_,
      List.forall_mem_append.mpr ⟨hss', hss⟩⟩
    · rw [negateMarked, List.map_cons, normalPassAll, hd, ok_bind, ← negateMarked, hds]
      rfl
    · rw [List.flatMap_cons, List.flatMap_cons, List.countP_cons, Nat.add_comm]
      exact hturns'.append hturns

/-- The sign variants of a product have one stripped form: an even number of negated factors makes
no difference, where each of them that is a sum is alone or can be turned round in all its
powers. -/
theorem stripped_negateMarked {limit : DigitLimit} {ms : List (Bool × Expr)} {cs : List Expr}
    {c d r r' : Expr} (hnamed : ∀ m ∈ ms, m.2.Every IsNamedNode) (heven : Even (ms.countP (·.1)))
    (hcs : List.Forall₂ (fun m c => SettlesAtOnce (Settings.standard.within limit) m.2 c ∧
      (m.1 = true → c.isSum = true →
        IsAlone (cs.flatMap factors) c ∨ TurnsAmong (cs.flatMap factors) c)) ms cs)
    (hc : SettlesAtOnce (Settings.standard.within limit) (product (ms.map (·.2))) c)
    (hd : SettlesAtOnce (Settings.standard.within limit) (product (negateMarked ms)) d)
    (hr : stripped (Settings.standard.within limit) (product (ms.map (·.2))) = .ok r)
    (hr' : stripped (Settings.standard.within limit) (product (negateMarked ms)) = .ok r') :
    r' = r := by
  have hkept : List.Forall₂ (fun m c => (normalPass .unbounded m.2 = .ok c ∧ c.IsKept) ∧
      (m.1 = true → c.isSum = true →
        IsAlone (cs.flatMap factors) c ∨ TurnsAmong (cs.flatMap factors) c)) ms cs := by
    refine ((List.forall₂_and_left ms cs).mpr ⟨hnamed, hcs⟩).imp ?_
    rintro m c ⟨hm, hsettles, hturns⟩
    have ⟨hpass, hform⟩ := hsettles.unlimited
    exact ⟨⟨hpass, normalForm_kept hm hform⟩, hturns⟩
  obtain ⟨ds, gs, ss, hds, hdkept, hturns, hss⟩ := exists_negated hkept
  have hnamed' : (product (ms.map (·.2))).Every IsNamedNode :=
    every_product.mpr ⟨trivial, List.forall_mem_map.mpr hnamed⟩
  have ⟨hcpass, hcform⟩ := hc.unlimited
  have ⟨hdpass, hdform⟩ := hd.unlimited
  have hckept := normalForm_kept hnamed' hcform
  have hdkept' := normalForm_kept (named_negateMarked hnamed) hdform
  have hr := stripped_unlimited hr
  have hr' := stripped_unlimited hr'
  obtain ⟨p, hp, hpr⟩ := stripped_eq_ok hcform hckept hr
  obtain ⟨q, hq, hqr⟩ := stripped_eq_ok hdform hdkept' hr'
  have hpass : normalPassAll .unbounded (ms.map (·.2)) = .ok cs :=
    (normalPassAll_eq_ok_iff ..).mpr (List.forall₂_map_left_iff.mpr (hkept.imp fun _ _ h => h.1.1))
  have hcs' : ∀ c ∈ cs, c.IsKept := by
    intro c hc
    obtain ⟨m, -, hm⟩ := exists_mem_of_forall₂ hkept hc
    exact hm.1.2
  have hvalue : q.value = p.value :=
    hturns.value_eq heven hcs' hdkept (fun s hs => ⟨(hss s hs).1, (hss s hs).2.1⟩)
      (fun s hs => (hss s hs).2.2) (product_eq_ok_of_pass hpass hcpass)
      (product_eq_ok_of_pass hds hdpass) hckept hdkept' hp hq
  rw [hvalue, hpr] at hqr
  exact (Except.ok.inj hqr).symm

/-- In `(6x+1)(x-1)(x-1)^2`, the first two factors are negated: one of them is alone, and the other
one is there in a square as well. -/
theorem stripped_negateMarked_square :
    let x := symbol "x"
    let base := sum [rat (-1), x]
    let ms := [(true, sum [product [rat 6, x], rat 1]), (true, base), (false, power base (rat 2))]
    let cs := [sum [rat 1, product [rat 6, x]], base, power base (rat 2)]
    ∃ c d r r', (∀ m ∈ ms, m.2.Every IsNamedNode) ∧ Even (ms.countP (·.1)) ∧
      List.Forall₂ (fun m c => SettlesAtOnce .standard m.2 c ∧ (m.1 = true → c.isSum = true →
        IsAlone (cs.flatMap factors) c ∨ TurnsAmong (cs.flatMap factors) c)) ms cs ∧
      SettlesAtOnce .standard (product (ms.map (·.2))) c ∧
      SettlesAtOnce .standard (product (negateMarked ms)) d ∧
      stripped .standard (product (ms.map (·.2))) = .ok r ∧
      stripped .standard (product (negateMarked ms)) = .ok r' ∧ r' = r := by
  intro x base ms cs
  let bs := [power base (rat 3), sum [rat 1, product [rat 6, x]]]
  let ds := [power base (rat 2), sum [rat (-1), product [rat (-6), x]],
    sum [rat 1, product [rat (-1), x]]]
  have hx : IsIdentifier "x" := isIdentifier_letter (c := 'x') (by decide)
  have hnamed : ∀ m ∈ ms, m.2.Every IsNamedNode := by
    simp [ms, base, x, IsNamedNode, hx]
  have heven : Even (ms.countP (·.1)) := by decide
  have halone : IsAlone (cs.flatMap factors) (sum [rat 1, product [rat 6, x]]) := by
    refine ⟨[base, power base (rat 2)], .refl _, ?_⟩
    have hsix : (-6 : Rat) ≠ 1 := by norm_num
    simp [base, x, splitPower, opposite, negated, factors, literalProduct, literalFactor,
      otherFactors, isNumber, ofScaled, withCoefficient, hsix]
  have hturns : TurnsAmong (cs.flatMap factors) base := by
    refine ⟨⟨⟨false, base⟩, ⟨5, ?_⟩, rfl⟩, ?_⟩
    · exact splitSigns_eq_ok_of_same (by simp [base, x]) (by simp [base, x]) (by decide +kernel)
    · have hwhole : ∀ f ∈ otherFactors (cs.flatMap factors),
          f.splitPower.2.isIntegerNumber = true := by decide
      exact fun f hf _ => hwhole f hf
  have hcs : List.Forall₂ (fun m c => SettlesAtOnce .standard m.2 c ∧ (m.1 = true → c.isSum = true →
      IsAlone (cs.flatMap factors) c ∨ TurnsAmong (cs.flatMap factors) c)) ms cs := by
    have hsettles : ∀ m ∈ ms, ∀ {c : Expr}, c.IsExact →
        returns (normalPass .standard m.2) c = true →
        returns (normalForm .standard m.2) c = true → SettlesAtOnce .standard m.2 c :=
      fun m hm _ hc => settlesAtOnce_of_returns (isExact_of_named (hnamed m hm)) hc
    simp only [ms, List.forall_mem_cons] at hsettles
    refine .cons ⟨hsettles.1 ?_ ?_ ?_, fun _ _ => .inl halone⟩
      (.cons ⟨hsettles.2.1 ?_ ?_ ?_, fun _ _ => .inr hturns⟩
        (.cons ⟨hsettles.2.2.1 ?_ ?_ ?_, fun h => absurd h Bool.false_ne_true⟩ .nil))
    all_goals first | decide +kernel | simp [base, x]
  have hproduct : (product (ms.map (·.2))).Every IsNamedNode :=
    every_product.mpr ⟨trivial, List.forall_mem_map.mpr hnamed⟩
  have hc : SettlesAtOnce .standard (product (ms.map (·.2))) (product bs) :=
    settlesAtOnce_of_returns (isExact_of_named hproduct) (by simp [bs, base, x])
      (by decide +kernel) (by decide +kernel)
  have hd : SettlesAtOnce .standard (product (negateMarked ms)) (product ds) :=
    settlesAtOnce_of_returns (isExact_of_named (named_negateMarked hnamed))
      (by simp [ds, base, x]) (by decide +kernel) (by decide +kernel)
  obtain ⟨r, hr⟩ := Option.isSome_iff_exists.mp
    (show (stripped .standard (product (ms.map (·.2)))).toOption.isSome = true by decide +kernel)
  obtain ⟨r', hr'⟩ := Option.isSome_iff_exists.mp
    (show (stripped .standard (product (negateMarked ms))).toOption.isSome = true by decide +kernel)
  have hr := eq_ok_of_toOption hr
  have hr' := eq_ok_of_toOption hr'
  exact ⟨_, _, r, r', hnamed, heven, hcs, hc, hd, hr, hr',
    stripped_negateMarked hnamed heven hcs hc hd hr hr'⟩

/-- Of `(a-b)sqrt(a-b)`, the form is a power of one base. With both factors negated there are two
bases, and the root keeps its own as it is, so that the sums do not come together again. -/
theorem stripped_negateMarked_root :
    let difference := sum [symbol "a", negation (symbol "b")]
    let ms := [(true, difference), (true, call "sqrt" [difference])]
    (∀ m ∈ ms, m.2.Every IsNamedNode) ∧ Even (ms.countP (·.1)) ∧
      (product (ms.map (·.2))).form .standard .stripped = .ok "(a-b)^(3/2)" ∧
      (product (negateMarked ms)).form .standard .stripped = .ok "-((-a+b)sqrt(a-b))" := by
  intro difference ms
  have ha : IsIdentifier "a" := isIdentifier_letter (c := 'a') (by decide)
  have hb : IsIdentifier "b" := isIdentifier_letter (c := 'b') (by decide)
  refine ⟨?_, by decide, ?_, ?_⟩
  · simp [ms, difference, IsNamedNode, Settings.standardFunctions, ha, hb]
  · exact eq_ok_of_toOption (by decide +kernel)
  · exact eq_ok_of_toOption (by decide +kernel)

end AlgebraicForm
