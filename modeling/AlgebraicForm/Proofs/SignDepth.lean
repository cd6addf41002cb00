import AlgebraicForm.Proofs.Levels
import AlgebraicForm.Proofs.OppositeSigns

/-!
# The depth for taking signs out is enough

`splitSigns` goes down from an expression to its parts, but a sum whose terms collapse is taken up
again as what it has become, which is no part of it. What the recursion goes down in is the number
of levels: bodies have no more of them than the expressions they come from, and a sum that has
collapsed has one less. Where a step leads to as many levels, it leads from a product to a factor or
from a whole power to its base, and a factor is no product and a base neither; `signRank` counts
that in.

* `levels_splitSigns`: bodies have no more levels.
* `IsFixed.splitSigns_failsWithin`: with the depth above the rank, taking the signs out fails only
  by passes that do not settle.
* `stripped_failsWithin`: so does the representative of a sign class.
* `signed_terminates`: the recursion ends, and its outcome is no matter of the depth.
* `signed_negation`: a normal form and the normal form of its negation have one body with opposite
  signs.
-/

namespace AlgebraicForm

open AlgebraicForm.Expr

/-! ## Levels of bodies -/

/-- The body has no more levels than the expression; one to be raised to a whole exponent has no
more literals either, unless it has lost a level. -/
structure NoMoreBodyLevels (e body : Expr) : Prop where
  levels : body.levels ≤ e.levels
  literals : (∀ fs, e ≠ product fs) → (∀ b p, e ≠ power b p) →
    body.levels + body.literals ≤ e.levels + e.literals

section

variable {s : Settings} {n : Nat}

/-- A sign that is put back makes no levels. -/
theorem levels_rebuild {p : Signed} {r : Expr} (hp : p.body.IsFixed s) (h : p.rebuild s = .ok r) :
    r.levels ≤ p.body.levels := by
  rw [Signed.rebuild] at h
  split at h
  · have hfs : ∀ f ∈ [minusOne, p.body], f.IsFixed s := by simp [minusOne, hp]
    exact (levels_normalForm_product hfs h).trans_eq (by simp [minusOne])
  · exact Except.ok.inj h ▸ le_rfl

theorem RebuildsAs.levels {e r : Expr} (he : e.IsFixed s) (h : RebuildsAs s n e r)
    (ih : ∀ p, splitSigns s n e = .ok p → p.body.levels ≤ e.levels) : r.levels ≤ e.levels := by
  obtain ⟨p, hp, hr⟩ := h
  exact (levels_rebuild (splitSigns_isFixed he.isExact hp) hr).trans (ih p hp)

theorem forall₂_rebuilds_levels {es rs : List Expr} (hes : ∀ e ∈ es, e.IsFixed s)
    (ih : ∀ e ∈ es, ∀ p, splitSigns s n e = .ok p → p.body.levels ≤ e.levels)
    (h : List.Forall₂ (RebuildsAs s n) es rs) :
    (∀ r ∈ rs, r.IsFixed s) ∧ levelsAll rs ≤ levelsAll es := by
  have hall : List.Forall₂ (fun e r : Expr => r.IsFixed s ∧ r.levels ≤ e.levels) es rs := by
    have hboth := (List.forall₂_and_left es rs).mpr ⟨hes, (List.forall₂_and_left es rs).mpr ⟨ih, h⟩⟩
    exact hboth.imp fun e r ⟨he, ih, her⟩ => ⟨her.isFixed he.isExact, her.levels he ih⟩
  refine ⟨fun r hr => ?_, levelsAll_le (hall.imp fun _ _ h => h.2)⟩
  obtain ⟨e, -, hfixed, -⟩ := exists_mem_of_forall₂ hall hr
  exact hfixed

/-- What a power is raised from when its sign is out: its base, or, under an exponent that is not
whole, its base with the sign put back. -/
theorem RaisesSign.exists_base {base p : Signed} {exponent : Expr}
    (h : RaisesSign s base exponent p) (hbase : base.body.IsFixed s) (hp : exponent.IsFixed s) :
    ∃ c : Expr, c.IsFixed s ∧ c.levels ≤ base.body.levels ∧
      (exponent.isIntegerNumber = true → c = base.body) ∧
      p.body.levels ≤ raisedLevels c exponent := by
  cases h with
  | whole _ _ hbody =>
    exact ⟨base.body, hbase, le_rfl, fun _ => rfl, levels_normalForm_power hbase hp hbody⟩
  | @kept c _ _ hnone hc hbody =>
    have hfixed := Signed.isFixed_rebuild hbase hc
    refine ⟨c, hfixed, levels_rebuild hbase hc, fun hint => ?_,
      levels_normalForm_power hfixed hp hbody⟩
    rw [Signed.rebuild] at hc
    split at hc
    next hneg =>
      obtain ⟨k, rfl⟩ := (isIntegerNumber_iff hp.isExact).mp hint
      cases (hnone hneg).symm.trans (integer?_intCast k)
    next => exact (Except.ok.inj hc).symm

/-- A power of what its base and its exponent have become. -/
theorem raisedLevels_body_le {b x body c exponent : Expr} (he : (power b x).IsBuilt s)
    (hbody : NoMoreBodyLevels b body) (hc : c.IsBuilt s) (hle : c.levels ≤ body.levels)
    (hwhole : exponent.isIntegerNumber = true → c = body)
    (hsame : x.isIntegerNumber = true → exponent = x) (hexponent : exponent.levels ≤ x.levels) :
    raisedLevels c exponent ≤ (power b x).levels := by
  rw [he.levels_power]
  cases hint : x.isIntegerNumber with
  | true =>
    -- the base of a whole power is neither a power nor a product
    obtain ⟨hnopower, hnoproduct⟩ := (isBuilt_power.mp he).1.2 hint
    obtain rfl := hsame hint
    rw [hwhole hint, raisedLevels_of_isIntegerNumber hint, raisedLevels_of_isIntegerNumber hint]
    exact hbody.literals hnoproduct hnopower
  | false =>
    have hraised := raisedLevels_le hc exponent
    have hbodylevels := hbody.levels
    rw [raisedLevels_of_isIntegerNumber_eq_false hint]
    omega

section

variable (ih : ∀ {e : Expr} {p : Signed}, e.IsFixed s → splitSigns s n e = .ok p →
  NoMoreBodyLevels e p.body)

include ih

theorem noMoreBodyLevels_sum {ts : List Expr} {p : Signed} (he : (sum ts).IsFixed s)
    (h : splitSigns s (n + 1) (sum ts) = .ok p) : NoMoreBodyLevels (sum ts) p.body := by
  have hbody := splitSigns_isFixed he.isExact h
  obtain ⟨rs, hrs, a, ha, hp⟩ := splitSigns_sum_iff.mp h
  obtain ⟨hfixed, hle⟩ := forall₂_rebuilds_levels he.of_mem_sum
    (fun t ht p hp => (ih (he.of_mem_sum t ht) hp).levels) hrs
  have hafixed : a.IsFixed s :=
    normalForm_isFixed (isExact_sum.mpr fun r hr => (hfixed r hr).isExact) ha
  have hsum : NoMoreLevels (sum ts) a :=
    .of_terms ((levels_normalForm_sum hfixed ha).terms.trans hle)
  have hlevels : NoMoreLevels (sum ts) p.body := by
    refine hsum.trans ?_
    cases hasum : a.isSum with
    | true =>
      obtain ⟨us, rfl⟩ := exists_of_isSum hasum
      obtain ⟨flipped, hflipped, -, -, -, -, rfl⟩ := hp
      split
      next => exact levels_normalForm_minusOne hafixed hflipped
      next => exact .refl _
    | false =>
      -- what is no sum is taken up again
      exact .of_levels hasum (ih hafixed ((choosesSign_iff hasum).mp hp)).levels
  exact ⟨hlevels.levels, fun _ _ => hlevels.add_literals_le hbody.built⟩

theorem noMoreBodyLevels_product {fs : List Expr} {p : Signed} (he : (product fs).IsFixed s)
    (h : splitSigns s (n + 1) (product fs) = .ok p) :
    NoMoreBodyLevels (product fs) p.body := by
  obtain ⟨ps, hps, body, hbody, rfl⟩ := splitSigns_product_iff.mp h
  have hfactors := (List.forall₂_and_left fs ps).mpr ⟨he.of_mem_product, hps⟩
  have hfixed : ∀ b ∈ ps.map (·.body), b.IsFixed s := by
    rw [List.forall_mem_map]
    intro p hp
    obtain ⟨f, -, hf, hfp⟩ := exists_mem_of_forall₂ hfactors hp
    exact splitSigns_isFixed hf.isExact hfp
  refine ⟨(levels_normalForm_product hfixed hbody).trans ?_, fun hne => (hne fs rfl).elim⟩
  rw [levels_product]
  refine levelsAll_le (List.forall₂_map_right_iff.mpr (hfactors.imp ?_))
  exact fun f p h => (ih h.1 h.2).levels

theorem noMoreBodyLevels_power {b x : Expr} {p : Signed} (he : (power b x).IsFixed s)
    (h : splitSigns s (n + 1) (power b x) = .ok p) : NoMoreBodyLevels (power b x) p.body := by
  obtain ⟨base, hbase, exponent, hexponent, hp⟩ := splitSigns_power_iff.mp h
  obtain ⟨hb, hx⟩ := he.of_power
  have hsame : x.isIntegerNumber = true → exponent = x := fun hint => by
    obtain ⟨k, rfl⟩ := (isIntegerNumber_iff hx.isExact).mp hint
    exact hexponent.eq_rat
  obtain ⟨c, hc, hle, hwhole, hraised⟩ :=
    hp.exists_base (splitSigns_isFixed hb.isExact hbase) (hexponent.isFixed hx.isExact)
  have hlevels := hexponent.levels hx fun _ hq => (ih hx hq).levels
  exact ⟨hraised.trans
    (raisedLevels_body_le he.built (ih hb hbase) hc.built hle hwhole hsame hlevels),
    fun _ hne => (hne b x rfl).elim⟩

theorem noMoreBodyLevels_call {name : String} {es : List Expr} {p : Signed}
    (he : (call name es).IsFixed s) (h : splitSigns s (n + 1) (call name es) = .ok p) :
    NoMoreBodyLevels (call name es) p.body := by
  obtain ⟨rs, hrs, body, hbody, rfl⟩ := splitSigns_call_iff.mp h
  obtain ⟨hfixed, hle⟩ := forall₂_rebuilds_levels he.of_mem_call
    (fun e hmem p hp => (ih (he.of_mem_call e hmem) hp).levels) hrs
  have hsqrt := (isBuilt_call.mp he.built).1
  rw [hrs.length_eq] at hsqrt
  obtain rfl := eq_of_normalForm_call hsqrt hfixed hbody
  have hlevels : (call name rs).levels ≤ (call name es).levels := by
    rw [levels_call, levels_call]
    exact Nat.add_le_add_left hle 1
  exact ⟨hlevels, fun _ _ => hlevels⟩

end

/-- Taking signs out makes no levels, by induction on the depth. -/
theorem levels_splitSigns {e : Expr} {p : Signed} (he : e.IsFixed s)
    (h : splitSigns s n e = .ok p) : NoMoreBodyLevels e p.body := by
  induction n generalizing e p with
  | zero => cases h
  | succ n ih =>
    cases e with
    | number v =>
      obtain ⟨q, rfl⟩ := he.isExact.exists_rat
      obtain rfl := Except.ok.inj ((splitSigns_rat n q).symm.trans h)
      exact ⟨le_rfl, fun _ _ => le_rfl⟩
    | symbol name =>
      obtain rfl := Except.ok.inj h
      exact ⟨le_rfl, fun _ _ => le_rfl⟩
    | sum ts => exact noMoreBodyLevels_sum ih he h
    | product fs => exact noMoreBodyLevels_product ih he h
    | power b x => exact noMoreBodyLevels_power ih he h
    | negation e => exact (not_isBuilt_negation he.built).elim
    | call name es => exact noMoreBodyLevels_call ih he h
    | hole => exact absurd he.isExact not_isExact_hole

end

/-! ## What the recursion goes down in -/

namespace Expr

/-- A number that every step of the recursion lowers. -/
def signRank (e : Expr) : Nat :=
  3 * e.levels +
    match e with
    | product _ => 2
    | power _ _ => 1
    | _ => 0

theorem signRank_le (e : Expr) : e.signRank ≤ 3 * e.levels + 2 := by
  unfold signRank
  split <;> omega

theorem signRank_product (fs : List Expr) :
    (product fs).signRank = 3 * (product fs).levels + 2 :=
  rfl

theorem signRank_power (b p : Expr) : (power b p).signRank = 3 * (power b p).levels + 1 :=
  rfl

theorem signRank_sum (ts : List Expr) : (sum ts).signRank = 3 * (sum ts).levels :=
  rfl

theorem signRank_call (n : String) (es : List Expr) :
    (call n es).signRank = 3 * (call n es).levels :=
  rfl

/-- The depth is enough for the rank. -/
theorem signRank_lt_signDepth (e : Expr) : e.signRank < e.signDepth := by
  have hlevels : e.levels ≤ e.size := total_le_size levelWeight_le_one e
  have hrank := e.signRank_le
  have hsquare : (e.size + 8) * 8 ≤ (e.size + 8) * (e.size + 8) := Nat.mul_le_mul_left _ (by omega)
  have hdepth : (e.size + 8) * (e.size + 8) ≤ e.signDepth := Nat.le_mul_self _
  omega

theorem IsBuilt.signRank_factor_lt {s : Settings} {fs : List Expr} (h : (product fs).IsBuilt s)
    {f : Expr} (hf : f ∈ fs) : f.signRank < (product fs).signRank := by
  have hlevels := levels_le_levelsAll hf
  rw [signRank_product, levels_product]
  cases f with
  | product gs => cases h.isFlat (product gs) hf
  | _ =>
    simp only [signRank]
    omega

theorem IsBuilt.signRank_power_lt {s : Settings} {b p : Expr} (h : (power b p).IsBuilt s) :
    b.signRank < (power b p).signRank ∧ p.signRank < (power b p).signRank := by
  have hb := b.signRank_le
  have hp := p.signRank_le
  rw [signRank_power, h.levels_power]
  obtain ⟨⟨-, hwhole⟩, -, hpbuilt⟩ := isBuilt_power.mp h
  cases hint : p.isIntegerNumber with
  | false =>
    rw [raisedLevels_of_isIntegerNumber_eq_false hint]
    omega
  | true =>
    -- under a whole exponent the base is neither a power nor a product
    obtain ⟨k, rfl⟩ := (isIntegerNumber_iff hpbuilt.isExact).mp hint
    obtain ⟨hnopower, hnoproduct⟩ := hwhole hint
    have hbase : b.signRank = 3 * b.levels := by
      cases b with
      | power c q => exact (hnopower c q rfl).elim
      | product fs => exact (hnoproduct fs rfl).elim
      | _ => rfl
    have hexponent : (rat (k : Rat)).signRank = 0 := rfl
    rw [raisedLevels_intCast]
    omega

end Expr

/-! ## Faults -/

section

variable {s : Settings}

theorem named_minusOne_product {e : Expr} (he : e.Every IsNamedNode) :
    (product [minusOne, e]).Every IsNamedNode := by
  simpa [minusOne, IsNamedNode] using he

theorem Signed.named_rebuild {p : Signed} {r : Expr} (hp : p.body.Every IsNamedNode)
    (h : p.rebuild s = .ok r) : r.Every IsNamedNode := by
  rw [Signed.rebuild] at h
  split at h
  · exact (normalForm_isProper (named_minusOne_product hp) h).named
  · exact Except.ok.inj h ▸ hp

theorem rebuild_failsWithin {p : Signed} (hp : p.body.Every IsNamedNode) :
    FailsWithin s.GivesUp (p.rebuild s) := by
  rw [Signed.rebuild]
  split
  · exact normalForm_failsWithin (named_minusOne_product hp)
  · exact .ok _

theorem Expr.IsPrintable.orientationKey_failsWithin {e : Expr} (h : e.IsPrintable) :
    FailsWithin s.GivesUp (e.orientationKey s.digits) := by
  obtain ⟨k, hk⟩ := h.exists_orientationKey
  exact .of_restricts (orientationKey_restricts s.digits e) (hk ▸ .ok k)

/-- A sum and its opposite have keys, unless the limit stops one, so that one can be chosen. -/
theorem chooseSign_failsWithin {us : List Expr} (h : (sum us).IsProper s) :
    FailsWithin s.GivesUp (do
      let flipped ← normalForm s (product [minusOne, sum us])
      let flippedKey ← flipped.orientationKey s.digits
      let key ← (sum us).orientationKey s.digits
      return if orientationLt flippedKey key then (⟨true, flipped⟩ : Signed)
        else ⟨false, sum us⟩) := by
  have hproduct := named_minusOne_product h.named
  refine (normalForm_failsWithin hproduct).bind fun flipped hflipped => ?_
  have hprintable := (normalForm_isProper hproduct hflipped).isPrintable
  exact hprintable.orientationKey_failsWithin.bind fun _ _ =>
    h.isPrintable.orientationKey_failsWithin.bind fun _ _ => .ok _

end

section

variable {s : Settings} {n : Nat}
  (ih : ∀ {e : Expr}, e.IsFixed s → e.Every IsNamedNode → e.signRank < n →
    FailsWithin s.GivesUp (splitSigns s n e))

include ih

/-- Operands that are put back with their signs. -/
theorem rebuilds_failsWithin {es : List Expr} (hes : ∀ e ∈ es, e.IsFixed s)
    (hnamed : ∀ e ∈ es, e.Every IsNamedNode) (hrank : 3 * levelsAll es + 2 < n) :
    FailsWithin s.GivesUp (es.mapM fun e => do
      let p ← splitSigns s n e
      p.rebuild s) := by
  refine .mapM fun e he => (ih (hes e he) (hnamed e he) ?_).bind fun p hp =>
    rebuild_failsWithin (splitSigns_named (hnamed e he) hp)
  have hlevels := levels_le_levelsAll he
  have hsign := e.signRank_le
  omega

theorem splitSigns_sum_failsWithin {ts : List Expr} (he : (sum ts).IsFixed s)
    (hnamed : (sum ts).Every IsNamedNode) (hn : (sum ts).signRank < n + 1) :
    FailsWithin s.GivesUp (splitSigns s (n + 1) (sum ts)) := by
  have hts := (every_sum.mp hnamed).2
  rw [signRank_sum, levels_sum] at hn
  rw [splitSigns]
  refine (rebuilds_failsWithin ih he.of_mem_sum hts (by omega)).bind fun rs hrs => ?_
  rw [mapM_rebuild_iff] at hrs
  obtain ⟨hfixed, hle⟩ := forall₂_rebuilds_levels he.of_mem_sum
    (fun t ht p hp => (levels_splitSigns (he.of_mem_sum t ht) hp).levels) hrs
  have hrsnamed : (sum rs).Every IsNamedNode :=
    every_sum.mpr ⟨trivial, forall₂_rebuildsAs_named hts hrs⟩
  refine (normalForm_failsWithin hrsnamed).bind fun a ha => ?_
  have hafixed := normalForm_isFixed (isExact_of_named hrsnamed) ha
  have haproper := normalForm_isProper hrsnamed ha
  split
  next us => exact chooseSign_failsWithin haproper
  next hnosum =>
    -- what is no sum has fewer levels than the sum
    have hsum : a.isSum = false := by
      cases a with
      | sum us => exact (hnosum us rfl).elim
      | _ => rfl
    have hlevels := (levels_normalForm_sum hfixed ha).terms.trans hle
    rw [termLevels_of_isSum_eq_false hsum] at hlevels
    have hrank := a.signRank_le
    exact ih hafixed haproper.named (by omega)

theorem splitSigns_product_failsWithin {fs : List Expr} (he : (product fs).IsFixed s)
    (hnamed : (product fs).Every IsNamedNode) (hn : (product fs).signRank < n + 1) :
    FailsWithin s.GivesUp (splitSigns s (n + 1) (product fs)) := by
  have hfs := (every_product.mp hnamed).2
  rw [splitSigns]
  refine (FailsWithin.mapM fun f hf => ih (he.of_mem_product f hf) (hfs f hf) ?_).bind
    fun ps hps => ?_
  · have hlt := he.built.signRank_factor_lt hf
    omega
  have hbodies : ∀ p ∈ ps, p.body.Every IsNamedNode :=
    forall_mem_of_mapM (fun f hf p hp => splitSigns_named (hfs f hf) hp) hps
  exact (normalForm_failsWithin (every_product.mpr
    ⟨trivial, List.forall_mem_map.mpr hbodies⟩)).bind fun _ _ => .ok _

theorem splitSigns_power_failsWithin {b x : Expr} (he : (power b x).IsFixed s)
    (hnamed : (power b x).Every IsNamedNode) (hn : (power b x).signRank < n + 1) :
    FailsWithin s.GivesUp (splitSigns s (n + 1) (power b x)) := by
  obtain ⟨hb, hx⟩ := he.of_power
  obtain ⟨-, hbnamed, hxnamed⟩ := every_power.mp hnamed
  obtain ⟨hbrank, hxrank⟩ := he.built.signRank_power_lt
  rw [splitSigns]
  refine (ih hb hbnamed (by omega)).bind fun base hbase =>
    (ih hx hxnamed (by omega)).bind fun q hq => ?_
  have hbody := splitSigns_named hbnamed hbase
  have hqbody := splitSigns_named hxnamed hq
  refine (rebuild_failsWithin hqbody).bind fun exponent hexponent => ?_
  have hpower : ∀ {c : Expr} {f : Expr → Signed}, c.Every IsNamedNode →
      FailsWithin s.GivesUp
        (normalForm s (power c exponent) >>= fun body => pure (f body)) := fun hc =>
    (normalForm_failsWithin (every_power.mpr
      ⟨trivial, hc, Signed.named_rebuild hqbody hexponent⟩)).bind fun _ _ => .ok _
  split
  next => exact hpower hbody
  next =>
    exact (rebuild_failsWithin hbody).bind fun c hc => hpower (Signed.named_rebuild hbody hc)

theorem splitSigns_call_failsWithin {name : String} {es : List Expr}
    (he : (call name es).IsFixed s) (hnamed : (call name es).Every IsNamedNode)
    (hn : (call name es).signRank < n + 1) :
    FailsWithin s.GivesUp (splitSigns s (n + 1) (call name es)) := by
  obtain ⟨hname, hes⟩ := every_call.mp hnamed
  rw [signRank_call, levels_call] at hn
  rw [splitSigns]
  refine (rebuilds_failsWithin ih he.of_mem_call hes (by omega)).bind fun rs hrs => ?_
  rw [mapM_rebuild_iff] at hrs
  exact (normalForm_failsWithin (every_call.mpr
    ⟨leafProperty_isNamedNode.call hrs.length_eq hname,
      forall₂_rebuildsAs_named hes hrs⟩)).bind fun _ _ => .ok _

end

/-- With the depth above the rank, taking signs out fails only where a normal form does, by
induction on the depth. -/
theorem Expr.IsFixed.splitSigns_failsWithin {s : Settings} {n : Nat} {e : Expr} (he : e.IsFixed s)
    (hnamed : e.Every IsNamedNode) (hn : e.signRank < n) :
    FailsWithin s.GivesUp (splitSigns s n e) := by
  induction n generalizing e with
  | zero => omega
  | succ n ih =>
    cases e with
    | number v => exact .ok _
    | symbol name => exact .ok _
    | sum ts => exact splitSigns_sum_failsWithin ih he hnamed hn
    | product fs => exact splitSigns_product_failsWithin ih he hnamed hn
    | power b x => exact splitSigns_power_failsWithin ih he hnamed hn
    | negation d => exact (not_isBuilt_negation he.built).elim
    | call name es => exact splitSigns_call_failsWithin ih he hnamed hn
    | hole => exact (every_hole.mp hnamed).elim

/-- Where the names are those of the notation, the representative of a sign class can only fail by
passes that do not settle. -/
theorem stripped_failsWithin {s : Settings} {e : Expr} (he : e.Every IsNamedNode) :
    FailsWithin s.GivesUp (stripped s e) := by
  unfold stripped
  refine (normalForm_failsWithin he).bind fun c hc => ?_
  have hnamed := (normalForm_isProper he hc).named
  have hfixed := normalForm_isFixed (isExact_of_named he) hc
  refine (hfixed.splitSigns_failsWithin hnamed c.signRank_lt_signDepth).bind fun p hp => ?_
  have hbody := splitSigns_named hnamed hp
  exact (rebuild_failsWithin hbody).bind fun r hr =>
    normalForm_failsWithin (Signed.named_rebuild hbody hr)

/-! ## Termination -/

/-- Taking the signs out of a normal form ends, under any settings. Every depth above the rank of
the tree comes to the same outcome, so that it is no matter of the depth, and this is a sign and a
body unless a normal form is missing on the way. -/
theorem signed_terminates {s : Settings} {e c : Expr} (he : e.Every IsNamedNode)
    (hc : normalForm s e = .ok c) :
    HasFuel (signed s c) ∧ (∀ n, c.signRank < n → splitSigns s n c = signed s c) ∧
      FailsWithin s.GivesUp (signed s c) := by
  have hfixed := normalForm_isFixed (isExact_of_named he) hc
  have hnamed := (normalForm_isProper he hc).named
  have hfails : ∀ {n}, c.signRank < n →
      FailsWithin s.GivesUp (splitSigns s n c) := hfixed.splitSigns_failsWithin hnamed
  have hfuel : ∀ {n}, c.signRank < n → HasFuel (splitSigns s n c) := by
    intro n hn h
    obtain h | ⟨_, -, _, h⟩ := hfails hn _ h <;> cases h
  have hdepth := c.signRank_lt_signDepth
  refine ⟨hfuel hdepth, fun n hn => ?_, hfails hdepth⟩
  -- the smaller one of the two depths is enough already
  obtain hle | hle := le_total n c.signDepth
  · exact (splitSigns_mono hle c (hfuel hn)).symm
  · exact splitSigns_mono hle c (hfuel hdepth)

/-- The factors `(-a+b)^x` and `(a-b)^2` get one base when their signs are out, so that their
exponents make a sum that has not been there. Both terms come to multiples of its power, and their
sum is taken up again as a product, which is no part of it. -/
theorem signed_terminates_powers :
    let u := sum [product [rat (-1), symbol "a"], symbol "b"]
    let v := sum [symbol "a", product [rat (-1), symbol "b"]]
    let merged := power u (sum [rat 2, symbol "x"])
    let e := sum [product [rat 2, power v (rat 2), power u (symbol "x")], product [rat 3, merged]]
    let c := sum [product [rat 3, merged], product [rat 2, power u (symbol "x"), power v (rat 2)]]
    (e.Every IsNamedNode ∧ normalForm .standard e = .ok c) ∧ c.signRank = 45 ∧
      signed .standard c = .ok ⟨false, product [rat 5, merged]⟩ ∧
      ∀ n, 45 < n → splitSigns .standard n c = .ok ⟨false, product [rat 5, merged]⟩ := by
  intro u v merged e c
  have he : e.Every IsNamedNode := by
    have ha : IsIdentifier "a" := isIdentifier_letter (c := 'a') (by decide)
    have hb : IsIdentifier "b" := isIdentifier_letter (c := 'b') (by decide)
    have hx : IsIdentifier "x" := isIdentifier_letter (c := 'x') (by decide)
    simp [e, u, v, merged, IsNamedNode, ha, hb, hx]
  have hexact : c.IsExact := by simp [c, u, v, merged]
  have hc : normalForm .standard e = .ok c :=
    normalForm_eq_ok_of_returns (isExact_of_named he) hexact (by decide +kernel)
  have hp : signed .standard c = .ok ⟨false, product [rat 5, merged]⟩ :=
    splitSigns_eq_ok_of_same hexact (by simp [merged, u]) (by decide +kernel)
  have hrank : c.signRank = 45 := by decide +kernel
  obtain ⟨-, hdepth, -⟩ := signed_terminates he hc
  exact ⟨⟨he, hc⟩, hrank, hp, fun n hn => (hdepth n (hrank ▸ hn)).trans hp⟩

/-! ## Negations -/

theorem normalForm_negation {e c : Expr} (he : e.Every IsNamedNode)
    (hc : normalForm .unbounded e = .ok c) :
    normalForm .unbounded (negation c) = .ok c.opposite := by
  have hkept := normalForm_kept he hc
  exact normalForm_of_pass (normalPass_negation hkept.pass hkept) hkept.opposite

/-- The negation of a normal form has a normal form, unless the limit for digits stops that, and
where the signs come out of both, they are opposite in front of the same body; only zero has no
sign. There are no signs for one of them only if a normal form is missing on the way. -/
theorem signed_negation {e c : Expr} (he : e.Every IsNamedNode)
    (hc : normalForm .standard e = .ok c) :
    DigitLimit.standard.Gives (normalForm .standard (negation c)) fun n =>
      FailsWithin Settings.standard.GivesUp (signed .standard c) ∧
      FailsWithin Settings.standard.GivesUp (signed .standard n) ∧
      ∀ p q, signed .standard c = .ok p → signed .standard n = .ok q →
        (p.body ≠ zero → q = ⟨!p.negative, p.body⟩) ∧ (p.body = zero → q.body = zero) := by
  have hc' := normalForm_unlimited hc
  have hkept := normalForm_kept he hc'
  have hnegation : (negation c).Every IsNamedNode := every_negation.mpr ⟨trivial, hkept.tidy.named⟩
  refine ((normalForm_restricts .standard (negation c)).gives (P := (· = c.opposite))
    (normalForm_negation he hc') rfl).mono ?_
  rintro _ hn rfl
  refine ⟨(signed_terminates he hc).2.2, (signed_terminates hnegation hn).2.2, fun p q hp hq => ?_⟩
  obtain ⟨hbody, hsign⟩ := splitSigns_opposite hkept (signed_unlimited hp) ⟨_, signed_unlimited hq⟩
  refine ⟨fun hne => ?_, fun hzero => hbody.trans hzero⟩
  rw [← hsign.resolve_left hne, ← hbody]

/-- The terms of `3(a-b)+2(b-a)` share one body when their signs are out. The sum comes down to
`-(-a+b)`, and its negation to `-a+b`. -/
theorem signed_negation_multiples :
    let minus (x y : String) := sum [symbol x, product [rat (-1), symbol y]]
    let opposite := sum [product [rat (-1), symbol "a"], symbol "b"]
    let e := sum [product [rat 3, minus "a" "b"], product [rat 2, minus "b" "a"]]
    let c := sum [product [rat 2, opposite], product [rat 3, minus "a" "b"]]
    let n := sum [product [rat (-2), opposite], product [rat (-3), minus "a" "b"]]
    (e.Every IsNamedNode ∧ normalForm .standard e = .ok c) ∧
      signed .standard c = .ok ⟨true, opposite⟩ ∧ normalForm .standard (negation c) = .ok n ∧
      ∀ q, signed .standard n = .ok q → q = ⟨false, opposite⟩ := by
  intro minus opposite e c n
  have he : e.Every IsNamedNode := by
    have ha : IsIdentifier "a" := isIdentifier_letter (c := 'a') (by decide)
    have hb : IsIdentifier "b" := isIdentifier_letter (c := 'b') (by decide)
    simp [e, minus, IsNamedNode, ha, hb]
  have hexact : c.IsExact := by simp [c, minus, opposite]
  have hc : normalForm .standard e = .ok c :=
    normalForm_eq_ok_of_returns (isExact_of_named he) hexact (by decide +kernel)
  have hp : signed .standard c = .ok ⟨true, opposite⟩ :=
    splitSigns_eq_ok_of_same hexact (by simp [opposite]) (by decide +kernel)
  have hn : normalForm .standard (negation c) = .ok n :=
    normalForm_eq_ok_of_returns (by simpa using hexact) (by simp [n, minus, opposite])
      (by decide +kernel)
  have hne : opposite ≠ zero := by simp [opposite, zero, rat]
  obtain ⟨-, -, hsigns⟩ := (signed_negation he hc).of_ok hn
  exact ⟨⟨he, hc⟩, hp, hn, fun q hq => (hsigns _ q hp hq).1 hne⟩

end AlgebraicForm
