import AlgebraicForm.Proofs.Energy
import AlgebraicForm.Proofs.Rebuilding

/-!
# Normal forms are settled

A pass that gives back the tree it was given has found nothing to do at any node. If some node had
a sum inside a sum, two factors of one base, or a minus sign in front of a sum, the pass would have
lowered the energy there, and no later law could have raised it again. So a normal form has, at
every node, the shape of what is built (`IsBuiltNode`) and none of these three (`IsSettledNode`).

* `buildSum_eq_self`, `buildProduct_eq_self`: a builder that keeps the energy keeps its operands.
* `eq_self_of_energy_eq`: so does a pass, by induction over the tree.
* `normalForm_isKept`: normal forms with all their parts; `normalForm_fixpoint`: a pass keeps them.
* `normalForm_eq_of_fixpoint`: what a pass keeps after the first one is the normal form.
-/

namespace AlgebraicForm

open AlgebraicForm.Expr

/-- No sum in a sum, no base twice in a product, and no minus sign in front of a sum. -/
def IsSettledNode : Expr → Prop
  | sum ts => ∀ t ∈ ts, t.isSum = false
  | product fs => DistinctBases (otherFactors fs) ∧ ∀ ts, fs ≠ [minusOne, sum ts]
  | _ => True

/-- A settled node that a pass gives back. -/
def IsKeptNode (s : Settings) (e : Expr) : Prop :=
  IsSettledNode e ∧ normalPass s e = .ok e

/-! ## Totals of energies -/

/-- Operands that rewrite one by one keep their energies, if a total that grows with each of them
stays the same. -/
theorem energies_eq (total : List Expr → Nat) {ds es : List Expr}
    (hgrow : ∀ {d e : Expr} {ds es : List Expr}, e.energy ≤ d.energy → total es ≤ total ds →
      total (e :: es) ≤ total (d :: ds) ∧
        (total (e :: es) = total (d :: ds) → e.energy = d.energy ∧ total es = total ds))
    (h : List.Forall₂ Rewrites ds es) : total es ≤ total ds ∧
      (total es = total ds → List.Forall₂ (fun d e => e.energy = d.energy) ds es) := by
  induction h with
  | nil => exact ⟨le_rfl, fun _ => .nil⟩
  | cons hde _ ih =>
    obtain ⟨hle, heq⟩ := hgrow hde.energy_le ih.1
    refine ⟨hle, fun htotal => ?_⟩
    obtain ⟨hhead, htail⟩ := heq htotal
    exact .cons hhead (ih.2 htail)

section

variable {ds es : List Expr} (h : List.Forall₂ Rewrites ds es)

include h

theorem energies_of_sumEnergy : sumEnergy es ≤ sumEnergy ds ∧
    (sumEnergy es = sumEnergy ds → List.Forall₂ (fun d e => e.energy = d.energy) ds es) := by
  refine energies_eq sumEnergy (fun {d e ds es} hde hrest => ?_) h
  rw [sumEnergy_cons, sumEnergy_cons]
  omega

theorem energies_of_productEnergy : productEnergy es ≤ productEnergy ds ∧
    (productEnergy es = productEnergy ds →
      List.Forall₂ (fun d e => e.energy = d.energy) ds es) := by
  refine energies_eq productEnergy (fun {d e ds es} hde hrest => ?_) h
  rw [productEnergy_cons, productEnergy_cons]
  have hmul := Nat.mul_le_mul hde hrest
  refine ⟨hmul, fun hprod => ?_⟩
  have hd := d.two_le_energy
  have hds := one_le_productEnergy ds
  constructor <;> nlinarith

theorem energies_of_squareEnergy : squareEnergy es ≤ squareEnergy ds ∧
    (squareEnergy es = squareEnergy ds →
      List.Forall₂ (fun d e => e.energy = d.energy) ds es) := by
  refine energies_eq squareEnergy (fun {d e ds es} hde hrest => ?_) h
  rw [squareEnergy_cons, squareEnergy_cons]
  have hmul := Nat.mul_le_mul hde hde
  refine ⟨by omega, fun hsum => ?_⟩
  have hsquare : e.energy * e.energy = d.energy * d.energy := by omega
  exact ⟨Nat.mul_self_inj.mp hsquare, by omega⟩

end

/-- The terms of a term have no more energy than it, and less if it is a sum. -/
theorem sumEnergy_terms (t : Expr) :
    sumEnergy t.terms ≤ t.energy ∧ (t.isSum = true → sumEnergy t.terms < t.energy) := by
  cases t with
  | sum ts =>
    rw [energy_sum]
    show sumEnergy ts ≤ _ ∧ (_ → sumEnergy ts < _)
    omega
  | _ => simp [terms, isSum]

/-- Taking sums apart into their terms lowers the total, if there are any. -/
theorem sumEnergy_flatMap_terms (ts : List Expr) : sumEnergy (ts.flatMap terms) ≤ sumEnergy ts ∧
    ((∃ t ∈ ts, t.isSum = true) → sumEnergy (ts.flatMap terms) < sumEnergy ts) := by
  induction ts with
  | nil => simp
  | cons t ts ih =>
    obtain ⟨hle, hlt⟩ := sumEnergy_terms t
    rw [List.flatMap_cons, sumEnergy_append, sumEnergy_cons]
    refine ⟨by omega, ?_⟩
    rintro ⟨u, hu, husum⟩
    rcases List.mem_cons.mp hu with rfl | hu
    · have := hlt husum
      omega
    · have := ih.2 ⟨u, hu, husum⟩
      omega

/-- Two operands already have more than the least energy of a sum. -/
theorem four_le_sumEnergy {ts : List Expr} (hts : 2 ≤ ts.length) : 4 ≤ sumEnergy ts := by
  match ts, hts with
  | t :: u :: ts, _ =>
    have ht := t.two_le_energy
    have hu := u.two_le_energy
    simp only [sumEnergy_cons]
    omega

theorem four_le_productEnergy {fs : List Expr} (hfs : 2 ≤ fs.length) : 4 ≤ productEnergy fs := by
  match fs, hfs with
  | f :: g :: fs, _ =>
    have hfg := Nat.mul_le_mul f.two_le_energy
      (Nat.mul_le_mul g.two_le_energy (one_le_productEnergy fs))
    simp only [productEnergy_cons]
    omega

/-- Where no operand is a sum, there is nothing to take apart. -/
theorem flatMap_terms_eq_self {ts : List Expr} (h : ∀ t ∈ ts, t.isSum = false) :
    ts.flatMap terms = ts := by
  induction ts with
  | nil => rfl
  | cons t ts ih =>
    rw [List.forall_mem_cons] at h
    have ht : t.terms = [t] := by
      cases t <;> simp_all [terms, isSum]
    rw [List.flatMap_cons, ht, ih h.2]
    rfl

theorem flatMap_factors_eq_self {fs : List Expr} (h : ∀ f ∈ fs, f.isProduct = false) :
    fs.flatMap factors = fs := by
  induction fs with
  | nil => rfl
  | cons f fs ih =>
    rw [List.forall_mem_cons] at h
    rw [List.flatMap_cons, factors_of_isProduct_eq_false h.1, ih h.2]
    rfl

section

variable {s : Settings}

/-! ## Sums -/

/-- A sum that is built without losing energy is built of itself, and holds no sum. -/
theorem buildSum_eq_self {ts : List Expr} {r : Expr} (h : (sum ts).IsBuilt s)
    (hr : buildSum s ts = .ok r) (henergy : r.energy = (sum ts).energy) :
    r = sum ts ∧ ∀ t ∈ ts, t.isSum = false := by
  obtain ⟨⟨hlen, -⟩, hts⟩ := isBuilt_sum.mp h
  have hnosum : ∀ t ∈ ts, t.isSum = false := by
    by_contra hsum
    push Not at hsum
    have hlt := (sumEnergy_flatMap_terms ts).2 (by simpa using hsum)
    have hle := (buildSum_terms_rewrites (fun t ht => (hts t ht).isExact) hr).energy_le
    have hfour := four_le_sumEnergy hlen
    simp only [energy_sum] at hle henergy
    omega
  exact ⟨buildSum_settled h (flatMap_terms_eq_self hnosum) hr, hnosum⟩

/-! ## Products -/

/-- If no base has collected a second exponent, the factors had different bases. -/
theorem distinctBases_of_single {fs : List Expr} {q : Rat} {bs : List (Expr × List Expr)}
    (hfs : ∀ f ∈ fs, f.IsExact) (h : collectFactors (.exact 1) [] fs = .ok (.exact q, bs))
    (hsingle : ∀ g ∈ bs, g.2.length = 1) : DistinctBases (otherFactors fs) := by
  -- each base is there once, and as often as it has exponents among the factors
  obtain ⟨q', bs', hcollect, -, hnodup, done, hdone, hperm⟩ := collectFactors_invariant
    (I := fun _ bs rest => (bs.map fun g : Expr × List Expr => g.1).Nodup ∧
      ∃ done, fs = done ++ rest ∧
        (bs.flatMap fun g : Expr × List Expr => g.2.map fun _ => g.1).Perm
          ((otherFactors done).map fun f => f.splitPower.1))
    (fun q bs a rest ⟨hnodup, done, hdone, hperm⟩ => by
      exact ⟨hnodup, done ++ [rat a], by simpa using hdone, by simpa using hperm⟩)
    (fun q pre b es post f e rest hf hsplit ⟨hnodup, done, hdone, hperm⟩ => by
      refine ⟨by simpa using hnodup, done ++ [f], by simpa using hdone, ?_⟩
      rw [otherFactors_append, otherFactors_cons hf, otherFactors_nil, List.map_append,
        List.map_singleton, hsplit]
      refine List.Perm.trans ?_ (hperm.append_right [b])
      simp only [List.flatMap_append, List.flatMap_cons, List.map_append, List.map_singleton,
        List.append_assoc]
      exact (List.perm_append_comm.append_left _).append_left _)
    (fun q bs b f e rest hf hsplit hnew ⟨hnodup, done, hdone, hperm⟩ => by
      refine ⟨?_, done ++ [f], by simpa using hdone, ?_⟩
      · rw [List.map_append, List.nodup_append]
        refine ⟨hnodup, by simp, ?_⟩
        simpa using fun b es hmem => hnew (b, es) hmem
      · rw [otherFactors_append, otherFactors_cons hf, otherFactors_nil, List.map_append,
          List.map_singleton, hsplit, List.flatMap_append]
        exact hperm.append_right [b])
    (q := 1) (List.forall_mem_nil fun g : Expr × List Expr => g.1.IsExact ∧ ∀ e ∈ g.2, e.IsExact)
    hfs ⟨by simp, [], rfl, by simp⟩
  obtain ⟨rfl, rfl⟩ : q' = q ∧ bs' = bs := by simpa using hcollect.symm.trans h
  have hbases : (bs'.flatMap fun g : Expr × List Expr => g.2.map fun _ => g.1) =
      bs'.map fun g : Expr × List Expr => g.1 := by
    clear hcollect h hnodup hperm
    induction bs' with
    | nil => rfl
    | cons g bs ih =>
      rw [List.forall_mem_cons] at hsingle
      obtain ⟨e, he⟩ := List.length_eq_one_iff.mp hsingle.1
      rw [List.flatMap_cons, List.map_cons, ih hsingle.2, he]
      rfl
  rw [List.append_nil] at hdone
  subst hdone
  rw [hbases] at hperm
  exact hperm.nodup_iff.mp hnodup

/-- A base with the exponents that it has collected merged into one. -/
def MergedPower (s : Settings) (g m : Expr × List Expr) : Prop :=
  ∃ e, mergeExponents s g.2 = .ok e ∧ m = (g.1, [e])

/-- Powers may be built of the merged exponents. -/
theorem buildBases_merged {power : Expr → Expr → Except Fault Expr} {q : Number}
    {fs : List Expr} {bs : List (Expr × List Expr)} {r : Number × List Expr}
    (h : buildBases s power q fs bs = .ok r) :
    ∃ ms, List.Forall₂ (MergedPower s) bs ms ∧ buildBases s power q fs ms = .ok r := by
  induction bs generalizing q fs with
  | nil => exact ⟨[], .nil, h⟩
  | cons g bs ih =>
    obtain ⟨b, es⟩ := g
    rw [buildBases] at h
    obtain ⟨e, he, h⟩ := bind_eq_ok_iff.mp h
    obtain ⟨p, hp, h⟩ := bind_eq_ok_iff.mp h
    obtain ⟨⟨q', fs'⟩, habsorb, h⟩ := bind_eq_ok_iff.mp h
    obtain ⟨ms, hms, hbuild⟩ := ih h
    refine ⟨(b, [e]) :: ms, .cons ⟨e, he, rfl⟩ hms, ?_⟩
    rw [buildBases, mergeExponents]
    simpa [hp, habsorb] using hbuild

/-- Merging the exponents of a base never raises the energy, and lowers it if there are several. -/
theorem MergedPower.energy {g m : Expr × List Expr} (h : MergedPower s g m) (hne : g.2 ≠ [])
    (hexact : ∀ e ∈ g.2, e.IsExact) :
    (∀ e ∈ m.2, e.IsExact) ∧
      productEnergy (m.2.map (ofPower m.1)) ≤ productEnergy (g.2.map (ofPower g.1)) ∧
      (2 ≤ g.2.length →
        productEnergy (m.2.map (ofPower m.1)) < productEnergy (g.2.map (ofPower g.1))) := by
  obtain ⟨b, es⟩ := g
  obtain ⟨e, he, rfl⟩ := h
  change mergeExponents s es = .ok e at he
  unfold mergeExponents at he
  split at he
  next d =>
    obtain rfl : d = e := by simpa using he
    exact ⟨hexact, le_rfl, by simp⟩
  next hsingle =>
    have hlen : 2 ≤ es.length := by
      match es, hne, hsingle with
      | [d], _, hsingle => exact absurd rfl (hsingle d)
      | _ :: _ :: _, _, _ => simp
    have hsum := buildSum_rewrites hexact he
    have hlt := energy_power_lt (b := b) hlen hsum.energy_le fun hint =>
      isIntegerNumber_of_buildSum hexact hint he
    have hone : (ofPower b e).energy ≤ (power b e).energy := by
      unfold ofPower
      split
      next =>
        split
        · rw [energy_power]
          exact b.energy_le_square.trans (Nat.le_mul_of_pos_right _ (one_le_exponentEnergy _))
        · exact le_rfl
      next => exact le_rfl
    have he : e.IsExact := hsum.isExact (isExact_sum.mpr hexact)
    simp only [List.map_cons, List.map_nil, productEnergy_cons, productEnergy_nil, mul_one]
    exact ⟨by simpa using he, by omega, fun _ => by omega⟩

/-- Several factors of a base are more than the least energy of a product. -/
theorem nine_le_productEnergy (b : Expr) {es : List Expr} (hes : 2 ≤ es.length) :
    9 ≤ productEnergy (es.map (ofPower b)) := by
  match es, hes with
  | d :: e :: es, _ =>
    simp only [List.map_cons, productEnergy_cons]
    exact Nat.mul_le_mul (energy_ofPower_ge b d).2 (Nat.mul_le_mul (energy_ofPower_ge b e).2
      (one_le_productEnergy (es.map (ofPower b))))

/-- Merging all exponents never raises the energy, and lowers it if a base has several. -/
theorem energy_merged {bs ms : List (Expr × List Expr)} (h : List.Forall₂ (MergedPower s) bs ms)
    (hne : ∀ g ∈ bs, g.2 ≠ []) (hexact : ∀ g ∈ bs, g.1.IsExact ∧ ∀ e ∈ g.2, e.IsExact) :
    (∀ m ∈ ms, m.2 ≠ [] ∧ m.1.IsExact ∧ ∀ e ∈ m.2, e.IsExact) ∧
      productEnergy (groupFactors ms) ≤ productEnergy (groupFactors bs) ∧
      ((∃ g ∈ bs, g.2.length ≠ 1) → 9 ≤ productEnergy (groupFactors bs) ∧
        productEnergy (groupFactors ms) < productEnergy (groupFactors bs)) := by
  induction h with
  | nil => simp
  | @cons g m bs ms hgm _ ih =>
    rw [List.forall_mem_cons] at hne hexact
    obtain ⟨hmexact, hle, hlt⟩ := hgm.energy hne.1 hexact.1.2
    obtain ⟨hms, hlater, hlaterlt⟩ := ih hne.2 hexact.2
    rw [groupFactors_cons, groupFactors_cons, productEnergy_append, productEnergy_append]
    refine ⟨?_, Nat.mul_le_mul hle hlater, ?_⟩
    · obtain ⟨e, -, rfl⟩ := hgm
      exact List.forall_mem_cons.mpr ⟨⟨by simp, hexact.1.1, hmexact⟩, hms⟩
    · rintro ⟨d, hd, hlen⟩
      rcases List.mem_cons.mp hd with rfl | hd
      · have htwo : 2 ≤ d.2.length := by
          have := List.length_pos_of_ne_nil hne.1
          omega
        refine ⟨Nat.mul_le_mul (nine_le_productEnergy d.1 htwo) (one_le_productEnergy _), ?_⟩
        exact Nat.mul_lt_mul_of_lt_of_le (hlt htwo) hlater (one_le_productEnergy _)
      · obtain ⟨hnine, hltlater⟩ := hlaterlt ⟨d, hd, hlen⟩
        have hmul := Nat.mul_le_mul (one_le_productEnergy (g.2.map (ofPower g.1))) hnine
        refine ⟨by omega, ?_⟩
        exact Nat.mul_lt_mul_of_le_of_lt hle hltlater (one_le_productEnergy _)

theorem isExact_groupFactors (q : Rat) {bs : List (Expr × List Expr)}
    (h : ∀ g ∈ bs, g.1.IsExact ∧ ∀ e ∈ g.2, e.IsExact) :
    ∀ f ∈ coefficientFactor q ++ groupFactors bs, f.IsExact := by
  rw [List.forall_mem_append]
  refine ⟨?_, fun f hf => ?_⟩
  · unfold coefficientFactor
    split <;> simp
  · obtain ⟨g, hg, hf⟩ := List.mem_flatMap.mp hf
    obtain ⟨e, he, rfl⟩ := List.mem_map.mp hf
    have hpower : (power g.1 e).IsExact := isExact_power.mpr ⟨(h g hg).1, (h g hg).2 e he⟩
    unfold ofPower
    split
    · split
      · exact (h g hg).1
      · exact hpower
    · exact hpower

/-- A product with two factors of one base loses energy when it is built. -/
theorem buildProduct_energy_lt {fuel : Nat} {es : List Expr} {r : Expr}
    (hes : ∀ e ∈ es, e.IsExact) (h : buildProduct s (fuel + 1) es = .ok r)
    (hdouble : ¬DistinctBases (otherFactors (es.flatMap factors))) :
    r.energy < (product (es.flatMap factors)).energy := by
  have hfactors : ∀ f ∈ es.flatMap factors, f.IsExact := by
    intro f hf
    obtain ⟨e, he, hef⟩ := List.mem_flatMap.mp hf
    exact (hes e he).factors f hef
  obtain ⟨q, bs, hcollect, hbs, hne, hcollected⟩ := Rewrites.product_collectFactors hfactors
  rw [List.append_nil] at hcollected
  have hseveral : ∃ g ∈ bs, g.2.length ≠ 1 := by
    by_contra hall
    push Not at hall
    exact hdouble (distinctBases_of_single hfactors hcollect hall)
  have hle := hcollected.energy_le
  simp only [energy_product, productEnergy_append] at hle
  have hone := one_le_productEnergy (coefficientFactor q)
  rcases buildProduct_eq_ok hcollect h with ⟨-, rfl⟩ | ⟨-, c, fs, hbases, hresult⟩
  · rw [energy_product, zero, energy_number]
    omega
  · -- the powers might as well be built of the merged exponents, which have less energy
    obtain ⟨ms, hms, hmerged⟩ := buildBases_merged hbases
    obtain ⟨hmsexact, -, hlt⟩ := energy_merged hms hne hbs
    obtain ⟨hnine, hlt⟩ := hlt hseveral
    have hbuilds : BuildsPowers (buildPower s fuel) :=
      ⟨fun hb hp hr => buildPower_rewrites hb hp hr, eq_of_buildPower_one⟩
    obtain ⟨q', rfl, hbuilt⟩ := hbuilds.buildBases (fun m hm => (hmsexact m hm).2)
      (fun m hm => (hmsexact m hm).1) hmerged
    have hgroups := isExact_groupFactors q fun m hm => (hmsexact m hm).2
    have hfs : ∀ f ∈ fs, f.IsExact := fun f hf =>
      isExact_product.mp (hbuilt.isExact (isExact_product.mpr hgroups)) f
        (List.mem_append_right _ hf)
    have hr := (hbuilt.trans ((hresult q' rfl).rewrites hfs buildProduct_rewrites)).energy_le
    have hmul := Nat.mul_lt_mul_of_pos_left hlt hone
    have hmulnine := Nat.mul_le_mul hone hnine
    simp only [energy_product, productEnergy_append] at hr ⊢
    omega

theorem exists_factorKey {fs gs : List Expr} (h : sortFactors s fs = .ok gs) :
    ∀ f ∈ fs, ∃ k, f.factorKey s.digits = .ok k := by
  obtain ⟨ks, hks, -⟩ := sortFactors_eq_ok_iff.mp h
  intro f hf
  obtain ⟨k, -, hk, -⟩ := exists_mem_of_forall₂ hks.flip hf
  exact ⟨k.1, hk⟩

/-- Where no base is there twice, a product comes from its literals and its other factors. -/
theorem buildProduct_distinct {fuel : Nat} {es : List Expr} {r : Expr}
    (hes : ∀ e ∈ es, e.IsBuilt s)
    (hdistinct : DistinctBases (otherFactors (es.flatMap factors)))
    (h : buildProduct s (fuel + 2) es = .ok r) :
    ProductResult s (fuel + 1) (literalProduct (es.flatMap factors))
      (otherFactors (es.flatMap factors)) r := by
  have hcollect := collectFactors_distinct (isExact_flatMap_factors hes) hdistinct
  rcases buildProduct_eq_ok hcollect h with ⟨hzero, rfl⟩ | ⟨-, c, fs, hbases, hresult⟩
  · exact .zero hzero
  · rw [buildBases_ownPower (buildPower_otherFactors hes fuel), List.nil_append] at hbases
    obtain ⟨rfl, rfl⟩ := Prod.mk.inj (Except.ok.inj hbases)
    exact hresult _ rfl

/-- A product that is built without losing energy is built of itself; its bases are different, it is
not the negation of a sum, and its factors have keys to be sorted by. -/
theorem buildProduct_eq_self {fuel : Nat} {fs : List Expr} {r : Expr}
    (h : (product fs).IsBuilt s) (hr : buildProduct s (fuel + 2) fs = .ok r)
    (henergy : r.energy = (product fs).energy) :
    r = product fs ∧ (DistinctBases (otherFactors fs) ∧ ∀ ts, fs ≠ [minusOne, sum ts]) ∧
      ∀ f ∈ otherFactors fs, ∃ k, f.factorKey s.digits = .ok k := by
  have hfs := (isBuilt_product.mp h).2
  obtain ⟨⟨-, q, gs, hq, hne, hcoefficient, hgs⟩, -⟩ := isBuilt_product.mp h
  have hflat : fs.flatMap factors = fs := by
    apply flatMap_factors_eq_self
    intro f hf
    rw [hcoefficient] at hf
    rcases List.mem_append.mp hf with hf | hf
    · unfold coefficientFactor at hf
      split at hf
      · simp at hf
      · rw [List.mem_singleton.mp hf]
        rfl
    · exact (hgs.factor f hf).2
  have hdistinct : DistinctBases (otherFactors fs) := by
    by_contra hdouble
    rw [← hflat] at hdouble
    have hlt := buildProduct_energy_lt (fun f hf => (hfs f hf).isExact) hr hdouble
    rw [hflat] at hlt
    omega
  have hresult := buildProduct_distinct hfs (by rwa [hflat]) hr
  have hother : literalProduct fs = q ∧ otherFactors fs = gs := by
    obtain ⟨hother, hone⟩ := otherFactors_eq_self fun g hg => (hgs.factor g hg).1
    rw [hcoefficient]
    simp [hother, hone]
  rw [hflat, hother.1, hother.2] at hresult
  have hself : ∀ {gs'}, sortFactors s gs = .ok gs' → gs' = gs := by
    intro gs' hsort
    have hsorted := sortFactors_eq_ok (exists_factorKey hsort) hgs.ordered
    exact (Except.ok.inj (hsorted.symm.trans hsort)).symm
  cases hresult with
  | zero hzero => exact absurd hzero hq
  | literal _ hnil => exact absurd hnil hne
  | @negated ts us _ hminus hsum hus hr =>
    -- distributing the sign would have lowered the energy
    have hts := (isBuilt_sum.mp (hfs (sum ts) (by rw [hcoefficient, hsum]; simp))).2
    have hle := (negated_rewrites (fun t ht => (hts t ht).isExact) hus hr
      buildProduct_rewrites).energy_le
    have hlt := energy_distribute_lt ts
    have hfs' : fs = [minusOne, sum ts] := by
      rw [hcoefficient, hminus, hsum, coefficientFactor, if_neg (by norm_num)]
      rfl
    rw [hfs'] at henergy
    omega
  | @plain gs' hq' hsort _ hnosum =>
    obtain rfl := hself hsort
    refine ⟨?_, ⟨hdistinct, ?_⟩, hother.2 ▸ exists_factorKey hsort⟩
    · have hself := h.eq_ofScaled.1
      rw [Expr.factors, hother.1, hother.2] at hself
      rw [hself, ofScaled]
      exact hne
    · rintro ts rfl
      have hq : q = -1 := by
        rw [← hother.1]
        simp [minusOne, literalProduct, literalFactor]
      exact hnosum ts ⟨hq, hother.2.symm⟩

/-! ## Passes -/

/-- The builders have two steps to take at least. -/
theorem depthBound_eq (w : Nat) : ∃ fuel, depthBound w = fuel + 4 := by
  have h := Nat.mul_le_mul (Nat.le_add_left 4 w) (Nat.le_add_left 4 w)
  exact ⟨depthBound w - 4, by unfold depthBound at *; omega⟩

/-- Operands that a pass leaves their energies are the same after it, and all their parts are
kept. -/
theorem normalPassAll_eq_self {es cs : List Expr}
    (ih : ∀ e ∈ es, ∀ {c : Expr}, e.IsBuilt s → normalPass s e = .ok c →
      c.energy = e.energy → c = e ∧ e.Every (IsKeptNode s))
    (hes : ∀ e ∈ es, e.IsBuilt s) (h : normalPassAll s es = .ok cs)
    (henergy : List.Forall₂ (fun e c => c.energy = e.energy) es cs) :
    cs = es ∧ ∀ e ∈ es, e.Every (IsKeptNode s) := by
  have hpass := normalPassAll_eq_ok_iff.mp h
  clear h
  induction henergy with
  | nil => simp
  | @cons e c es cs hec _ ihes =>
    rw [List.forall_mem_cons] at ih hes
    rcases hpass with _ | ⟨hc, hcs⟩
    obtain ⟨rfl, hsettled⟩ := ih.1 hes.1 hc hec
    obtain ⟨rfl, hall⟩ := ihes ih.2 hes.2 hcs
    exact ⟨rfl, List.forall_mem_cons.mpr ⟨hsettled, hall⟩⟩

/-- If a power keeps its energy, its base and its exponent do. -/
theorem energy_of_power_eq {b c p q : Expr} (hb : Rewrites b c) (hp : Rewrites p q)
    (h : (power b p).energy ≤ (power c q).energy) : c.energy = b.energy ∧ q.energy = p.energy := by
  have hbase := (Rewrites.power_base q hb).energy_le
  have hexponent := (Rewrites.power_exponent b hp).energy_le
  have hpower : (power b q).energy = (power b p).energy := by omega
  have hsame : (power c q).energy = (power b q).energy := by omega
  simp only [energy_power] at hpower hsame
  have hb3 := b.three_le_square
  have hexp : exponentEnergy q = exponentEnergy p :=
    Nat.eq_of_mul_eq_mul_left (by omega) hpower
  have hsquare := Nat.eq_of_mul_eq_mul_right q.one_le_exponentEnergy hsame
  have hc2 := Nat.mul_le_mul c.two_le_energy c.two_le_energy
  refine ⟨Nat.mul_self_inj.mp (by omega), ?_⟩
  cases hint : p.isIntegerNumber with
  | true =>
    have hnumber : p.isNumber = true := by
      cases p <;> simp_all [isIntegerNumber, isNumber]
    rw [hp.eq_of_isNumber hnumber]
  | false =>
    have hp2 := p.two_le_energy
    unfold exponentEnergy at hexp
    rw [hint] at hexp
    split at hexp
    · simp only [Bool.false_eq_true, if_false] at hexp
      omega
    · simpa using hexp

/-- A pass over a tree of the right shape that keeps the energy keeps the tree and all its parts,
which are settled. -/
theorem eq_self_of_energy_eq {e c : Expr} (he : e.IsBuilt s) (h : normalPass s e = .ok c)
    (henergy : c.energy = e.energy) : c = e ∧ e.Every (IsKeptNode s) := by
  induction e generalizing c with
  | number v =>
    obtain ⟨q, rfl⟩ := he.isExact.exists_rat
    obtain rfl : rat q = c := by simpa [normalPass] using h
    exact ⟨rfl, every_number.mpr ⟨trivial, h⟩⟩
  | symbol n =>
    obtain rfl : symbol n = c := by simpa [normalPass] using h
    exact ⟨rfl, every_symbol.mpr ⟨trivial, h⟩⟩
  | sum ts ih =>
    obtain ⟨⟨hlen, -⟩, hts⟩ := isBuilt_sum.mp he
    have hpass := h
    rw [normalPass] at h
    obtain ⟨cs, hcs, hbuild⟩ := bind_eq_ok_iff.mp h
    have hterms := forall₂_of_normalPass
      (fun t ht => normalPass_rewrites (hts t ht).isExact)
      (normalPassAll_eq_ok_iff.mp hcs)
    obtain ⟨hle, heq⟩ := energies_of_sumEnergy hterms
    have hcsexact := isExact_sum.mp ((Rewrites.sum_congr hterms).isExact he.isExact)
    have hbuildle := (buildSum_rewrites hcsexact hbuild).energy_le
    have hfour := four_le_sumEnergy hlen
    -- neither the operands nor the builder have lost anything
    have htotal : sumEnergy cs = sumEnergy ts := by
      simp only [energy_sum] at hbuildle henergy
      omega
    obtain ⟨rfl, hsettled⟩ := normalPassAll_eq_self ih hts hcs (heq htotal)
    obtain ⟨rfl, hnosum⟩ := buildSum_eq_self he hbuild henergy
    exact ⟨rfl, every_sum.mpr ⟨⟨hnosum, hpass⟩, hsettled⟩⟩
  | product fs ih =>
    obtain ⟨⟨hlen, -⟩, hfs⟩ := isBuilt_product.mp he
    have hpass := h
    rw [normalPass] at h
    obtain ⟨cs, hcs, hbuild⟩ := bind_eq_ok_iff.mp h
    have hfactors := forall₂_of_normalPass
      (fun f hf => normalPass_rewrites (hfs f hf).isExact)
      (normalPassAll_eq_ok_iff.mp hcs)
    obtain ⟨hle, heq⟩ := energies_of_productEnergy hfactors
    have hcsexact := isExact_product.mp ((Rewrites.product_congr hfactors).isExact he.isExact)
    have hbuildle := (buildProduct_rewrites hcsexact hbuild).energy_le
    have hfour := four_le_productEnergy (hfactors.length_eq ▸ hlen)
    have htotal : productEnergy cs = productEnergy fs := by
      simp only [energy_product] at hbuildle henergy
      omega
    obtain ⟨rfl, hsettled⟩ := normalPassAll_eq_self ih hfs hcs (heq htotal)
    obtain ⟨fuel, hfuel⟩ := depthBound_eq (weightAll cs)
    rw [Settings.product, hfuel] at hbuild
    obtain ⟨rfl, hnode, -⟩ := buildProduct_eq_self he hbuild henergy
    exact ⟨rfl, every_product.mpr ⟨⟨hnode, hpass⟩, hsettled⟩⟩
  | power b p ihb ihp =>
    obtain ⟨-, hb, hp⟩ := isBuilt_power.mp he
    have hpass := h
    rw [normalPass] at h
    obtain ⟨base, hbase, hrest⟩ := bind_eq_ok_iff.mp h
    obtain ⟨exponent, hexponent, hbuild⟩ := bind_eq_ok_iff.mp hrest
    have hbrw := normalPass_rewrites hb.isExact hbase
    have hprw := normalPass_rewrites hp.isExact hexponent
    have hbuildle := (buildPower_rewrites (hbrw.isExact hb.isExact) (hprw.isExact hp.isExact)
      hbuild).energy_le
    obtain ⟨hbeq, hpeq⟩ := energy_of_power_eq hbrw hprw (henergy ▸ hbuildle)
    obtain ⟨rfl, hbsettled⟩ := ihb hb hbase hbeq
    obtain ⟨rfl, hpsettled⟩ := ihp hp hexponent hpeq
    obtain ⟨fuel, hfuel⟩ := depthBound_eq (base.weight + exponent.weight)
    rw [Settings.power, hfuel, buildPower_of_isBuilt he] at hbuild
    obtain rfl := Except.ok.inj hbuild
    exact ⟨rfl, every_power.mpr ⟨⟨trivial, hpass⟩, hbsettled, hpsettled⟩⟩
  | negation e => exact absurd he not_isBuilt_negation
  | call n es ih =>
    obtain ⟨hroot, hes⟩ := isBuilt_call.mp he
    have hpass := h
    rw [normalPass] at h
    obtain ⟨cs, hcs, hbuild⟩ := bind_eq_ok_iff.mp h
    have harguments := forall₂_of_normalPass
      (fun d hd => normalPass_rewrites (hes d hd).isExact)
      (normalPassAll_eq_ok_iff.mp hcs)
    obtain ⟨-, heq⟩ := energies_of_squareEnergy harguments
    -- there is no root to take, so that the call stays one
    have hcall : c = call n cs := by
      split at hbuild
      next d =>
        have hlen := harguments.length_eq
        rw [if_neg fun hname => hroot hname (by simpa using hlen)] at hbuild
        simpa using hbuild.symm
      next => simpa using hbuild.symm
    subst hcall
    rw [energy_call, energy_call] at henergy
    obtain ⟨rfl, hsettled⟩ := normalPassAll_eq_self ih hes hcs (heq (by omega))
    exact ⟨rfl, every_call.mpr ⟨⟨trivial, hpass⟩, hsettled⟩⟩
  | hole => simpa using he.isExact

/-! ## Normal forms -/

theorem unchangedAll_iff_eq {recomputed : Bool} {es : List Expr}
    (ih : ∀ e ∈ es, ∀ (recomputed : Bool) (f : Expr), f.IsExact →
      (unchanged recomputed e f = true ↔ e = f)) :
    ∀ fs : List Expr, (∀ f ∈ fs, f.IsExact) → (unchangedAll recomputed es fs = true ↔ es = fs) := by
  induction es with
  | nil => intro fs _; cases fs <;> simp [unchangedAll]
  | cons e es ihes =>
    intro fs hfs
    cases fs with
    | nil => simp [unchangedAll]
    | cons f fs =>
      rw [List.forall_mem_cons] at ih hfs
      rw [unchangedAll, Bool.and_eq_true, ih.1 recomputed f hfs.1, ihes ih.2 fs hfs.2,
        List.cons.injEq]

theorem unchanged_iff_eq {e : Expr} (he : e.IsExact) :
    ∀ (recomputed : Bool) (f : Expr), f.IsExact → (unchanged recomputed e f = true ↔ e = f) := by
  -- a tree of another kind is neither unchanged nor equal
  induction e with
  | number v =>
    obtain ⟨p, rfl⟩ := he.exists_rat
    intro recomputed f hf
    cases f with
    | number w =>
      obtain ⟨q, rfl⟩ := hf.exists_rat
      simp [unchanged, keptNumber, Number.equals]
    | _ => exact iff_of_false Bool.false_ne_true Expr.noConfusion
  | symbol m =>
    intro recomputed f _
    cases f with
    | symbol n => rw [unchanged, beq_iff_eq, symbol.injEq]
    | _ => exact iff_of_false Bool.false_ne_true Expr.noConfusion
  | sum ts ih =>
    intro recomputed f hf
    rw [isExact_sum] at he
    cases f with
    | sum us =>
      rw [unchanged, unchangedAll_iff_eq (fun e hm => ih e hm (he e hm)) us (isExact_sum.mp hf),
        sum.injEq]
    | _ => exact iff_of_false Bool.false_ne_true Expr.noConfusion
  | product fs ih =>
    intro recomputed f hf
    rw [isExact_product] at he
    cases f with
    | product gs =>
      rw [unchanged,
        unchangedAll_iff_eq (fun e hm => ih e hm (he e hm)) gs (isExact_product.mp hf),
        product.injEq]
    | _ => exact iff_of_false Bool.false_ne_true Expr.noConfusion
  | power b p ihb ihp =>
    intro recomputed f hf
    rw [isExact_power] at he
    cases f with
    | power c q =>
      rw [isExact_power] at hf
      rw [unchanged, Bool.and_eq_true, ihb he.1 false c hf.1, ihp he.2 false q hf.2, power.injEq]
    | _ => exact iff_of_false Bool.false_ne_true Expr.noConfusion
  | negation e ih =>
    intro recomputed f hf
    rw [isExact_negation] at he
    cases f with
    | negation d => rw [unchanged, ih he false d (isExact_negation.mp hf), negation.injEq]
    | _ => exact iff_of_false Bool.false_ne_true Expr.noConfusion
  | call m es ih =>
    intro recomputed f hf
    rw [isExact_call] at he
    cases f with
    | call n ds =>
      rw [unchanged, Bool.and_eq_true, beq_iff_eq,
        unchangedAll_iff_eq (fun e hm => ih e hm (he e hm)) ds (isExact_call.mp hf), call.injEq]
    | _ => exact iff_of_false Bool.false_ne_true Expr.noConfusion
  | hole => exact absurd he not_isExact_hole

/-- A normal form is what a pass has given back unchanged. -/
theorem normalForm_fixpoint {e c : Expr} (he : e.IsExact) (h : normalForm s e = .ok c) :
    normalPass s c = .ok c := by
  have hexact : ∀ {e d : Expr}, e.IsExact → normalPass s e = .ok d → d.IsExact :=
    fun he hpass => (normalPass_rewrites he hpass).isExact he
  refine normalForm_induction (motive := fun e c => e.IsExact → normalPass s c = .ok c)
    (fun {e c} hpass hunchanged he => ?_) (fun hpass ih he => ih (hexact he hpass)) h he
  rwa [← (unchanged_iff_eq (hexact he hpass) false e he).mp hunchanged] at hpass

/-- A pass keeps every part of a normal form, and all of them are settled. -/
theorem normalForm_isKept {e c : Expr} (he : e.IsExact) (h : normalForm s e = .ok c) :
    c.Every (IsKeptNode s) :=
  (eq_self_of_energy_eq (normalForm_isBuilt he h) (normalForm_fixpoint he h) rfl).2

theorem normalForm_isSettled {e c : Expr} (he : e.IsExact) (h : normalForm s e = .ok c) :
    c.Every IsSettledNode :=
  (normalForm_isKept he h).mono fun _ hd => hd.1

/-- What a pass comes to is the normal form, if a further pass keeps it. -/
theorem normalForm_of_fixpoint {e c : Expr} (hpasses : 2 ≤ s.maxPasses) (hc : c.IsExact)
    (he : normalPass s e = .ok c) (h : normalPass s c = .ok c) : normalForm s e = .ok c := by
  obtain ⟨n, hn⟩ : ∃ n, s.maxPasses.toNat = n + 2 := ⟨s.maxPasses.toNat - 2, by omega⟩
  have hsame := (unchanged_iff_eq hc false c hc).mpr rfl
  have hlater : settle s c (n + 1) = .ok c := by
    rw [settle, h, ok_bind, if_pos hsame]
    rfl
  rw [normalForm, hn, settle, he, ok_bind]
  split
  · rfl
  · exact hlater

/-- The normal form is what the first pass comes to, if a further pass keeps it. -/
theorem normalForm_eq_of_fixpoint {e d c : Expr} (he : normalPass s e = .ok d)
    (hd : normalPass s d = .ok d) (h : normalForm s e = .ok c) : c = d := by
  refine normalForm_induction (motive := fun e c => normalPass s e = .ok d → c = d)
    (fun hpass _ he => Except.ok.inj (hpass.symm.trans he)) (fun hpass ih he => ?_) h he
  obtain rfl := Except.ok.inj (hpass.symm.trans he)
  exact ih hd

/-! ## Fixed trees -/

/-- A tree of the right shape that a pass gives back with all its parts, which are settled. -/
structure Expr.IsFixed (s : Settings) (e : Expr) : Prop where
  built : e.IsBuilt s
  kept : e.Every (IsKeptNode s)

theorem normalForm_isFixed {e c : Expr} (he : e.IsExact) (h : normalForm s e = .ok c) :
    c.IsFixed s :=
  ⟨normalForm_isBuilt he h, normalForm_isKept he h⟩

@[simp] theorem isFixed_rat (q : Rat) : (rat q).IsFixed s :=
  ⟨isBuilt_rat q, every_number.mpr ⟨trivial, rfl⟩⟩

namespace Expr.IsFixed

variable {e : Expr}

theorem isExact (h : e.IsFixed s) : e.IsExact :=
  h.built.isExact

theorem pass (h : e.IsFixed s) : normalPass s e = .ok e :=
  h.kept.self.2

theorem of_mem_sum {ts : List Expr} (h : (sum ts).IsFixed s) : ∀ t ∈ ts, t.IsFixed s :=
  fun t ht => ⟨(isBuilt_sum.mp h.built).2 t ht, (every_sum.mp h.kept).2 t ht⟩

theorem of_mem_product {fs : List Expr} (h : (product fs).IsFixed s) : ∀ f ∈ fs, f.IsFixed s :=
  fun f hf => ⟨(isBuilt_product.mp h.built).2 f hf, (every_product.mp h.kept).2 f hf⟩

theorem of_mem_call {n : String} {es : List Expr} (h : (call n es).IsFixed s) :
    ∀ e ∈ es, e.IsFixed s :=
  fun e he => ⟨(isBuilt_call.mp h.built).2 e he, (every_call.mp h.kept).2 e he⟩

theorem of_power {b p : Expr} (h : (power b p).IsFixed s) : b.IsFixed s ∧ p.IsFixed s :=
  have hbuilt := (isBuilt_power.mp h.built).2
  have hkept := (every_power.mp h.kept).2
  ⟨⟨hbuilt.1, hkept.1⟩, ⟨hbuilt.2, hkept.2⟩⟩

end Expr.IsFixed

theorem normalPassAll_of_kept {es : List Expr} (h : ∀ e ∈ es, e.Every (IsKeptNode s)) :
    normalPassAll s es = .ok es :=
  normalPassAll_eq_ok_iff.mpr (List.forall₂_same.mpr fun e he => (h e he).self.2)

theorem normalPassAll_of_fixed {es : List Expr} (h : ∀ e ∈ es, e.IsFixed s) :
    normalPassAll s es = .ok es :=
  normalPassAll_of_kept fun e he => (h e he).kept

end

end AlgebraicForm
