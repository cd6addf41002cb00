import AlgebraicForm.Proofs.Factors

/-!
# The depth of the builders is enough

The recursion of the builders is cut off at a depth, `depthBound`, that is computed from the weights
of the operands. It is never reached: no pass over any expression runs out of fuel.

What makes the recursion end is how often a whole exponent can still be taken apart. `RaisesWithin n
b` says that of a base: powers and products, and the factors of the exponents and terms inside them,
are nested at most `n` deep. `MultipliesWithin n e` says it of the bases of the factors of `e`. A
power of a base within `n` and a product of factors within `n` call each other on operands within
`n - 1` only, and their results are within `n` again, so that two steps of fuel for each level are
enough.

* `HasFuel x`, `Ends P x`: the computation does not run out of fuel, and its result has `P`.
* `text_hasFuel`, `buildSum_ends`, `sortFactors_ends`: what the builders call.
* `builders_end`: products and powers, by induction on the level.
* `normalPass_hasFuel`, `exists_normalPass_isProper`: a pass over any expression, and its result
  where the names are those of the notation; `normalForm_failsOnly`: passes that do not settle.
-/

namespace AlgebraicForm

open AlgebraicForm.Expr

/-! ## Computations that end -/

/-- The computation does not run out of fuel. It may fail in other ways. -/
def HasFuel {α : Type} (x : Except Fault α) : Prop :=
  x ≠ .error .outOfFuel

/-- The computation does not run out of fuel, and what it returns has the property. -/
structure Ends {α : Type} (P : α → Prop) (x : Except Fault α) : Prop where
  fuel : HasFuel x
  result : ∀ a, x = .ok a → P a

namespace HasFuel

variable {α β : Type}

@[simp] theorem of_ok (a : α) : HasFuel (Except.ok a : Except Fault α) :=
  nofun

@[simp] theorem of_pure (a : α) : HasFuel (pure a : Except Fault α) :=
  nofun

@[simp] theorem of_error {f : Fault} :
    HasFuel (Except.error f : Except Fault α) ↔ f ≠ .outOfFuel := by
  simp [HasFuel]

theorem ite {c : Prop} [Decidable c] {x y : Except Fault α} (hx : HasFuel x) (hy : HasFuel y) :
    HasFuel (if c then x else y) := by
  split
  · exact hx
  · exact hy

theorem ends {x : Except Fault α} (h : HasFuel x) : Ends (fun _ => True) x :=
  ⟨h, fun _ _ => trivial⟩

end HasFuel

namespace Ends

variable {α β : Type} {P : α → Prop} {Q : β → Prop}

theorem ok {a : α} (h : P a) : Ends P (Except.ok a : Except Fault α) :=
  ⟨.of_ok a, fun b hb => by cases hb; exact h⟩

theorem pure {a : α} (h : P a) : Ends P (Pure.pure a : Except Fault α) :=
  ok h

theorem bind {x : Except Fault α} {f : α → Except Fault β} (hx : Ends P x)
    (hf : ∀ a, P a → Ends Q (f a)) : Ends Q (x >>= f) := by
  cases x with
  | ok a => exact hf a (hx.result a rfl)
  | error fault => exact ⟨fun h => hx.fuel (by cases h; rfl), nofun⟩

theorem mono {R : α → Prop} {x : Except Fault α} (hx : Ends P x) (h : ∀ a, P a → R a) :
    Ends R x :=
  ⟨hx.fuel, fun a ha => h a (hx.result a ha)⟩

theorem mapM {f : α → Except Fault β} {xs : List α} (h : ∀ x ∈ xs, Ends Q (f x)) :
    Ends (fun ys => ∀ y ∈ ys, Q y) (xs.mapM f) := by
  induction xs with
  | nil => exact ok (List.forall_mem_nil Q)
  | cons x xs ih =>
    rw [List.forall_mem_cons] at h
    rw [List.mapM_cons]
    exact h.1.bind fun y hy => (ih h.2).bind fun ys hys => pure (List.forall_mem_cons.mpr ⟨hy, hys⟩)

end Ends

theorem HasFuel.bind {α β : Type} {x : Except Fault α} {f : α → Except Fault β} (hx : HasFuel x)
    (hf : ∀ a, HasFuel (f a)) : HasFuel (x >>= f) :=
  (hx.ends.bind fun a _ => (hf a).ends).fuel

/-! ## Numbers and texts -/

theorem toDouble_hasFuel (v : Number) : HasFuel v.toDouble := by
  unfold Number.toDouble
  split
  · split <;> simp
  · simp

theorem combine_hasFuel (f : Rat → Rat → Rat) (g : Float → Float → Float) (v w : Number) :
    HasFuel (Number.combine f g v w) := by
  unfold Number.combine
  split
  · simp
  · exact (toDouble_hasFuel _).bind fun _ => (toDouble_hasFuel _).bind fun _ => .of_pure _

theorem check_hasFuel (limit : DigitLimit) (count : Nat) (found : Option Nat) :
    HasFuel (limit.check count found) := by
  unfold DigitLimit.check
  split
  · simp
  · split <;> simp

theorem writeInt_hasFuel (limit : DigitLimit) (n : Int) : HasFuel (Number.writeInt limit n) :=
  (check_hasFuel _ _ _).bind fun _ => .of_pure _

theorem writeRat_hasFuel (limit : DigitLimit) (q : Rat) : HasFuel (Number.writeRat limit q) :=
  .ite (writeInt_hasFuel _ _) <| (writeInt_hasFuel _ _).bind fun _ =>
    (writeInt_hasFuel _ _).bind fun _ => .of_pure _

theorem numberText_hasFuel (limit : DigitLimit) (v : Number) : HasFuel (v.text limit) := by
  unfold Number.text
  split
  · exact writeRat_hasFuel _ _
  · split
    · split <;> simp
    · exact .ite (writeRat_hasFuel _ _) (.of_ok _)

theorem read_hasFuel (v : Vocabulary) (offset : Nat) (c : Char) (rest : List Char) :
    HasFuel (Lexeme.read v offset c rest) := by
  have hnumber : ∀ cs, HasFuel (Lexeme.number v.digits offset cs) := by
    intro cs
    unfold Lexeme.number
    dsimp only
    split
    · exact HasFuel.of_error.mpr (by simp)
    · refine HasFuel.ite ?_ ?_
      · exact HasFuel.of_error.mpr (by simp)
      · exact (check_hasFuel _ _ _).bind fun _ => (check_hasFuel _ _ _).bind fun _ => .of_pure _
  unfold Lexeme.read
  split
  · exact hnumber _
  · repeat' split
    all_goals simp

theorem scan_hasFuel (v : Vocabulary) (offset : Nat) (cs : List Char) :
    HasFuel (scan v offset cs) := by
  induction offset, cs using scan.induct with
  | case1 offset =>
    rw [scan_nil]
    exact .of_ok _
  | case2 offset c rest hblank ih =>
    rw [scan, if_pos hblank]
    exact ih
  | case3 offset c rest hblank ih =>
    rw [scan, if_neg hblank]
    exact (read_hasFuel v offset c rest).bind fun x => (ih x).bind fun _ => .of_pure _

theorem kinds_hasFuel (voc : Vocabulary) (text : List Char) : HasFuel (kinds voc text) :=
  (scan_hasFuel _ _ _).bind fun _ => .of_pure _

theorem joinsCleanly_hasFuel (voc : Vocabulary) (left right : List Char) :
    HasFuel (joinsCleanly voc left right) := by
  unfold joinsCleanly
  dsimp only
  split
  · exact .of_ok _
  · exact (kinds_hasFuel _ _).bind fun _ => (kinds_hasFuel _ _).bind fun _ =>
      (kinds_hasFuel _ _).bind fun _ => .of_pure _

theorem juxtapose_hasFuel (voc : Vocabulary) (text : List Char) (pieces : List (List Char)) :
    HasFuel (juxtapose voc text pieces) := by
  induction pieces generalizing text with
  | nil => exact .of_ok _
  | cons piece rest ih => exact (joinsCleanly_hasFuel voc text piece).bind fun _ => ih _

theorem piecesText_hasFuel (voc : Vocabulary) (p : Pieces) : HasFuel (p.text voc) := by
  have hbottom : ∀ top piece rest, HasFuel (do
      let bottom ← juxtapose voc piece rest
      pure (top ++ '/' :: bracketed true bottom)) := fun _ _ _ =>
    (juxtapose_hasFuel _ _ _).bind fun _ => .of_pure _
  unfold Pieces.text
  simp only
  split
  · refine (HasFuel.of_pure _).bind fun top => ?_
    split
    exacts [.of_pure _, .of_pure _, hbottom _ _ _]
  · refine (juxtapose_hasFuel _ _ _).bind fun top => ?_
    split
    exacts [.of_pure _, .of_pure _, hbottom _ _ _]

theorem pieceUnlessOne_hasFuel (limit : DigitLimit) (n : Int) :
    HasFuel (Pieces.pieceUnlessOne limit n) :=
  .ite (.of_ok _) ((writeInt_hasFuel _ _).bind fun _ => .of_pure _)

theorem ofCoefficient_hasFuel (limit : DigitLimit) (v : Number) :
    HasFuel (Pieces.ofCoefficient limit v) := by
  unfold Pieces.ofCoefficient
  split
  · exact (pieceUnlessOne_hasFuel _ _).bind fun _ => (pieceUnlessOne_hasFuel _ _).bind fun _ =>
      .of_pure _
  · exact (numberText_hasFuel _ _).bind fun _ => .of_pure _

theorem binding_hasFuel (e : Expr) : HasFuel e.binding := by
  cases e <;> simp [binding]

theorem minus_hasFuel (e : Expr) (text : List Char) : HasFuel (minus e text) :=
  (binding_hasFuel e).bind fun _ => .of_pure _

/-- Writing an expression needs no fuel: the recursion of the printer is on the expression. -/
theorem printer_hasFuel (voc : Vocabulary) :
    (∀ e : Expr, HasFuel (e.textIn voc)) ∧ (∀ es, HasFuel (arguments voc es)) ∧
    (∀ b p, HasFuel (raised voc b p)) ∧ (∀ b v, HasFuel (denominator voc b v)) ∧
    (∀ fs, HasFuel (factorPieces voc fs)) ∧ (∀ f, HasFuel (piece voc f)) ∧
    (∀ f, HasFuel (numeratorPiece voc f)) ∧ (∀ v fs, HasFuel (quotient voc v fs)) ∧
    ∀ ts, HasFuel (laterTerms voc ts) := by
  apply textIn.mutual_induct
  all_goals intros
  -- each equation is a chain of computations on the parts, which have fuel by the hypotheses
  all_goals first
    | rw [textIn.eq_def]; simp only [*, if_true, if_false, Bool.false_eq_true]
    | rw [textIn.eq_def]
    | rw [arguments.eq_def]
    | simp only [raised]
    | simp only [denominator, *]
    | simp only [factorPieces]
    | simp only [piece, *]
    | simp only [numeratorPiece]
    | simp only [quotient]
    | simp only [laterTerms]
  all_goals grind only [HasFuel.bind, HasFuel.of_ok, HasFuel.of_pure, HasFuel.of_error,
    binding_hasFuel, numberText_hasFuel, piecesText_hasFuel, ofCoefficient_hasFuel, minus_hasFuel]

theorem text_hasFuel (limit : DigitLimit) (e : Expr) : HasFuel (e.text limit) :=
  (printer_hasFuel (Vocabulary.standard.within limit)).1 e

theorem factorKey_hasFuel (limit : DigitLimit) (e : Expr) : HasFuel (e.factorKey limit) :=
  (text_hasFuel _ _).bind fun _ => (text_hasFuel _ _).bind fun _ => .of_pure _

/-! ## How deep whole exponents go -/

/-- A whole exponent of this base is taken apart at most so many times in a row: powers and
products are nested no deeper, here and in the factors of exponents and terms. -/
def RaisesWithin : Nat → Expr → Prop
  | 0, e =>
    match e with
    | sum _ | product _ | power _ _ => False
    | _ => True
  | n + 1, e =>
    match e with
    | sum ts => ∀ t ∈ ts, ∀ f ∈ t.factors, RaisesWithin n f.splitPower.1
    | product fs => ∀ f ∈ fs, RaisesWithin n f
    | power b p => RaisesWithin n b ∧ ∀ f ∈ p.factors, RaisesWithin n f.splitPower.1
    | _ => True

/-- Whole exponents of the bases of the factors are taken apart at most so many times. -/
def MultipliesWithin (n : Nat) (e : Expr) : Prop :=
  ∀ f ∈ e.factors, RaisesWithin n f.splitPower.1

section

variable {n m : Nat}

@[simp] theorem raisesWithin_number (v : Number) : RaisesWithin n (number v) := by
  cases n <;> trivial

theorem raisesWithin_sum {ts : List Expr} :
    RaisesWithin n (sum ts) ↔ ∃ m, n = m + 1 ∧ ∀ t ∈ ts, MultipliesWithin m t := by
  cases n with
  | zero => exact iff_of_false id (by simp)
  | succ n => exact ⟨fun h => ⟨n, rfl, h⟩, fun ⟨m, hm, h⟩ => by cases hm; exact h⟩

theorem raisesWithin_product {fs : List Expr} :
    RaisesWithin n (product fs) ↔ ∃ m, n = m + 1 ∧ ∀ f ∈ fs, RaisesWithin m f := by
  cases n with
  | zero => exact iff_of_false id (by simp)
  | succ n => exact ⟨fun h => ⟨n, rfl, h⟩, fun ⟨m, hm, h⟩ => by cases hm; exact h⟩

theorem raisesWithin_power {b p : Expr} :
    RaisesWithin n (power b p) ↔ ∃ m, n = m + 1 ∧ RaisesWithin m b ∧ MultipliesWithin m p := by
  cases n with
  | zero => exact iff_of_false id (by simp)
  | succ n => exact ⟨fun h => ⟨n, rfl, h⟩, fun ⟨m, hm, h⟩ => by cases hm; exact h⟩

theorem RaisesWithin.mono {e : Expr} (h : RaisesWithin n e) (hnm : n ≤ m) : RaisesWithin m e := by
  induction n generalizing m e with
  | zero =>
    cases e with
    | sum | product | power => exact h.elim
    | _ => cases m <;> trivial
  | succ n ih =>
    obtain ⟨m, rfl⟩ : ∃ k, m = k + 1 := ⟨m - 1, by omega⟩
    have hle : n ≤ m := by omega
    cases e with
    | sum ts => exact fun t ht f hf => ih (h t ht f hf) hle
    | product fs => exact fun f hf => ih (h f hf) hle
    | power b p => exact ⟨ih h.1 hle, fun f hf => ih (h.2 f hf) hle⟩
    | _ => trivial

theorem MultipliesWithin.mono {e : Expr} (h : MultipliesWithin n e) (hnm : n ≤ m) :
    MultipliesWithin m e :=
  fun f hf => (h f hf).mono hnm

theorem RaisesWithin.base {f : Expr} (h : RaisesWithin n f) : RaisesWithin n f.splitPower.1 := by
  cases f with
  | power b p =>
    obtain ⟨m, rfl, hb, -⟩ := raisesWithin_power.mp h
    exact hb.mono (by omega)
  | _ => exact h

/-- A factor is itself the factors of a factor, or a product of factors one level down. -/
theorem multipliesWithin_of_base {f : Expr} (h : RaisesWithin n f.splitPower.1) :
    MultipliesWithin n f := by
  cases f with
  | product fs =>
    obtain ⟨m, rfl, hfs⟩ := raisesWithin_product.mp h
    exact fun f hf => (hfs f hf).base.mono (by omega)
  | _ => exact List.forall_mem_singleton.mpr h

theorem multipliesWithin_number (v : Number) : MultipliesWithin n (number v) :=
  multipliesWithin_of_base (raisesWithin_number v)

theorem multipliesWithin_ofFactors {fs : List Expr}
    (h : ∀ f ∈ fs, RaisesWithin n f.splitPower.1) : MultipliesWithin n (ofFactors fs) := by
  unfold ofFactors
  split
  next e => exact multipliesWithin_of_base (h e List.mem_cons_self)
  next => exact h

theorem multipliesWithin_withCoefficient (c : Number) {fs : List Expr}
    (h : ∀ f ∈ fs, RaisesWithin n f.splitPower.1) : MultipliesWithin n (withCoefficient c fs) := by
  unfold withCoefficient
  split
  · exact multipliesWithin_ofFactors h
  · exact List.forall_mem_cons.mpr ⟨raisesWithin_number c, h⟩

/-! ## Sums -/

/-- A property of terms that depends on their bodies only. -/
structure TermProperty (P : Expr → Prop) : Prop where
  number (v : Number) : P (number v)
  body {t body : Expr} {c : Number} : P t → t.splitCoefficient = (c, some body) → P body
  scale (c : Number) {body : Expr} : P body → P (scale c body)

section

variable {P : Expr → Prop}

theorem addCoefficient_ends {body : Expr} (c : Number) {gs : List (Expr × Number)} (hbody : P body)
    (hgs : ∀ g ∈ gs, P g.1) : Ends (fun hs => ∀ g ∈ hs, P g.1) (addCoefficient body c gs) := by
  induction gs with
  | nil =>
    rw [addCoefficient]
    exact (combine_hasFuel _ _ _ _).ends.bind fun _ _ => .pure (by simpa using hbody)
  | cons g gs ih =>
    rw [List.forall_mem_cons] at hgs
    rw [addCoefficient]
    split
    · exact (combine_hasFuel _ _ _ _).ends.bind fun _ _ => .pure (List.forall_mem_cons.mpr hgs)
    · exact (ih hgs.2).bind fun hs hhs => .pure (List.forall_mem_cons.mpr ⟨hgs.1, hhs⟩)

theorem collectTerms_ends (hP : TermProperty P) {const : Number} {gs : List (Expr × Number)}
    {ts : List Expr} (hts : ∀ t ∈ ts, P t) (hgs : ∀ g ∈ gs, P g.1) :
    Ends (fun r => ∀ g ∈ r.2, P g.1) (collectTerms const gs ts) := by
  induction ts generalizing const gs with
  | nil => exact .ok hgs
  | cons t ts ih =>
    rw [List.forall_mem_cons] at hts
    rw [collectTerms]
    split
    next => exact (combine_hasFuel _ _ _ _).ends.bind fun _ _ => ih hts.2 hgs
    next c body hsplit =>
      exact (addCoefficient_ends c (hP.body hts.1 hsplit) hgs).bind fun hs hhs => ih hts.2 hhs

theorem keyedTerms_ends {s : Settings} (hP : TermProperty P) {gs : List (Expr × Number)}
    (hgs : ∀ g ∈ gs, P g.1) : Ends (fun ks => ∀ k ∈ ks, P k.2) (keyedTerms s gs) := by
  induction gs with
  | nil => exact .ok (List.forall_mem_nil _)
  | cons g gs ih =>
    rw [List.forall_mem_cons] at hgs
    rw [keyedTerms]
    split
    · exact ih hgs.2
    · exact (text_hasFuel _ _).ends.bind fun _ _ => (ih hgs.2).bind fun ks hks =>
        .pure (List.forall_mem_cons.mpr ⟨hP.scale g.2 hgs.1, hks⟩)

/-- A sum ends, and its terms have every property of the given terms that depends on their bodies
only. -/
theorem buildSum_ends {s : Settings} (hP : TermProperty P) {es : List Expr}
    (hes : ∀ e ∈ es, ∀ t ∈ e.terms, P t) :
    Ends (fun r => ∃ ts, r = ofSortedTerms ts ∧ ∀ t ∈ ts, P t) (buildSum s es) := by
  have hterms : ∀ t ∈ es.flatMap terms, P t := by
    intro t ht
    obtain ⟨e, he, hte⟩ := List.mem_flatMap.mp ht
    exact hes e he t hte
  rw [buildSum]
  refine (collectTerms_ends hP hterms (List.forall_mem_nil _)).bind fun r hr => ?_
  refine (keyedTerms_ends hP hr).bind fun ks hks => .pure ⟨_, rfl, ?_⟩
  have hmap : ∀ t ∈ (sortBy (fun a b => termLe a.1 b.1) ks).map (·.2), P t :=
    List.forall_mem_map.mpr fun k hk => hks k ((sortBy_perm _ ks).mem_iff.mp hk)
  split
  · exact hmap
  · exact List.forall_mem_cons.mpr ⟨hP.number _, hmap⟩

end

theorem MultipliesWithin.terms {e : Expr} (h : MultipliesWithin n e) :
    ∀ t ∈ e.terms, MultipliesWithin n t := by
  cases e with
  | sum ts =>
    obtain ⟨m, rfl, hts⟩ := raisesWithin_sum.mp (h (sum ts) List.mem_cons_self)
    exact fun t ht => (hts t ht).mono (by omega)
  | _ => exact List.forall_mem_singleton.mpr h

theorem termProperty_multipliesWithin (n : Nat) : TermProperty (MultipliesWithin n) where
  number := multipliesWithin_number
  body {t body c} h hsplit := by
    obtain ⟨rest, rfl, rfl⟩ | ⟨-, rfl⟩ := splitCoefficient_eq_some hsplit
    · exact multipliesWithin_ofFactors fun f hf => h f (List.mem_cons_of_mem _ hf)
    · exact h
  scale c body h := by
    unfold scale
    split
    · exact h
    · exact List.forall_mem_cons.mpr ⟨raisesWithin_number c, h⟩

/-- As one operand, a sum is nested at most one level deeper than its terms. -/
theorem buildSum_within {s : Settings} {es : List Expr} (hes : ∀ e ∈ es, MultipliesWithin n e) :
    Ends (MultipliesWithin (n + 1)) (buildSum s es) := by
  refine (buildSum_ends (termProperty_multipliesWithin n) fun e he => (hes e he).terms).mono ?_
  rintro r ⟨ts, rfl, hts⟩
  unfold ofSortedTerms
  split
  · exact multipliesWithin_number _
  · exact (hts _ List.mem_cons_self).mono (by omega)
  · exact List.forall_mem_singleton.mpr (raisesWithin_sum.mpr ⟨n, rfl, hts⟩)

/-! ## Factors -/

theorem forall_mem_addExponent {P : Expr → Prop} {b e : Expr} {bs : List (Expr × List Expr)}
    (hb : P b) (hbs : ∀ g ∈ bs, P g.1) : ∀ g ∈ addExponent b e bs, P g.1 := by
  induction bs with
  | nil => simpa [addExponent] using hb
  | cons g bs ih =>
    rw [List.forall_mem_cons] at hbs
    rw [addExponent]
    split
    · exact List.forall_mem_cons.mpr hbs
    · exact List.forall_mem_cons.mpr ⟨hbs.1, ih hbs.2⟩

theorem collectFactors_ends {P : Expr → Prop} {c : Number} {bs : List (Expr × List Expr)}
    {fs : List Expr} (hfs : ∀ f ∈ fs, P f.splitPower.1) (hbs : ∀ g ∈ bs, P g.1) :
    Ends (fun r => ∀ g ∈ r.2, P g.1) (collectFactors c bs fs) := by
  induction fs generalizing c bs with
  | nil => exact .ok hbs
  | cons f fs ih =>
    rw [List.forall_mem_cons] at hfs
    cases f with
    | number v => exact (combine_hasFuel _ _ _ _).ends.bind fun _ _ => ih hfs.2 hbs
    | _ => exact ih hfs.2 (forall_mem_addExponent hfs.1 hbs)

theorem absorb_ends {P : Expr → Prop} {c : Number} {fs gs : List Expr} (hfs : ∀ f ∈ fs, P f)
    (hgs : ∀ g ∈ gs, P g) : Ends (fun r => ∀ f ∈ r.2, P f) (absorb c fs gs) := by
  induction gs generalizing c fs with
  | nil => exact .ok hfs
  | cons g gs ih =>
    rw [List.forall_mem_cons] at hgs
    have hsnoc : ∀ f ∈ fs ++ [g], P f :=
      List.forall_mem_append.mpr ⟨hfs, List.forall_mem_singleton.mpr hgs.1⟩
    cases g with
    | number v => exact (combine_hasFuel _ _ _ _).ends.bind fun _ _ => ih hfs hgs.2
    | _ => exact ih hsnoc hgs.2

theorem sortFactors_ends {s : Settings} {P : Expr → Prop} {fs : List Expr} (hfs : ∀ f ∈ fs, P f) :
    Ends (fun gs => ∀ g ∈ gs, P g) (sortFactors s fs) := by
  constructor
  · refine HasFuel.bind ?_ fun _ => .of_pure _
    exact (Ends.mapM (Q := fun _ => True) fun f _ =>
      ((factorKey_hasFuel _ f).bind fun _ => .of_pure _).ends).fuel
  · exact fun gs hgs g hg => hfs g ((sortFactors_perm hgs).mem_iff.mp hg)

end

/-! ## Weights bound the depth -/

theorem weight_lt_weightAll {f : Expr} {fs : List Expr} (hf : f ∈ fs) :
    f.weight < weightAll fs := by
  induction fs with
  | nil => simp at hf
  | cons g gs ih =>
    rw [weightAll]
    rcases List.mem_cons.mp hf with rfl | hf
    · omega
    · have hlt := ih hf
      omega

theorem flatWeight_le_flatWeightAll {t : Expr} {ts : List Expr} (ht : t ∈ ts) :
    flatWeight t ≤ flatWeightAll ts := by
  induction ts with
  | nil => simp at ht
  | cons u us ih =>
    rw [flatWeightAll]
    rcases List.mem_cons.mp ht with rfl | ht
    · omega
    · have hle := ih ht
      omega

theorem flatWeight_le_weight (e : Expr) : flatWeight e ≤ e.weight := by
  cases e with
  | product fs =>
    rw [flatWeight, weight]
    omega
  | _ => exact le_rfl

/-- Weights count the levels, in a base and in the factors of an operand. -/
theorem within_weight (e : Expr) : RaisesWithin e.weight e ∧ MultipliesWithin (flatWeight e) e := by
  induction e with
  | number v => exact ⟨raisesWithin_number v, multipliesWithin_number v⟩
  | symbol | hole => exact ⟨trivial, List.forall_mem_singleton.mpr trivial⟩
  | negation | call => exact ⟨trivial, List.forall_mem_singleton.mpr trivial⟩
  | sum ts ih =>
    have hts : RaisesWithin (1 + flatWeightAll ts) (sum ts) := by
      refine raisesWithin_sum.mpr ⟨flatWeightAll ts, by omega, fun t ht => ?_⟩
      exact (ih t ht).2.mono (flatWeight_le_flatWeightAll ht)
    exact ⟨hts, multipliesWithin_of_base hts⟩
  | product fs ih =>
    have hfs : ∀ f ∈ fs, RaisesWithin (weightAll fs) f := fun f hf =>
      (ih f hf).1.mono (weight_lt_weightAll hf).le
    exact ⟨raisesWithin_product.mpr ⟨weightAll fs, by rw [weight]; omega, hfs⟩,
      fun f hf => (hfs f hf).base⟩
  | power b p ihb ihp =>
    have hbase : RaisesWithin (1 + b.weight + flatWeight p) (power b p) :=
      raisesWithin_power.mpr ⟨b.weight + flatWeight p, by omega, ihb.1.mono (by omega),
        ihp.2.mono (by omega)⟩
    exact ⟨hbase, multipliesWithin_of_base hbase.base⟩

theorem buildSum_hasFuel {s : Settings} (es : List Expr) : HasFuel (buildSum s es) :=
  (buildSum_within fun e he => (within_weight e).2.mono (flatWeight_le_flatWeightAll he)).fuel

theorem mergeExponents_hasFuel {s : Settings} (es : List Expr) : HasFuel (mergeExponents s es) := by
  unfold mergeExponents
  split
  · exact .of_ok _
  · exact buildSum_hasFuel _

/-! ## Products and powers -/

/-- Two steps of fuel for each level are enough. -/
structure BuildersEnd (s : Settings) (n : Nat) : Prop where
  power : ∀ {fuel : Nat} {b : Expr} (p : Expr), 2 * n + 1 ≤ fuel → RaisesWithin n b →
    Ends (MultipliesWithin n) (buildPower s fuel b p)
  product : ∀ {fuel : Nat} {es : List Expr}, 2 * n + 2 ≤ fuel →
    (∀ e ∈ es, MultipliesWithin n e) → Ends (MultipliesWithin n) (buildProduct s fuel es)

section

variable {s : Settings} {n : Nat}

theorem literalPower?_cases {b p e : Expr} (h : literalPower? s b p = some e) :
    e = b ∨ e = power b p ∨ ∃ v, e = number v := by
  unfold literalPower? at h
  grind [Expr.zero, Expr.one, Option.map_eq_some_iff]

theorem buildPower_ends (hless : ∀ m, n = m + 1 → BuildersEnd s m) {fuel : Nat} {b : Expr}
    (p : Expr) (hfuel : 2 * n + 1 ≤ fuel) (hb : RaisesWithin n b) :
    Ends (MultipliesWithin n) (buildPower s fuel b p) := by
  obtain ⟨fuel, rfl⟩ : ∃ k, fuel = k + 1 := ⟨fuel - 1, by omega⟩
  have hself : MultipliesWithin n (power b p) := multipliesWithin_of_base hb
  unfold buildPower
  split
  next e he =>
    rcases literalPower?_cases he with rfl | rfl | ⟨v, rfl⟩
    · exact .ok (multipliesWithin_of_base hb.base)
    · exact .ok hself
    · exact .ok (multipliesWithin_number v)
  next =>
    split
    next hint =>
      split
      next c e _ =>
        -- the exponents are one level down, and so is the base of the base
        obtain ⟨m, rfl, hc, he⟩ := raisesWithin_power.mp hb
        have hpair : ∀ d ∈ [e, p], MultipliesWithin m d := by
          rw [List.forall_mem_cons, List.forall_mem_singleton]
          refine ⟨he, ?_⟩
          cases p with
          | number v => exact multipliesWithin_number v
          | _ => simp [isIntegerNumber] at hint
        refine ((hless m rfl).product (by omega) hpair).bind fun q _ => ?_
        exact ((hless m rfl).power q (by omega) hc).mono fun r hr => hr.mono (by omega)
      next fs _ =>
        obtain ⟨m, rfl, hfs⟩ := raisesWithin_product.mp hb
        refine (Ends.mapM fun f hf => (hless m rfl).power p (by omega) (hfs f hf)).bind
          fun gs hgs => ?_
        exact ((hless m rfl).product (by omega) hgs).mono fun r hr => hr.mono (by omega)
      next => exact .ok hself
    next => exact .ok hself

theorem buildBases_ends {raise : Expr → Expr → Except Fault Expr}
    (hraise : ∀ b p, RaisesWithin n b → Ends (MultipliesWithin n) (raise b p)) {c : Number}
    {fs : List Expr} {bs : List (Expr × List Expr)}
    (hfs : ∀ f ∈ fs, RaisesWithin n f.splitPower.1) (hbs : ∀ g ∈ bs, RaisesWithin n g.1) :
    Ends (fun r => ∀ f ∈ r.2, RaisesWithin n f.splitPower.1) (buildBases s raise c fs bs) := by
  induction bs generalizing c fs with
  | nil => exact .ok hfs
  | cons g bs ih =>
    rw [List.forall_mem_cons] at hbs
    rw [buildBases]
    exact (mergeExponents_hasFuel _).ends.bind fun q _ => (hraise g.1 q hbs.1).bind fun p hp =>
      (absorb_ends hfs hp).bind fun r hr => ih hr hbs.2

theorem buildProduct_ends (hless : ∀ m, n = m + 1 → BuildersEnd s m) {fuel : Nat}
    {es : List Expr} (hfuel : 2 * n + 2 ≤ fuel) (hes : ∀ e ∈ es, MultipliesWithin n e) :
    Ends (MultipliesWithin n) (buildProduct s fuel es) := by
  obtain ⟨fuel, rfl⟩ : ∃ k, fuel = k + 1 := ⟨fuel - 1, by omega⟩
  have hfactors : ∀ f ∈ es.flatMap factors, RaisesWithin n f.splitPower.1 := by
    intro f hf
    obtain ⟨e, he, hfe⟩ := List.mem_flatMap.mp hf
    exact hes e he f hfe
  have hraise : ∀ b p, RaisesWithin n b → Ends (MultipliesWithin n) (buildPower s fuel b p) :=
    fun b p => buildPower_ends hless p (by omega)
  rw [buildProduct]
  refine (collectFactors_ends hfactors (List.forall_mem_nil _)).bind ?_
  rintro ⟨c, bs⟩ hbs
  dsimp only
  split
  next => exact .pure (multipliesWithin_number _)
  next =>
    refine (buildBases_ends hraise (List.forall_mem_nil _) hbs).bind ?_
    rintro ⟨d, fs⟩ hfs
    dsimp only
    split
    next => exact .pure (multipliesWithin_number _)
    next =>
      refine (sortFactors_ends hfs).bind fun gs hgs => ?_
      split
      next => exact .pure (multipliesWithin_number _)
      next ts =>
        split
        next =>
          -- the terms of a sum are one level down
          have hsum : RaisesWithin n (sum ts) := hgs _ List.mem_cons_self
          obtain ⟨m, rfl, hts⟩ := raisesWithin_sum.mp hsum
          have hsigned : ∀ t ∈ ts, ∀ e ∈ [minusOne, t], MultipliesWithin m e := by
            intro t ht
            rw [List.forall_mem_cons, List.forall_mem_singleton]
            exact ⟨multipliesWithin_number _, hts t ht⟩
          refine (Ends.mapM fun t ht => (hless m rfl).product (by omega) (hsigned t ht)).bind
            fun us hus => ?_
          exact buildSum_within hus
        next => exact .pure (multipliesWithin_withCoefficient _ hgs)
      next => exact .pure (multipliesWithin_withCoefficient _ hgs)

end

/-- Powers and products end, by induction on the level. -/
theorem builders_end (s : Settings) (n : Nat) : BuildersEnd s n := by
  induction n with
  | zero =>
    have hless : ∀ m, 0 = m + 1 → BuildersEnd s m := fun m hm => absurd hm (by omega)
    exact ⟨buildPower_ends hless, buildProduct_ends hless⟩
  | succ n ih =>
    have hless : ∀ m, n + 1 = m + 1 → BuildersEnd s m := by
      rintro m hm
      exact Nat.succ.inj hm ▸ ih
    exact ⟨buildPower_ends hless, buildProduct_ends hless⟩

/-! ## Passes -/

section

variable (s : Settings)

theorem two_mul_lt_depthBound (w : Nat) : 2 * w + 2 ≤ depthBound w := by
  have hmul := Nat.mul_le_mul (Nat.le_add_left 4 w) (le_refl (w + 4))
  unfold depthBound
  omega

theorem product_hasFuel (es : List Expr) : HasFuel (s.product es) := by
  have hes : ∀ e ∈ es, MultipliesWithin (weightAll es) e := fun e he =>
    (within_weight e).2.mono ((flatWeight_le_weight e).trans (weight_lt_weightAll he).le)
  exact ((builders_end s _).product (two_mul_lt_depthBound _) hes).fuel

theorem power_hasFuel (b p : Expr) : HasFuel (s.power b p) := by
  have hb : RaisesWithin (b.weight + p.weight) b := (within_weight b).1.mono (by omega)
  have hdepth := two_mul_lt_depthBound (b.weight + p.weight)
  exact ((builders_end s _).power p (by omega) hb).fuel

theorem normalPassAll_hasFuel {es : List Expr} (h : ∀ e ∈ es, HasFuel (normalPass s e)) :
    HasFuel (normalPassAll s es) := by
  rw [normalPassAll_eq_mapM]
  exact (Ends.mapM fun e he => (h e he).ends).fuel

theorem normalPass_hasFuel (e : Expr) : HasFuel (normalPass s e) := by
  induction e with
  | number | symbol =>
    rw [normalPass]
    exact .of_ok _
  | sum ts ih =>
    rw [normalPass]
    exact (normalPassAll_hasFuel s ih).bind buildSum_hasFuel
  | product fs ih =>
    rw [normalPass]
    exact (normalPassAll_hasFuel s ih).bind (product_hasFuel s)
  | power b p ihb ihp =>
    rw [normalPass]
    exact ihb.bind fun c => ihp.bind fun q => power_hasFuel s c q
  | negation e ih =>
    rw [normalPass]
    refine ih.bind fun c => ?_
    split
    · exact .of_pure _
    · exact product_hasFuel s _
  | call n es ih =>
    rw [normalPass]
    refine (normalPassAll_hasFuel s ih).bind fun cs => ?_
    split
    · split
      · exact power_hasFuel s _ _
      · exact .of_pure _
    · exact .of_pure _
  | hole =>
    rw [normalPass]
    exact HasFuel.of_error.mpr (by simp)

end

/-! ## Passes and normal forms -/

theorem isProper_of_mapM {s : Settings} {es cs : List Expr} (hes : ∀ e ∈ es, e.Every IsNamedNode)
    (h : es.mapM (normalPass s) = .ok cs) : ∀ c ∈ cs, c.IsProper s :=
  forall_mem_of_mapM (fun e he _ => normalPass_isProper (hes e he)) h

theorem normalPass_needsOnlyFuel {s : Settings} {e : Expr} (he : e.Every IsNamedNode) :
    NeedsOnlyFuel (normalPass s.unlimited e) := by
  have hproduct : ∀ {es : List Expr}, (∀ e ∈ es, e.IsProper s.unlimited) →
      NeedsOnlyFuel (s.unlimited.product es) := (builders_needOnlyFuel s _).1
  have hpower : ∀ {b p : Expr}, b.IsProper s.unlimited → p.IsProper s.unlimited →
      NeedsOnlyFuel (s.unlimited.power b p) := (builders_needOnlyFuel s _).2
  induction e with
  | number v => exact .ok _
  | symbol n => exact .ok _
  | sum ts ih =>
    have hts := (every_sum.mp he).2
    rw [normalPass, normalPassAll_eq_mapM]
    exact (FailsWithin.mapM fun t ht => ih t ht (hts t ht)).bind fun cs hcs =>
      buildSum_needsOnlyFuel (isProper_of_mapM hts hcs)
  | product fs ih =>
    have hfs := (every_product.mp he).2
    rw [normalPass, normalPassAll_eq_mapM]
    exact (FailsWithin.mapM fun f hf => ih f hf (hfs f hf)).bind fun cs hcs =>
      hproduct (isProper_of_mapM hfs hcs)
  | power b p ihb ihp =>
    obtain ⟨-, hb, hp⟩ := every_power.mp he
    rw [normalPass]
    exact (ihb hb).bind fun c hc => (ihp hp).bind fun q hq =>
      hpower (normalPass_isProper hb hc) (normalPass_isProper hp hq)
  | negation e ih =>
    have he := (every_negation.mp he).2
    rw [normalPass]
    refine (ih he).bind fun c hc => ?_
    split
    next => exact .ok _
    next => exact hproduct (by simp [minusOne, normalPass_isProper he hc])
  | call n es ih =>
    have hes := (every_call.mp he).2
    rw [normalPass, normalPassAll_eq_mapM]
    refine (FailsWithin.mapM fun e he => ih e he (hes e he)).bind fun cs hcs => ?_
    split
    next c =>
      split
      next =>
        rw [Number.half_eq]
        exact hpower (isProper_of_mapM hes hcs c List.mem_cons_self) (isProper_rat _)
      next => exact .ok _
    next => exact .ok _
  | hole => exact ((every_hole.mp he).elim)

/-- With names of the notation and without a limit, a pass has a result. -/
theorem exists_normalPass_isProper (s : Settings) {e : Expr} (he : e.Every IsNamedNode) :
    ∃ c, normalPass s.unlimited e = .ok c ∧ c.IsProper s.unlimited := by
  cases hpass : normalPass s.unlimited e with
  | ok c => exact ⟨c, rfl, normalPass_isProper he hpass⟩
  | error fault =>
    -- a fault could only be running out of fuel
    have hfuel := normalPass_needsOnlyFuel he fault hpass
    exact absurd (hfuel ▸ hpass) (normalPass_hasFuel s.unlimited e)

/-- With the default settings the result is tidy. -/
theorem exists_normalPass {e : Expr} (he : e.Every IsNamedNode) :
    ∃ c, normalPass .unbounded e = .ok c ∧ c.IsTidy := by
  obtain ⟨c, hc, hproper⟩ := exists_normalPass_isProper .standard he
  exact ⟨c, hc, isTidy_iff_proper.mpr hproper⟩

/-- Under a limit, that is all that can stop a pass. -/
theorem normalPass_failsWithin {s : Settings} {e : Expr} (he : e.Every IsNamedNode) :
    FailsWithin s.digits.Raises (normalPass s e) := by
  intro fault h
  obtain heq | hstop := normalPass_restricts s e
  · obtain ⟨c, hc, -⟩ := exists_normalPass_isProper s he
    exact nomatch (h.symm.trans heq).trans hc
  · exact DigitLimit.stops_error_iff.mp (h ▸ hstop)

/-- Without a limit, a normal form can only fail by passes that do not settle. -/
theorem normalForm_failsOnly {s : Settings} {e : Expr} (he : e.Every IsNamedNode) :
    FailsOnlyBy (.unsettled s.maxPasses) (normalForm s.unlimited e) := by
  unfold normalForm
  show FailsOnlyBy _ (settle s.unlimited e s.maxPasses.toNat)
  generalize s.maxPasses.toNat = passes
  induction passes generalizing e with
  | zero => exact .error rfl
  | succ passes ih =>
    obtain ⟨c, hc, hproper⟩ := exists_normalPass_isProper s he
    rw [settle, hc, ok_bind]
    split
    next => exact .ok c
    next => exact ih hproper.named

/-- Expressions that a pass makes into the same tree have the same normal form. -/
theorem normalForm_eq_of_normalPass_eq {s : Settings} (hpasses : 2 ≤ s.maxPasses) {d e : Expr}
    (hd : d.IsExact) (he : e.IsExact) (h : normalPass s d = normalPass s e) :
    normalForm s d = normalForm s e := by
  obtain ⟨n, hn⟩ : ∃ n, s.maxPasses.toNat = n + 2 := ⟨s.maxPasses.toNat - 2, by omega⟩
  cases hpass : normalPass s e with
  | error fault =>
    rw [normalForm, normalForm, hn, settle, settle, h, hpass, error_bind, error_bind]
  | ok c =>
    have hc := (normalPass_rewrites he hpass).isExact he
    by_cases hfix : normalPass s c = .ok c
    · -- nothing is left to do after the first pass
      rw [normalForm_of_fixpoint hpasses hc hpass hfix,
        normalForm_of_fixpoint hpasses hc (h.trans hpass) hfix]
    · -- then neither of them is what the pass has made, and both go on with that
      have hmoved : ∀ {e : Expr}, e.IsExact → normalPass s e = .ok c →
          normalForm s e = settle s c (n + 1) := by
        intro e he hpass
        have hne : ¬unchanged false c e = true := by
          intro heq
          obtain rfl := (unchanged_iff_eq hc false e he).mp heq
          exact hfix hpass
        rw [normalForm, hn, settle, hpass, ok_bind, if_neg hne]
      rw [hmoved hd (h.trans hpass), hmoved he hpass]

/-- The faults by which a normal form may be missing: passes that do not settle, and those that the
limit for digits raises. -/
def Settings.GivesUp (s : Settings) (fault : Fault) : Prop :=
  fault = .unsettled s.maxPasses ∨ s.digits.Raises fault

theorem FailsWithin.of_restricts {α : Type} {limit : DigitLimit} {F : Fault → Prop}
    {x y : Except Fault α} (h : limit.Restricts x y) (hy : FailsWithin F y) :
    FailsWithin (fun fault => F fault ∨ limit.Raises fault) x := by
  obtain rfl | ⟨raised, hraised, rfl⟩ := h
  · exact hy.mono fun _ => .inl
  · exact .error (.inr hraised)

theorem normalForm_failsWithin {s : Settings} {e : Expr} (he : e.Every IsNamedNode) :
    FailsWithin s.GivesUp (normalForm s e) :=
  .of_restricts (normalForm_restricts s e) (normalForm_failsOnly he)

end AlgebraicForm
