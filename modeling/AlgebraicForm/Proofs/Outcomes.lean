import AlgebraicForm.Proofs.RationalFunction
import AlgebraicForm.Proofs.SignDepth
import AlgebraicForm.Proofs.StrayDigits

/-!
# What a comparison comes to

Comparing two texts gives a verdict, malformed texts included, or stops at a fault. The reader
accepts more than the later stages can do: a literal may be beyond what the arithmetic of the sample
holds, a function may have arguments that it does not take, the passes may not settle, and a form
may have numbers with more digits than are allowed. `StopsComparison` names these four. Besides them
the reader itself stops at a literal that is too long (`StopsReading`), and a comparison stops at
nothing else. Where an expression has one of the four, only equal forms are found before it shows,
since the sample takes the value of every node.

* `value_failsWithin`, `ofExpr_failsWithin`: values and symbolic terms fail at a node that
  `StopsAt`.
* `not_stopsAt_of_value`: an expression that has a value has no such node.
* `compareExprs_failsWithin`, `compareExprs_stops`: from the stages to a comparison.
* `compareTexts_stops`: what comparing two texts comes to.
-/

namespace AlgebraicForm

open AlgebraicForm.Expr Text

/-! ## Reporting computations that fail -/

namespace Reporting

variable {α β : Type} {F : Fault → Prop}

/-- The computation stops, if at all, at one of these faults, whatever was reported before. -/
def FailsWithin (F : Fault → Prop) (x : Reporting α) : Prop :=
  ∀ rs fault, (x.run.run rs).1 = .error fault → F fault

theorem FailsWithin.pure (a : α) : FailsWithin F (pure a) :=
  fun _ _ h => nomatch h

theorem FailsWithin.report (r : Report) : FailsWithin F (report r) :=
  fun _ _ h => nomatch h

theorem FailsWithin.ofExcept {x : Except Fault α} (h : AlgebraicForm.FailsWithin F x) :
    FailsWithin F (ofExcept x) :=
  fun _ fault hfault => h fault hfault

theorem FailsWithin.bind {x : Reporting α} {f : α → Reporting β} (hx : FailsWithin F x)
    (hf : ∀ a rs us, x.run.run rs = (.ok a, us) → FailsWithin F (f a)) :
    FailsWithin F (x >>= f) := by
  intro rs fault h
  rw [reporting_bind_run] at h
  cases hrun : x.run.run rs with
  | mk result us =>
    rw [hrun] at h
    cases result with
    | ok a => exact hf a rs us hrun us fault h
    | error e =>
      obtain rfl : e = fault := Except.error.inj h
      exact hx rs e (by rw [hrun])

theorem FailsWithin.mapM {f : α → Reporting β} {xs : List α}
    (h : ∀ x ∈ xs, FailsWithin F (f x)) : FailsWithin F (xs.mapM f) := by
  induction xs with
  | nil => exact .pure []
  | cons x xs ih =>
    rw [List.forall_mem_cons] at h
    rw [List.mapM_cons]
    exact h.1.bind fun _ _ _ _ => (ih h.2).bind fun _ _ _ _ => .pure _

end Reporting

/-! ## Nodes without a value -/

/-- What can go wrong at a node when the expression is evaluated: a literal that the arithmetic
does not have, or a function with arguments that it does not take. -/
inductive StopsAt {α : Type} (a : Arithmetic α) : Expr → Fault → Prop
  | literal {v : Number} {fault : Fault} : a.ofNumber v = .error fault → StopsAt a (number v) fault
  | arguments {n : String} {es : List Expr} {f : Elementary} : Elementary.ofName? n = some f →
      f.takes es.length = false → StopsAt a (call n es) (.wrongArity n es.length)

section

variable {α : Type} {a : Arithmetic α} {F : Fault → Prop}

/-- All functions of the notation have a value. -/
theorem exists_ofName? {n : String} (h : n ∈ Settings.standardFunctions) :
    ∃ f, Elementary.ofName? n = some f := by
  have hall : ∀ n ∈ Settings.standardFunctions, (Elementary.ofName? n).isSome := by decide
  exact Option.isSome_iff_exists.mp (hall n h)

theorem length_of_takes {f : Elementary} {count : Nat} (h : f.takes count = true) :
    count = 1 ∨ f = .log10 ∧ count = 2 := by
  simpa [Elementary.takes] using h

theorem elementary_eq_ok_iff {n : String} {count : Nat} {f : Elementary} :
    elementary n count = .ok f ↔ Elementary.ofName? n = some f ∧ f.takes count = true := by
  unfold elementary
  cases Elementary.ofName? n with
  | none => simp
  | some g =>
    simp only [Option.some.injEq]
    split
    next htakes =>
      rw [Except.ok.injEq]
      exact ⟨fun h => ⟨h, h ▸ htakes⟩, And.left⟩
    next htakes => exact ⟨nofun, fun ⟨h, hf⟩ => absurd (h ▸ hf) htakes⟩

theorem elementary_failsWithin {n : String} {es : List Expr} (hname : IsNamedNode (call n es))
    (hstops : ∀ fault, StopsAt a (call n es) fault → F fault) :
    FailsWithin F (elementary n es.length) := by
  obtain ⟨f, hf⟩ := exists_ofName? hname
  unfold elementary
  rw [hf]
  show FailsWithin F (if f.takes es.length = true then .ok f else .error (.wrongArity n es.length))
  split
  next => exact .ok f
  next htakes => exact .error (hstops _ (.arguments hf (Bool.eq_false_iff.mpr htakes)))

/-- Evaluating an expression fails only at a node that stops it, by induction on the
expression. -/
theorem value_failsWithin {s : Settings} {env : Bindings α} {e : Expr}
    (hnamed : e.Every IsNamedNode)
    (hbound : e.Every fun d => ∀ n, d = symbol n → ∃ x, lookup a s env n = .ok x)
    (hstops : e.Every fun d => ∀ fault, StopsAt a d fault → F fault) :
    FailsWithin F (e.value a s env) := by
  induction e with
  | number v =>
    rw [value]
    exact fun fault h => hstops.self fault (.literal h)
  | symbol n =>
    obtain ⟨x, hx⟩ := hbound.self n rfl
    rw [value, hx]
    exact .ok x
  | sum ts ih =>
    rw [value, values_eq_mapM]
    exact (FailsWithin.mapM fun t ht => ih t ht ((every_sum.mp hnamed).2 t ht)
      ((every_sum.mp hbound).2 t ht) ((every_sum.mp hstops).2 t ht)).bind fun _ _ => .ok _
  | product fs ih =>
    rw [value, values_eq_mapM]
    exact (FailsWithin.mapM fun f hf => ih f hf ((every_product.mp hnamed).2 f hf)
      ((every_product.mp hbound).2 f hf) ((every_product.mp hstops).2 f hf)).bind fun _ _ => .ok _
  | power b p ihb ihp =>
    obtain ⟨-, hbnamed, hpnamed⟩ := every_power.mp hnamed
    obtain ⟨-, hbbound, hpbound⟩ := every_power.mp hbound
    obtain ⟨-, hbstops, hpstops⟩ := every_power.mp hstops
    rw [value]
    exact (ihb hbnamed hbbound hbstops).bind fun _ _ =>
      (ihp hpnamed hpbound hpstops).bind fun _ _ => .ok _
  | negation e ih =>
    rw [value]
    exact (ih (every_negation.mp hnamed).2 (every_negation.mp hbound).2
      (every_negation.mp hstops).2).bind fun _ _ => .ok _
  | call n es ih =>
    rw [value, values_eq_mapM]
    refine (elementary_failsWithin hnamed.self hstops.self).bind fun f hf => ?_
    refine (FailsWithin.mapM fun e he => ih e he ((every_call.mp hnamed).2 e he)
      ((every_call.mp hbound).2 e he) ((every_call.mp hstops).2 e he)).bind fun xs hxs => ?_
    have hlen : es.length = xs.length := (mapM_eq_ok_iff.mp hxs).length_eq
    have htakes := length_of_takes (elementary_eq_ok_iff.mp hf).2
    split
    next => exact .ok _
    next => exact .ok _
    next hone htwo =>
      -- there are as many values as arguments, one or two
      obtain h | ⟨-, h⟩ := htakes
      · obtain ⟨x, rfl⟩ := List.length_eq_one_iff.mp (hlen.symm.trans h)
        exact (hone x rfl).elim
      · obtain ⟨x, b, rfl⟩ := List.length_eq_two.mp (hlen.symm.trans h)
        exact (htwo x b rfl).elim
  | hole => exact hnamed.self.elim

/-- An expression with a value has no node that stops it. -/
theorem not_stopsAt_of_value {s : Settings} {env : Bindings α} {e : Expr} {x : α}
    (h : e.value a s env = .ok x) : e.Every fun d => ∀ fault, ¬StopsAt a d fault := by
  have hoperands : ∀ {es : List Expr} {xs : List α}, es.mapM (value a s env) = .ok xs →
      ∀ e ∈ es, ∃ x, e.value a s env = .ok x := by
    intro es xs hxs e he
    obtain ⟨x, -, hx⟩ := exists_mem_of_forall₂ (mapM_eq_ok_iff.mp hxs).flip he
    exact ⟨x, hx⟩
  induction e generalizing x with
  | number v =>
    rw [value] at h
    refine every_number.mpr ?_
    rintro fault ⟨hfault⟩
    cases h.symm.trans hfault
  | symbol n => exact every_symbol.mpr (by rintro _ ⟨⟩)
  | sum ts ih =>
    rw [value, values_eq_mapM] at h
    obtain ⟨xs, hxs, -⟩ := bind_eq_ok_iff.mp h
    refine every_sum.mpr ⟨by rintro _ ⟨⟩, fun t ht => ?_⟩
    obtain ⟨y, hy⟩ := hoperands hxs t ht
    exact ih t ht hy
  | product fs ih =>
    rw [value, values_eq_mapM] at h
    obtain ⟨xs, hxs, -⟩ := bind_eq_ok_iff.mp h
    refine every_product.mpr ⟨by rintro _ ⟨⟩, fun f hf => ?_⟩
    obtain ⟨y, hy⟩ := hoperands hxs f hf
    exact ih f hf hy
  | power b p ihb ihp =>
    rw [value] at h
    obtain ⟨y, hy, h⟩ := bind_eq_ok_iff.mp h
    obtain ⟨z, hz, -⟩ := bind_eq_ok_iff.mp h
    exact every_power.mpr ⟨by rintro _ ⟨⟩, ihb hy, ihp hz⟩
  | negation e ih =>
    rw [value] at h
    obtain ⟨y, hy, -⟩ := bind_eq_ok_iff.mp h
    exact every_negation.mpr ⟨by rintro _ ⟨⟩, ih hy⟩
  | call n es ih =>
    rw [value, values_eq_mapM] at h
    obtain ⟨f, hf, h⟩ := bind_eq_ok_iff.mp h
    obtain ⟨xs, hxs, -⟩ := bind_eq_ok_iff.mp h
    obtain ⟨hname, htakes⟩ := elementary_eq_ok_iff.mp hf
    refine every_call.mpr ⟨?_, fun e he => ?_⟩
    · rintro fault ⟨⟩
      next g hg hgtakes =>
        obtain rfl := Option.some.inj (hname.symm.trans hg)
        exact Bool.false_ne_true (hgtakes.symm.trans htakes)
    · obtain ⟨y, hy⟩ := hoperands hxs e he
      exact ih e he hy
  | hole => exact every_hole.mpr (by rintro _ ⟨⟩)

/-! ## Symbolic terms -/

theorem exists_call? {f : Elementary} {ts : List Symbolic.Term} (h : f.takes ts.length = true) :
    ∃ t, Symbolic.Term.call? f ts = some t := by
  obtain hone | ⟨rfl, htwo⟩ := length_of_takes h
  · obtain ⟨t, rfl⟩ := List.length_eq_one_iff.mp hone
    cases f <;> exact ⟨_, rfl⟩
  · obtain ⟨t, u, rfl⟩ := List.length_eq_two.mp htwo
    exact ⟨_, rfl⟩

theorem ofExprs_eq_mapM (es : List Expr) :
    Symbolic.Term.ofExprs es = es.mapM Symbolic.Term.ofExpr := by
  induction es with
  | nil => rfl
  | cons e es ih => rw [Symbolic.Term.ofExprs, ih, List.mapM_cons]

/-- A symbolic term fails only at a node that stops the evaluation as well. -/
theorem ofExpr_failsWithin {e : Expr} (hnamed : e.Every IsNamedNode)
    (hstops : e.Every fun d => ∀ fault, StopsAt a d fault → F fault) :
    FailsWithin F (Symbolic.Term.ofExpr e) := by
  induction e with
  | number v => exact .ok _
  | symbol n => exact .ok _
  | sum ts ih =>
    rw [Symbolic.Term.ofExpr, ofExprs_eq_mapM]
    exact (FailsWithin.mapM fun t ht => ih t ht ((every_sum.mp hnamed).2 t ht)
      ((every_sum.mp hstops).2 t ht)).bind fun _ _ => .ok _
  | product fs ih =>
    rw [Symbolic.Term.ofExpr, ofExprs_eq_mapM]
    exact (FailsWithin.mapM fun f hf => ih f hf ((every_product.mp hnamed).2 f hf)
      ((every_product.mp hstops).2 f hf)).bind fun _ _ => .ok _
  | power b p ihb ihp =>
    obtain ⟨-, hbnamed, hpnamed⟩ := every_power.mp hnamed
    obtain ⟨-, hbstops, hpstops⟩ := every_power.mp hstops
    rw [Symbolic.Term.ofExpr]
    exact (ihb hbnamed hbstops).bind fun _ _ => (ihp hpnamed hpstops).bind fun _ _ => .ok _
  | negation e ih =>
    rw [Symbolic.Term.ofExpr]
    exact (ih (every_negation.mp hnamed).2 (every_negation.mp hstops).2).bind fun _ _ => .ok _
  | call n es ih =>
    obtain ⟨f, hf⟩ := exists_ofName? hnamed.self
    rw [Symbolic.Term.ofExpr, hf, ofExprs_eq_mapM]
    refine (FailsWithin.mapM fun e he => ih e he ((every_call.mp hnamed).2 e he)
      ((every_call.mp hstops).2 e he)).bind fun ts hts => ?_
    have hlen : es.length = ts.length := (mapM_eq_ok_iff.mp hts).length_eq
    cases htakes : f.takes es.length with
    | true =>
      rw [hlen] at htakes
      obtain ⟨t, ht⟩ := exists_call? htakes
      rw [ht]
      exact .ok t
    | false =>
      split
      next => exact .ok _
      next => exact .error (hstops.self _ (.arguments hf htakes))
  | hole => exact hnamed.self.elim

theorem sideTerm_failsWithin {e : Expr} (hnamed : e.Every IsNamedNode)
    (hstops : e.Every fun d => ∀ fault, StopsAt a d fault → F fault) :
    FailsWithin F (Symbolic.sideTerm e) := by
  cases e with
  | hole => exact hnamed.self.elim
  | _ => exact ofExpr_failsWithin hnamed hstops

end

/-! ## Samples -/

section

variable {α : Type} {a : Sampling α} {F : Fault → Prop} {names : List String} {e : Expr}

/-- With its variables bound, every symbol of an expression has a value. -/
theorem every_lookup {b : Arithmetic α} {env : Bindings α}
    (h : ∀ n ∈ e.freeSymbols .standard, ∃ x, env.value? n = some x) :
    e.Every fun d => ∀ n, d = symbol n → ∃ x, lookup b .standard env n = .ok x := by
  rintro _ hd n rfl
  unfold lookup
  cases hvalue : env.value? n with
  | some x => exact ⟨x, rfl⟩
  | none =>
    cases hconstant : Settings.standard.constant? n with
    | some x => exact ⟨b.ofDouble x, rfl⟩
    | none =>
      obtain ⟨x, hx⟩ := h n (mem_freeSymbols hd (by rw [hconstant, Option.isNone_none]))
      exact nomatch hvalue.symm.trans hx

theorem code_failsWithin
    (hwrite : ∀ x, ∃ w, a.write Settings.standard.samplePlaces x = .ok w)
    (hnamed : e.Every IsNamedNode) (hnames : ∀ n ∈ e.freeSymbols .standard, n ∈ names)
    (hstops : e.Every fun d => ∀ fault, StopsAt a.toArithmetic d fault → F fault) (point : Nat) :
    Reporting.FailsWithin F (a.code .standard names e point) := by
  have hgrid : Settings.standard.sampleGrid ≠ [] := by decide
  obtain ⟨env, henv, hvalues⟩ := exists_bindings a (P := fun _ => True) hgrid
    (fun _ _ => trivial) names point
  have hbound := every_lookup (b := a.toArithmetic) fun n hn => (hvalues n (hnames n hn)).imp
    fun _ h => h.1
  unfold Sampling.code
  rw [henv]
  refine (Reporting.FailsWithin.ofExcept (.ok env)).bind fun env' _ _ henv' => ?_
  obtain ⟨henv', -⟩ := reporting_ofExcept_eq_ok_iff.mp henv'
  obtain rfl := Except.ok.inj henv'
  refine (Reporting.FailsWithin.ofExcept (value_failsWithin hnamed hbound hstops)).bind
    fun x _ _ _ => ?_
  obtain ⟨w, hw⟩ := hwrite x
  rw [hw]
  refine (Reporting.FailsWithin.ofExcept (.ok w)).bind fun written _ _ _ => ?_
  cases written with
  | some text => exact .pure text
  | none => exact (Reporting.FailsWithin.report _).bind fun _ _ _ _ => .pure _

/-- A fingerprint stops only where the expression cannot be evaluated. -/
theorem fingerprint_failsWithin
    (hwrite : ∀ x, ∃ w, a.write Settings.standard.samplePlaces x = .ok w)
    (hnamed : e.Every IsNamedNode) (hnames : ∀ n ∈ e.freeSymbols .standard, n ∈ names)
    (hstops : e.Every fun d => ∀ fault, StopsAt a.toArithmetic d fault → F fault) :
    Reporting.FailsWithin F (a.fingerprint .standard names e) :=
  (Reporting.FailsWithin.mapM fun point _ =>
    code_failsWithin hwrite hnamed hnames hstops point).bind fun _ _ _ _ => .pure _

/-- An expression with a fingerprint has no node without a value. -/
theorem not_stopsAt_of_fingerprint {rs ts : List Report} {digest : String}
    (h : (a.fingerprint .standard names e).run.run rs = (.ok digest, ts)) :
    e.Every fun d => ∀ fault, ¬StopsAt a.toArithmetic d fault := by
  have hpoints : List.range (Sampling.points .standard) = 0 :: [1, 2, 3, 4, 5, 6, 7] := by decide
  unfold Sampling.fingerprint Sampling.codes at h
  rw [hpoints, List.mapM_cons] at h
  -- the first point is enough
  obtain ⟨_, _, h, -⟩ := reporting_bind_eq_ok_iff.mp h
  obtain ⟨_, _, h, -⟩ := reporting_bind_eq_ok_iff.mp h
  obtain ⟨env, _, -, h⟩ := reporting_bind_eq_ok_iff.mp h
  obtain ⟨x, _, hx, -⟩ := reporting_bind_eq_ok_iff.mp h
  exact not_stopsAt_of_value (reporting_ofExcept_eq_ok_iff.mp hx).1

end

/-! ## Comparisons -/

/-- What stops the comparison of an expression with another one: its passes do not settle, a form of
it has numbers that are too long, or it has a node without a value. -/
inductive StopsComparison {α : Type} (a : Arithmetic α) (e : Expr) : Fault → Prop
  | passes : stripped .standard e = .error (.unsettled Settings.standard.maxPasses) →
      StopsComparison a e (.unsettled Settings.standard.maxPasses)
  | digits {kind : FormKind} {fault : Fault} : DigitLimit.standard.Raises fault →
      e.form .standard kind = .error fault → StopsComparison a e fault
  | node {d : Expr} {fault : Fault} : d ∈ e.walk → StopsAt a d fault → StopsComparison a e fault

/-- Certificates, where it is decided in some way which terms are equal. -/
def Symbolic.certificateBy (simplified : Term → Term → Bool) (a b : Expr) : Except Fault Bool := do
  let f ← sideTerm a
  let g ← sideTerm b
  return simplified f g

/-- The evidence of a sample, and of some decision which terms are equal. -/
def Evidence.ofSampling {α : Type} (a : Sampling α)
    (simplified : Symbolic.Term → Symbolic.Term → Bool) : Evidence :=
  ⟨a.fingerprint .standard, Symbolic.certificateBy simplified⟩

section

variable {α : Type} {a : Sampling α} {F : Fault → Prop}
  {simplified : Symbolic.Term → Symbolic.Term → Bool} {e f : Expr}

/-- An expression has its forms unless its passes do not settle or the limit for digits stops it. -/
theorem form_failsWithin (he : e.IsReadable) (kind : FormKind)
    (hstops : ∀ fault, StopsComparison a.toArithmetic e fault → F fault) :
    FailsWithin F (e.form .standard kind) := by
  intro fault hfault
  cases hr : e.representative .standard kind with
  | ok r =>
    obtain ⟨text, htext, -⟩ | ⟨raised, hraised, hstop⟩ := form_gives he hr
    · exact nomatch hfault.symm.trans htext
    · obtain rfl : raised = fault := Except.error.inj (hstop.symm.trans hfault)
      exact hstops _ (.digits hraised hfault)
  | error fault' =>
    have hstripped : stripped .standard e = .error fault' := by
      cases kind with
      | normal =>
        show (normalForm .standard e >>= _) = _
        rw [show normalForm .standard e = _ from hr]
        rfl
      | stripped => exact hr
    obtain rfl : fault' = fault := by
      rw [Expr.form, hr] at hfault
      exact Except.error.inj hfault
    obtain rfl | hraised := stripped_failsWithin he.named _ hstripped
    · exact hstops _ (.passes hstripped)
    · exact hstops _ (.digits hraised hfault)

theorem sameExprForm_failsWithin (he : e.IsReadable) (hf : f.IsReadable) (kind : FormKind)
    (hestops : ∀ fault, StopsComparison a.toArithmetic e fault → F fault)
    (hfstops : ∀ fault, StopsComparison a.toArithmetic f fault → F fault) :
    FailsWithin F (sameExprForm .standard kind e f) :=
  (form_failsWithin he kind hestops).bind fun _ _ =>
    (form_failsWithin hf kind hfstops).bind fun _ _ => .ok _

/-- A comparison stops only at what stops one of the two expressions. -/
theorem compareExprs_failsWithin
    (hwrite : ∀ x, ∃ w, a.write Settings.standard.samplePlaces x = .ok w)
    (he : e.IsReadable) (hf : f.IsReadable)
    (hestops : ∀ fault, StopsComparison a.toArithmetic e fault → F fault)
    (hfstops : ∀ fault, StopsComparison a.toArithmetic f fault → F fault) :
    Reporting.FailsWithin F (compareExprs .standard (.ofSampling a simplified) e f) := by
  have henodes : e.Every fun d => ∀ fault, StopsAt a.toArithmetic d fault → F fault :=
    fun d hd fault h => hestops fault (.node hd h)
  have hfnodes : f.Every fun d => ∀ fault, StopsAt a.toArithmetic d fault → F fault :=
    fun d hd fault h => hfstops fault (.node hd h)
  have hforms : ∀ kind, Reporting.FailsWithin F
      (Reporting.ofExcept (sameExprForm .standard kind e f)) := fun kind =>
    .ofExcept (sameExprForm_failsWithin he hf kind hestops hfstops)
  have hcertificate : FailsWithin F (Symbolic.certificateBy simplified e f) :=
    (sideTerm_failsWithin he.named henodes).bind fun _ _ =>
      (sideTerm_failsWithin hf.named hfnodes).bind fun _ _ => .ok _
  unfold compareExprs
  refine (hforms .normal).bind fun normal _ _ _ => ?_
  split
  next => exact .pure _
  refine (hforms .stripped).bind fun strips _ _ _ => ?_
  split
  next => exact .pure _
  refine (fingerprint_failsWithin hwrite he.named
    (fun n hn => mem_sortNames.mpr (List.mem_append_left _ hn)) henodes).bind fun _ _ _ _ => ?_
  refine (fingerprint_failsWithin hwrite hf.named
    (fun n hn => mem_sortNames.mpr (List.mem_append_right _ hn)) hfnodes).bind fun _ _ _ _ => ?_
  split
  next => exact .pure _
  refine (Reporting.FailsWithin.ofExcept hcertificate).bind fun _ _ _ _ => ?_
  split
  next => exact .pure _
  next => exact .pure _

/-- Expressions whose forms have been compared have these forms. -/
theorem forms_of_sameExprForm {kind : FormKind} {same : Bool}
    (h : sameExprForm .standard kind e f = .ok same) :
    (∃ t, e.form .standard kind = .ok t) ∧ ∃ u, f.form .standard kind = .ok u := by
  obtain ⟨t, ht, h⟩ := bind_eq_ok_iff.mp h
  obtain ⟨u, hu, -⟩ := bind_eq_ok_iff.mp h
  exact ⟨⟨t, ht⟩, u, hu⟩

/-- Where something stops one of the expressions, only their forms can be compared. -/
theorem compareExprs_stops {d : Expr} (hd : d = e ∨ d = f) {fault : Fault}
    (hstops : StopsComparison a.toArithmetic d fault) {v : Verdict} {rs ts : List Report}
    (h : (compareExprs .standard (.ofSampling a simplified) e f).run.run rs = (.ok v, ts)) :
    v = .sameForm ∨ v = .sameStrippedForm := by
  unfold compareExprs at h
  obtain ⟨normal, _, hnormal, h⟩ := reporting_bind_eq_ok_iff.mp h
  split at h
  next => exact .inl (reporting_pure_eq_ok_iff.mp h).1.symm
  obtain ⟨strips, _, hstrips, h⟩ := reporting_bind_eq_ok_iff.mp h
  split at h
  next => exact .inr (reporting_pure_eq_ok_iff.mp h).1.symm
  obtain ⟨_, _, hefingerprint, h⟩ := reporting_bind_eq_ok_iff.mp h
  obtain ⟨_, _, hffingerprint, -⟩ := reporting_bind_eq_ok_iff.mp h
  -- both expressions have their forms and samples, so nothing stops either
  have hforms : ∀ kind, ∃ text, d.form .standard kind = .ok text := by
    have hnormals := forms_of_sameExprForm (reporting_ofExcept_eq_ok_iff.mp hnormal).1
    have hstrippeds := forms_of_sameExprForm (reporting_ofExcept_eq_ok_iff.mp hstrips).1
    intro kind
    obtain rfl | rfl := hd
    · cases kind
      · exact hnormals.1
      · exact hstrippeds.1
    · cases kind
      · exact hnormals.2
      · exact hstrippeds.2
  exfalso
  cases hstops with
  | passes hpasses =>
    obtain ⟨text, htext⟩ := hforms .stripped
    obtain ⟨r, hr, -⟩ := bind_eq_ok_iff.mp htext
    exact nomatch hpasses.symm.trans hr
  | @digits kind _ _ hform =>
    obtain ⟨text, htext⟩ := hforms kind
    exact nomatch hform.symm.trans htext
  | node hc hnode =>
    obtain rfl | rfl := hd
    · exact not_stopsAt_of_fingerprint hefingerprint _ hc _ hnode
    · exact not_stopsAt_of_fingerprint hffingerprint _ hc _ hnode

end

/-! ## Texts -/

/-- What stops the reading of two texts without stray digits: a literal that is too long, in the
first one or, if that is no malformed text, in the second one. -/
inductive StopsReading (x y : String) : Fault → Prop
  | first {fault : Fault} : DigitLimit.standard.Raises fault →
      ofString .standard x = .error fault → StopsReading x y fault
  | second {e : Expr} {fault : Fault} : ofString .standard x = .ok e →
      DigitLimit.standard.Raises fault → ofString .standard y = .error fault →
      StopsReading x y fault

/-- A text that the limit for digits stops is neither read nor malformed. -/
theorem readText_of_raises {text : String} {fault : Fault}
    (hfault : DigitLimit.standard.Raises fault) (h : ofString .standard text = .error fault)
    (rs : List Report) : (readText .standard text).run.run rs = (.error fault, rs) := by
  obtain ⟨n, -, found, rfl⟩ := hfault
  rw [readText, h]
  rfl

/-- A text without stray digits is read, or is malformed, or has a literal that is too long. -/
theorem readText_failsWithin {F : Fault → Prop} {text : String}
    (h : ∀ c ∈ text.toList, isStray c = false)
    (hlong : ∀ fault, DigitLimit.standard.Raises fault → ofString .standard text = .error fault →
      F fault) :
    Reporting.FailsWithin F (readText .standard text) := by
  obtain ⟨-, -, ⟨e, he⟩ | ⟨error, herror⟩⟩ | ⟨hmeets, -⟩ | ⟨-, fault, hfault, hstop⟩ :=
    Expr.ofString_result .standard text
  · rw [readText, he]
    exact .pure _
  · rw [readText, herror]
    exact (Reporting.FailsWithin.report _).bind fun _ _ _ _ => .pure _
  · obtain ⟨c, hc, hstray⟩ := hmeets.exists_isStray
    exact absurd (h c hc) (by simp [hstray])
  · intro rs fault' hfault'
    rw [readText_of_raises hfault hstop] at hfault'
    exact Except.error.inj hfault' ▸ hlong fault hfault hstop

/-- Comparing two texts without stray digits gives a verdict, unless a literal is too long to be
read, or both are read and the passes of one expression do not settle, or a form of it has numbers
that are too long, or one of its literals is beyond the arithmetic, or one of its functions does not
take its arguments. It does stop at these, unless the forms are found equal before. The arithmetic
is any in which values can be written, and so is the decision which terms are equal. -/
theorem compareTexts_stops {α : Type} (a : Sampling α)
    (hwrite : ∀ x, ∃ w, a.write Settings.standard.samplePlaces x = .ok w)
    (simplified : Symbolic.Term → Symbolic.Term → Bool) {x y : String}
    (hx : ∀ c ∈ x.toList, isStray c = false) (hy : ∀ c ∈ y.toList, isStray c = false) :
    let outcome := (compareTextsWith .standard (.ofSampling a simplified) x y).result.1
    (∀ fault, outcome = .error fault → StopsReading x y fault ∨
      ∃ e f d, ofString .standard x = .ok e ∧ ofString .standard y = .ok f ∧ (d = e ∨ d = f) ∧
        StopsComparison a.toArithmetic d fault) ∧
    (∀ fault, StopsReading x y fault → outcome = .error fault) ∧
    ∀ e f d fault, ofString .standard x = .ok e → ofString .standard y = .ok f →
      (d = e ∨ d = f) → StopsComparison a.toArithmetic d fault →
      ∀ v, outcome = .ok v → v = .sameForm ∨ v = .sameStrippedForm := by
  intro outcome
  refine ⟨fun fault h => ?_, fun fault h => ?_, fun e f d fault he hf hd hstops v hv => ?_⟩
  · suffices hwithin : Reporting.FailsWithin (fun fault => StopsReading x y fault ∨
        ∃ e f d, ofString .standard x = .ok e ∧ ofString .standard y = .ok f ∧ (d = e ∨ d = f) ∧
          StopsComparison a.toArithmetic d fault)
        (compareTextsWith .standard (.ofSampling a simplified) x y) from hwithin [] fault h
    refine (readText_failsWithin hx fun fault hfault hstop => .inl (.first hfault hstop)).bind
      fun first _ _ hfirst => ?_
    cases first with
    | error e => exact .pure _
    | ok e =>
      have he := readText_eq_ok hfirst
      refine (readText_failsWithin hy fun fault hfault hstop =>
        .inl (.second he hfault hstop)).bind fun second _ _ hsecond => ?_
      cases second with
      | error f => exact .pure _
      | ok f =>
        have hf := readText_eq_ok hsecond
        exact compareExprs_failsWithin hwrite (ofString_isReadable he) (ofString_isReadable hf)
          (fun fault h => .inr ⟨e, f, e, he, hf, .inl rfl, h⟩)
          fun fault h => .inr ⟨e, f, f, he, hf, .inr rfl, h⟩
  · cases h with
    | first hfault hstop =>
      show ((compareTextsWith .standard (.ofSampling a simplified) x y).run.run []).1 = _
      rw [compareTextsWith, reporting_bind_run, readText_of_raises hfault hstop]
    | second he hfault hstop =>
      show ((compareTextsWith .standard (.ofSampling a simplified) x y).run.run []).1 = _
      rw [compareTextsWith, reporting_bind_run, readText_of_ok he]
      dsimp only
      rw [reporting_bind_run, readText_of_raises hfault hstop]
  · have hrun := @compareTextsWith_run _ (.ofSampling a simplified) _ _ _ _ he hf []
    exact compareExprs_stops hd hstops (Prod.ext ((congrArg Prod.fst hrun).symm.trans hv) rfl)

/-- The sine of two arguments is read, and has no value. -/
theorem compareTexts_stops_arguments :
    let a := Sampling.exact fun _ q => Number.ratText q
    let simplified := fun t u : Symbolic.Term => t == u
    let outcome := (compareTextsWith .standard (.ofSampling a simplified) "sin(x,y)" "x").result.1
    (∀ x, ∃ w, a.write Settings.standard.samplePlaces x = .ok w) ∧
      (∀ c ∈ "sin(x,y)".toList, isStray c = false) ∧ (∀ c ∈ "x".toList, isStray c = false) ∧
      outcome = .error (.wrongArity "sin" 2) ∧
      ∃ e f d, ofString .standard "sin(x,y)" = .ok e ∧ ofString .standard "x" = .ok f ∧
        (d = e ∨ d = f) ∧ StopsComparison a.toArithmetic d (.wrongArity "sin" 2) := by
  intro a simplified outcome
  have hwrite : ∀ x, ∃ w, a.write Settings.standard.samplePlaces x = .ok w := fun x => ⟨_, rfl⟩
  have hx : ∀ c ∈ "sin(x,y)".toList, isStray c = false :=
    List.forall_iff_forall_mem.mp (by decide +kernel)
  have hy : ∀ c ∈ "x".toList, isStray c = false :=
    List.forall_iff_forall_mem.mp (by decide +kernel)
  have houtcome : outcome = .error (.wrongArity "sin" 2) := by decide +kernel
  have hreads : ¬StopsReading "sin(x,y)" "x" (.wrongArity "sin" 2) := by
    rintro (⟨⟨n, -, found, h⟩, -⟩ | ⟨-, ⟨n, -, found, h⟩, -⟩) <;> exact nomatch h
  exact ⟨hwrite, hx, hy, houtcome,
    ((compareTexts_stops a hwrite simplified hx hy).1 _ houtcome).resolve_left hreads⟩

/-- The number `(20^64)^64` is read and folded, and its form is too long. No evidence is asked. -/
theorem compareTexts_stops_power :
    (∀ c ∈ "(20^64)^64".toList, isStray c = false) ∧ (∀ c ∈ "x".toList, isStray c = false) ∧
      ∀ evidence, (compareTextsWith .standard evidence "(20^64)^64" "x").result.1 =
        .error (.tooManyDigits 4300 none) := by
  refine ⟨List.forall_iff_forall_mem.mp (by decide +kernel),
    List.forall_iff_forall_mem.mp (by decide +kernel), fun evidence => ?_⟩
  let e := power (power (rat 20) (rat 64)) (rat 64)
  have he : ofString .standard "(20^64)^64" = .ok e :=
    ofString_eq_ok_of_returns (by simp [e]) (by decide +kernel)
  have hx : ofString .standard "x" = .ok (symbol "x") :=
    ofString_eq_ok_of_returns (by simp) (by decide +kernel)
  have hform : e.form .standard .normal = .error (.tooManyDigits 4300 none) := by decide +kernel
  have hsame : sameExprForm .standard .normal e (symbol "x") =
      .error (.tooManyDigits 4300 none) := by
    rw [sameExprForm, hform, error_bind]
  show ((compareTextsWith .standard evidence "(20^64)^64" "x").run.run []).1 = _
  rw [compareTextsWith_run he hx, compareExprs, hsame]
  rfl

end AlgebraicForm
