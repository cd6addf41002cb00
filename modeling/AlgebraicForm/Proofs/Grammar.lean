import AlgebraicForm.Proofs.Lexing

/-!
# The grammar of expressions

`Derives bare c ks es` is the grammar: the tokens `ks` form a phrase of the category `c` that
denotes the expressions `es`. An atom, a power or a signed operand denotes one expression, a term
its factors, a sum its terms, and an argument list the arguments. Functions without arguments can be
written but not read, so they are phrases only if `bare` says so.

The reader takes tokens one at a time and keeps unfinished operands in its state. `Accepts c ks es`
says what reading a phrase does to the state, whatever comes after it, and `Derives.accepts` that
every phrase in which all functions have arguments is read so, by induction on the derivation. Two
consequences:

* `Derives.ofTokens`: the tokens of a sum are read as that sum.
* `parse_eq_ok`: a text whose tokens form a sum is read as that sum.
-/

namespace AlgebraicForm

open AlgebraicForm.Expr

/-! ## Phrases -/

/-- The categories of phrases, from the tightest binding to the loosest. -/
inductive Category where
  | atom
  | power
  | signed
  | term
  | sum
  | arguments
  deriving DecidableEq, Repr

/-- The phrases of each category and the expressions that they denote; `bare` says whether functions
without arguments are among them. -/
inductive Derives (bare : Prop) : Category → List TokenKind → List Expr → Prop
  | number (q : Rat) : Derives bare .atom [.number q] [rat q]
  | identifier (name : String) : Derives bare .atom [.identifier name] [symbol name]
  | group {ks : List TokenKind} {ts : List Expr} :
      Derives bare .sum ks ts →
      Derives bare .atom (.leftParen :: (ks ++ [.rightParen])) [ofTerms ts]
  | call (name : String) {ks : List TokenKind} {es : List Expr} :
      Derives bare .arguments ks es →
      Derives bare .atom (.function name :: .leftParen :: (ks ++ [.rightParen])) [call name es]
  | bareCall (name : String) :
      bare → Derives bare .atom [.function name, .leftParen, .rightParen] [call name []]
  | atom {ks : List TokenKind} {e : Expr} : Derives bare .atom ks [e] → Derives bare .power ks [e]
  | power {ks ls : List TokenKind} {b p : Expr} :
      Derives bare .atom ks [b] → Derives bare .signed ls [p] →
      Derives bare .power (ks ++ .operator .power :: ls) [power b p]
  | unsigned {ks : List TokenKind} {e : Expr} :
      Derives bare .power ks [e] → Derives bare .signed ks [e]
  | minus {ks : List TokenKind} {e : Expr} :
      Derives bare .signed ks [e] → Derives bare .signed (.operator .minus :: ks) [negation e]
  | plus {ks : List TokenKind} {e : Expr} :
      Derives bare .signed ks [e] → Derives bare .signed (.operator .plus :: ks) [e]
  | factor {ks : List TokenKind} {e : Expr} :
      Derives bare .signed ks [e] → Derives bare .term ks [e]
  | times {ks ls : List TokenKind} {fs : List Expr} {e : Expr} :
      Derives bare .term ks fs → Derives bare .signed ls [e] →
      Derives bare .term (ks ++ .operator .times :: ls) (fs ++ [e])
  | divide {ks ls : List TokenKind} {fs : List Expr} {e : Expr} :
      Derives bare .term ks fs → Derives bare .signed ls [e] →
      Derives bare .term (ks ++ .operator .divide :: ls) (fs ++ [Expr.power e minusOne])
  | juxtapose {ks ls : List TokenKind} {fs : List Expr} {e : Expr} :
      Derives bare .term ks fs → Derives bare .power ls [e] →
      Derives bare .term (ks ++ ls) (fs ++ [e])
  | term {ks : List TokenKind} {fs : List Expr} :
      Derives bare .term ks fs → Derives bare .sum ks [ofFactors fs]
  | add {ks ls : List TokenKind} {ts fs : List Expr} :
      Derives bare .sum ks ts → Derives bare .term ls fs →
      Derives bare .sum (ks ++ .operator .plus :: ls) (ts ++ [ofFactors fs])
  | subtract {ks ls : List TokenKind} {ts fs : List Expr} :
      Derives bare .sum ks ts → Derives bare .term ls fs →
      Derives bare .sum (ks ++ .operator .minus :: ls) (ts ++ [negation (ofFactors fs)])
  | argument {ks : List TokenKind} {ts : List Expr} :
      Derives bare .sum ks ts → Derives bare .arguments ks [ofTerms ts]
  | comma {ks ls : List TokenKind} {es ts : List Expr} :
      Derives bare .arguments ks es → Derives bare .sum ls ts →
      Derives bare .arguments (ks ++ .comma :: ls) (es ++ [ofTerms ts])

namespace Derives

variable {bare : Prop}

/-- A token that can start an operand other than by a sign. -/
def StartsOperand : TokenKind → Prop
  | .number _ | .identifier _ | .function _ | .leftParen => True
  | _ => False

/-- An atom and a power start with an operand, and other phrases may start with a sign as well. -/
theorem head {c : Category} {ks : List TokenKind} {es : List Expr} (h : Derives bare c ks es) :
    ∃ k rest, ks = k :: rest ∧ (StartsOperand k ∨
      ((k = .operator .minus ∨ k = .operator .plus) ∧ c ≠ .atom ∧ c ≠ .power)) := by
  induction h with
  | number | identifier | group | call | bareCall => exact ⟨_, _, rfl, .inl trivial⟩
  | minus => exact ⟨_, _, rfl, .inr ⟨.inl rfl, by decide, by decide⟩⟩
  | plus => exact ⟨_, _, rfl, .inr ⟨.inr rfl, by decide, by decide⟩⟩
  | atom _ ih =>
    obtain ⟨k, rest, rfl, hk | ⟨_, hno, _⟩⟩ := ih
    · exact ⟨k, rest, rfl, .inl hk⟩
    · exact absurd rfl hno
  | power _ _ ih _ =>
    obtain ⟨k, rest, rfl, hk | ⟨_, hno, _⟩⟩ := ih
    · exact ⟨k, _, rfl, .inl hk⟩
    · exact absurd rfl hno
  | unsigned _ ih | factor _ ih | term _ ih | argument _ ih =>
    obtain ⟨k, rest, rfl, hk⟩ := ih
    exact ⟨k, rest, rfl, hk.imp_right fun h => ⟨h.1, by decide, by decide⟩⟩
  | times _ _ ih _ | divide _ _ ih _ | juxtapose _ _ ih _ | add _ _ ih _ | subtract _ _ ih _
  | comma _ _ ih _ =>
    obtain ⟨k, rest, rfl, hk⟩ := ih
    exact ⟨k, _, rfl, hk.imp_right fun h => ⟨h.1, by decide, by decide⟩⟩

/-- A token that can end an operand. -/
def EndsOperand : TokenKind → Prop
  | .number _ | .identifier _ | .rightParen => True
  | _ => False

/-- Every phrase ends with the end of an operand. -/
theorem last {c : Category} {ks : List TokenKind} {es : List Expr} (h : Derives bare c ks es) :
    ∃ k, ks.getLast? = some k ∧ EndsOperand k := by
  induction h with
  | number | identifier => exact ⟨_, rfl, trivial⟩
  | group | call | bareCall =>
    exact ⟨.rightParen, by simp [List.getLast?_cons, List.getLast?_append], trivial⟩
  | atom _ ih | unsigned _ ih | factor _ ih | term _ ih | argument _ ih => exact ih
  | minus hk ih | plus hk ih =>
    obtain ⟨k, rest, rfl, -⟩ := hk.head
    simpa [List.getLast?_cons_cons] using ih
  | power _ hl _ ih | times _ hl _ ih | divide _ hl _ ih | add _ hl _ ih | subtract _ hl _ ih
  | comma _ hl _ ih =>
    obtain ⟨k, rest, rfl, -⟩ := hl.head
    simpa [List.getLast?_append, List.getLast?_cons_cons] using ih
  | juxtapose _ hl _ ih =>
    obtain ⟨k, rest, rfl, -⟩ := hl.head
    simpa [List.getLast?_append] using ih

theorem getLast?_ne_operator {c : Category} {ks : List TokenKind} {es : List Expr}
    (h : Derives bare c ks es) (op : Operator) : ks.getLast? ≠ some (.operator op) := by
  obtain ⟨k, hlast, hk⟩ := h.last
  rw [hlast]
  rintro ⟨⟩
  exact hk

theorem head?_ne_operator {c : Category} {ks : List TokenKind} {es : List Expr}
    (h : Derives bare c ks es) (hc : c = .atom ∨ c = .power) (op : Operator) :
    ks.head? ≠ some (.operator op) := by
  obtain ⟨k, rest, rfl, hk | ⟨_, hatom, hpower⟩⟩ := h.head
  · rw [List.head?_cons]
    rintro ⟨⟩
    exact hk
  · exact absurd hc (by simp [hatom, hpower])

theorem ne_nil {c : Category} {ks : List TokenKind} {es : List Expr} (h : Derives bare c ks es) :
    es ≠ [] := by
  cases h <;> simp

/-- A minus sign in front of a term belongs to its first factor. -/
theorem minus_term {ks : List TokenKind} {f : Expr} {fs : List Expr}
    (h : Derives bare .term ks (f :: fs)) :
    Derives bare .term (.operator .minus :: ks) (negation f :: fs) := by
  generalize hc : Category.term = c at h
  generalize hes : f :: fs = es at h
  induction h generalizing f fs with
  | factor hk _ =>
    obtain ⟨rfl, rfl⟩ := List.cons.inj hes
    exact .factor (.minus hk)
  | @times ks ls gs e hk hl ih _ =>
    obtain ⟨g, gs, rfl⟩ := List.exists_cons_of_ne_nil hk.ne_nil
    obtain ⟨rfl, rfl⟩ := List.cons.inj hes
    exact .times (ih rfl rfl) hl
  | @divide ks ls gs e hk hl ih _ =>
    obtain ⟨g, gs, rfl⟩ := List.exists_cons_of_ne_nil hk.ne_nil
    obtain ⟨rfl, rfl⟩ := List.cons.inj hes
    exact .divide (ih rfl rfl) hl
  | @juxtapose ks ls gs e hk hl ih _ =>
    obtain ⟨g, gs, rfl⟩ := List.exists_cons_of_ne_nil hk.ne_nil
    obtain ⟨rfl, rfl⟩ := List.cons.inj hes
    exact .juxtapose (ih rfl rfl) hl
  | _ => exact absurd hc (by simp)

theorem cons_argument {ks ls : List TokenKind} {ts es : List Expr} (h : Derives bare .sum ks ts)
    (hl : Derives bare .arguments ls es) :
    Derives bare .arguments (ks ++ .comma :: ls) (ofTerms ts :: es) := by
  generalize hc : Category.arguments = c at hl
  induction hl with
  | argument hs _ => exact .comma (.argument h) hs
  | @comma ls ms es us _ hs ih _ =>
    have hlonger := Derives.comma (ih rfl) hs
    rwa [List.append_assoc] at hlonger
  | _ => exact absurd hc (by simp)

end Derives

/-! ## Reading a phrase -/

/-- An operand may come next, perhaps the first argument of a function. -/
def Phase.WantsOperand : Phase → Prop
  | operand | firstArgument _ => True
  | _ => False

namespace State

/-- Where an operand may come, a token is taken as the start of one. -/
theorem step_wantsOperand {f : Frame} {os : List Opening} {ph : Phase} (h : ph.WantsOperand)
    (t : Token) : step ⟨f, os, ph⟩ t = beginOperand ⟨f, os, ph⟩ t := by
  cases ph <;> simp_all [step, Phase.WantsOperand]

section

variable (f : Frame) (os : List Opening) {ph : Phase} {t : Token} (ts : List Token)

theorem run_number (hph : ph.WantsOperand) {q : Rat} (h : t.kind = .number q) :
    run ⟨f, os, ph⟩ (t :: ts) = run ⟨f, os, .operator (rat q)⟩ ts :=
  run_step ts (by simp [h]) (by simp [step_wantsOperand hph, beginOperand, expecting, h])

theorem run_identifier (hph : ph.WantsOperand) {name : String} (h : t.kind = .identifier name) :
    run ⟨f, os, ph⟩ (t :: ts) = run ⟨f, os, .operator (symbol name)⟩ ts :=
  run_step ts (by simp [h]) (by simp [step_wantsOperand hph, beginOperand, expecting, h])

/-- A minus sign waits for its operand. -/
theorem run_minus (hph : ph.WantsOperand) (h : t.kind = .operator .minus) :
    run ⟨f, os, ph⟩ (t :: ts) = run ⟨f.wait .negate, os, .operand⟩ ts :=
  run_step ts (by simp [h]) (by simp [step_wantsOperand hph, beginOperand, h])

/-- A plus sign is dropped. -/
theorem run_plus (hph : ph.WantsOperand) (h : t.kind = .operator .plus) :
    run ⟨f, os, ph⟩ (t :: ts) = run ⟨f, os, .operand⟩ ts :=
  run_step ts (by simp [h]) (by simp [step_wantsOperand hph, beginOperand, expecting, h])

theorem run_group (hph : ph.WantsOperand) (h : t.kind = .leftParen) :
    run ⟨f, os, ph⟩ (t :: ts) = run ⟨.start, ⟨.group, t.offset, f⟩ :: os, .operand⟩ ts :=
  run_step ts (by simp [h]) (by simp [step_wantsOperand hph, beginOperand, openBracket, h])

theorem run_call (hph : ph.WantsOperand) {t' : Token} {name : String}
    (h : t.kind = .function name) (h' : t'.kind = .leftParen) :
    run ⟨f, os, ph⟩ (t :: t' :: ts) =
      run ⟨.start, ⟨.call name [], t'.offset, f⟩ :: os, .firstArgument t.text⟩ ts := by
  have hname : step ⟨f, os, ph⟩ t = .ok ⟨f, os, .arguments name t.text⟩ := by
    simp [step_wantsOperand hph, beginOperand, expecting, h]
  have hopen : step ⟨f, os, .arguments name t.text⟩ t' =
      .ok ⟨.start, ⟨.call name [], t'.offset, f⟩ :: os, .firstArgument t.text⟩ := by
    simp [step, openBracket, h']
  rw [run_step _ (by simp [h]) hname, run_step _ (by simp [h']) hopen]

variable (last : Expr)

theorem run_power (h : t.kind = .operator .power) :
    run ⟨f, os, .operator last⟩ (t :: ts) = run ⟨f.wait (.raise last), os, .operand⟩ ts :=
  run_step ts (by simp [h]) (by simp [step, afterOperand, h])

theorem run_times (h : t.kind = .operator .times) :
    run ⟨f, os, .operator last⟩ (t :: ts) = run ⟨f.nextFactor last false, os, .operand⟩ ts :=
  run_step ts (by simp [h]) (by simp [step, afterOperand, h])

theorem run_divide (h : t.kind = .operator .divide) :
    run ⟨f, os, .operator last⟩ (t :: ts) = run ⟨f.nextFactor last true, os, .operand⟩ ts :=
  run_step ts (by simp [h]) (by simp [step, afterOperand, h])

theorem run_add (h : t.kind = .operator .plus) :
    run ⟨f, os, .operator last⟩ (t :: ts) = run ⟨f.nextTerm last false, os, .operand⟩ ts :=
  run_step ts (by simp [h]) (by simp [step, afterOperand, h])

/-- A minus sign after an operand ends a term, and the next one is subtracted. -/
theorem run_subtract (h : t.kind = .operator .minus) :
    run ⟨f, os, .operator last⟩ (t :: ts) = run ⟨f.nextTerm last true, os, .operand⟩ ts :=
  run_step ts (by simp [h]) (by simp [step, afterOperand, h])

theorem run_closeGroup (offset : Nat) (outer : Frame) (h : t.kind = .rightParen) :
    run ⟨f, ⟨.group, offset, outer⟩ :: os, .operator last⟩ (t :: ts) =
      run ⟨outer, os, .operator (f.expression last)⟩ ts :=
  run_step ts (by simp [h]) (by simp [step, afterOperand, h])

theorem run_comma (name : String) (es : List Expr) (offset : Nat) (outer : Frame)
    (h : t.kind = .comma) :
    run ⟨f, ⟨.call name es, offset, outer⟩ :: os, .operator last⟩ (t :: ts) =
      run ⟨.start, ⟨.call name (f.expression last :: es), offset, outer⟩ :: os, .operand⟩ ts :=
  run_step ts (by simp [h]) (by simp [step, afterOperand, h])

theorem run_closeCall (name : String) (es : List Expr) (offset : Nat) (outer : Frame)
    (h : t.kind = .rightParen) :
    run ⟨f, ⟨.call name es, offset, outer⟩ :: os, .operator last⟩ (t :: ts) =
      run ⟨outer, os, .operator (.call name (es.reverse ++ [f.expression last]))⟩ ts :=
  run_step ts (by simp [h]) (by simp [step, afterOperand, h])

/-- A token that starts an operand without a sign ends a factor as well. -/
theorem run_juxtaposed (h : Derives.StartsOperand t.kind) :
    run ⟨f, os, .operator last⟩ (t :: ts) =
      run ⟨f.nextFactor last false, os, .operand⟩ (t :: ts) := by
  obtain ⟨kind, text, offset⟩ := t
  cases kind <;>
    simp_all [Derives.StartsOperand, run, step, afterOperand, beginOperand, expecting, openBracket]

end

end State

/-- An operator that waits longest takes its operand last. -/
theorem Pending.closeAll_concat (ps : List Pending) (p : Pending) (e : Expr) :
    closeAll (ps ++ [p]) e = p.close (closeAll ps e) := by
  simp [closeAll]

/-- What reading a phrase does, whatever tokens follow it: the operand read last is held in the
state, and with what waits for it the state stands for the expressions that the phrase denotes. -/
def Accepts (c : Category) (ks : List TokenKind) (es : List Expr) : Prop :=
  ∀ ts : List Token, ts.map (·.kind) = ks → ∀ (f : Frame) (os : List Opening) (ph : Phase)
    (rest : List Token), ph.WantsOperand →
    match c with
    | .atom => ∃ last, es = [last] ∧
        State.run ⟨f, os, ph⟩ (ts ++ rest) = State.run ⟨f, os, .operator last⟩ rest
    | .power | .signed => ∃ ps last, es = [Pending.closeAll ps last] ∧
        State.run ⟨f, os, ph⟩ (ts ++ rest) =
          State.run ⟨{ f with pending := ps ++ f.pending }, os, .operator last⟩ rest
    | .term => f.factors = [] → f.divides = false → f.pending = [] →
        ∃ f' last, f'.terms = f.terms ∧ f'.subtracts = f.subtracts ∧
          f'.factors.reverse ++ [f'.factor last] = es ∧
          State.run ⟨f, os, ph⟩ (ts ++ rest) = State.run ⟨f', os, .operator last⟩ rest
    | .sum => f = .start →
        ∃ f' last, f'.terms.reverse ++ [f'.term last] = es ∧
          State.run ⟨f, os, ph⟩ (ts ++ rest) = State.run ⟨f', os, .operator last⟩ rest
    | .arguments => f = .start → ∀ name acc offset outer os',
        os = ⟨.call name acc, offset, outer⟩ :: os' →
        ∃ f' last acc', acc'.reverse ++ [f'.expression last] = acc.reverse ++ es ∧
          State.run ⟨f, os, ph⟩ (ts ++ rest) =
            State.run ⟨f', ⟨.call name acc', offset, outer⟩ :: os', .operator last⟩ rest

/-- Every phrase is read, if its functions have arguments. -/
theorem Derives.accepts {c : Category} {ks : List TokenKind} {es : List Expr}
    (h : Derives False c ks es) : Accepts c ks es := by
  induction h with
  | number q =>
    intro ts hall f os ph rest hph
    obtain ⟨t, rfl, ht⟩ := List.map_eq_singleton_iff.mp hall
    exact ⟨rat q, rfl, State.run_number f os rest hph ht⟩
  | identifier name =>
    intro ts hall f os ph rest hph
    obtain ⟨t, rfl, ht⟩ := List.map_eq_singleton_iff.mp hall
    exact ⟨symbol name, rfl, State.run_identifier f os rest hph ht⟩
  | group _ ih =>
    intro ts hall f os ph rest hph
    obtain ⟨t, _, rfl, hopen, htail⟩ := List.map_eq_cons_iff.mp hall
    obtain ⟨ts, _, rfl, hts, hlast⟩ := List.map_eq_append_iff.mp htail
    obtain ⟨t', rfl, hclose⟩ := List.map_eq_singleton_iff.mp hlast
    -- inside of the bracket a new frame starts, with this one waiting outside
    obtain ⟨f', last, rfl, hrun⟩ := ih ts hts .start (⟨.group, t.offset, f⟩ :: os) .operand
      (t' :: rest) trivial rfl
    refine ⟨f'.expression last, rfl, ?_⟩
    rw [List.cons_append, List.append_assoc, State.run_group f os _ hph hopen]
    show State.run _ (ts ++ t' :: rest) = _
    rw [hrun, State.run_closeGroup f' os rest last t.offset f hclose]
  | call name _ ih =>
    intro ts hall f os ph rest hph
    obtain ⟨t, _, rfl, hname, htail⟩ := List.map_eq_cons_iff.mp hall
    obtain ⟨t', _, rfl, hopen, htail⟩ := List.map_eq_cons_iff.mp htail
    obtain ⟨ts, _, rfl, hts, hlast⟩ := List.map_eq_append_iff.mp htail
    obtain ⟨t'', rfl, hclose⟩ := List.map_eq_singleton_iff.mp hlast
    -- the first argument is read in a frame of its own, with no argument finished yet
    obtain ⟨f', last, acc, hes, hrun⟩ := ih ts hts .start (⟨.call name [], t'.offset, f⟩ :: os)
      (.firstArgument t.text) (t'' :: rest) trivial rfl name [] t'.offset f os rfl
    rw [List.reverse_nil, List.nil_append] at hes
    subst hes
    refine ⟨_, rfl, ?_⟩
    rw [List.cons_append, List.cons_append, List.append_assoc,
      State.run_call f os _ hph hname hopen]
    show State.run _ (ts ++ t'' :: rest) = _
    rw [hrun, State.run_closeCall f' os rest last name acc t'.offset f hclose]
  | bareCall _ hbare => exact hbare.elim
  | atom _ ih =>
    intro ts hall f os ph rest hph
    obtain ⟨last, hes, hrun⟩ := ih ts hall f os ph rest hph
    exact ⟨[], last, hes, hrun⟩
  | @power _ _ b p _ _ ihb ihp =>
    intro ts hall f os ph rest hph
    obtain ⟨ts, _, rfl, hts, htail⟩ := List.map_eq_append_iff.mp hall
    obtain ⟨t, ts', rfl, hop, hts'⟩ := List.map_eq_cons_iff.mp htail
    obtain ⟨_, hb, hrun⟩ := ihb ts hts f os ph (t :: ts' ++ rest) hph
    obtain rfl := List.singleton_inj.mp hb
    -- the base waits for its exponent
    obtain ⟨ps, last, hp, hrun'⟩ := ihp ts' hts' (f.wait (.raise b)) os .operand rest trivial
    obtain rfl := List.singleton_inj.mp hp
    refine ⟨ps ++ [.raise b], last, by rw [Pending.closeAll_concat]; rfl, ?_⟩
    rw [List.append_assoc, hrun, List.cons_append, State.run_power f os _ b hop, hrun']
    simp [Frame.wait]
  | unsigned _ ih => exact ih
  | @minus _ e _ ih =>
    intro ts hall f os ph rest hph
    obtain ⟨t, ts, rfl, hop, hts⟩ := List.map_eq_cons_iff.mp hall
    -- the sign waits for its operand
    obtain ⟨ps, last, he, hrun⟩ := ih ts hts (f.wait .negate) os .operand rest trivial
    obtain rfl := List.singleton_inj.mp he
    refine ⟨ps ++ [.negate], last, by rw [Pending.closeAll_concat]; rfl, ?_⟩
    rw [List.cons_append, State.run_minus f os _ hph hop, hrun]
    simp [Frame.wait]
  | plus _ ih =>
    intro ts hall f os ph rest hph
    obtain ⟨t, ts, rfl, hop, hts⟩ := List.map_eq_cons_iff.mp hall
    obtain ⟨ps, last, he, hrun⟩ := ih ts hts f os .operand rest trivial
    exact ⟨ps, last, he, by rw [List.cons_append, State.run_plus f os _ hph hop, hrun]⟩
  | factor _ ih =>
    intro ts hall f os ph rest hph hfactors hdivides hpending
    obtain ⟨ps, last, he, hrun⟩ := ih ts hall f os ph rest hph
    refine ⟨{ f with pending := ps ++ f.pending }, last, rfl, rfl, ?_, hrun⟩
    simpa [Frame.factor, hfactors, hdivides, hpending] using he.symm
  | @times _ _ fs e _ _ iht ihs =>
    intro ts hall f os ph rest hph hfactors hdivides hpending
    obtain ⟨ts, _, rfl, hts, htail⟩ := List.map_eq_append_iff.mp hall
    obtain ⟨t, ts', rfl, hop, hts'⟩ := List.map_eq_cons_iff.mp htail
    obtain ⟨f₁, last₁, hterms, hsub, rfl, hrun⟩ :=
      iht ts hts f os ph (t :: ts' ++ rest) hph hfactors hdivides hpending
    obtain ⟨ps, last, he, hrun'⟩ :=
      ihs ts' hts' (f₁.nextFactor last₁ false) os .operand rest trivial
    obtain rfl := List.singleton_inj.mp he
    refine ⟨{ f₁.nextFactor last₁ false with pending := ps }, last, hterms, hsub, ?_, ?_⟩
    · simp [Frame.nextFactor, Frame.factor]
    · rw [List.append_assoc, hrun, List.cons_append, State.run_times f₁ os _ last₁ hop, hrun']
      simp [Frame.nextFactor]
  | @divide _ _ fs e _ _ iht ihs =>
    intro ts hall f os ph rest hph hfactors hdivides hpending
    obtain ⟨ts, _, rfl, hts, htail⟩ := List.map_eq_append_iff.mp hall
    obtain ⟨t, ts', rfl, hop, hts'⟩ := List.map_eq_cons_iff.mp htail
    obtain ⟨f₁, last₁, hterms, hsub, rfl, hrun⟩ :=
      iht ts hts f os ph (t :: ts' ++ rest) hph hfactors hdivides hpending
    -- the factor behind the line is inverted when it is finished
    obtain ⟨ps, last, he, hrun'⟩ :=
      ihs ts' hts' (f₁.nextFactor last₁ true) os .operand rest trivial
    obtain rfl := List.singleton_inj.mp he
    refine ⟨{ f₁.nextFactor last₁ true with pending := ps }, last, hterms, hsub, ?_, ?_⟩
    · simp [Frame.nextFactor, Frame.factor]
    · rw [List.append_assoc, hrun, List.cons_append, State.run_divide f₁ os _ last₁ hop, hrun']
      simp [Frame.nextFactor]
  | @juxtapose _ _ fs e _ hl iht ihp =>
    intro ts hall f os ph rest hph hfactors hdivides hpending
    obtain ⟨ts, ts', rfl, hts, hts'⟩ := List.map_eq_append_iff.mp hall
    obtain ⟨f₁, last₁, hterms, hsub, rfl, hrun⟩ :=
      iht ts hts f os ph (ts' ++ rest) hph hfactors hdivides hpending
    obtain ⟨ps, last, he, hrun'⟩ :=
      ihp ts' hts' (f₁.nextFactor last₁ false) os .operand rest trivial
    obtain rfl := List.singleton_inj.mp he
    -- the second phrase starts with an operand, so it starts a factor
    obtain ⟨t, ts'', rfl, hstart⟩ : ∃ t ts'', ts' = t :: ts'' ∧ StartsOperand t.kind := by
      obtain ⟨k, ks, rfl, hk | ⟨_, _, hno⟩⟩ := hl.head
      · obtain ⟨t, ts'', rfl, rfl, _⟩ := List.map_eq_cons_iff.mp hts'
        exact ⟨t, ts'', rfl, hk⟩
      · exact absurd rfl hno
    refine ⟨{ f₁.nextFactor last₁ false with pending := ps }, last, hterms, hsub, ?_, ?_⟩
    · simp [Frame.nextFactor, Frame.factor]
    · rw [List.append_assoc, hrun, List.cons_append, State.run_juxtaposed f₁ os _ last₁ hstart,
        ← List.cons_append, hrun']
      simp [Frame.nextFactor]
  | term _ ih =>
    intro ts hall f os ph rest hph hf
    subst hf
    obtain ⟨f', last, hterms, hsub, rfl, hrun⟩ := ih ts hall .start os ph rest hph rfl rfl rfl
    refine ⟨f', last, ?_, hrun⟩
    simp [hterms, hsub, Frame.start, Frame.term]
  | add _ _ ihs iht =>
    intro ts hall f os ph rest hph hf
    obtain ⟨ts, _, rfl, hts, htail⟩ := List.map_eq_append_iff.mp hall
    obtain ⟨t, ts', rfl, hop, hts'⟩ := List.map_eq_cons_iff.mp htail
    obtain ⟨f₁, last₁, rfl, hrun⟩ := ihs ts hts f os ph (t :: ts' ++ rest) hph hf
    obtain ⟨f', last, hterms, hsub, rfl, hrun'⟩ :=
      iht ts' hts' (f₁.nextTerm last₁ false) os .operand rest trivial rfl rfl rfl
    refine ⟨f', last, ?_, ?_⟩
    · simp [hterms, hsub, Frame.nextTerm, Frame.term]
    · rw [List.append_assoc, hrun, List.cons_append, State.run_add f₁ os _ last₁ hop, hrun']
  | subtract _ _ ihs iht =>
    intro ts hall f os ph rest hph hf
    obtain ⟨ts, _, rfl, hts, htail⟩ := List.map_eq_append_iff.mp hall
    obtain ⟨t, ts', rfl, hop, hts'⟩ := List.map_eq_cons_iff.mp htail
    obtain ⟨f₁, last₁, rfl, hrun⟩ := ihs ts hts f os ph (t :: ts' ++ rest) hph hf
    -- the term behind the sign is negated when it is finished
    obtain ⟨f', last, hterms, hsub, rfl, hrun'⟩ :=
      iht ts' hts' (f₁.nextTerm last₁ true) os .operand rest trivial rfl rfl rfl
    refine ⟨f', last, ?_, ?_⟩
    · simp [hterms, hsub, Frame.nextTerm, Frame.term]
    · rw [List.append_assoc, hrun, List.cons_append, State.run_subtract f₁ os _ last₁ hop, hrun']
  | argument _ ih =>
    intro ts hall f os ph rest hph hf name acc offset outer os' hos
    obtain ⟨f', last, rfl, hrun⟩ := ih ts hall f os ph rest hph hf
    subst hos
    exact ⟨f', last, acc, rfl, hrun⟩
  | comma _ _ iha ihs =>
    intro ts hall f os ph rest hph hf name acc offset outer os' hos
    obtain ⟨ts, _, rfl, hts, htail⟩ := List.map_eq_append_iff.mp hall
    obtain ⟨t, ts', rfl, hcomma, hts'⟩ := List.map_eq_cons_iff.mp htail
    obtain ⟨f₁, last₁, acc₁, hes, hrun⟩ :=
      iha ts hts f os ph (t :: ts' ++ rest) hph hf name acc offset outer os' hos
    -- the finished argument joins those that the open bracket holds
    obtain ⟨f', last, rfl, hrun'⟩ := ihs ts' hts' .start
      (⟨.call name (f₁.expression last₁ :: acc₁), offset, outer⟩ :: os') .operand rest trivial rfl
    refine ⟨f', last, f₁.expression last₁ :: acc₁, ?_, ?_⟩
    · rw [List.reverse_cons, hes, List.append_assoc]
      rfl
    · rw [List.append_assoc, hrun, List.cons_append,
        State.run_comma f₁ os' _ last₁ name acc₁ offset outer hcomma, hrun']

/-- The tokens of a sum are read as that sum. -/
theorem Derives.ofTokens {ks : List TokenKind} {es : List Expr} (h : Derives False .sum ks es)
    {ts : List Token} (hts : ts.map (·.kind) = ks ++ [.endOfInput]) :
    Expr.ofTokens ts = .ok (ofTerms es) := by
  obtain ⟨ts, _, rfl, hks, hend⟩ := List.map_eq_append_iff.mp hts
  obtain ⟨⟨kind, text, offset⟩, rfl, rfl⟩ := List.map_eq_singleton_iff.mp hend
  obtain ⟨f, last, rfl, hrun⟩ := h.accepts ts hks .start [] .operand
    [⟨.endOfInput, text, offset⟩] trivial rfl
  have hstart : Expr.ofTokens (ts ++ [⟨.endOfInput, text, offset⟩]) =
      State.start.run (ts ++ [⟨.endOfInput, text, offset⟩]) := by
    obtain ⟨k, rest, rfl, hk⟩ := h.head
    obtain ⟨t, ts, rfl, rfl, _⟩ := List.map_eq_cons_iff.mp hks
    unfold Expr.ofTokens
    split
    next heq =>
      rw [List.cons_append, List.cons.injEq] at heq
      rw [heq.1] at hk
      simp [StartsOperand] at hk
    next => rfl
  rw [hstart]
  show State.run ⟨.start, [], .operand⟩ _ = _
  rw [hrun, State.run_endOfInput]
  rfl

/-- A text whose tokens form a sum is read as that sum. -/
theorem parse_eq_ok {v : Vocabulary} {cs : List Char} {ks : List TokenKind} {es : List Expr}
    (hcs : Lexes v cs ks) (hks : Derives False .sum ks es) :
    Expr.parse v cs = .ok (ofTerms es) := by
  obtain ⟨ts, hts, hkinds⟩ := (scan_eq_ok_iff 0).mpr ⟨ks, hcs, rfl⟩
  rw [Expr.parse, tokenize, hts, ok_bind, hks.ofTokens hkinds]
  rfl

end AlgebraicForm
