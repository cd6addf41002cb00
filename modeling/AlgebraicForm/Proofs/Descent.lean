import AlgebraicForm.Expr.Descent
import AlgebraicForm.Proofs.Derivations

/-!
# Recursive descent reads what the states read

A procedure of the recursive descent keeps unfinished phrases in its calls, and a state keeps them
in its frame, so that the two can be followed side by side. `Follows s ts r P` says that reading the
tokens from the state `s` goes with the procedure: where that fails, so does the reading, with the
same error, and where it gives a value, the reading comes to a state that holds this value, as `P`
says, in front of the same tokens.

* `Follows.bind`: one procedure after another.
* `Descends`: what each procedure does, at the tokens `ts`.
* `descends`: they all do, by induction on the tokens; a procedure calls others at fewer tokens, or
  one of a smaller phrase at the same tokens.
* `ofTokens_eq_descent`: tokens are read by the states as by recursive descent.
-/

namespace AlgebraicForm

open AlgebraicForm.Expr

/-! ## Two readings side by side -/

section

variable {α β : Type} {m n : Nat} {s s' : State} {ts ts' : List Token}

/-- The reading from a state goes with a procedure. -/
def Follows (s : State) (ts : List Token) (r : Except ParseError (Parsed α n))
    (P : α → List Token → State → Prop) : Prop :=
  match r with
  | .ok p => ∃ next, P p.value p.rest next ∧ s.run ts = next.run p.rest
  | .error e => s.run ts = .error e

namespace Follows

variable {P : α → List Token → State → Prop} {Q : β → List Token → State → Prop}

theorem ok {p : Parsed α n} (h : P p.value p.rest s) (hrun : s'.run ts' = s.run p.rest) :
    Follows s' ts' (.ok p) P :=
  ⟨s, h, hrun⟩

/-- Tokens that are taken before. -/
theorem of_run {r : Except ParseError (Parsed α n)} (h : Follows s ts r P)
    (hrun : s'.run ts' = s.run ts) : Follows s' ts' r P := by
  cases r with
  | error e => exact hrun.trans h
  | ok p =>
    obtain ⟨next, hp, hnext⟩ := h
    exact ⟨next, hp, hrun.trans hnext⟩

theorem bind {x : Except ParseError (Parsed α m)} {f : Parsed α m → Except ParseError (Parsed β n)}
    (h : Follows s ts x P)
    (hf : ∀ p next, P p.value p.rest next → Follows next p.rest (f p) Q) :
    Follows s ts (x >>= f) Q := by
  cases x with
  | error e => exact h
  | ok p =>
    obtain ⟨next, hp, hnext⟩ := h
    exact (hf p next hp).of_run hnext

end Follows

end

/-- The state holds an operand in front of tokens that do not go on with a phrase. -/
def Holds (n : Nonterminal) (os : List Opening) (what : Frame → Expr → Prop) (rest : List Token)
    (next : State) : Prop :=
  Stops n (rest.map (·.kind)) ∧ ∃ f last, what f last ∧ next = ⟨f, os, .operator last⟩

/-- Where the brackets were opened. -/
def offsets (os : List Opening) : List Nat :=
  os.map (·.offset)

/-- The tokens do not start with a sign. -/
def Unsigned (ts : List Token) : Prop :=
  ∀ t ∈ ts.head?, t.kind ≠ .operator .minus ∧ t.kind ≠ .operator .plus

/-! What each procedure does at some tokens, from the states in which it is called. -/

def FollowsAtom (ts : List Token) : Prop :=
  Unsigned ts → ∀ (f : Frame) (os : List Opening),
    Follows ⟨f, os, .operand⟩ ts (Descent.atom (offsets os) ts)
      fun e _ next => next = ⟨f, os, .operator e⟩

/-- The operators in front of the operand wait in the frame. -/
def HoldsOperand (f : Frame) (os : List Opening) (e : Expr) : List Token → State → Prop :=
  Holds .unary os fun g last =>
    ∃ ps, e = Pending.closeAll ps last ∧ g = { f with pending := ps ++ f.pending }

def FollowsPower (ts : List Token) : Prop :=
  Unsigned ts → ∀ (f : Frame) (os : List Opening),
    Follows ⟨f, os, .operand⟩ ts (Descent.power (offsets os) ts) (HoldsOperand f os)

def FollowsUnary (ts : List Token) : Prop :=
  ∀ (f : Frame) (os : List Opening),
    Follows ⟨f, os, .operand⟩ ts (Descent.unary (offsets os) ts) (HoldsOperand f os)

/-- The factors that have been read are in the frame, and so is what they are part of. -/
def FollowsFactors (ts : List Token) : Prop :=
  Stops .unary (ts.map (·.kind)) → ∀ (f : Frame) (os : List Opening) (last : Expr),
    Follows ⟨f, os, .operator last⟩ ts
      (Descent.moreFactors (offsets os) (f.factors.reverse ++ [f.factor last]) ts)
      fun es => Holds .factors os fun g last =>
        g.terms = f.terms ∧ g.subtracts = f.subtracts ∧ g.factors.reverse ++ [g.factor last] = es

def FollowsTerm (ts : List Token) : Prop :=
  ∀ (terms : List Expr) (subtracts : Bool) (os : List Opening),
    Follows ⟨⟨terms, subtracts, [], false, []⟩, os, .operand⟩ ts (Descent.term (offsets os) ts)
      fun e => Holds .factors os fun g last => g.terms = terms ∧
        g.term last = if subtracts then negation e else e

def FollowsTerms (ts : List Token) : Prop :=
  Stops .factors (ts.map (·.kind)) → ∀ (f : Frame) (os : List Opening) (last : Expr),
    Follows ⟨f, os, .operator last⟩ ts
      (Descent.moreTerms (offsets os) (f.terms.reverse ++ [f.term last]) ts)
      fun es => Holds .terms os fun g last => g.terms.reverse ++ [g.term last] = es

def FollowsExpression (ts : List Token) : Prop :=
  ∀ os : List Opening,
    Follows ⟨.start, os, .operand⟩ ts (Descent.expression (offsets os) ts)
      fun e => Holds .terms os fun g last => g.expression last = e

/-- The arguments that have been read are in the bracket that is open. -/
def FollowsArguments (ts : List Token) : Prop :=
  Stops .terms (ts.map (·.kind)) → ∀ (f : Frame) (name : String) (es : List Expr) (offset : Nat)
    (outer : Frame) (os : List Opening) (last : Expr),
    Follows ⟨f, ⟨.call name es, offset, outer⟩ :: os, .operator last⟩ ts
      (Descent.moreArguments (offset :: offsets os) (es.reverse ++ [f.expression last]) ts)
      fun ds rest next => ∃ es', Holds .arguments (⟨.call name es', offset, outer⟩ :: os)
        (fun g last => es'.reverse ++ [g.expression last] = ds) rest next

/-- The procedures that are called at fewer tokens do what they should. -/
structure Descends (ts : List Token) : Prop where
  unary : FollowsUnary ts
  moreFactors : FollowsFactors ts
  term : FollowsTerm ts
  moreTerms : FollowsTerms ts
  expression : FollowsExpression ts
  moreArguments : FollowsArguments ts

/-! ## Tokens that a phrase does not go on with

A procedure stops at a token that it has found to be none of those that its phrase goes on with.
The procedure that it has called before has stopped there too. -/

namespace TokenKind

theorem unary_level_lt {k : TokenKind} (h : k ≠ .operator .power) :
    Nonterminal.unary.level < k.level := by
  cases k with
  | operator op => cases op <;> simp_all [level, Nonterminal.level]
  | _ => simp [level, Nonterminal.level]

theorem factors_level_lt {k : TokenKind} (h : Nonterminal.unary.level < k.level)
    (htimes : k ≠ .operator .times) (hdivide : k ≠ .operator .divide)
    (hatom : Descent.startsAtom k ≠ true) : Nonterminal.factors.level < k.level := by
  cases k with
  | operator op => cases op <;> simp_all [level, Nonterminal.level]
  | _ => simp_all [level, Nonterminal.level, Descent.startsAtom]

theorem terms_level_lt {k : TokenKind} (h : Nonterminal.factors.level < k.level)
    (hplus : k ≠ .operator .plus) (hminus : k ≠ .operator .minus) :
    Nonterminal.terms.level < k.level := by
  cases k with
  | operator op => cases op <;> simp_all [level, Nonterminal.level]
  | _ => simp_all [level, Nonterminal.level]

theorem arguments_level_lt {k : TokenKind} (h : Nonterminal.terms.level < k.level)
    (hcomma : k ≠ .comma) : Nonterminal.arguments.level < k.level := by
  cases k with
  | operator op => cases op <;> simp_all [level, Nonterminal.level]
  | _ => simp_all [level, Nonterminal.level]

end TokenKind

/-! ## Tokens that are refused -/

theorem State.unexpected_eq (s : State) (t : Token) (expected : Expected) :
    s.unexpected t expected = Descent.unexpected (offsets s.openings) t expected := by
  obtain ⟨kind, text, offset⟩ := t
  obtain ⟨f, os, ph⟩ := s
  cases kind <;> cases os <;> rfl

/-- Behind a sum there is a comma, or an end. -/
theorem Stops.comma_or_end {t : Token} {ts : List Token}
    (h : Stops .terms ((t :: ts).map (·.kind))) :
    t.kind = .comma ∨ t.kind = .rightParen ∨ t.kind = .endOfInput := by
  have hlevel : 3 < t.kind.level := stops_cons.mp h
  cases hk : t.kind with
  | operator op => cases op <;> simp [hk, TokenKind.level] at hlevel
  | _ => simp_all [TokenKind.level]

/-- Behind arguments there is an end. -/
theorem Stops.bracket_or_end {t : Token} {ts : List Token}
    (h : Stops .arguments ((t :: ts).map (·.kind))) :
    t.kind = .rightParen ∨ t.kind = .endOfInput := by
  have hlevel : 4 < t.kind.level := stops_cons.mp h
  refine (Stops.comma_or_end (h.mono (by decide))).resolve_left fun hcomma => ?_
  simp [hcomma, TokenKind.level] at hlevel

section

variable (f : Frame) (os : List Opening) (ts : List Token) (last : Expr)

/-- A token that starts no operand, where one has to start. -/
theorem run_no_operand {t : Token} (hatom : Descent.startsAtom t.kind = false)
    (hunsigned : Unsigned (t :: ts)) :
    State.run ⟨f, os, .operand⟩ (t :: ts) =
      .error (Descent.unexpected (offsets os) t .operand) := by
  have hrefusal : State.refusal ⟨f, os, .operand⟩ t =
      Descent.unexpected (offsets os) t .operand := State.unexpected_eq _ t _
  obtain ⟨kind, text, offset⟩ := t
  cases kind with
  | number | identifier | function | leftParen => cases hatom
  | operator op =>
    rw [← hrefusal]
    refine State.run_refused ts nofun ?_
    cases op with
    | minus => exact absurd rfl (hunsigned _ rfl).1
    | plus => exact absurd rfl (hunsigned _ rfl).2
    | times | divide | power => rfl
  | rightParen | comma =>
    rw [← hrefusal]
    exact State.run_refused ts nofun rfl
  | endOfInput =>
    rw [← hrefusal]
    exact State.run_endOfInput _ text offset ts

/-! ## Brackets -/

/-- The end of a group. -/
theorem close_group (offset : Nat) (outer : Frame) (h : Stops .terms (ts.map (·.kind))) :
    Follows ⟨f, ⟨.group, offset, outer⟩ :: os, .operator last⟩ ts
      (Descent.close (offset :: offsets os) .closeParen ts)
      fun _ _ next => next = ⟨outer, os, .operator (f.expression last)⟩ := by
  cases ts with
  | nil => rfl
  | cons t ts =>
    by_cases hclose : t.kind = .rightParen
    · rw [Descent.close, if_pos hclose]
      exact .ok rfl (State.run_closeGroup f os ts last offset outer hclose)
    · have hrefusal : State.refusal ⟨f, ⟨.group, offset, outer⟩ :: os, .operator last⟩ t =
          Descent.unexpected (offset :: offsets os) t .closeParen := State.unexpected_eq _ t _
      rw [Descent.close, if_neg hclose, ← hrefusal]
      have hnext := (Stops.comma_or_end h).imp_right (·.resolve_left hclose)
      obtain ⟨kind, text, place⟩ := t
      obtain rfl | rfl := hnext
      · exact State.run_refused ts (by simp) rfl
      · exact State.run_endOfInput _ text place ts

/-- The end of the arguments of a function. -/
theorem close_call (name : String) (es : List Expr) (offset : Nat) (outer : Frame)
    (h : Stops .arguments (ts.map (·.kind))) :
    Follows ⟨f, ⟨.call name es, offset, outer⟩ :: os, .operator last⟩ ts
      (Descent.close (offset :: offsets os) .closeParenOrComma ts)
      fun _ _ next => next =
        ⟨outer, os, .operator (.call name (es.reverse ++ [f.expression last]))⟩ := by
  cases ts with
  | nil => rfl
  | cons t ts =>
    by_cases hclose : t.kind = .rightParen
    · rw [Descent.close, if_pos hclose]
      exact .ok rfl (State.run_closeCall f os ts last name es offset outer hclose)
    · have hrefusal : State.refusal ⟨f, ⟨.call name es, offset, outer⟩ :: os, .operator last⟩ t =
          Descent.unexpected (offset :: offsets os) t .closeParenOrComma :=
        State.unexpected_eq _ t _
      rw [Descent.close, if_neg hclose, ← hrefusal]
      have hnext := (Stops.bracket_or_end h).resolve_left hclose
      obtain ⟨kind, text, place⟩ := t
      subst hnext
      exact State.run_endOfInput _ text place ts

variable {ts}

theorem Descends.group (h : Descends ts) (offset : Nat) :
    Follows ⟨.start, ⟨.group, offset, f⟩ :: os, .operand⟩ ts
      (Descent.group (offset :: offsets os) ts) fun e _ next => next = ⟨f, os, .operator e⟩ := by
  rw [Descent.group]
  refine (h.expression (⟨.group, offset, f⟩ :: os)).bind ?_
  rintro inner _ ⟨hstops, g, last, he, rfl⟩
  refine (close_group g os inner.rest last offset f hstops).bind ?_
  rintro closed _ rfl
  exact .ok (by rw [he]; rfl) rfl

/-- Where the first argument of a function starts, only a closing bracket is refused for another
reason than elsewhere. -/
theorem run_firstArgument (lexeme : String) :
    State.run ⟨f, os, .firstArgument lexeme⟩ ts =
      Descent.requireArgument lexeme ts >>= fun _ => State.run ⟨f, os, .operand⟩ ts := by
  cases ts with
  | nil => rfl
  | cons t ts =>
    by_cases hclose : t.kind = .rightParen
    · have hrefusal : State.refusal ⟨f, os, .firstArgument lexeme⟩ t =
          ⟨.emptyArguments lexeme, t.offset, some .expression⟩ := if_pos hclose
      have hstep : State.step ⟨f, os, .firstArgument lexeme⟩ t =
          .error (State.refusal ⟨f, os, .firstArgument lexeme⟩ t) := by
        simp [State.step, State.beginOperand, hclose]
      rw [Descent.requireArgument, if_pos hclose, ← hrefusal]
      exact State.run_refused ts (by simp [hclose]) hstep
    · have hrefusal : State.refusal ⟨f, os, .firstArgument lexeme⟩ t =
          State.refusal ⟨f, os, .operand⟩ t := if_neg hclose
      rw [Descent.requireArgument, if_neg hclose]
      obtain ⟨kind, text, offset⟩ := t
      cases kind with
      | rightParen => exact absurd rfl hclose
      | operator op =>
        cases op <;>
          simp [State.run, State.step, State.beginOperand, State.expecting, hrefusal]
      | _ => simp [State.run, State.step, State.beginOperand, State.expecting, State.openBracket,
          State.finish, hrefusal]

/-- The name of a function without a bracket behind it. -/
theorem run_missingOpen (name lexeme : String) {t : Token} (hopen : t.kind ≠ .leftParen) :
    State.run ⟨f, os, .arguments name lexeme⟩ (t :: ts) =
      .error ⟨.missingOpen lexeme, t.offset, some .openParen⟩ := by
  obtain ⟨kind, text, offset⟩ := t
  cases kind with
  | leftParen => exact absurd rfl hopen
  | endOfInput => exact State.run_endOfInput _ text offset ts
  | _ => exact State.run_refused ts nofun rfl

/-- The arguments of a function. -/
theorem call_follows (name lexeme : String)
    (hless : ∀ us : List Token, us.length < ts.length → Descends us) :
    Follows ⟨f, os, .arguments name lexeme⟩ ts (Descent.call (offsets os) name lexeme ts)
      fun e _ next => next = ⟨f, os, .operator e⟩ := by
  cases ts with
  | nil =>
    rw [Descent.call]
    rfl
  | cons t ts =>
    have hts := hless ts (Nat.lt_succ_self _)
    rw [Descent.call]
    by_cases hopen : t.kind = .leftParen
    · have hrun : State.run ⟨f, os, .arguments name lexeme⟩ (t :: ts) =
          State.run ⟨.start, ⟨.call name [], t.offset, f⟩ :: os, .firstArgument lexeme⟩ ts :=
        State.run_step ts (by simp [hopen]) (by simp [State.step, State.openBracket, hopen])
      rw [run_firstArgument] at hrun
      rw [if_pos hopen]
      cases hfirst : Descent.requireArgument lexeme ts with
      | error err => exact hrun.trans (by rw [hfirst]; rfl)
      | ok _ =>
        rw [hfirst, ok_bind] at hrun
        rw [ok_bind]
        refine .of_run (.bind (hts.expression (⟨.call name [], t.offset, f⟩ :: os)) ?_) hrun
        rintro first _ ⟨hstops, g, last, he, rfl⟩
        have hshorter := Nat.lt_succ_of_lt first.shorter
        rw [← he]
        have hmore := (hless first.rest hshorter).moreArguments hstops g name [] t.offset f os last
        refine hmore.bind ?_
        rintro all _ ⟨es, hstops, g, last, hes, rfl⟩
        refine (close_call g os all.rest last name es t.offset f hstops).bind ?_
        rintro closed _ rfl
        exact .ok (by rw [hes]; rfl) rfl
    · rw [if_neg hopen]
      exact run_missingOpen f os name lexeme hopen

end

/-! ## The procedures

Each of them at tokens at which the procedures it calls do what they should. -/

/-- The factor that comes behind `last`. -/
theorem FollowsFactors.next {ts : List Token} (h : FollowsFactors ts) {f : Frame}
    {os : List Opening} {last e : Expr} {divides : Bool} {s : State}
    (hheld : HoldsOperand (f.nextFactor last divides) os e ts s) :
    Follows s ts (Descent.moreFactors (offsets os)
      (f.factors.reverse ++ [f.factor last] ++ [if divides then .power e .minusOne else e]) ts)
      fun es => Holds .factors os fun g last =>
        g.terms = f.terms ∧ g.subtracts = f.subtracts ∧
          g.factors.reverse ++ [g.factor last] = es := by
  obtain ⟨hstops, g, operand, ⟨ps, rfl, hg⟩, rfl⟩ := hheld
  have hfactors : g.factors.reverse ++ [g.factor operand] = f.factors.reverse ++ [f.factor last] ++
      [if divides then .power (Pending.closeAll ps operand) .minusOne
        else Pending.closeAll ps operand] := by
    simp [hg, Frame.nextFactor, Frame.factor]
  have hterms : g.terms = f.terms ∧ g.subtracts = f.subtracts := by rw [hg]; exact ⟨rfl, rfl⟩
  rw [← hfactors, ← hterms.1, ← hterms.2]
  exact h hstops g os operand

section

variable {ts : List Token} (hless : ∀ us : List Token, us.length < ts.length → Descends us)
include hless

theorem followsAtom : FollowsAtom ts := by
  intro hunsigned f os
  have hphase : Phase.operand.WantsOperand := trivial
  rw [Descent.atom.eq_def]
  cases ts with
  | nil => rfl
  | cons t ts =>
    have hts := hless ts (Nat.lt_succ_self _)
    dsimp only
    split
    next q hk => exact .ok rfl (State.run_number f os ts hphase hk)
    next name hk => exact .ok rfl (State.run_identifier f os ts hphase hk)
    next hk =>
      refine .of_run (.bind (hts.group f os t.offset) ?_) (State.run_group f os ts hphase hk)
      rintro inner _ rfl
      exact .ok rfl rfl
    next name hk =>
      have hrun : State.run ⟨f, os, .operand⟩ (t :: ts) =
          State.run ⟨f, os, .arguments name t.text⟩ ts :=
        State.run_step ts (by simp [hk])
          (by simp [State.step, State.beginOperand, State.expecting, hk])
      refine .of_run (.bind (call_follows f os name t.text fun us hus =>
        hless us (Nat.lt_succ_of_lt hus)) ?_) hrun
      rintro result _ rfl
      exact .ok rfl rfl
    next hnumber hidentifier hparen hfunction =>
      refine run_no_operand f os ts ?_ hunsigned
      unfold Descent.startsAtom
      split <;> simp_all

theorem followsPower : FollowsPower ts := by
  intro hunsigned f os
  rw [Descent.power]
  refine (followsAtom hless hunsigned f os).bind ?_
  rintro base _ hnext
  obtain ⟨e, rest, hshorter⟩ := base
  obtain rfl := hnext
  dsimp only
  cases rest with
  | nil => exact .ok ⟨stops_nil _, f, e, ⟨[], rfl, rfl⟩, rfl⟩ rfl
  | cons t rest =>
    dsimp only
    by_cases hpower : t.kind = .operator .power
    · rw [if_pos hpower]
      have hexponent := (hless rest (Nat.lt_of_succ_lt hshorter)).unary (f.wait (.raise e)) os
      refine .of_run (hexponent.bind ?_) (State.run_power f os rest e hpower)
      rintro exponent _ ⟨hstops, _, last, ⟨ps, he, rfl⟩, rfl⟩
      refine .ok ⟨hstops, _, last, ⟨ps ++ [.raise e], ?_, ?_⟩, rfl⟩ rfl
      · rw [Pending.closeAll_concat, ← he]
        rfl
      · simp [Frame.wait]
    · rw [if_neg hpower]
      exact .ok ⟨stops_cons.mpr (TokenKind.unary_level_lt hpower), f, e, ⟨[], rfl, rfl⟩, rfl⟩ rfl

theorem followsUnary : FollowsUnary ts := by
  intro f os
  have hphase : Phase.operand.WantsOperand := trivial
  rw [Descent.unary.eq_def]
  cases ts with
  | nil => exact followsPower hless nofun f os
  | cons t ts =>
    have hts := hless ts (Nat.lt_succ_self _)
    dsimp only
    by_cases hminus : t.kind = .operator .minus
    · rw [if_pos hminus]
      refine .of_run ((hts.unary (f.wait .negate) os).bind ?_)
        (State.run_minus f os ts hphase hminus)
      rintro operand _ ⟨hstops, _, last, ⟨ps, he, rfl⟩, rfl⟩
      refine .ok ⟨hstops, _, last, ⟨ps ++ [.negate], ?_, ?_⟩, rfl⟩ rfl
      · rw [Pending.closeAll_concat, ← he]
        rfl
      · simp [Frame.wait]
    rw [if_neg hminus]
    by_cases hplus : t.kind = .operator .plus
    · rw [if_pos hplus]
      refine .of_run ((hts.unary f os).bind ?_) (State.run_plus f os ts hphase hplus)
      rintro operand _ hnext
      exact .ok hnext rfl
    rw [if_neg hplus]
    refine followsPower hless ?_ f os
    rintro _ ⟨⟩
    exact ⟨hminus, hplus⟩

theorem followsFactors : FollowsFactors ts := by
  intro hstops f os last
  rw [Descent.moreFactors.eq_def]
  cases ts with
  | nil => exact .ok ⟨stops_nil _, f, last, ⟨rfl, rfl, rfl⟩, rfl⟩ rfl
  | cons t ts =>
    have hts := hless ts (Nat.lt_succ_self _)
    dsimp only
    by_cases htimes : t.kind = .operator .times
    · rw [if_pos htimes]
      refine .of_run ((hts.unary (f.nextFactor last false) os).bind ?_)
        (State.run_times f os ts last htimes)
      rintro next s hnext
      refine ((hless _ (Nat.lt_succ_of_lt next.shorter)).moreFactors.next hnext).bind ?_
      exact fun all _ hall => .ok hall rfl
    rw [if_neg htimes]
    by_cases hdivide : t.kind = .operator .divide
    · rw [if_pos hdivide]
      refine .of_run ((hts.unary (f.nextFactor last true) os).bind ?_)
        (State.run_divide f os ts last hdivide)
      rintro next s hnext
      refine ((hless _ (Nat.lt_succ_of_lt next.shorter)).moreFactors.next hnext).bind ?_
      exact fun all _ hall => .ok hall rfl
    rw [if_neg hdivide]
    by_cases hatom : Descent.startsAtom t.kind = true
    · rw [if_pos hatom]
      have hstarts : Derives.StartsOperand t.kind := by
        unfold Descent.startsAtom at hatom
        split at hatom <;> simp_all [Derives.StartsOperand]
      have hunsigned : Unsigned (t :: ts) := by
        rintro _ ⟨⟩
        constructor <;> intro h <;> simp [h, Descent.startsAtom] at hatom
      refine .of_run ((followsPower hless hunsigned (f.nextFactor last false) os).bind ?_)
        (State.run_juxtaposed f os ts last hstarts)
      rintro next s hnext
      refine ((hless _ next.shorter).moreFactors.next hnext).bind ?_
      exact fun all _ hall => .ok hall rfl
    rw [if_neg hatom]
    exact .ok ⟨stops_cons.mpr (TokenKind.factors_level_lt (stops_cons.mp hstops) htimes hdivide
      hatom), f, last, ⟨rfl, rfl, rfl⟩, rfl⟩ rfl

theorem followsTerm : FollowsTerm ts := by
  intro terms subtracts os
  rw [Descent.term]
  refine (followsUnary hless _ os).bind ?_
  rintro first _ ⟨hstops, _, operand, ⟨ps, he, rfl⟩, rfl⟩
  have hmore := (hless _ first.shorter).moreFactors hstops
    ⟨terms, subtracts, [], false, ps ++ []⟩ os operand
  have hfirst : first.value = Frame.factor ⟨terms, subtracts, [], false, ps ++ []⟩ operand := by
    simp [he, Frame.factor]
  rw [hfirst]
  refine Follows.bind hmore ?_
  rintro all _ ⟨hstops, g, last, ⟨hterms, hsubtracts, hfactors⟩, rfl⟩
  refine .ok ⟨hstops, g, last, ⟨hterms, ?_⟩, rfl⟩ rfl
  rw [Frame.term, hsubtracts, hfactors]
  rfl

/-- The term that comes behind `last`. -/
theorem followsTerms : FollowsTerms ts := by
  intro hstops f os last
  rw [Descent.moreTerms.eq_def]
  cases ts with
  | nil => exact .ok ⟨stops_nil _, f, last, rfl, rfl⟩ rfl
  | cons t ts =>
    have hts := hless ts (Nat.lt_succ_self _)
    dsimp only
    by_cases hplus : t.kind = .operator .plus
    · rw [if_pos hplus]
      refine .of_run ((hts.term (f.term last :: f.terms) false os).bind ?_)
        (State.run_add f os ts last hplus)
      rintro next _ ⟨hstops, g, operand, ⟨hterms, hterm⟩, rfl⟩
      have hmore := (hless _ (Nat.lt_succ_of_lt next.shorter)).moreTerms hstops g os operand
      rw [hterms, hterm, List.reverse_cons] at hmore
      exact hmore.bind fun all _ hall => .ok hall rfl
    rw [if_neg hplus]
    by_cases hminus : t.kind = .operator .minus
    · rw [if_pos hminus]
      refine .of_run ((hts.term (f.term last :: f.terms) true os).bind ?_)
        (State.run_subtract f os ts last hminus)
      rintro next _ ⟨hstops, g, operand, ⟨hterms, hterm⟩, rfl⟩
      have hmore := (hless _ (Nat.lt_succ_of_lt next.shorter)).moreTerms hstops g os operand
      rw [hterms, hterm, List.reverse_cons] at hmore
      exact hmore.bind fun all _ hall => .ok hall rfl
    rw [if_neg hminus]
    exact .ok ⟨stops_cons.mpr (TokenKind.terms_level_lt (stops_cons.mp hstops) hplus hminus), f,
      last, rfl, rfl⟩ rfl

theorem followsExpression : FollowsExpression ts := by
  intro os
  rw [Descent.expression]
  refine (followsTerm hless [] false os).bind ?_
  rintro first _ ⟨hstops, g, operand, ⟨hterms, hterm⟩, rfl⟩
  have hmore := (hless _ first.shorter).moreTerms hstops g os operand
  rw [hterms, hterm] at hmore
  refine Follows.bind hmore ?_
  rintro all _ ⟨hstops, g, last, hall, rfl⟩
  exact .ok ⟨hstops, g, last, congrArg ofTerms hall, rfl⟩ rfl

theorem followsArguments : FollowsArguments ts := by
  intro hstops f name es offset outer os last
  rw [Descent.moreArguments.eq_def]
  cases ts with
  | nil => exact .ok ⟨es, stops_nil _, f, last, rfl, rfl⟩ rfl
  | cons t ts =>
    have hts := hless ts (Nat.lt_succ_self _)
    dsimp only
    by_cases hcomma : t.kind = .comma
    · rw [if_pos hcomma]
      refine .of_run ((hts.expression
        (⟨.call name (f.expression last :: es), offset, outer⟩ :: os)).bind ?_)
        (State.run_comma f os ts last name es offset outer hcomma)
      rintro next _ ⟨hstops, g, operand, he, rfl⟩
      have hmore := (hless _ (Nat.lt_succ_of_lt next.shorter)).moreArguments hstops g name
        (f.expression last :: es) offset outer os operand
      rw [he, List.reverse_cons] at hmore
      exact hmore.bind fun all _ hall => .ok hall rfl
    · rw [if_neg hcomma]
      exact .ok ⟨es, stops_cons.mpr (TokenKind.arguments_level_lt (stops_cons.mp hstops) hcomma), f,
        last, rfl, rfl⟩ rfl

end

theorem descends (ts : List Token) : Descends ts := by
  induction hn : ts.length using Nat.strong_induction_on generalizing ts with
  | _ n ih =>
    subst hn
    have hless : ∀ us : List Token, us.length < ts.length → Descends us :=
      fun us hus => ih us.length hus us rfl
    exact ⟨followsUnary hless, followsFactors hless, followsTerm hless, followsTerms hless,
      followsExpression hless, followsArguments hless⟩

/-- Behind a whole expression only the end of input is accepted. -/
theorem run_finish (f : Frame) (last : Expr) {n : Nat} {p : Parsed Expr n}
    (hstops : Stops .terms (p.rest.map (·.kind))) (he : f.expression last = p.value) :
    State.run ⟨f, [], .operator last⟩ p.rest = Descent.finish p := by
  unfold Descent.finish
  cases hrest : p.rest with
  | nil => rfl
  | cons t rest =>
    rw [hrest] at hstops
    dsimp only
    by_cases hend : t.kind = .endOfInput
    · rw [if_pos hend, State.run, if_pos hend]
      exact congrArg _ he
    · have hnext := (Stops.comma_or_end hstops).imp_right (·.resolve_right hend)
      have hrefusal : State.refusal ⟨f, [], .operator last⟩ t =
          Descent.unexpected [] t .endOfInput := State.unexpected_eq _ t _
      rw [if_neg hend, ← hrefusal]
      obtain ⟨kind, text, offset⟩ := t
      obtain rfl | rfl := hnext
      · exact State.run_refused rest (by simp) rfl
      · exact State.run_refused rest (by simp) rfl

/-- Tokens are read one at a time as they are by recursive descent, with the same result and the
same error. -/
theorem ofTokens_eq_descent (ts : List Token) : Expr.ofTokens ts = Descent.parse ts := by
  have hexpression : State.start.run ts = Descent.expression [] ts >>= Descent.finish := by
    have h : Follows .start ts (Descent.expression [] ts) _ := (descends ts).expression []
    cases hread : Descent.expression [] ts with
    | error e =>
      rw [hread] at h
      exact h
    | ok p =>
      rw [hread] at h
      obtain ⟨_, ⟨hstops, f, last, he, rfl⟩, hrun⟩ := h
      rw [hrun]
      exact run_finish f last hstops he
  unfold Expr.ofTokens
  split
  next => rfl
  next hfirst => rw [hexpression, Descent.parse.eq_2 ts hfirst]

end AlgebraicForm
