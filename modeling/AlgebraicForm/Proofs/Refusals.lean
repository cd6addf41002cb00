import AlgebraicForm.Proofs.Derivations

/-!
# Where a list of tokens is refused

A list of tokens that is no expression is refused at the first token that cannot go on: the tokens
before it begin some expression (`IsViable`), and together with it they begin none. Only at the end
of input the report may be elsewhere, at the innermost open bracket.

Reading takes one token at a time, so this comes down to two facts about single states.

* `State.exists_completion`: whatever the state, some tokens complete it.
* `State.Tracks.step`: the state knows the open brackets, and whether a function was named last.
* `State.reports_of_step`, `State.reports_of_finish`: hence the place of the report.
* `refused_at_first_token`: a refused list is refused at its first token that cannot go on.
-/

namespace AlgebraicForm

open AlgebraicForm.Expr

/-! ## Beginnings of expressions -/

/-- The tokens form an expression. -/
def Accepted (ts : List Token) : Prop :=
  ∃ d : Derivation .expression, d.tokens = ts.map (·.kind)

/-- Some expression begins with the tokens. -/
def IsViable (ts : List Token) : Prop :=
  ∃ more, Accepted (ts ++ more)

/-- The opening brackets among the tokens that are not closed, the innermost first. -/
def openBrackets (ts : List Token) : List Token :=
  ts.foldl (fun os t => match t.kind with
    | .leftParen => t :: os
    | .rightParen => os.tail
    | _ => os) []

/-- The last of the tokens is the name of a function. -/
def NamesFunction (ts : List Token) : Prop :=
  ∃ t ∈ ts.getLast?, ∃ name, t.kind = .function name

/-- Where the refusal of the token `t` after other tokens is reported. -/
inductive Reports (before : List Token) (t : Token) (err : ParseError) : Prop
  /-- The input ends inside brackets: at the innermost of them. -/
  | unclosed {o : Token} {os : List Token} : t.kind = .endOfInput → openBrackets before = o :: os →
      ¬NamesFunction before → err = ⟨.unmatchedOpen, o.offset, some .closeParen⟩ →
      Reports before t err
  /-- Everywhere else: at the token. -/
  | token : (t.kind = .endOfInput → openBrackets before ≠ [] → NamesFunction before) →
      err.offset = t.offset → Reports before t err

/-- These are the lists that are read. -/
theorem accepted_iff {ts : List Token} {stop : Token} (hts : ∀ t ∈ ts, t.kind ≠ .endOfInput)
    (hstop : stop.kind = .endOfInput) :
    Accepted ts ↔ ∃ e, Expr.ofTokens (ts ++ [stop]) = .ok e :=
  ⟨fun ⟨d, hd⟩ => ⟨d.denotes, d.ofTokens hd.symm hstop⟩,
    fun ⟨_, he⟩ => Derivation.exists_of_ofTokens hts hstop he⟩

theorem openBrackets_concat (ts : List Token) (t : Token) :
    openBrackets (ts ++ [t]) = match t.kind with
      | .leftParen => t :: openBrackets ts
      | .rightParen => (openBrackets ts).tail
      | _ => openBrackets ts := by
  rw [openBrackets, List.foldl_append]
  rfl

theorem namesFunction_concat (ts : List Token) (t : Token) :
    NamesFunction (ts ++ [t]) ↔ ∃ name, t.kind = .function name := by
  simp [NamesFunction]

/-! ## Taking tokens -/

/-- Taking the tokens leads from one state to another. -/
inductive Takes : State → List Token → State → Prop
  | nil (s : State) : Takes s [] s
  | cons {s next last : State} {t : Token} {ts : List Token} : t.kind ≠ .endOfInput →
      s.step t = .ok next → Takes next ts last → Takes s (t :: ts) last

theorem Takes.run_append {s last : State} {ts : List Token} (h : Takes s ts last)
    (more : List Token) : s.run (ts ++ more) = last.run more := by
  induction h with
  | nil => rfl
  | cons hkind hstep _ ih => rw [List.cons_append, State.run_step _ hkind hstep, ih]

namespace State

/-- Reading that fails comes to a token that cannot be taken, or to the end of input too early. -/
theorem exists_takes_of_run {s : State} {ts : List Token} {stop : Token} {err : ParseError}
    (hts : ∀ t ∈ ts, t.kind ≠ .endOfInput) (hstop : stop.kind = .endOfInput)
    (h : s.run (ts ++ [stop]) = .error err) :
    (∃ last, Takes s ts last ∧ last.finish stop = .error err) ∨
      ∃ before t after last, ts = before ++ t :: after ∧ Takes s before last ∧
        last.step t = .error err := by
  induction ts generalizing s with
  | nil =>
    rw [List.nil_append, run, if_pos hstop] at h
    exact .inl ⟨s, .nil s, h⟩
  | cons t ts ih =>
    rw [List.forall_mem_cons] at hts
    cases hstep : s.step t with
    | error other =>
      rw [List.cons_append, run_refused _ hts.1 hstep] at h
      obtain rfl := Except.error.inj h
      exact .inr ⟨[], t, ts, s, rfl, .nil s, hstep⟩
    | ok next =>
      rw [List.cons_append, run_step _ hts.1 hstep] at h
      obtain ⟨last, htakes, hlast⟩ | ⟨before, t', after, last, rfl, htakes, hlast⟩ := ih hts.2 h
      · exact .inl ⟨last, .cons hts.1 hstep htakes, hlast⟩
      · exact .inr ⟨t :: before, t', after, last, rfl, .cons hts.1 hstep htakes, hlast⟩

/-! ## Completing a state -/

/-- Tokens that complete a state, whatever they denote. -/
def CompletedBy (s : State) (ts : List Token) : Prop :=
  (∀ t ∈ ts, t.kind ≠ .endOfInput) ∧
    ∀ stop : Token, stop.kind = .endOfInput → ∃ e, s.run (ts ++ [stop]) = .ok e

theorem CompletedBy.cons {s next : State} {t : Token} {ts : List Token} (h : next.CompletedBy ts)
    (hkind : t.kind ≠ .endOfInput) (hstep : s.step t = .ok next) : s.CompletedBy (t :: ts) := by
  refine ⟨List.forall_mem_cons.mpr ⟨hkind, h.1⟩, fun stop hstop => ?_⟩
  rw [List.cons_append, run_step _ hkind hstep]
  exact h.2 stop hstop

/-- After an operand, closing all brackets completes the state. -/
theorem exists_completion_operator (frame : Frame) (os : List Opening) (last : Expr) :
    ∃ ts, (⟨frame, os, .operator last⟩ : State).CompletedBy ts := by
  induction os generalizing frame last with
  | nil =>
    refine ⟨[], List.forall_mem_nil _, fun stop hstop => ⟨frame.expression last, ?_⟩⟩
    rw [List.nil_append, run, if_pos hstop]
    rfl
  | cons o os ih =>
    obtain ⟨bracket, offset, outer⟩ := o
    cases bracket with
    | group =>
      obtain ⟨ts, hts⟩ := ih outer (frame.expression last)
      exact ⟨_, hts.cons (t := ⟨.rightParen, ")", 0⟩) (by simp) rfl⟩
    | call name es =>
      obtain ⟨ts, hts⟩ := ih outer (.call name (es.reverse ++ [frame.expression last]))
      exact ⟨_, hts.cons (t := ⟨.rightParen, ")", 0⟩) (by simp) rfl⟩

/-- Every state can be completed: by an operand where one is missing, and then by brackets. -/
theorem exists_completion (s : State) : ∃ ts, s.CompletedBy ts := by
  have hoperand : ∀ (frame : Frame) (os : List Opening) (s : State),
      s.step ⟨.number 1, "1", 0⟩ = .ok ⟨frame, os, .operator (rat 1)⟩ → ∃ ts, s.CompletedBy ts := by
    intro frame os s hstep
    obtain ⟨ts, hts⟩ := exists_completion_operator frame os (rat 1)
    exact ⟨_, hts.cons (by simp) hstep⟩
  obtain ⟨frame, os, phase⟩ := s
  cases phase with
  | operator last => exact exists_completion_operator frame os last
  | operand => exact hoperand frame os _ rfl
  | firstArgument lexeme => exact hoperand frame os _ rfl
  | arguments name lexeme =>
    obtain ⟨ts, hts⟩ := hoperand .start (⟨.call name [], 0, frame⟩ :: os)
      ⟨.start, ⟨.call name [], 0, frame⟩ :: os, .firstArgument lexeme⟩ rfl
    exact ⟨_, hts.cons (t := ⟨.leftParen, "(", 0⟩) (by simp) rfl⟩

end State

theorem ofTokens_of_run {ts : List Token} {stop : Token} {e : Expr}
    (hts : ∀ t ∈ ts, t.kind ≠ .endOfInput) (hstop : stop.kind = .endOfInput)
    (h : State.start.run (ts ++ [stop]) = .ok e) : Expr.ofTokens (ts ++ [stop]) = .ok e := by
  cases ts with
  | nil =>
    rw [List.nil_append, State.run, if_pos hstop] at h
    cases h
  | cons t ts => rwa [List.cons_append, ofTokens_cons (hts t List.mem_cons_self)]

/-- What has been taken from the start begins an expression. -/
theorem Takes.isViable {ts : List Token} {last : State} (h : Takes .start ts last)
    (hts : ∀ t ∈ ts, t.kind ≠ .endOfInput) : IsViable ts := by
  obtain ⟨more, hmore, hrun⟩ := last.exists_completion
  let stop : Token := ⟨.endOfInput, "", 0⟩
  obtain ⟨e, he⟩ := hrun stop rfl
  rw [← h.run_append, ← List.append_assoc] at he
  have hall := List.forall_mem_append.mpr ⟨hts, hmore⟩
  exact ⟨more, (accepted_iff hall rfl).mpr ⟨e, ofTokens_of_run hall rfl he⟩⟩

/-- A token that cannot be taken after others begins no expression with them. -/
theorem Takes.not_isViable {ts : List Token} {last : State} (h : Takes .start ts last)
    (hts : ∀ t ∈ ts, t.kind ≠ .endOfInput) {t : Token} (ht : t.kind ≠ .endOfInput)
    {err : ParseError} (hstep : last.step t = .error err) : ¬IsViable (ts ++ [t]) := by
  rintro ⟨more, d, hd⟩
  have hread : Expr.ofTokens (ts ++ [t] ++ more ++ [⟨.endOfInput, "", 0⟩]) = .ok d.denotes :=
    d.ofTokens hd.symm rfl
  have hrun : Expr.ofTokens (ts ++ [t] ++ more ++ [⟨.endOfInput, "", 0⟩]) = .error err := by
    have hstart : ∀ rest, Expr.ofTokens (ts ++ t :: rest) = State.start.run (ts ++ t :: rest) := by
      intro rest
      cases ts with
      | nil => exact ofTokens_cons ht rest
      | cons t' ts => exact ofTokens_cons (hts t' List.mem_cons_self) _
    rw [List.append_assoc, List.append_assoc, List.singleton_append, hstart, h.run_append,
      State.run_refused _ ht hstep]
  cases hread.symm.trans hrun

/-! ## What the state knows -/

namespace State

/-- The state knows where brackets are open, and whether a function was named last. -/
structure Tracks (s : State) (ts : List Token) : Prop where
  openings : s.openings.map (·.offset) = (openBrackets ts).map (·.offset)
  function : (∃ name lexeme, s.phase = .arguments name lexeme) ↔ NamesFunction ts

theorem tracks_start : start.Tracks [] :=
  ⟨rfl, by simp [start, NamesFunction]⟩

/-- Where an operand may start, the token taken last is tracked. -/
theorem Tracks.beginOperand {s next : State} {ts : List Token} (h : s.Tracks ts) {t : Token}
    (hstep : s.beginOperand t = .ok next) : next.Tracks (ts ++ [t]) := by
  obtain ⟨kind, text, offset⟩ := t
  have hopen := h.openings
  cases kind with
  | operator op =>
    cases op with
    | plus | minus =>
      obtain rfl := Except.ok.inj hstep
      exact ⟨by simpa [openBrackets_concat, expecting] using hopen,
        by simp [namesFunction_concat, expecting]⟩
    | _ => cases hstep
  | number | identifier | function | leftParen =>
    obtain rfl := Except.ok.inj hstep
    refine ⟨?_, by simp [namesFunction_concat, expecting, openBracket]⟩
    simpa [openBrackets_concat, expecting, openBracket] using hopen
  | _ => cases hstep

/-- After an operand, the token taken last is tracked. -/
theorem Tracks.afterOperand {s next : State} {ts : List Token} (h : s.Tracks ts) {last : Expr}
    {t : Token} (hstep : s.afterOperand last t = .ok next) : next.Tracks (ts ++ [t]) := by
  have hopen := h.openings
  obtain ⟨frame, os, phase⟩ := s
  obtain ⟨kind, text, offset⟩ := t
  cases kind with
  | operator op =>
    cases op with
    | _ =>
      obtain rfl := Except.ok.inj hstep
      exact ⟨by simpa [openBrackets_concat] using hopen, by simp [namesFunction_concat]⟩
  | rightParen =>
    have htail : os.tail.map (·.offset) = (openBrackets ts).tail.map (·.offset) := by
      rw [List.map_tail, List.map_tail, hopen]
    match os, hstep, htail with
    | ⟨.group, _, _⟩ :: os, hstep, htail =>
      obtain rfl := Except.ok.inj hstep
      exact ⟨by simpa [openBrackets_concat] using htail, by simp [namesFunction_concat]⟩
    | ⟨.call _ _, _, _⟩ :: os, hstep, htail =>
      obtain rfl := Except.ok.inj hstep
      exact ⟨by simpa [openBrackets_concat] using htail, by simp [namesFunction_concat]⟩
  | comma =>
    match os, hstep, hopen with
    | ⟨.call _ _, _, _⟩ :: os, hstep, hopen =>
      obtain rfl := Except.ok.inj hstep
      exact ⟨by simpa [openBrackets_concat] using hopen, by simp [namesFunction_concat]⟩
  | number | identifier | function | leftParen =>
    exact Tracks.beginOperand (s := ⟨frame.nextFactor last false, os, phase⟩) ⟨hopen, h.function⟩
      hstep
  | endOfInput => cases hstep

/-- Taking a token is tracked. -/
theorem Tracks.step {s next : State} {ts : List Token} (h : s.Tracks ts) {t : Token}
    (hstep : s.step t = .ok next) : next.Tracks (ts ++ [t]) := by
  obtain ⟨frame, os, phase⟩ := s
  cases phase with
  | operand | firstArgument => exact h.beginOperand hstep
  | operator last => exact h.afterOperand hstep
  | arguments name lexeme =>
    obtain ⟨kind, text, offset⟩ := t
    cases kind with
    | leftParen =>
      obtain rfl := Except.ok.inj hstep
      have hopen := h.openings
      exact ⟨by simpa [openBrackets_concat, openBracket] using hopen,
        by simp [namesFunction_concat, openBracket]⟩
    | _ => cases hstep

end State

/-- Taking tokens is tracked, by induction on the tokens. -/
theorem Takes.tracks {s last : State} {ts more : List Token} (h : Takes s more last)
    (hs : s.Tracks ts) : last.Tracks (ts ++ more) := by
  induction h generalizing ts with
  | nil => rwa [List.append_nil]
  | cons _ hstep _ ih =>
    have hlast := ih (hs.step hstep)
    rwa [List.append_assoc, List.singleton_append] at hlast

/-! ## Reports -/

namespace State

/-- The error for a token is its refusal. -/
theorem eq_refusal_of_step {s : State} {t : Token} {err : ParseError}
    (h : s.step t = .error err) : err = s.refusal t := by
  have hbegin : ∀ {s : State}, s.beginOperand t = .error err → err = s.refusal t := by
    intro s h
    unfold beginOperand at h
    split at h <;> cases h
    rfl
  unfold step at h
  split at h
  case h_1 | h_2 => exact hbegin h
  case h_3 last hphase =>
    obtain ⟨kind, text, offset⟩ := t
    unfold afterOperand at h
    split at h
    case h_1 | h_2 | h_3 | h_4 | h_5 => cases h
    case h_6 | h_7 =>
      split at h <;> cases h
      rfl
    case h_8 =>
      cases h
      rfl
    case h_9 =>
      -- any other token starts a factor
      cases kind with
      | number | identifier | function | leftParen => cases h
      | operator op => cases op <;> simp_all
      | _ => simp_all
  case h_4 =>
    split at h <;> cases h
    rfl

/-- A token other than the end of input is refused where it is. -/
theorem offset_refusal (s : State) {t : Token} (ht : t.kind ≠ .endOfInput) :
    (s.refusal t).offset = t.offset := by
  have hunexpected : ∀ expected, (s.unexpected t expected).offset = t.offset := by
    intro expected
    unfold unexpected
    split <;> simp_all
  unfold refusal
  split
  · rfl
  · split
    · rfl
    · exact hunexpected _
  · exact hunexpected _
  · exact hunexpected _

/-- A refused token is reported at its place. -/
theorem reports_of_step {s : State} {t : Token} {err : ParseError} (before : List Token)
    (ht : t.kind ≠ .endOfInput) (h : s.step t = .error err) : Reports before t err := by
  obtain rfl := eq_refusal_of_step h
  exact .token (fun hend => absurd hend ht) (s.offset_refusal ht)

/-- At the end of input, the innermost open bracket is reported, but a function without arguments
comes before that. -/
theorem Tracks.reports_of_finish {s : State} {before : List Token} (h : s.Tracks before)
    {stop : Token} (hstop : stop.kind = .endOfInput) {err : ParseError}
    (hfinish : s.finish stop = .error err) : Reports before stop err := by
  obtain rfl : err = s.refusal stop := by
    unfold finish at hfinish
    split at hfinish <;> cases hfinish
    rfl
  have hopen := h.openings
  have hunexpected : (∀ name lexeme, s.phase ≠ .arguments name lexeme) → ∀ expected,
      Reports before stop (s.unexpected stop expected) := by
    intro hphase expected
    have hfunction : ¬NamesFunction before := fun hnames => by
      obtain ⟨name, lexeme, heq⟩ := h.function.mpr hnames
      exact hphase name lexeme heq
    unfold unexpected
    rw [hstop]
    cases hos : s.openings with
    | nil =>
      refine .token (fun _ hne => absurd ?_ hne) rfl
      rw [hos] at hopen
      exact List.map_eq_nil_iff.mp hopen.symm
    | cons o os =>
      rw [hos] at hopen
      obtain ⟨o', os', hbrackets, hoffset, -⟩ := List.map_eq_cons_iff.mp hopen.symm
      exact .unclosed hstop hbrackets hfunction (by rw [hoffset])
  unfold refusal
  split
  next name lexeme hphase => exact .token (fun _ _ => h.function.mp ⟨name, lexeme, hphase⟩) rfl
  next lexeme hphase =>
    rw [if_neg (by simp [hstop])]
    exact hunexpected (by simp [hphase]) _
  next hphase => exact hunexpected (by simp [hphase]) _
  next hphase => exact hunexpected (by simp [hphase]) _

end State

/-! ## The first token that cannot go on -/

/-- A list of tokens that ends with the end of input and is refused is refused at its first token
that cannot go on: the tokens before it begin an expression, and none begins with it after them,
or, if it is the end of input, they are none themselves. The error is reported at this token, or at
the innermost open bracket if the input ends inside brackets and not after the name of a
function. -/
theorem refused_at_first_token {ts : List Token} {stop : Token} {err : ParseError}
    (hts : ∀ t ∈ ts, t.kind ≠ .endOfInput) (hstop : stop.kind = .endOfInput)
    (h : Expr.ofTokens (ts ++ [stop]) = .error err) :
    ∃ before t after, ts ++ [stop] = before ++ t :: after ∧ IsViable before ∧
      (t.kind ≠ .endOfInput → ¬IsViable (before ++ [t])) ∧
      (t.kind = .endOfInput → ¬Accepted before) ∧ Reports before t err := by
  have hno : ¬Accepted ts := by
    rw [accepted_iff hts hstop, h]
    simp
  cases ts with
  | nil =>
    obtain ⟨kind, text, offset⟩ := stop
    obtain rfl : kind = .endOfInput := hstop
    refine ⟨[], _, [], rfl, Takes.isViable (.nil _) hts, fun hend => absurd rfl hend,
      fun _ => hno, .token (fun _ hne => absurd rfl hne) ?_⟩
    obtain rfl : _ = err := Except.error.inj h
    rfl
  | cons t ts =>
    rw [List.cons_append, ofTokens_cons (hts t List.mem_cons_self), ← List.cons_append] at h
    obtain ⟨last, htakes, hlast⟩ | ⟨before, t', after, last, heq, htakes, hlast⟩ :=
      State.exists_takes_of_run hts hstop h
    · exact ⟨t :: ts, stop, [], rfl, htakes.isViable hts, fun hend => absurd hstop hend,
        fun _ => hno, (htakes.tracks State.tracks_start).reports_of_finish hstop hlast⟩
    · rw [heq] at hts ⊢
      obtain ⟨hbefore, htoken⟩ := List.forall_mem_append.mp hts
      have ht' := htoken t' List.mem_cons_self
      exact ⟨before, t', after ++ [stop], by simp, htakes.isViable hbefore,
        fun _ => htakes.not_isViable hbefore ht' hlast, fun hend => absurd hend ht',
        State.reports_of_step before ht' hlast⟩

/-- The text `log(1,(2` ends inside two brackets, and the second one is reported. -/
theorem refused_at_first_token_brackets :
    let ts : List Token := [⟨.function "log", "log", 0⟩, ⟨.leftParen, "(", 3⟩, ⟨.number 1, "1", 4⟩,
      ⟨.comma, ",", 5⟩, ⟨.leftParen, "(", 6⟩, ⟨.number 2, "2", 7⟩]
    let stop : Token := ⟨.endOfInput, "", 8⟩
    let err : ParseError := ⟨.unmatchedOpen, 6, some .closeParen⟩
    ((∀ t ∈ ts, t.kind ≠ .endOfInput) ∧ stop.kind = .endOfInput ∧
      Expr.ofTokens (ts ++ [stop]) = .error err) ∧
    ∃ before t after, ts ++ [stop] = before ++ t :: after ∧ IsViable before ∧
      (t.kind ≠ .endOfInput → ¬IsViable (before ++ [t])) ∧
      (t.kind = .endOfInput → ¬Accepted before) ∧ Reports before t err := by
  intro ts stop err
  have hts : ∀ t ∈ ts, t.kind ≠ .endOfInput := by decide
  have herr : Expr.ofTokens (ts ++ [stop]) = .error err := rfl
  exact ⟨⟨hts, rfl, herr⟩, refused_at_first_token hts rfl herr⟩

end AlgebraicForm
