import AlgebraicForm.Proofs.Grammar

/-!
# Derivations, and which token lists are read

`Derivation n` is the type of derivations of the nonterminal `n` in the grammar

    expression := term (("+" | "-") term)*
    term       := unary (("*" | "/") unary | power)*
    unary      := ("-" | "+") unary | power
    power      := atom ("^" unary)?
    atom       := number | identifier | "(" expression ")"
                | function "(" expression ("," expression)* ")"

with one nonterminal for each repetition. `Derivation.tokens` is the phrase that a derivation
derives and `Derivation.denotes` the expression that it stands for.

* `Derivation.unique`: a phrase has one derivation. One token decides how a phrase goes on, so the
  statement for the induction lets anything follow that does not go on with the phrase (`Stops`).
* `Derivation.derives`: derived phrases are the phrases of `Derives`, which are read.
* `State.Completes s ks`: the tokens `ks` complete what has been read in the state `s`. Taking a
  token keeps that, read backwards (`State.completes_of_step`), so every list that is read has a
  derivation (`Derivation.exists_of_ofTokens`).
* `ofTokens_iff_derivation`: the reader accepts the derived lists and no others.
-/

namespace AlgebraicForm

open AlgebraicForm.Expr

/-! ## Derivations -/

/-- The nonterminals of the grammar. `factors`, `terms` and `arguments` are its repetitions. -/
inductive Nonterminal where
  | atom
  | power
  | unary
  | term
  | factors
  | expression
  | terms
  | arguments
  deriving DecidableEq, Repr

/-- The derivations of a nonterminal. -/
inductive Derivation : Nonterminal → Type where
  | number (q : Rat) : Derivation .atom
  | identifier (name : String) : Derivation .atom
  | group (e : Derivation .expression) : Derivation .atom
  | call (name : String) (e : Derivation .expression) (es : Derivation .arguments) :
      Derivation .atom
  | plain (a : Derivation .atom) : Derivation .power
  | raised (a : Derivation .atom) (u : Derivation .unary) : Derivation .power
  | minus (u : Derivation .unary) : Derivation .unary
  | plus (u : Derivation .unary) : Derivation .unary
  | unsigned (p : Derivation .power) : Derivation .unary
  | term (u : Derivation .unary) (fs : Derivation .factors) : Derivation .term
  | noFactors : Derivation .factors
  | times (u : Derivation .unary) (fs : Derivation .factors) : Derivation .factors
  | divide (u : Derivation .unary) (fs : Derivation .factors) : Derivation .factors
  | juxtapose (p : Derivation .power) (fs : Derivation .factors) : Derivation .factors
  | expression (t : Derivation .term) (ts : Derivation .terms) : Derivation .expression
  | noTerms : Derivation .terms
  | add (t : Derivation .term) (ts : Derivation .terms) : Derivation .terms
  | subtract (t : Derivation .term) (ts : Derivation .terms) : Derivation .terms
  | noArguments : Derivation .arguments
  | comma (e : Derivation .expression) (es : Derivation .arguments) : Derivation .arguments

namespace Derivation

/-- The phrase that is derived. -/
def tokens : {n : Nonterminal} → Derivation n → List TokenKind
  | _, number q => [.number q]
  | _, identifier name => [.identifier name]
  | _, group e => .leftParen :: (e.tokens ++ [.rightParen])
  | _, call name e es => .function name :: .leftParen :: (e.tokens ++ (es.tokens ++ [.rightParen]))
  | _, plain a => a.tokens
  | _, raised a u => a.tokens ++ .operator .power :: u.tokens
  | _, minus u => .operator .minus :: u.tokens
  | _, plus u => .operator .plus :: u.tokens
  | _, unsigned p => p.tokens
  | _, term u fs => u.tokens ++ fs.tokens
  | _, times u fs => .operator .times :: (u.tokens ++ fs.tokens)
  | _, divide u fs => .operator .divide :: (u.tokens ++ fs.tokens)
  | _, juxtapose p fs => p.tokens ++ fs.tokens
  | _, expression t ts => t.tokens ++ ts.tokens
  | _, add t ts => .operator .plus :: (t.tokens ++ ts.tokens)
  | _, subtract t ts => .operator .minus :: (t.tokens ++ ts.tokens)
  | _, comma e es => .comma :: (e.tokens ++ es.tokens)
  | _, noFactors | _, noTerms | _, noArguments => []

/-! What each production writes. -/

@[simp] theorem tokens_number (q : Rat) : (number q).tokens = [.number q] :=
  rfl

@[simp] theorem tokens_identifier (name : String) : (identifier name).tokens = [.identifier name] :=
  rfl

@[simp] theorem tokens_group (e : Derivation .expression) :
    (group e).tokens = .leftParen :: (e.tokens ++ [.rightParen]) :=
  rfl

@[simp] theorem tokens_call (name : String) (e : Derivation .expression)
    (es : Derivation .arguments) : (call name e es).tokens =
      .function name :: .leftParen :: (e.tokens ++ (es.tokens ++ [.rightParen])) :=
  rfl

@[simp] theorem tokens_plain (a : Derivation .atom) : (plain a).tokens = a.tokens :=
  rfl

@[simp] theorem tokens_raised (a : Derivation .atom) (u : Derivation .unary) :
    (raised a u).tokens = a.tokens ++ .operator .power :: u.tokens :=
  rfl

@[simp] theorem tokens_minus (u : Derivation .unary) :
    (minus u).tokens = .operator .minus :: u.tokens :=
  rfl

@[simp] theorem tokens_plus (u : Derivation .unary) :
    (plus u).tokens = .operator .plus :: u.tokens :=
  rfl

@[simp] theorem tokens_unsigned (p : Derivation .power) : (unsigned p).tokens = p.tokens :=
  rfl

@[simp] theorem tokens_term (u : Derivation .unary) (fs : Derivation .factors) :
    (term u fs).tokens = u.tokens ++ fs.tokens :=
  rfl

@[simp] theorem tokens_noFactors : noFactors.tokens = [] :=
  rfl

@[simp] theorem tokens_times (u : Derivation .unary) (fs : Derivation .factors) :
    (times u fs).tokens = .operator .times :: (u.tokens ++ fs.tokens) :=
  rfl

@[simp] theorem tokens_divide (u : Derivation .unary) (fs : Derivation .factors) :
    (divide u fs).tokens = .operator .divide :: (u.tokens ++ fs.tokens) :=
  rfl

@[simp] theorem tokens_juxtapose (p : Derivation .power) (fs : Derivation .factors) :
    (juxtapose p fs).tokens = p.tokens ++ fs.tokens :=
  rfl

@[simp] theorem tokens_expression (t : Derivation .term) (ts : Derivation .terms) :
    (expression t ts).tokens = t.tokens ++ ts.tokens :=
  rfl

@[simp] theorem tokens_noTerms : noTerms.tokens = [] :=
  rfl

@[simp] theorem tokens_add (t : Derivation .term) (ts : Derivation .terms) :
    (add t ts).tokens = .operator .plus :: (t.tokens ++ ts.tokens) :=
  rfl

@[simp] theorem tokens_subtract (t : Derivation .term) (ts : Derivation .terms) :
    (subtract t ts).tokens = .operator .minus :: (t.tokens ++ ts.tokens) :=
  rfl

@[simp] theorem tokens_noArguments : noArguments.tokens = [] :=
  rfl

@[simp] theorem tokens_comma (e : Derivation .expression) (es : Derivation .arguments) :
    (comma e es).tokens = .comma :: (e.tokens ++ es.tokens) :=
  rfl

end Derivation

/-- What the phrases of a nonterminal denote: an expression, or the operands of a repetition. -/
@[reducible] def Nonterminal.Denotation : Nonterminal → Type
  | atom | power | unary | term | expression => Expr
  | factors | terms | arguments => List Expr

namespace Derivation

/-- What the derived phrase denotes. Dividing multiplies by a power -1, subtracting adds a negation,
a plus sign in front says nothing, and one operand is its own sum and its own product. -/
def denotes : {n : Nonterminal} → Derivation n → n.Denotation
  | _, number q => rat q
  | _, identifier name => symbol name
  | _, group e => e.denotes
  | _, call name e es => .call name (e.denotes :: es.denotes)
  | _, plain a => a.denotes
  | _, raised a u => .power a.denotes u.denotes
  | _, minus u => negation u.denotes
  | _, plus u => u.denotes
  | _, unsigned p => p.denotes
  | _, term u fs => ofFactors (u.denotes :: fs.denotes)
  | _, times u fs => u.denotes :: fs.denotes
  | _, divide u fs => .power u.denotes minusOne :: fs.denotes
  | _, juxtapose p fs => p.denotes :: fs.denotes
  | _, expression t ts => ofTerms (t.denotes :: ts.denotes)
  | _, add t ts => t.denotes :: ts.denotes
  | _, subtract t ts => negation t.denotes :: ts.denotes
  | _, comma e es => e.denotes :: es.denotes
  | _, noFactors | _, noTerms | _, noArguments => []

/-! ## Derived phrases are phrases -/

/-- The derived phrase is one of `Derives`; a repetition makes a longer phrase of the phrase in
front of it. -/
def Derived : {n : Nonterminal} → Derivation n → Prop
  | .atom, d => Derives False .atom d.tokens [d.denotes]
  | .power, d => Derives False .power d.tokens [d.denotes]
  | .unary, d => Derives False .signed d.tokens [d.denotes]
  | .term, d => ∃ fs, Derives False .term d.tokens fs ∧ ofFactors fs = d.denotes
  | .factors, d =>
      ∀ ks fs, Derives False .term ks fs → Derives False .term (ks ++ d.tokens) (fs ++ d.denotes)
  | .expression, d => ∃ ts, Derives False .sum d.tokens ts ∧ ofTerms ts = d.denotes
  | .terms, d =>
      ∀ ks ts, Derives False .sum ks ts → Derives False .sum (ks ++ d.tokens) (ts ++ d.denotes)
  | .arguments, d =>
      ∀ ks es, Derives False .arguments ks es →
        Derives False .arguments (ks ++ d.tokens) (es ++ d.denotes)

theorem derives {n : Nonterminal} (d : Derivation n) : d.Derived := by
  induction d with
  | number q => exact .number q
  | identifier name => exact .identifier name
  | group e ih =>
    obtain ⟨ts, hts, heq⟩ := ih
    simpa [Derived, denotes, ← heq] using hts.group
  | call name e es ihe ihes =>
    obtain ⟨ts, hts, heq⟩ := ihe
    have harguments := ihes _ _ hts.argument
    simpa [Derived, denotes, ← heq] using harguments.call name
  | plain a ih => exact .atom ih
  | raised a u iha ihu => exact .power iha ihu
  | minus u ih => exact .minus ih
  | plus u ih => exact .plus ih
  | unsigned p ih => exact .unsigned ih
  | term u fs ihu ihfs => exact ⟨_, ihfs _ _ (.factor ihu), rfl⟩
  | noFactors | noTerms | noArguments =>
    intro ks es h
    simpa [denotes] using h
  | times u fs ihu ihfs =>
    intro ks gs h
    simpa [denotes] using ihfs _ _ (h.times ihu)
  | divide u fs ihu ihfs =>
    intro ks gs h
    simpa [denotes] using ihfs _ _ (h.divide ihu)
  | juxtapose p fs ihp ihfs =>
    intro ks gs h
    simpa [denotes] using ihfs _ _ (h.juxtapose ihp)
  | expression t ts iht ihts =>
    obtain ⟨fs, hfs, heq⟩ := iht
    exact ⟨_, ihts _ _ (.term hfs), by rw [heq]; rfl⟩
  | add t ts iht ihts =>
    intro ks us h
    obtain ⟨fs, hfs, heq⟩ := iht
    simpa [denotes, ← heq] using ihts _ _ (h.add hfs)
  | subtract t ts iht ihts =>
    intro ks us h
    obtain ⟨fs, hfs, heq⟩ := iht
    simpa [denotes, ← heq] using ihts _ _ (h.subtract hfs)
  | comma e es ihe ihes =>
    intro ks ds h
    obtain ⟨ts, hts, heq⟩ := ihe
    simpa [denotes, ← heq] using ihes _ _ (h.comma hts)

/-- The tokens of a derived expression are read as what it denotes. -/
theorem ofTokens (d : Derivation .expression) {ts : List Token} {stop : Token}
    (hts : ts.map (·.kind) = d.tokens) (hstop : stop.kind = .endOfInput) :
    Expr.ofTokens (ts ++ [stop]) = .ok d.denotes := by
  obtain ⟨us, hus, heq⟩ := d.derives
  rw [← heq]
  exact hus.ofTokens (by rw [List.map_append, hts, List.map_singleton, hstop])

end Derivation

/-! ## One token decides

A phrase can go on with a token only if the token belongs to its nonterminal or to a tighter one.
Levels say which: a power sign goes on with a power, a factor with a term, and so on outwards. -/

/-- How loosely the phrases of a nonterminal hold together. -/
def Nonterminal.level : Nonterminal → Nat
  | atom => 0
  | power | unary => 1
  | term | factors => 2
  | expression | terms => 3
  | arguments => 4

/-- The level of the phrases that go on with a token; the closing bracket and the end of input go
on with none. -/
def TokenKind.level : TokenKind → Nat
  | operator .power => 1
  | operator .times | operator .divide | number _ | identifier _ | function _ | leftParen => 2
  | operator .plus | operator .minus => 3
  | comma => 4
  | rightParen | endOfInput => 5

/-- The tokens do not go on with a phrase of the nonterminal. -/
def Stops (n : Nonterminal) (ks : List TokenKind) : Prop :=
  ∀ k ∈ ks.head?, n.level < k.level

@[simp] theorem stops_nil (n : Nonterminal) : Stops n [] := by
  simp [Stops]

@[simp] theorem stops_cons {n : Nonterminal} {k : TokenKind} {ks : List TokenKind} :
    Stops n (k :: ks) ↔ n.level < k.level := by
  simp [Stops]

theorem Stops.mono {m n : Nonterminal} {ks : List TokenKind} (h : Stops n ks)
    (hmn : m.level ≤ n.level) : Stops m ks :=
  fun k hk => lt_of_le_of_lt hmn (h k hk)

namespace Derivation

theorem power_ne_operator (p : Derivation .power) {op : Operator} {ks ls : List TokenKind} :
    p.tokens ++ ks ≠ .operator op :: ls := by
  intro h
  have hhead := p.derives.head?_ne_operator (.inr rfl) op
  obtain ⟨k, rest, heq, -⟩ := p.derives.head
  rw [heq] at h hhead
  exact hhead (congrArg some (List.cons.inj h).1)

theorem not_stops_power (p : Derivation .power) {ks : List TokenKind} :
    ¬Stops .factors (p.tokens ++ ks) := by
  obtain ⟨k, rest, heq, hk | ⟨-, -, hno⟩⟩ := p.derives.head
  · rw [heq, List.cons_append, stops_cons]
    cases k with
    | number | identifier | function | leftParen => exact lt_irrefl 2
    | _ => exact hk.elim
  · exact absurd rfl hno

theorem stops_factors (fs : Derivation .factors) {ks : List TokenKind} (h : Stops .factors ks) :
    Stops .unary (fs.tokens ++ ks) := by
  cases fs with
  | noFactors => exact h.mono (by decide)
  | times | divide => exact stops_cons.mpr (by decide)
  | juxtapose p fs =>
    obtain ⟨k, rest, heq, hk | ⟨-, -, hno⟩⟩ := p.derives.head
    · rw [tokens_juxtapose, heq, List.cons_append, List.cons_append, stops_cons]
      cases k with
      | number | identifier | function | leftParen => exact Nat.lt_succ_self 1
      | _ => exact hk.elim
    · exact absurd rfl hno

theorem stops_terms (ts : Derivation .terms) {ks : List TokenKind} (h : Stops .terms ks) :
    Stops .term (ts.tokens ++ ks) := by
  cases ts with
  | noTerms => exact h.mono (by decide)
  | add | subtract => exact stops_cons.mpr (by decide)

theorem stops_arguments (es : Derivation .arguments) {ks : List TokenKind}
    (h : Stops .arguments ks) : Stops .expression (es.tokens ++ ks) := by
  cases es with
  | noArguments => exact h.mono (by decide)
  | comma => exact stops_cons.mpr (by decide)

/-- A derivation is the only one of its phrase, also where the phrase begins a longer list and
cannot go on. -/
def Determined {n : Nonterminal} (d : Derivation n) : Prop :=
  ∀ (d' : Derivation n) {ks ls : List TokenKind}, Stops n ks → Stops n ls →
    d.tokens ++ ks = d'.tokens ++ ls → d = d' ∧ ks = ls

/-- Two phrases in a row, the second of which does not go on with the first. -/
theorem Determined.pair {m n : Nonterminal} {d : Derivation m} {e : Derivation n}
    (hd : d.Determined) (he : e.Determined)
    (hstops : ∀ (e : Derivation n) {ks : List TokenKind}, Stops n ks → Stops m (e.tokens ++ ks))
    {d' : Derivation m} {e' : Derivation n} {ks ls : List TokenKind} (hks : Stops n ks)
    (hls : Stops n ls) (h : d.tokens ++ (e.tokens ++ ks) = d'.tokens ++ (e'.tokens ++ ls)) :
    d = d' ∧ e = e' ∧ ks = ls := by
  obtain ⟨heq, hrest⟩ := hd d' (hstops e hks) (hstops e' hls) h
  exact ⟨heq, he e' hks hls hrest⟩

/-- Every derivation is the only one of its phrase. -/
theorem determined {n : Nonterminal} (d : Derivation n) : d.Determined := by
  induction d with
  | number q =>
    intro d' ks ls _ _ h
    cases d' with
    | number => simp_all
    | _ => simp at h
  | identifier name =>
    intro d' ks ls _ _ h
    cases d' with
    | identifier => simp_all
    | _ => simp at h
  | group e ih =>
    intro d' ks ls _ _ h
    cases d' with
    | group e' =>
      simp only [tokens_group, List.cons_append, List.append_assoc, List.nil_append,
        List.cons.injEq, true_and] at h
      -- both phrases end at the bracket that closes the group
      obtain ⟨rfl, hrest⟩ := ih e' (stops_cons.mpr (by decide)) (stops_cons.mpr (by decide)) h
      exact ⟨rfl, (List.cons.inj hrest).2⟩
    | _ => simp at h
  | call name e es ihe ihes =>
    intro d' ks ls _ _ h
    cases d' with
    | call name' e' es' =>
      simp only [tokens_call, List.cons_append, List.append_assoc, List.nil_append, List.cons.injEq,
        true_and, TokenKind.function.injEq] at h
      have hclose : ∀ ks, Stops .arguments (.rightParen :: ks) :=
        fun _ => stops_cons.mpr (by decide)
      obtain ⟨rfl, rfl, hrest⟩ := ihe.pair ihes stops_arguments (hclose ks) (hclose ls) h.2
      exact ⟨by rw [h.1], (List.cons.inj hrest).2⟩
    | _ => simp at h
  | plain a ih =>
    intro d' ks ls hks hls h
    cases d' with
    | plain a' =>
      obtain ⟨rfl, rfl⟩ := ih a' (hks.mono (by decide)) (hls.mono (by decide)) h
      exact ⟨rfl, rfl⟩
    -- what follows an atom alone is no power sign
    | raised a' u' =>
      rw [tokens_plain, tokens_raised, List.append_assoc] at h
      obtain ⟨-, rfl⟩ := ih a' (hks.mono (by decide)) (stops_cons.mpr (by decide)) h
      exact absurd (stops_cons.mp hks) (by decide)
  | raised a u iha ihu =>
    intro d' ks ls hks hls h
    cases d' with
    | plain a' =>
      rw [tokens_raised, tokens_plain, List.append_assoc] at h
      obtain ⟨-, rfl⟩ := iha a' (stops_cons.mpr (by decide)) (hls.mono (by decide)) h
      exact absurd (stops_cons.mp hls) (by decide)
    | raised a' u' =>
      rw [tokens_raised, tokens_raised, List.append_assoc, List.append_assoc] at h
      obtain ⟨rfl, hrest⟩ := iha a' (stops_cons.mpr (by decide)) (stops_cons.mpr (by decide)) h
      obtain ⟨rfl, rfl⟩ := ihu u' hks hls (List.cons.inj hrest).2
      exact ⟨rfl, rfl⟩
  | minus u ih =>
    intro d' ks ls hks hls h
    cases d' with
    | minus u' =>
      obtain ⟨rfl, rfl⟩ := ih u' hks hls (List.cons.inj h).2
      exact ⟨rfl, rfl⟩
    | plus u' => simp at h
    -- an unsigned factor starts with an operand, not with the sign
    | unsigned p' => exact absurd h.symm p'.power_ne_operator
  | plus u ih =>
    intro d' ks ls hks hls h
    cases d' with
    | minus u' => simp at h
    | plus u' =>
      obtain ⟨rfl, rfl⟩ := ih u' hks hls (List.cons.inj h).2
      exact ⟨rfl, rfl⟩
    | unsigned p' => exact absurd h.symm p'.power_ne_operator
  | unsigned p ih =>
    intro d' ks ls hks hls h
    cases d' with
    | minus u' | plus u' => exact absurd h p.power_ne_operator
    | unsigned p' =>
      obtain ⟨rfl, rfl⟩ := ih p' hks hls h
      exact ⟨rfl, rfl⟩
  | term u fs ihu ihfs =>
    intro d' ks ls hks hls h
    cases d' with
    | term u' fs' =>
      rw [tokens_term, tokens_term, List.append_assoc, List.append_assoc] at h
      obtain ⟨rfl, rfl, rfl⟩ := ihu.pair ihfs stops_factors hks hls h
      exact ⟨rfl, rfl⟩
  | noFactors =>
    intro d' ks ls hks hls h
    cases d' with
    | noFactors => exact ⟨rfl, h⟩
    -- the text behind the factors would go on with an operator
    | times | divide =>
      obtain rfl : ks = _ := h
      exact absurd (stops_cons.mp hks) (by decide)
    -- or with an operand, which would be one more factor
    | juxtapose p' fs' =>
      rw [tokens_noFactors, tokens_juxtapose, List.nil_append, List.append_assoc] at h
      exact absurd (h ▸ hks) p'.not_stops_power
  | times u fs ihu ihfs =>
    intro d' ks ls hks hls h
    cases d' with
    | noFactors =>
      obtain rfl : _ = ls := h
      exact absurd (stops_cons.mp hls) (by decide)
    | times u' fs' =>
      simp only [tokens_times, List.cons_append, List.append_assoc, List.cons.injEq, true_and] at h
      obtain ⟨rfl, rfl, rfl⟩ := ihu.pair ihfs stops_factors hks hls h
      exact ⟨rfl, rfl⟩
    | divide => simp at h
    -- a factor side by side starts with an operand, not with a star
    | juxtapose p' fs' =>
      rw [tokens_times, tokens_juxtapose, List.append_assoc] at h
      exact absurd h.symm p'.power_ne_operator
  | divide u fs ihu ihfs =>
    intro d' ks ls hks hls h
    cases d' with
    | noFactors =>
      obtain rfl : _ = ls := h
      exact absurd (stops_cons.mp hls) (by decide)
    | times => simp at h
    | divide u' fs' =>
      simp only [tokens_divide, List.cons_append, List.append_assoc, List.cons.injEq, true_and] at h
      obtain ⟨rfl, rfl, rfl⟩ := ihu.pair ihfs stops_factors hks hls h
      exact ⟨rfl, rfl⟩
    | juxtapose p' fs' =>
      rw [tokens_divide, tokens_juxtapose, List.append_assoc] at h
      exact absurd h.symm p'.power_ne_operator
  | juxtapose p fs ihp ihfs =>
    intro d' ks ls hks hls h
    cases d' with
    | noFactors =>
      rw [tokens_juxtapose, tokens_noFactors, List.nil_append, List.append_assoc] at h
      exact absurd (h ▸ hls) p.not_stops_power
    | times | divide =>
      rw [tokens_juxtapose, List.append_assoc] at h
      exact absurd h p.power_ne_operator
    | juxtapose p' fs' =>
      rw [tokens_juxtapose, tokens_juxtapose, List.append_assoc, List.append_assoc] at h
      obtain ⟨rfl, rfl, rfl⟩ := ihp.pair ihfs stops_factors hks hls h
      exact ⟨rfl, rfl⟩
  | expression t ts iht ihts =>
    intro d' ks ls hks hls h
    cases d' with
    | expression t' ts' =>
      rw [tokens_expression, tokens_expression, List.append_assoc, List.append_assoc] at h
      obtain ⟨rfl, rfl, rfl⟩ := iht.pair ihts stops_terms hks hls h
      exact ⟨rfl, rfl⟩
  | noTerms =>
    intro d' ks ls hks hls h
    cases d' with
    | noTerms => exact ⟨rfl, h⟩
    | add | subtract =>
      obtain rfl : ks = _ := h
      exact absurd (stops_cons.mp hks) (by decide)
  | add t ts iht ihts =>
    intro d' ks ls hks hls h
    cases d' with
    | noTerms =>
      obtain rfl : _ = ls := h
      exact absurd (stops_cons.mp hls) (by decide)
    | add t' ts' =>
      simp only [tokens_add, List.cons_append, List.append_assoc, List.cons.injEq, true_and] at h
      obtain ⟨rfl, rfl, rfl⟩ := iht.pair ihts stops_terms hks hls h
      exact ⟨rfl, rfl⟩
    | subtract => simp at h
  | subtract t ts iht ihts =>
    intro d' ks ls hks hls h
    cases d' with
    | noTerms =>
      obtain rfl : _ = ls := h
      exact absurd (stops_cons.mp hls) (by decide)
    | add => simp at h
    | subtract t' ts' =>
      simp only [tokens_subtract, List.cons_append, List.append_assoc, List.cons.injEq,
        true_and] at h
      obtain ⟨rfl, rfl, rfl⟩ := iht.pair ihts stops_terms hks hls h
      exact ⟨rfl, rfl⟩
  | noArguments =>
    intro d' ks ls hks hls h
    cases d' with
    | noArguments => exact ⟨rfl, h⟩
    | comma =>
      obtain rfl : ks = _ := h
      exact absurd (stops_cons.mp hks) (by decide)
  | comma e es ihe ihes =>
    intro d' ks ls hks hls h
    cases d' with
    | noArguments =>
      obtain rfl : _ = ls := h
      exact absurd (stops_cons.mp hls) (by decide)
    | comma e' es' =>
      simp only [tokens_comma, List.cons_append, List.append_assoc, List.cons.injEq, true_and] at h
      obtain ⟨rfl, rfl, rfl⟩ := ihe.pair ihes stops_arguments hks hls h
      exact ⟨rfl, rfl⟩

theorem unique {n : Nonterminal} {d d' : Derivation n} (h : d.tokens = d'.tokens) : d = d' :=
  (d.determined d' (stops_nil n) (stops_nil n) (by rw [h])).1

end Derivation

/-! ## What completes a state

The state says what has to come: the rest of the term and of the sum that are being read, and then
what closes the brackets, the innermost first. -/

section

variable (closes : List TokenKind → Prop)

/-- The tokens end a term and a sum and then close. -/
def AfterFactor (ks : List TokenKind) : Prop :=
  ∃ (fs : Derivation .factors) (ts : Derivation .terms) (rest : List TokenKind),
    ks = fs.tokens ++ (ts.tokens ++ rest) ∧ closes rest

/-- The tokens end a power, a term and a sum and then close. -/
def AfterOperand (ks : List TokenKind) : Prop :=
  AfterFactor closes ks ∨ ∃ (u : Derivation .unary) (rest : List TokenKind),
    ks = .operator .power :: (u.tokens ++ rest) ∧ AfterFactor closes rest

/-- The tokens begin with a factor, end its term and its sum and then close. -/
def BeforeOperand (ks : List TokenKind) : Prop :=
  ∃ (u : Derivation .unary) (rest : List TokenKind),
    ks = u.tokens ++ rest ∧ AfterFactor closes rest

end

/-- The tokens close the open brackets, the innermost first, with all that belongs in between. -/
def Closes : List Opening → List TokenKind → Prop
  | [], ks => ks = []
  | ⟨.group, _, _⟩ :: os, ks => ∃ rest, ks = .rightParen :: rest ∧ AfterOperand (Closes os) rest
  | ⟨.call _ _, _, _⟩ :: os, ks => ∃ (es : Derivation .arguments) (rest : List TokenKind),
      ks = es.tokens ++ .rightParen :: rest ∧ AfterOperand (Closes os) rest

/-- The tokens complete what has been read. -/
def State.Completes (s : State) (ks : List TokenKind) : Prop :=
  match s.phase with
  | .operand | .firstArgument _ => BeforeOperand (Closes s.openings) ks
  | .arguments _ _ => ∃ (e : Derivation .expression) (es : Derivation .arguments)
      (rest : List TokenKind), ks = .leftParen :: (e.tokens ++ (es.tokens ++ .rightParen :: rest)) ∧
        AfterOperand (Closes s.openings) rest
  | .operator _ => AfterOperand (Closes s.openings) ks

section

variable {closes : List TokenKind → Prop} {ks : List TokenKind}

/-- Nothing more belongs to the term and the sum. -/
theorem AfterFactor.ofCloses (h : closes ks) : AfterFactor closes ks :=
  ⟨.noFactors, .noTerms, ks, rfl, h⟩

/-- A factor, what ends its term and its sum are an expression. -/
theorem BeforeOperand.expression (h : BeforeOperand closes ks) :
    ∃ (e : Derivation .expression) (rest : List TokenKind),
      ks = e.tokens ++ rest ∧ closes rest := by
  obtain ⟨u, _, rfl, fs, ts, rest, rfl, hrest⟩ := h
  exact ⟨.expression (.term u fs) ts, rest, by simp, hrest⟩

theorem BeforeOperand.term (h : BeforeOperand closes ks) :
    ∃ (t : Derivation .term) (ts : Derivation .terms) (rest : List TokenKind),
      ks = t.tokens ++ (ts.tokens ++ rest) ∧ closes rest := by
  obtain ⟨u, _, rfl, fs, ts, rest, rfl, hrest⟩ := h
  exact ⟨.term u fs, ts, rest, by simp, hrest⟩

/-- An atom is a power together with the exponent that may follow it. -/
theorem AfterOperand.power (h : AfterOperand closes ks) (a : Derivation .atom) :
    ∃ (p : Derivation .power) (rest : List TokenKind),
      a.tokens ++ ks = p.tokens ++ rest ∧ AfterFactor closes rest := by
  obtain h | ⟨u, rest, rfl, h⟩ := h
  · exact ⟨.plain a, ks, rfl, h⟩
  · exact ⟨.raised a u, rest, by simp, h⟩

end

namespace State

/-- Where an operand starts with no sign, a power completes the state. -/
theorem exists_power_of_beginOperand {s next : State} {t : Token} {ks : List TokenKind}
    (hstep : s.beginOperand t = .ok next) (hsign : Derives.StartsOperand t.kind)
    (h : next.Completes ks) :
    ∃ (p : Derivation .power) (rest : List TokenKind),
      t.kind :: ks = p.tokens ++ rest ∧ AfterFactor (Closes s.openings) rest := by
  obtain ⟨kind, text, offset⟩ := t
  cases kind with
  | number q =>
    obtain rfl : _ = next := Except.ok.inj hstep
    exact AfterOperand.power h (.number q)
  | identifier name =>
    obtain rfl : _ = next := Except.ok.inj hstep
    exact AfterOperand.power h (.identifier name)
  | function name =>
    obtain rfl : _ = next := Except.ok.inj hstep
    obtain ⟨e, es, rest, rfl, hrest⟩ := h
    obtain ⟨p, rest, heq, hrest⟩ := AfterOperand.power hrest (.call name e es)
    exact ⟨p, rest, by simpa using heq, hrest⟩
  | leftParen =>
    obtain rfl : _ = next := Except.ok.inj hstep
    obtain ⟨e, _, rfl, rest, rfl, hrest⟩ := BeforeOperand.expression h
    obtain ⟨p, rest, heq, hrest⟩ := AfterOperand.power hrest (.group e)
    exact ⟨p, rest, by simpa using heq, hrest⟩
  | _ => exact hsign.elim

/-- Where an operand may start, what completes the state after a token completes it before. -/
theorem completes_of_beginOperand {s next : State} {t : Token} {ks : List TokenKind}
    (hstep : s.beginOperand t = .ok next) (h : next.Completes ks) :
    BeforeOperand (Closes s.openings) (t.kind :: ks) := by
  by_cases hsign : Derives.StartsOperand t.kind
  · obtain ⟨p, rest, heq, hrest⟩ := exists_power_of_beginOperand hstep hsign h
    exact ⟨.unsigned p, rest, heq, hrest⟩
  obtain ⟨kind, text, offset⟩ := t
  cases kind with
  | operator op =>
    cases op with
    | minus =>
      obtain rfl : _ = next := Except.ok.inj hstep
      obtain ⟨u, rest, rfl, hrest⟩ := h
      exact ⟨.minus u, rest, rfl, hrest⟩
    | plus =>
      obtain rfl : _ = next := Except.ok.inj hstep
      obtain ⟨u, rest, rfl, hrest⟩ := h
      exact ⟨.plus u, rest, rfl, hrest⟩
    | _ => exact absurd hstep (by simp [beginOperand])
  | number | identifier | function | leftParen => exact absurd trivial hsign
  | _ => exact absurd hstep (by simp [beginOperand])

/-- After an operand, what completes the state after a token completes it before. -/
theorem completes_of_afterOperand {s next : State} {last : Expr} {t : Token} {ks : List TokenKind}
    (hstep : s.afterOperand last t = .ok next) (h : next.Completes ks) :
    AfterOperand (Closes s.openings) (t.kind :: ks) := by
  by_cases hsign : Derives.StartsOperand t.kind
  · -- the token starts another factor
    have hbegin : { s with frame := s.frame.nextFactor last false }.beginOperand t = .ok next := by
      obtain ⟨kind, text, offset⟩ := t
      cases kind with
      | number | identifier | function | leftParen => exact hstep
      | _ => exact hsign.elim
    obtain ⟨p, _, heq, fs, ts, rest, rfl, hrest⟩ := exists_power_of_beginOperand hbegin hsign h
    exact .inl ⟨.juxtapose p fs, ts, rest, by simp [heq], hrest⟩
  obtain ⟨kind, text, offset⟩ := t
  obtain ⟨frame, os, phase⟩ := s
  cases kind with
  | operator op =>
    cases op with
    | power =>
      obtain rfl : _ = next := Except.ok.inj hstep
      obtain ⟨u, rest, rfl, hrest⟩ := h
      exact .inr ⟨u, rest, rfl, hrest⟩
    | times =>
      obtain rfl : _ = next := Except.ok.inj hstep
      obtain ⟨u, _, rfl, fs, ts, rest, rfl, hrest⟩ := h
      exact .inl ⟨.times u fs, ts, rest, by simp, hrest⟩
    | divide =>
      obtain rfl : _ = next := Except.ok.inj hstep
      obtain ⟨u, _, rfl, fs, ts, rest, rfl, hrest⟩ := h
      exact .inl ⟨.divide u fs, ts, rest, by simp, hrest⟩
    | plus =>
      obtain rfl : _ = next := Except.ok.inj hstep
      obtain ⟨t, ts, rest, rfl, hrest⟩ := BeforeOperand.term h
      exact .inl ⟨.noFactors, .add t ts, rest, by simp, hrest⟩
    | minus =>
      obtain rfl : _ = next := Except.ok.inj hstep
      obtain ⟨t, ts, rest, rfl, hrest⟩ := BeforeOperand.term h
      exact .inl ⟨.noFactors, .subtract t ts, rest, by simp, hrest⟩
  | rightParen =>
    match os, hstep with
    | ⟨.group, _, _⟩ :: os, hstep =>
      obtain rfl : _ = next := Except.ok.inj hstep
      exact .inl (.ofCloses ⟨ks, rfl, h⟩)
    | ⟨.call _ _, _, _⟩ :: os, hstep =>
      obtain rfl : _ = next := Except.ok.inj hstep
      exact .inl (.ofCloses ⟨.noArguments, ks, rfl, h⟩)
  | comma =>
    match os, hstep with
    | ⟨.call _ _, _, _⟩ :: os, hstep =>
      obtain rfl : _ = next := Except.ok.inj hstep
      obtain ⟨e, _, rfl, es, rest, rfl, hrest⟩ := BeforeOperand.expression h
      exact .inl (.ofCloses ⟨.comma e es, rest, by simp, hrest⟩)
  | endOfInput => exact absurd hstep (by simp [afterOperand])
  | number | identifier | function | leftParen => exact absurd trivial hsign

/-- What completes the state after a token completes it before, with the token in front. -/
theorem completes_of_step {s next : State} {t : Token} {ks : List TokenKind}
    (hstep : s.step t = .ok next) (h : next.Completes ks) : s.Completes (t.kind :: ks) := by
  obtain ⟨frame, os, phase⟩ := s
  cases phase with
  | operand | firstArgument => exact completes_of_beginOperand hstep h
  | operator last => exact completes_of_afterOperand hstep h
  | arguments name lexeme =>
    obtain ⟨kind, text, offset⟩ := t
    cases kind with
    | leftParen =>
      obtain rfl : _ = next := Except.ok.inj hstep
      obtain ⟨e, _, rfl, es, rest, rfl, hrest⟩ := BeforeOperand.expression h
      exact ⟨e, es, rest, rfl, hrest⟩
    | _ => exact absurd hstep (by simp [step])

/-- Tokens that are read to the end complete the state that they are read in. -/
theorem completes_of_run {stop : Token} (hstop : stop.kind = .endOfInput) {e : Expr}
    {ts : List Token} (hts : ∀ t ∈ ts, t.kind ≠ .endOfInput) {s : State}
    (h : s.run (ts ++ [stop]) = .ok e) : s.Completes (ts.map (·.kind)) := by
  induction ts generalizing s with
  | nil =>
    obtain ⟨frame, os, phase⟩ := s
    rw [List.nil_append, run, if_pos hstop] at h
    cases phase with
    | operator last =>
      cases os with
      | nil => exact .inl (.ofCloses rfl)
      | cons o os => exact absurd h (by simp [finish])
    | _ => exact absurd h (by simp [finish])
  | cons t ts ih =>
    rw [List.forall_mem_cons] at hts
    rw [List.cons_append, run, if_neg hts.1] at h
    obtain ⟨next, hstep, hrun⟩ := bind_eq_ok_iff.mp h
    exact completes_of_step hstep (ih hts.2 hrun)

end State

/-! ## Errors of the reader -/

namespace State

/-- A refusal speaks of the order of the tokens. -/
theorem isLexical_refusal (s : State) (t : Token) : (s.refusal t).reason.isLexical = false := by
  have hunexpected : ∀ expected, (s.unexpected t expected).reason.isLexical = false := by
    intro expected
    unfold unexpected
    split <;> rfl
  unfold refusal
  split
  · rfl
  · split
    · rfl
    · exact hunexpected .operand
  · exact hunexpected .operand
  · exact hunexpected s.closing

theorem isLexical_of_beginOperand {s : State} {t : Token} {err : ParseError}
    (h : s.beginOperand t = .error err) : err.reason.isLexical = false := by
  unfold beginOperand at h
  split at h <;> cases h
  exact isLexical_refusal s t

theorem isLexical_of_afterOperand {s : State} {last : Expr} {t : Token} {err : ParseError}
    (h : s.afterOperand last t = .error err) : err.reason.isLexical = false := by
  unfold afterOperand at h
  split at h
  case h_1 | h_2 | h_3 | h_4 | h_5 => cases h
  case h_6 | h_7 =>
    split at h <;> cases h
    exact isLexical_refusal s t
  case h_8 =>
    cases h
    exact isLexical_refusal s t
  case h_9 => exact isLexical_of_beginOperand h

theorem isLexical_of_step {s : State} {t : Token} {err : ParseError}
    (h : s.step t = .error err) : err.reason.isLexical = false := by
  unfold step at h
  split at h
  case h_1 | h_2 => exact isLexical_of_beginOperand h
  case h_3 => exact isLexical_of_afterOperand h
  case h_4 =>
    split at h <;> cases h
    exact isLexical_refusal s t

/-- Reading ends in an expression or in an error about the order of the tokens. -/
theorem isLexical_of_run {ts : List Token} {s : State} {err : ParseError}
    (h : s.run ts = .error err) : err.reason.isLexical = false := by
  induction ts generalizing s with
  | nil =>
    obtain rfl : _ = err := Except.error.inj h
    rfl
  | cons t ts ih =>
    rw [run] at h
    split at h
    next =>
      unfold finish at h
      split at h
      next => cases h
      next =>
        obtain rfl : _ = err := Except.error.inj h
        exact isLexical_refusal s t
    next =>
      cases hstep : s.step t with
      | ok next =>
        rw [hstep] at h
        exact ih h
      | error other =>
        rw [hstep] at h
        obtain rfl : other = err := Except.error.inj h
        exact isLexical_of_step hstep

end State

/-! ## Which token lists are read -/

/-- A list of tokens is read unless nothing comes before the end of input. -/
theorem ofTokens_cons {t : Token} (ht : t.kind ≠ .endOfInput) (ts : List Token) :
    Expr.ofTokens (t :: ts) = State.start.run (t :: ts) := by
  unfold Expr.ofTokens
  split
  next heq =>
    rw [List.cons.injEq] at heq
    exact absurd (congrArg Token.kind heq.1) ht
  next => rfl

theorem Derivation.exists_of_ofTokens {ts : List Token} {stop : Token}
    (hts : ∀ t ∈ ts, t.kind ≠ .endOfInput) (hstop : stop.kind = .endOfInput) {e : Expr}
    (h : Expr.ofTokens (ts ++ [stop]) = .ok e) :
    ∃ d : Derivation .expression, d.tokens = ts.map (·.kind) := by
  cases ts with
  | nil =>
    obtain ⟨kind, text, offset⟩ := stop
    obtain rfl : kind = .endOfInput := hstop
    cases h
  | cons t ts =>
    rw [List.cons_append, ofTokens_cons (hts t List.mem_cons_self)] at h
    obtain ⟨d, rest, heq, rfl⟩ :=
      BeforeOperand.expression (State.completes_of_run hstop hts h)
    exact ⟨d, by rw [heq, List.append_nil]⟩

/-- A list of tokens that ends with the end of input is read as an expression exactly if it has a
derivation, and then as what the derivation denotes; it has no second derivation; and a list
without one is refused for the order of its tokens. -/
theorem ofTokens_iff_derivation {ts : List Token} {stop : Token}
    (hts : ∀ t ∈ ts, t.kind ≠ .endOfInput) (hstop : stop.kind = .endOfInput) :
    (∀ e, Expr.ofTokens (ts ++ [stop]) = .ok e ↔
      ∃ d : Derivation .expression, d.tokens = ts.map (·.kind) ∧ d.denotes = e) ∧
    (∀ d d' : Derivation .expression,
      d.tokens = ts.map (·.kind) → d'.tokens = ts.map (·.kind) → d = d') ∧
    ((¬∃ d : Derivation .expression, d.tokens = ts.map (·.kind)) →
      ∃ err, Expr.ofTokens (ts ++ [stop]) = .error err ∧ err.reason.isLexical = false) := by
  have hread : ∀ d : Derivation .expression, d.tokens = ts.map (·.kind) →
      Expr.ofTokens (ts ++ [stop]) = .ok d.denotes := fun d hd => d.ofTokens hd.symm hstop
  refine ⟨fun e => ⟨fun h => ?_, ?_⟩, fun d d' hd hd' => ?_, fun hno => ?_⟩
  · obtain ⟨d, hd⟩ := Derivation.exists_of_ofTokens hts hstop h
    exact ⟨d, hd, Except.ok.inj ((hread d hd).symm.trans h)⟩
  · rintro ⟨d, hd, rfl⟩
    exact hread d hd
  · exact Derivation.unique (hd.trans hd'.symm)
  · cases h : Expr.ofTokens (ts ++ [stop]) with
    | ok e => exact absurd (Derivation.exists_of_ofTokens hts hstop h) hno
    | error err =>
      refine ⟨err, rfl, ?_⟩
      cases ts with
      | nil =>
        obtain ⟨kind, text, offset⟩ := stop
        obtain rfl : kind = .endOfInput := hstop
        cases h
        rfl
      | cons t ts =>
        rw [List.cons_append, ofTokens_cons (hts t List.mem_cons_self)] at h
        exact State.isLexical_of_run h

/-- The sign of an exponent belongs to the exponent, and the number in front is a factor of its
own. -/
theorem ofTokens_signed_exponent :
    Expr.ofTokens ([⟨.number 2, "2", 0⟩, ⟨.identifier "x", "x", 1⟩, ⟨.operator .power, "^", 2⟩,
        ⟨.operator .minus, "-", 3⟩, ⟨.identifier "y", "y", 4⟩] ++ [⟨.endOfInput, "", 5⟩]) =
      .ok (product [rat 2, .power (symbol "x") (negation (symbol "y"))]) := by
  refine ((ofTokens_iff_derivation (by decide) rfl).1 _).mpr ⟨?_, ?_, ?_⟩
  · exact .expression (.term (.unsigned (.plain (.number 2))) (.juxtapose (.raised (.identifier "x")
      (.minus (.unsigned (.plain (.identifier "y"))))) .noFactors)) .noTerms
  · rfl
  · rfl

end AlgebraicForm
