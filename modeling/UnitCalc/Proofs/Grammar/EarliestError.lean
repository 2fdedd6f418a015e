import UnitCalc.Proofs.Grammar.Behaviour
import UnitCalc.Proofs.Grammar.Complete

/-!
# Errors at the earliest token

The parser gives up at the first token with which the tokens read so far cannot go on,
and names it. Every reader is prompt (`Prompt`), and what it has taken when it fails is
the front of a phrase (`Viable`). Readers are built over a reader for nested
expressions, and so is the argument; the knot is tied by induction on the number of
tokens (`prompt_nesting`).
-/

namespace UnitCalc.Grammar

variable {α : Type} {c d : Category} {m : Nat} {p v w ts : List Token} {a : Expr}

/-- Some phrase of the category begins with the tokens. -/
def Viable (c : Category) (p : List Token) : Prop :=
  ∃ q a, Phrase c (p ++ q) a

theorem Viable.of_phrase (q : List Token) (h : Phrase c (p ++ q) a) : Viable c p :=
  ⟨q, a, h⟩

theorem Viable.of_append {q : List Token} (h : Viable c (p ++ q)) : Viable c p := by
  obtain ⟨u, a, hu⟩ := h
  exact .of_phrase (q ++ u) (by rwa [← List.append_assoc])

/-- The front of a phrase goes on as the front of a phrase that encloses it. -/
theorem Viable.within (h : Viable c p) (v u : List Token)
    (henclose : ∀ {w a}, Phrase c w a → ∃ b, Phrase d (v ++ (w ++ u)) b) :
    Viable d (v ++ p) := by
  obtain ⟨q, a, hq⟩ := h
  obtain ⟨b, hb⟩ := henclose hq
  refine .of_phrase (q ++ u) (a := b) ?_
  rwa [List.append_assoc, ← List.append_assoc p]

theorem Viable.after (h : Viable c p) (v u : List Token) (t : Token)
    (henclose : ∀ {w a}, Phrase c w a → ∃ b, Phrase d (v ++ t :: (w ++ u)) b) :
    Viable d (v ++ t :: p) := by
  have hfront := h.within (d := d) (v ++ [t]) u fun hw => by
    rw [List.append_assoc]
    exact henclose hw
  rwa [List.append_assoc] at hfront

theorem Viable.lift (h : Viable c p) (hlift : ∀ {w a}, Phrase c w a → Phrase d w a) :
    Viable d p := by
  obtain ⟨q, a, hq⟩ := h
  exact .of_phrase q (hlift hq)

/-- The shortest expression. -/
theorem phrase_zero : Phrase .expression [.integer 0] (.integer 0) :=
  .ofComparison (.ofConversion (.ofAdditive (.ofMultiplicative (.ofUnary (.ofPrimary
    (.integer 0))))))

/-! ## What the readers take -/

theorem exists_taken {reading : Except ParseError (Parsed α ts.length)} {a : α}
    {rest : List Token} (good : List Token → α → Prop)
    (hread : Yields reading a rest → ∃ w, ts = w ++ rest ∧ good w a)
    (h : .ok (a, rest) = ending reading) :
    ∃ w, w ≠ [] ∧ ts = w ++ rest ∧ good w a := by
  have hy : Yields reading a rest := yields_iff_ending.mpr h.symm
  obtain ⟨w, hts, hgood⟩ := hread hy
  refine ⟨w, ?_, hts, hgood⟩
  rintro rfl
  have hfewer := hy.length_lt
  rw [hts] at hfewer
  exact Nat.lt_irrefl _ hfewer

theorem takings_level {read : ∀ {n}, Reader Expr n → Reader Expr (n + 1)}
    (h : ∀ {n} {nested : Reader Expr n}, ReadsOnly .expression nested →
      ReadsOnly c (read nested)) :
    Takings (level read) (Phrase c) :=
  fun _ _ _ ⟨n, _, hr⟩ => exists_taken _ (h (readsOnly_inner n)) hr

theorem takings_nesting : Takings nesting (Phrase .expression) :=
  fun _ _ _ hr => exists_taken _ phrase_expression hr

theorem takings_stating : Takings stating (Phrase .statement) :=
  fun _ _ _ hr => exists_taken _ phrase_statement hr

theorem takings_parameters : Takings (listingInParens fun _ => identifier)
    fun w params => w = parameterTokens params ++ [.rightParen] := by
  intro ts params rest h
  cases h with
  | chosen hts hc h =>
      obtain rfl := only_eq_some hc
      cases h
      exact ⟨[.rightParen], List.cons_ne_nil _ _, hts, rfl⟩
  | otherwise _ h =>
      obtain ⟨n, hlt, hr⟩ := h
      refine exists_taken (fun w params => w = parameterTokens params ++ [.rightParen])
        (fun hy => ?_) hr
      refine ⟨parameterTokens params ++ [.rightParen], ?_, rfl⟩
      rw [parameterTokens_of_items hy, List.append_assoc]
      rfl

theorem exists_level (read : ∀ {n}, Reader Expr n → Reader Expr (n + 1)) (ts : List Token) :
    ∃ r, level read ts r :=
  ⟨_, ts.length, Nat.lt_succ_self _, rfl⟩

/-- The tokens that are left after some were taken are fewer. -/
theorem length_lt_of_split {rest : List Token} (hw : w ≠ []) (hts : ts = w ++ rest) :
    rest.length < ts.length := by
  rw [hts, List.length_append]
  exact Nat.lt_add_of_pos_left (List.length_pos_iff.mpr hw)

/-! ## Lists -/

/-- Items are read after the tokens `v`, which are the front of a list that goes on
with an item. -/
theorem prompt_listing {item : (n : Nat) → Reader α n} {b : Behaviour α}
    {good : List Token → α → Prop} {itemViable : List Token → Prop}
    (viable front : List Token → Prop) (hitem : ∀ n ts h, b ts (ending (item n ts h)))
    (hb : PromptBelow m b itemViable) (htakes : Takings b good)
    (hfirst : ∀ v p, front v → itemViable p → viable (v ++ p))
    (hlast : ∀ v w a, front v → good w a → viable (v ++ w))
    (hcomma : ∀ v w a, front v → good w a → front (v ++ w ++ [.comma]))
    (hv : front v) (hts : ts.length < m) :
    Prompt (listing item) (fun p => viable (v ++ p)) ts := by
  induction hlen : ts.length using Nat.strongRecOn generalizing v ts with
  | ind len ih =>
      refine .of_imp (fun _ _ => andThen_of_listing hitem) ?_
      refine .andThen (hb ts hts) ⟨_, hitem _ ts (Nat.lt_succ_self _)⟩ htakes
        (fun p => hfirst v p hv) fun w a rest hw hsplit hgood => ?_
      have hrest := length_lt_of_split hw hsplit
      refine .peek (fun t _ tail htail ht => ?_) fun _ => ?_
      · obtain rfl := only_eq_some ht
        rw [htail, List.length_cons] at hrest
        have hmore := ih tail.length (by omega) (hcomma v w a hv hgood) (by omega) rfl
        refine (hmore.map (a :: ·)).weaken fun p hp => ?_
        simpa using hp
      · refine .peek (fun _ _ _ _ _ => prompt_done _) fun _ => ?_
        refine prompt_fails ⟨fun _ => rfl, Or.inl rfl⟩ ?_
        rw [List.append_nil]
        exact hlast v w a hv hgood

/-- After the tokens `v` a call is open, and any expression is its next argument. -/
def OpenCall (v : List Token) : Prop :=
  ∃ name args, ∀ {w a}, Phrase .expression w a →
    Phrase .openCall (v ++ w) (.call name (args ++ [a]))

theorem OpenCall.first (name : String) : OpenCall [.identifier name, .leftParen] :=
  ⟨name, [], .firstArgument name⟩

theorem OpenCall.next (h : OpenCall v) (hw : Phrase .expression w a) :
    OpenCall (v ++ w ++ [.comma]) := by
  obtain ⟨name, args, hopen⟩ := h
  refine ⟨name, args ++ [a], fun {w' a'} hw' => ?_⟩
  have hnext := Phrase.nextArgument (hopen hw) hw'
  simpa using hnext

theorem OpenCall.viable (h : OpenCall v) (hp : Viable .expression p) :
    Viable .primary (v ++ p) := by
  obtain ⟨name, args, hopen⟩ := h
  refine hp.within v [.rightParen] fun {w a} hw => ⟨.call name (args ++ [a]), ?_⟩
  rw [← List.append_assoc]
  exact .call (hopen hw)

theorem prompt_arguments (hn : PromptBelow m nesting (Viable .expression)) (name : String)
    (hts : ts.length < m) :
    Prompt (listingInParens inner)
      (fun p => Viable .primary (.identifier name :: .leftParen :: p)) ts := by
  refine .peek (fun _ _ _ _ _ => prompt_done []) fun _ => ?_
  refine prompt_listing (Viable .primary) OpenCall (fun _ _ _ => rfl) hn takings_nesting
    (fun v p hv hp => hv.viable hp) (fun v w a hv hw => ?_)
    (fun v w a hv hw => hv.next hw) (.first name) hts
  exact hv.viable (.of_phrase [] (by rwa [List.append_nil]))

/-! ## Operands -/

theorem prompt_primary (hn : PromptBelow m nesting (Viable .expression)) :
    PromptBelow (m + 1) (level primary) (Viable .primary) := by
  intro ts hts
  refine .of_imp (fun _ _ => peek_of_primary) ?_
  refine .peek (fun t o rest hsplit ho => ?_) fun _ => ?_
  · rw [hsplit, List.length_cons] at hts
    cases o with
    | literal a => exact prompt_done a
    | name name =>
        obtain rfl : t = .identifier name := by
          cases t <;> cases ho
          rfl
        refine .peek (fun t _ tail htail ht => ?_) fun _ => prompt_done _
        obtain rfl := only_eq_some ht
        rw [htail, List.length_cons] at hts
        exact (prompt_arguments hn name (by omega)).map _
    | paren =>
        obtain rfl : t = .leftParen := by
          cases t <;> cases ho
          rfl
        refine .andThen (hn rest (by omega)) ⟨_, rfl⟩ takings_nesting (fun p hp => ?_)
          fun w a tail _ _ hw => ?_
        · exact hp.within [.leftParen] [.rightParen] fun hw => ⟨_, .group hw⟩
        · refine (prompt_expects (locates_unexpectedToken _) ?_).map fun _ => a
          exact .of_phrase [.rightParen] (by simpa using Phrase.group hw)
  · exact prompt_fails (locates_unexpectedToken _) (.of_phrase [.integer 0] (.integer 0))

theorem prompt_unary (hn : PromptBelow m nesting (Viable .expression)) :
    PromptBelow (m + 1) (level unary) (Viable .unary) := by
  intro ts hts
  induction hlen : ts.length using Nat.strongRecOn generalizing ts with
  | ind len ih =>
      refine .of_imp (fun _ _ => peek_of_unary) ?_
      refine .peek (fun t op rest hsplit hop => ?_) fun _ => ?_
      · rw [hsplit, List.length_cons] at hts hlen
        have hrest := ih rest.length (by omega) rest (by omega) rfl
        refine (hrest.map (Expr.unary op)).weaken fun p hp => ?_
        exact hp.after [] [] t fun hw => ⟨_, by simpa using hw.sign hop⟩
      · exact (prompt_primary hn ts hts).weaken fun p hp => hp.lift .ofPrimary

/-! ## Chains of operators -/

theorem prompt_chain {operand : ∀ {n}, Reader Expr n → Reader Expr (n + 1)}
    {accepts : BinaryOp → Bool} {left : Expr}
    (hjoin : ∀ {t op}, t.binaryOp?.filter accepts = some op → Joins d c t op)
    (hoperand : PromptBelow m (level operand) (Viable c))
    (htakes : Takings (level operand) (Phrase c)) (hv : Phrase d v left)
    (hts : ts.length < m) :
    Prompt (chain operand accepts left) (fun p => Viable d (v ++ p)) ts := by
  -- each round of the loop begins with fewer tokens
  induction hlen : ts.length using Nat.strongRecOn generalizing v left ts with
  | ind len ih =>
      refine .of_imp (fun _ _ => peek_of_chain) ?_
      refine .peek (fun t op rest hsplit hop => ?_) fun _ => prompt_done left
      rw [hsplit, List.length_cons] at hts hlen
      refine .andThen (hoperand rest (by omega)) (exists_level _ rest) htakes (fun p hp => ?_)
        fun w right mid hw hmid hright => ?_
      · exact hp.after v [] t fun hw => ⟨_, by simpa using hv.join (hjoin hop) hw⟩
      · have hshort := length_lt_of_split hw hmid
        have hmore := ih mid.length (by omega) (hv.join (hjoin hop) hright) (by omega) rfl
        refine hmore.weaken fun p hp => ?_
        simpa using hp

theorem prompt_leftAssociative {first operand : ∀ {n}, Reader Expr n → Reader Expr (n + 1)}
    {accepts : BinaryOp → Bool} {e : Category}
    (hjoin : ∀ {t op}, t.binaryOp?.filter accepts = some op → Joins d c t op)
    (hlift : ∀ {w a}, Phrase e w a → Phrase d w a)
    (hfirst : PromptBelow m (level first) (Viable e))
    (hfirstTakes : Takings (level first) (Phrase e))
    (hoperand : PromptBelow m (level operand) (Viable c))
    (htakes : Takings (level operand) (Phrase c)) :
    PromptBelow m (level fun nested => leftAssociative (first nested) (operand nested) accepts)
      (Viable d) := by
  intro ts hts
  refine .of_imp (fun _ _ => andThen_of_leftAssociative) ?_
  refine .andThen (hfirst ts hts) (exists_level _ ts) hfirstTakes
    (fun p hp => hp.lift hlift) fun w left rest hw hsplit hleft => ?_
  have hshort := length_lt_of_split hw hsplit
  exact prompt_chain hjoin hoperand htakes (hlift hleft) (by omega)

theorem prompt_additive (hn : PromptBelow m nesting (Viable .expression)) :
    PromptBelow (m + 1) (level additive) (Viable .additive) := by
  have hunary := takings_level readsOnly_unary
  have hfactor := prompt_leftAssociative joins_multiplicative .ofUnary (prompt_unary hn)
    hunary (prompt_unary hn) hunary
  have hfactors := takings_level readsOnly_multiplicative
  exact prompt_leftAssociative joins_additive .ofMultiplicative hfactor hfactors hfactor
    hfactors

theorem prompt_converting {operand : Expr} (hv : Phrase .conversion v operand) :
    Prompt (converting operand) (fun p => Viable .conversion (v ++ p)) ts := by
  induction hlen : ts.length using Nat.strongRecOn generalizing v operand ts with
  | ind len ih =>
      refine .of_imp (fun _ _ => peek_of_converting) ?_
      refine .peek (fun t _ rest hsplit ht => ?_) fun _ => prompt_done operand
      obtain rfl := only_eq_some ht
      refine .token ⟨fun _ => rfl, Or.inr rfl⟩ ?_ fun t unit tail htail hunit => ?_
      · exact .of_phrase [.unit ""] (by simpa using hv.convert "")
      · obtain rfl := Token.eq_of_unit? hunit
        rw [hsplit, htail, List.length_cons, List.length_cons] at hlen
        have hmore := ih tail.length (by omega) (hv.convert unit) rfl
        refine hmore.weaken fun p hp => ?_
        simpa using hp

theorem prompt_conversion (hn : PromptBelow m nesting (Viable .expression)) :
    PromptBelow (m + 1) (level conversion) (Viable .conversion) := by
  intro ts hts
  refine .of_imp (fun _ _ => andThen_of_conversion) ?_
  exact .andThen (prompt_additive hn ts hts) (exists_level _ ts)
    (takings_level readsOnly_additive) (fun p hp => hp.lift .ofAdditive)
    fun w a rest _ _ hw => prompt_converting (.ofAdditive hw)

theorem prompt_comparison (hn : PromptBelow m nesting (Viable .expression)) :
    PromptBelow (m + 1) (level comparison) (Viable .comparison) :=
  prompt_leftAssociative joins_comparison .ofConversion (prompt_conversion hn)
    (takings_level readsOnly_conversion) (prompt_additive hn)
    (takings_level readsOnly_additive)

/-! ## Expressions -/

theorem prompt_branching (hn : PromptBelow m nesting (Viable .expression)) {u : List Token}
    {condition : Expr} (hu : Phrase .comparison u condition) (hts : ts.length < m) :
    Prompt (branching condition) (fun p => Viable .expression (u ++ .sign .question :: p)) ts := by
  refine .andThen (hn ts hts) ⟨_, rfl⟩ takings_nesting (fun p hp => ?_)
    fun v onTrue mid hv hsplit htrue => ?_
  · exact hp.after u [.sign .colon, .integer 0] _ fun hw => ⟨_, by
      simpa using hu.ternary hw phrase_zero⟩
  · have hmid := length_lt_of_split hv hsplit
    refine .token ⟨fun _ => rfl, Or.inr rfl⟩ ?_ fun t _ rest hrest ht => ?_
    · exact .of_phrase [.sign .colon, .integer 0] (by
        simpa using hu.ternary htrue phrase_zero)
    · obtain rfl := only_eq_some ht
      rw [hrest, List.length_cons] at hmid
      refine ((hn rest (by omega)).map _).weaken fun p hp => ?_
      have hfront := hp.after (d := .expression) (u ++ .sign .question :: v) [] (.sign .colon)
        fun hw => ⟨_, by simpa using hu.ternary htrue hw⟩
      simpa using hfront

theorem prompt_nesting (ts : List Token) : Prompt nesting (Viable .expression) ts := by
  induction hlen : ts.length using Nat.strongRecOn generalizing ts with
  | ind len ih =>
      have hn : PromptBelow len nesting (Viable .expression) :=
        fun ts hts => ih ts.length hts ts rfl
      refine .of_imp (fun _ _ => andThen_of_nesting) ?_
      refine .andThen (prompt_comparison hn ts (by omega)) (exists_level _ ts)
        (takings_level readsOnly_comparison) (fun p hp => hp.lift .ofComparison)
        fun u condition rest hu hsplit hcondition => ?_
      refine .peek (fun t _ tail htail ht => ?_) fun _ => prompt_done condition
      obtain rfl := only_eq_some ht
      have hrest := length_lt_of_split hu hsplit
      rw [htail, List.length_cons] at hrest
      exact prompt_branching hn hcondition (by omega)

theorem prompt_assigning (ts : List Token) : Prompt assigning (Viable .assignment) ts := by
  induction hlen : ts.length using Nat.strongRecOn generalizing ts with
  | ind len ih =>
      refine .of_imp (fun _ _ => andThen_of_assigning) ?_
      refine .andThen (prompt_nesting ts) ⟨_, rfl⟩ takings_nesting
        (fun p hp => hp.lift .ofExpression) fun v target rest hv hsplit htarget => ?_
      refine .peek (fun t _ tail htail ht => ?_) fun _ => prompt_done target
      obtain rfl := only_eq_some ht
      have hrest := length_lt_of_split hv hsplit
      rw [htail, List.length_cons] at hrest
      have hvalue := ih tail.length (by omega) tail rfl
      refine (hvalue.map (Expr.assign target)).weaken fun p hp => ?_
      exact hp.after v [] _ fun hw => ⟨_, by simpa using htarget.assign hw⟩

/-! ## Declarations -/

theorem parameterTokens_concat (names : List String) (name : String) :
    parameterTokens (names ++ [name]) =
      names.flatMap (fun name => [.identifier name, .comma]) ++ [.identifier name] := by
  induction names with
  | nil => rfl
  | cons first names ih =>
      rw [List.flatMap_cons, List.append_assoc, ← ih]
      -- a comma follows the first name because a further one does
      rcases names with _ | ⟨second, names⟩
      · rfl
      · rfl

/-- The tokens of a declaration up to a further parameter. -/
def OpenDeclaration (name : String) (v : List Token) : Prop :=
  ∃ names : List String, v = .keywordFn :: .identifier name :: .leftParen ::
    names.flatMap fun name => [.identifier name, .comma]

theorem OpenDeclaration.viable {name : String} (h : OpenDeclaration name v)
    (param : String) : Viable .statement (v ++ [.identifier param]) := by
  obtain ⟨names, rfl⟩ := h
  have hphrase := Phrase.declare name (names ++ [param]) phrase_zero
  rw [parameterTokens_concat] at hphrase
  exact .of_phrase [.rightParen, .assign, .integer 0] (by simpa using hphrase)

theorem OpenDeclaration.next {name : String} (h : OpenDeclaration name v)
    (param : String) : OpenDeclaration name (v ++ [.identifier param] ++ [.comma]) := by
  obtain ⟨names, rfl⟩ := h
  exact ⟨names ++ [param], by simp⟩

theorem prompt_parameters (name : String) :
    Prompt (listingInParens fun _ => identifier)
      (fun p => Viable .statement (.keywordFn :: .identifier name :: .leftParen :: p)) ts := by
  refine .peek (fun _ _ _ _ _ => prompt_done []) fun _ => ?_
  have hname : ∀ m, PromptBelow m identifying (· = []) :=
    fun _ _ _ => prompt_expects (locates_unexpectedToken _) rfl
  refine prompt_listing (Viable .statement) (OpenDeclaration name)
    (fun _ _ _ => identifying_identifier _) (hname _) (takings_expects _ _)
    (fun v p hv hp => ?_) (fun v w param hv hw => ?_) (fun v w param hv hw => ?_) ⟨[], rfl⟩
    (Nat.lt_succ_self _)
  · subst hp
    rw [List.append_nil]
    exact (hv.viable "x").of_append
  · obtain ⟨t, rfl, ht⟩ := hw
    obtain rfl := Token.eq_of_identifier? ht
    exact hv.viable param
  · obtain ⟨t, rfl, ht⟩ := hw
    obtain rfl := Token.eq_of_identifier? ht
    exact hv.next param

theorem prompt_declaring :
    Prompt declaring (fun p => Viable .statement (.keywordFn :: p)) ts := by
  -- up to its body a declaration goes on as one of zero
  have hhead : ∀ name params, Viable .statement (.keywordFn :: .identifier name ::
      .leftParen :: parameterTokens params ++ [.rightParen, .assign]) := by
    intro name params
    exact .of_phrase [.integer 0] (by simpa using Phrase.declare name params phrase_zero)
  refine .token (locates_unexpectedToken _) ?_ fun t name rest _ ht => ?_
  · exact (hhead "f" []).of_append (p := [_])
  obtain rfl := Token.eq_of_identifier? ht
  refine .token (locates_unexpectedToken _) ?_ fun t _ rest _ ht => ?_
  · exact (hhead name []).of_append (p := [_, _])
  obtain rfl := only_eq_some ht
  refine .andThen (prompt_parameters name) ⟨_, listingInParens_listInParens _
    (Nat.lt_succ_self _)⟩ takings_parameters (fun _ h => h) fun w params rest _ _ hw => ?_
  subst hw
  refine .token (locates_unexpectedToken _) ?_ fun t _ rest _ ht => ?_
  · refine Viable.of_append (q := [.assign]) ?_
    simpa using hhead name params
  obtain rfl := only_eq_some ht
  refine ((prompt_nesting rest).map _).weaken fun p hp => ?_
  have hfront := hp.after (d := .statement) (.keywordFn :: .identifier name :: .leftParen ::
    parameterTokens params ++ [.rightParen]) [] .assign fun hw => ⟨_, by
      simpa using Phrase.declare name params hw⟩
  simpa using hfront

/-! ## Statements -/

theorem prompt_stating (ts : List Token) : Prompt stating (Viable .statement) ts := by
  refine .of_imp (fun _ _ => peek_of_stating) ?_
  refine .peek (fun t _ rest _ ht => ?_) fun _ => ?_
  · obtain rfl := only_eq_some ht
    exact prompt_declaring
  · exact (prompt_assigning ts).weaken fun p hp => hp.lift .ofAssignment

/-- Some tokens that are accepted begin with these. -/
def Acceptable (p : List Token) : Prop :=
  ∃ q a, Expr.parse (p ++ q) = .ok a

theorem Viable.acceptable (h : Viable .statement p) : Acceptable p := by
  obtain ⟨q, a, hq⟩ := h
  refine ⟨q ++ [.endOfInput], a, ?_⟩
  rw [← List.append_assoc]
  exact parse_of_phrase hq

theorem prompt_parsing (ts : List Token) : Prompt parsing Acceptable ts := by
  refine .andThen (prompt_stating ts) ⟨_, rfl⟩ takings_stating (fun _ h => h.acceptable)
    fun w a rest _ _ hw => ?_
  refine .peek (fun _ _ _ _ _ => prompt_done a) fun _ => ?_
  refine prompt_fails ⟨fun _ => rfl, Or.inl rfl⟩ (Viable.acceptable (.of_phrase [] (a := a) ?_))
  simpa using hw

theorem parsing_of_parse_error {err : ParseError} (h : Expr.parse ts = .error err) :
    parsing ts (.error err) := by
  obtain ⟨r, hr, hparse⟩ := exists_parsing ts
  rw [h] at hparse
  cases r with
  | error e =>
      cases hparse
      exact hr
  | ok p => cases hparse

/-- **Errors are raised at the earliest token.** Tokens that are rejected consist of
tokens that some accepted tokens begin with, a token that the error names, and more
tokens that do not matter: whatever follows the named token, the error is the same. If
there is no such token, the tokens ran out where accepted tokens go on, and the error
says so. -/
theorem parse_error_earliest {err : ParseError} (h : Expr.parse ts = .error err) :
    (∃ p t rest, ts = p ++ t :: rest ∧ (∃ q a, Expr.parse (p ++ q) = .ok a) ∧
      err.foundText = some t.describe ∧
      ∀ rest', Expr.parse (p ++ t :: rest') = .error err) ∨
    ((∃ q a, Expr.parse (ts ++ q) = .ok a) ∧
      (err = .unexpectedEnd ∨ err.foundText = some "end of input")) := by
  have hfails := parsing_of_parse_error h
  cases prompt_parsing ts with
  | done hts hok =>
      subst hts
      cases hok _ rfl _ hfails
  | @stuck p rest t e hts hp he hstuck =>
      subst hts
      cases hstuck rest _ hfails
      refine Or.inl ⟨p, t, rest, rfl, hp, he, fun rest' => ?_⟩
      obtain ⟨r, hr, hparse⟩ := exists_parsing (p ++ t :: rest')
      cases hstuck rest' r hr
      exact hparse
  | ranOut hts he hout =>
      cases hout _ hfails
      exact Or.inr ⟨hts, he⟩

/-- After `1 +` a closing parenthesis is an error whatever follows it. -/
theorem parse_error_earliest_closing :
    Expr.parse [.integer 1, .sign .plus, .rightParen, .comma] =
        .error (.unexpectedToken .expression (some .rightParen)) ∧
      ∃ p t rest, [.integer 1, .sign .plus, .rightParen, .comma] = p ++ t :: rest ∧
        (∃ q a, Expr.parse (p ++ q) = .ok a) ∧ some "')'" = some t.describe ∧
        ∀ rest', Expr.parse (p ++ t :: rest') =
          .error (.unexpectedToken .expression (some .rightParen)) := by
  have hparse : Expr.parse [.integer 1, .sign .plus, .rightParen, .comma] =
      .error (.unexpectedToken .expression (some .rightParen)) := by with_unfolding_all rfl
  refine ⟨hparse, (parse_error_earliest hparse).resolve_right ?_⟩
  rintro ⟨_, hended | hended⟩
  · cases hended
  · exact absurd hended (by decide)

end UnitCalc.Grammar
