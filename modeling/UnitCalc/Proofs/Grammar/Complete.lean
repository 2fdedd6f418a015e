import UnitCalc.Proofs.Grammar.Sound

/-!
# Every phrase is read

A reader takes as many tokens as it can, so it reads a phrase as the expression it
stands for only when the token after the phrase does not go on with it. Tokens are
ranked by the loosest category they go on with (`looseness`): after a phrase of a
category a looser token ends it (`Ends`).

A chain of operators is not read as a whole but as far as one gets: reading a
phrase of the level off the front leaves the level's loop at the phrase's
expression (`Leads`), whatever the loop does then. Thus a phrase can be extended by
one more operand without being read again.

With what the readers read being phrases, a sequence of tokens is parsed exactly
when it starts with a statement and the end of input (`parse_eq_ok_iff_phrase`).
-/

namespace UnitCalc.Grammar

variable {n : Nat}

/-! ## What ends a phrase -/

/-- The rank of the loosest category that the token goes on with: 0 for operands,
6 for statements, 7 if it goes on with none. -/
def looseness : Token → Nat
  | .leftParen => 0
  | .sign .star | .sign .slash | .keywordTimes => 1
  | .sign .plus | .sign .minus => 2
  | .keywordTo => 3
  | .sign .less | .sign .lessEqual | .sign .greater | .sign .greaterEqual
  | .sign .equalEqual | .sign .bangEqual => 4
  | .sign .question => 5
  | .assign => 6
  | _ => 7

/-- The next token does not go on with a phrase of rank `k`. -/
def Ends (k : Nat) (rest : List Token) : Prop :=
  ∀ t ∈ rest.head?, k < looseness t

theorem ends_cons {k : Nat} {t : Token} {rest : List Token} (h : k < looseness t) :
    Ends k (t :: rest) := by
  intro t' ht'
  cases ht'
  exact h

theorem Ends.mono {j k : Nat} {rest : List Token} (h : Ends k rest) (hjk : j ≤ k) :
    Ends j rest :=
  fun t ht => Nat.lt_of_le_of_lt hjk (h t ht)

theorem Ends.head?_ne {k : Nat} {t : Token} {rest : List Token} (h : Ends k rest)
    (ht : looseness t ≤ k) : rest.head? ≠ some t :=
  fun hhead => Nat.not_lt.mpr ht (h t hhead)

theorem Ends.noOperator {k : Nat} {accepts : BinaryOp → Bool} {level c : Category}
    {rest : List Token} (h : Ends k rest)
    (hjoin : ∀ {t op}, t.binaryOp?.filter accepts = some op → Joins level c t op)
    (hk : ∀ {t op}, Joins level c t op → looseness t ≤ k) :
    NoOperator accepts rest := by
  intro t ht
  cases hop : t.binaryOp?.filter accepts with
  | none => rfl
  | some op => exact absurd (h t ht) (Nat.not_lt.mpr (hk (hjoin hop)))

/-! ## Readers and loops over a phrase -/

/-- The reader takes `w` off the front as `a`, unless what follows goes on with a
phrase of rank `k`. -/
def Takes (k : Nat) (read : Reader Expr n) (w : List Token) (a : Expr) : Prop :=
  ∀ ⦃ts rest : List Token⦄ (h : ts.length < n), ts = w ++ rest → Ends k rest →
    Yields (read ts h) a rest

theorem Takes.mono {j k : Nat} {read : Reader Expr n} {w : List Token} {a : Expr}
    (h : Takes j read w a) (hjk : j ≤ k) : Takes k read w a :=
  fun _ _ hlt hts hends => h hlt hts (hends.mono hjk)

/-- The reader takes `w` off the front and is then in its loop at `a`: it ends
wherever the loop does. -/
def Leads (k : Nat) (read : Reader Expr n)
    (loop : Expr → List Token → Expr → List Token → Prop) (w : List Token) (a : Expr) :
    Prop :=
  ∀ ⦃ts rest : List Token⦄ (h : ts.length < n), ts = w ++ rest → Ends k rest →
    ∀ ⦃b : Expr⦄ ⦃rest' : List Token⦄, loop a rest b rest' → Yields (read ts h) b rest'

/-- How the loop over the operators of a level ends. -/
def Folds (operand : Reader Expr n) (accepts : BinaryOp → Bool) (a : Expr)
    (rest : List Token) (b : Expr) (rest' : List Token) : Prop :=
  ∀ h : rest.length < n, Yields (foldLeft operand accepts a rest h) b rest'

theorem leads_first {k : Nat} {first operand : Reader Expr n}
    {accepts : BinaryOp → Bool} {w : List Token} {a : Expr}
    (hw : Takes k first w a) :
    Leads k (leftAssociative first operand accepts) (Folds operand accepts) w a := by
  intro ts rest h hts hends b rest' hloop
  have hfirst := hw h hts hends
  have hshort : rest.length < n := Nat.lt_trans hfirst.length_lt h
  exact yields_leftAssociative.mpr ⟨a, rest, hshort, hfirst, hloop hshort⟩

theorem leads_join {k : Nat} {read operand : Reader Expr n}
    {accepts : BinaryOp → Bool} {t : Token} {op : BinaryOp} {v w : List Token}
    {a b : Expr} (hv : Leads k read (Folds operand accepts) v a)
    (hop : t.binaryOp?.filter accepts = some op) (ht : k < looseness t)
    (hw : Takes k operand w b) :
    Leads k read (Folds operand accepts) (v ++ t :: w) (.binary op a b) := by
  intro ts rest h hts hends c rest' hloop
  have hv' : ts = v ++ t :: (w ++ rest) := by rw [hts]; simp
  refine hv h hv' (ends_cons ht) fun h' => ?_
  -- the loop is at `a` with the operator in front, and takes one operand more
  have h₁ : (w ++ rest).length < n := Nat.lt_of_succ_lt h'
  have hoperand := hw h₁ rfl hends
  have h₂ : rest.length < n := Nat.lt_trans hoperand.length_lt h₁
  exact yields_foldLeft.mpr (Or.inl ⟨t, w ++ rest, op, b, rest, h₁, h₂, rfl, hop,
    hoperand, hloop h₂⟩)

/-- Where no operator of the level follows, the loop is over. -/
theorem Leads.takes {j k : Nat} {read operand : Reader Expr n}
    {accepts : BinaryOp → Bool} {w : List Token} {a : Expr}
    (hw : Leads j read (Folds operand accepts) w a) (hjk : j ≤ k)
    (hno : ∀ {rest}, Ends k rest → NoOperator accepts rest) :
    Takes k read w a := by
  intro ts rest h hts hends
  refine hw h hts (hends.mono hjk) fun h' => ?_
  exact yields_foldLeft.mpr (Or.inr ⟨hno hends, rfl, rfl⟩)

/-- How a list of arguments ends that has one argument before `rest`. -/
def EndsList (item : Reader Expr n) (rest : List Token) (more : List Expr)
    (rest' : List Token) : Prop :=
  (∃ tail, ∃ h : tail.length < n, rest = .comma :: tail ∧
      Yields (items item tail h) more rest') ∨
    (rest = .rightParen :: rest' ∧ more = [])

/-- Neither a comma nor a parenthesis goes on with an argument. -/
theorem EndsList.ends {item : Reader Expr n} {rest rest' : List Token}
    {more : List Expr} (h : EndsList item rest more rest') : Ends 5 rest := by
  rcases h with ⟨_, _, rfl, _⟩ | ⟨rfl, _⟩
  · exact ends_cons (by decide)
  · exact ends_cons (by decide)

theorem yields_items_of_endsList {item : Reader Expr n} {ts rest rest' : List Token}
    {h : ts.length < n} {a : Expr} {more : List Expr} (ha : Yields (item ts h) a rest)
    (hmore : EndsList item rest more rest') :
    Yields (items item ts h) (a :: more) rest' := by
  rcases hmore with ⟨tail, h', rfl, hitems⟩ | ⟨rfl, rfl⟩
  · exact yields_items.mpr ⟨a, _, ha, Or.inl ⟨tail, more, h', rfl, hitems, rfl⟩⟩
  · exact yields_items.mpr ⟨a, _, ha, Or.inr ⟨rfl, rfl⟩⟩

/-! ## First tokens -/

/-- A reading of an operand starts with none of the signs that come before it. -/
theorem unaryOp?_of_primaryReading {nested : Reader Expr n} {t : Token}
    {ts : List Token} {a : Expr} {rest : List Token}
    (h : PrimaryReading nested (t :: ts) a rest) : t.unaryOp? = none := by
  cases h <;> rfl

/-- The tokens that no expression starts with, as far as lists of arguments and
declarations tell them from expressions. -/
def opensNothing : Token → Bool
  | .rightParen | .keywordFn => true
  | _ => false

theorem not_yields_unary {nested : Reader Expr n} {t : Token} {ts : List Token}
    {h : (t :: ts).length < n + 1} (ht : opensNothing t = true) {a : Expr}
    {rest : List Token} : ¬ Yields (unary nested (t :: ts) h) a rest := by
  intro hy
  rcases yields_unary_cons.mp hy with ⟨op, _, hop, _⟩ | ⟨_, hy⟩
  · cases t with
    | sign s => cases ht
    | _ => cases hop
  · cases PrimaryReading.of_yields hy <;> cases ht

theorem not_yields_expression {t : Token} {ts : List Token}
    (ht : opensNothing t = true) {a : Expr} {rest : List Token} :
    ¬ Yields (expression (t :: ts)) a rest := by
  intro hy
  -- every level starts with its operands, down to a unary one
  obtain ⟨_, _, hcomparison, _⟩ := yields_conditional.mp (yields_expression.mp hy)
  obtain ⟨_, _, _, hconversion, _⟩ := yields_leftAssociative.mp hcomparison
  obtain ⟨_, _, hadditive, _⟩ := yields_conversion.mp hconversion
  obtain ⟨_, _, _, hmultiplicative, _⟩ := yields_leftAssociative.mp hadditive
  obtain ⟨_, _, _, hunary, _⟩ := yields_leftAssociative.mp hmultiplicative
  exact not_yields_unary ht hunary

theorem head?_ne_of_yields_expression {t : Token} {ts : List Token}
    (ht : opensNothing t = true) {a : Expr} {rest : List Token}
    (hy : Yields (expression ts) a rest) : ts.head? ≠ some t := by
  intro hhead
  obtain ⟨tail, rfl⟩ := List.head?_eq_some_iff.mp hhead
  exact not_yields_expression ht hy

/-! ## Every phrase is read -/

/-- What reading a phrase of a category amounts to. -/
def Reads : Category → List Token → Expr → Prop
  | .primary, w, a => ∀ n, Takes 0 (primary (inner n)) w a
  | .openCall, w, a => ∃ name args, a = .call name args ∧
      ∀ ⦃n : Nat⦄ ⦃ts rest : List Token⦄ (h : ts.length < n + 1), ts = w ++ rest →
        ∀ ⦃more : List Expr⦄ ⦃rest' : List Token⦄, EndsList (inner n) rest more rest' →
          Yields (primary (inner n) ts h) (.call name (args ++ more)) rest'
  | .unary, w, a => ∀ n, Takes 0 (unary (inner n)) w a
  | .multiplicative, w, a => ∀ n, Leads 0 (multiplicative (inner n))
      (Folds (unary (inner n)) BinaryOp.isMultiplicative) w a
  | .additive, w, a => ∀ n, Leads 1 (additive (inner n))
      (Folds (multiplicative (inner n)) BinaryOp.isAdditive) w a
  | .conversion, w, a => ∀ n, Leads 2 (conversion (inner n))
      (fun a rest b rest' => Yields (conversions a rest) b rest') w a
  | .comparison, w, a => ∀ n, Leads 3 (comparison (inner n))
      (Folds (additive (inner n)) BinaryOp.compares) w a
  | .expression, w, a => ∀ n, Takes 5 (inner n) w a
  | .assignment, w, a => ∀ ⦃ts rest : List Token⦄, ts = w ++ rest → Ends 6 rest →
      Yields (assignment ts) a rest
  | .statement, w, a => ∀ ⦃ts rest : List Token⦄, ts = w ++ rest → Ends 6 rest →
      Yields (statement ts) a rest

theorem Reads.takes_multiplicative {w : List Token} {a : Expr}
    (h : Reads .multiplicative w a) (n : Nat) :
    Takes 1 (multiplicative (inner n)) w a :=
  Leads.takes (h n) (Nat.zero_le 1) fun hends =>
    hends.noOperator joins_multiplicative fun hj => by cases hj <;> exact Nat.le_refl _

theorem Reads.takes_additive {w : List Token} {a : Expr} (h : Reads .additive w a)
    (n : Nat) : Takes 2 (additive (inner n)) w a :=
  Leads.takes (h n) (by decide) fun hends =>
    hends.noOperator joins_additive fun hj => by cases hj <;> exact Nat.le_refl _

theorem Reads.takes_conversion {w : List Token} {a : Expr}
    (h : Reads .conversion w a) (n : Nat) : Takes 3 (conversion (inner n)) w a := by
  intro ts rest hlt hts hends
  refine h n hlt hts (hends.mono (by decide)) ?_
  exact yields_conversions.mpr (Or.inr ⟨hends.head?_ne (by decide), rfl, rfl⟩)

theorem Reads.takes_comparison {w : List Token} {a : Expr}
    (h : Reads .comparison w a) (n : Nat) : Takes 4 (comparison (inner n)) w a :=
  Leads.takes (h n) (by decide) fun hends =>
    hends.noOperator joins_comparison fun hj => by cases hj <;> exact Nat.le_refl _

theorem reads_join {level c : Category} {t : Token} {op : BinaryOp}
    {v w : List Token} {a b : Expr} (hv : Reads level v a) (ht : Joins level c t op)
    (hw : Reads c w b) : Reads level (v ++ t :: w) (.binary op a b) := by
  cases ht with
  | star | times | slash => exact fun n => leads_join (hv n) rfl (by decide) (hw n)
  | plus | minus =>
      exact fun n => leads_join (hv n) rfl (by decide) (hw.takes_multiplicative n)
  | less | lessEqual | greater | greaterEqual | equal | notEqual =>
      refine fun n => leads_join (hv n) rfl (by decide) ?_
      exact (hw.takes_additive n).mono (by decide)

theorem reads_convert {w : List Token} {a : Expr} (hw : Reads .conversion w a)
    (unit : String) :
    Reads .conversion (w ++ [.keywordTo, .unit unit]) (.convert a unit) := by
  intro n ts rest h hts _ b rest' hloop
  have hts' : ts = w ++ .keywordTo :: .unit unit :: rest := by rw [hts]; simp
  refine hw n h hts' (ends_cons (by decide)) ?_
  exact yields_conversions.mpr (Or.inl ⟨unit, rest, rfl, hloop⟩)

theorem yields_parameters {params : List String} {name : String} {ts : List Token}
    {h : ts.length < n} {rest : List Token}
    (hts : ts = parameterTokens (name :: params) ++ .rightParen :: rest) :
    Yields (items identifier ts h) (name :: params) rest := by
  induction params generalizing name ts with
  | nil =>
      refine yields_items.mpr ⟨name, .rightParen :: rest, ?_, Or.inr ⟨rfl, rfl⟩⟩
      exact yields_identifier.mpr hts
  | cons next params ih =>
      have htail : ts = .identifier name :: .comma ::
          (parameterTokens (next :: params) ++ .rightParen :: rest) := hts
      have hshort : (parameterTokens (next :: params) ++ .rightParen :: rest).length < n := by
        rw [htail, List.length_cons, List.length_cons] at h
        omega
      refine yields_items.mpr ⟨name, _, yields_identifier.mpr htail, Or.inl ?_⟩
      exact ⟨_, next :: params, hshort, rfl, ih rfl, rfl⟩

theorem reads_ternary {u v w : List Token} {a b c : Expr} (hu : Reads .comparison u a)
    (hv : Reads .expression v b) (hw : Reads .expression w c) :
    Reads .expression (u ++ .sign .question :: v ++ .sign .colon :: w)
      (.ternary a b c) := by
  intro n ts rest h hts hends
  have hu' : ts = u ++ .sign .question :: (v ++ .sign .colon :: (w ++ rest)) := by
    rw [hts]; simp
  have hcondition := hu.takes_comparison ts.length (Nat.lt_succ_self _) hu'
    (ends_cons (by decide))
  have h₁ : (v ++ .sign .colon :: (w ++ rest)).length < ts.length :=
    Nat.lt_of_succ_lt hcondition.length_lt
  have htrue := hv ts.length h₁ rfl (ends_cons (by decide))
  have h₂ : (w ++ rest).length < ts.length :=
    Nat.lt_trans (Nat.lt_of_succ_lt htrue.length_lt) h₁
  have hfalse := hw ts.length h₂ rfl hends
  refine yields_expression.mpr (yields_conditional.mpr ⟨a, _, hcondition, Or.inl ?_⟩)
  exact ⟨_, b, w ++ rest, c, h₁, h₂, rfl, htrue, hfalse, rfl⟩

theorem reads_assign {v w : List Token} {a b : Expr} (hv : Reads .expression v a)
    (hw : Reads .assignment w b) :
    Reads .assignment (v ++ .assign :: w) (.assign a b) := by
  intro ts rest hts hends
  have hv' : ts = v ++ .assign :: (w ++ rest) := by rw [hts]; simp
  have htarget := hv _ (Nat.lt_succ_self _) hv' (ends_cons (by decide))
  have hvalue := hw rfl hends
  exact yields_assignment.mpr ⟨a, _, htarget,
    Or.inl ⟨w ++ rest, b, rfl, hvalue, rfl⟩⟩

theorem reads_declare (name : String) (params : List String) {w : List Token}
    {body : Expr} (hw : Reads .expression w body) :
    Reads .statement
      (.keywordFn :: .identifier name :: .leftParen :: parameterTokens params ++
        .rightParen :: .assign :: w) (.declare name params body) := by
  intro ts rest hts hends
  have hts' : ts = .keywordFn :: .identifier name :: .leftParen ::
      (parameterTokens params ++ .rightParen :: .assign :: (w ++ rest)) := by
    rw [hts]; simp
  have hbody := hw _ (Nat.lt_succ_self _) rfl (hends.mono (by decide))
  refine yields_statement.mpr (Or.inl ⟨_, hts', yields_declaration.mpr ?_⟩)
  refine ⟨name, _, params, w ++ rest, body, rfl, yields_listInParens.mpr ?_, hbody, rfl⟩
  cases params with
  | nil => exact Or.inl ⟨rfl, rfl⟩
  | cons first params =>
      refine Or.inr ⟨?_, yields_parameters rfl⟩
      cases params <;> exact fun hhead => nomatch hhead

theorem reads_firstArgument (name : String) {w : List Token} {a : Expr}
    (hw : Reads .expression w a) :
    Reads .openCall (.identifier name :: .leftParen :: w) (.call name [a]) := by
  refine ⟨name, [a], rfl, ?_⟩
  intro n ts rest h hts more rest' hmore
  subst hts
  have hshort : (w ++ rest).length < n := Nat.lt_of_succ_lt (Nat.lt_of_succ_lt_succ h)
  have harg := hw n hshort rfl hmore.ends
  refine PrimaryReading.yields (.call name hshort ?_) h
  -- the list is not empty: no expression starts with its closing parenthesis
  refine yields_listInParens.mpr (Or.inr ⟨?_, yields_items_of_endsList harg hmore⟩)
  exact head?_ne_of_yields_expression rfl harg

theorem reads_nextArgument {name : String} {v w : List Token} {args : List Expr}
    {a : Expr} (hv : Reads .openCall v (.call name args))
    (hw : Reads .expression w a) :
    Reads .openCall (v ++ .comma :: w) (.call name (args ++ [a])) := by
  obtain ⟨name', args', heq, hv⟩ := hv
  cases heq
  refine ⟨name, args ++ [a], rfl, ?_⟩
  intro n ts rest h hts more rest' hmore
  have hv' : ts = v ++ .comma :: (w ++ rest) := by rw [hts]; simp
  have hshort : (w ++ rest).length < n := by
    rw [hv', List.length_append, List.length_cons] at h
    omega
  have harg := hw n hshort rfl hmore.ends
  rw [List.append_assoc]
  exact hv h hv' (Or.inl ⟨_, hshort, rfl, yields_items_of_endsList harg hmore⟩)

theorem takes_primary {nested : Reader Expr n} {w : List Token} {a : Expr}
    (h : ∀ rest, Ends 0 rest → PrimaryReading nested (w ++ rest) a rest) :
    Takes 0 (primary nested) w a := by
  intro ts rest hlt hts hends
  subst hts
  exact (h rest hends).yields hlt

theorem reads_group {w : List Token} {a : Expr} (hw : Reads .expression w a) :
    Reads .primary (.leftParen :: w ++ [.rightParen]) a := by
  intro n ts rest h hts _
  have hts' : ts = .leftParen :: (w ++ .rightParen :: rest) := by rw [hts]; simp
  subst hts'
  have hshort : (w ++ .rightParen :: rest).length < n := Nat.lt_of_succ_lt_succ h
  have hinner := hw n hshort rfl (ends_cons (by decide))
  exact PrimaryReading.yields (.group hshort hinner) h

theorem reads_emptyCall (name : String) :
    Reads .primary [.identifier name, .leftParen, .rightParen] (.call name []) := by
  intro n ts rest h hts _
  subst hts
  have hshort : (.rightParen :: rest : List Token).length < n :=
    Nat.lt_of_succ_lt (Nat.lt_of_succ_lt_succ h)
  refine PrimaryReading.yields (.call name hshort ?_) h
  exact yields_listInParens.mpr (Or.inl ⟨rfl, rfl⟩)

theorem reads_call {w : List Token} {a : Expr} (hw : Reads .openCall w a) :
    Reads .primary (w ++ [.rightParen]) a := by
  obtain ⟨name, args, rfl, hw⟩ := hw
  intro n ts rest h hts _
  have hts' : ts = w ++ .rightParen :: rest := by rw [hts]; simp
  have hread := hw h hts' (Or.inr ⟨rfl, rfl⟩)
  rwa [List.append_nil] at hread

theorem reads_signed {t : Token} {op : UnaryOp} (hop : t.unaryOp? = some op)
    {w : List Token} {a : Expr} (hw : Reads .unary w a) :
    Reads .unary (t :: w) (.unary op a) := by
  intro n ts rest h hts hends
  subst hts
  have hoperand := hw n (Nat.lt_of_succ_lt h) rfl hends
  exact yields_unary_cons.mpr (Or.inl ⟨op, a, hop, hoperand, rfl⟩)

theorem reads_ofPrimary {w : List Token} {a : Expr} (hw : Reads .primary w a) :
    Reads .unary w a := by
  intro n ts rest h hts hends
  have hread := hw n h hts hends
  rcases ts with _ | ⟨t, ts⟩
  · cases PrimaryReading.of_yields hread
  · have hsign := unaryOp?_of_primaryReading (PrimaryReading.of_yields hread)
    exact yields_unary_cons.mpr (Or.inr ⟨hsign, hread⟩)

/-- Every phrase is read, by induction on its derivation. -/
theorem Phrase.reads {c : Category} {w : List Token} {a : Expr}
    (h : Phrase c w a) : Reads c w a := by
  induction h with
  | integer k => exact fun n => takes_primary fun rest _ => .integer k rest
  | real x => exact fun n => takes_primary fun rest _ => .real x rest
  | quantity x unit => exact fun n => takes_primary fun rest _ => .quantity x unit rest
  | text s => exact fun n => takes_primary fun rest _ => .text s rest
  | var name =>
      -- a parenthesis after the name would make it a call
      refine fun n => takes_primary fun rest hends => .var name rest ?_
      exact hends.head?_ne (Nat.le_refl 0)
  | group _ ih => exact reads_group ih
  | emptyCall name => exact reads_emptyCall name
  | call _ ih => exact reads_call ih
  | firstArgument name _ ih => exact reads_firstArgument name ih
  | nextArgument _ _ ihv ihw => exact reads_nextArgument ihv ihw
  | minus _ ih => exact reads_signed rfl ih
  | bang _ ih => exact reads_signed rfl ih
  | ofPrimary _ ih => exact reads_ofPrimary ih
  | ofUnary _ ih => exact fun n => leads_first (ih n)
  | ofMultiplicative _ ih => exact fun n => leads_first (ih.takes_multiplicative n)
  | ofAdditive _ ih =>
      intro n ts rest h hts hends b rest' hloop
      exact yields_conversion.mpr ⟨_, rest, ih.takes_additive n h hts hends, hloop⟩
  | convert _ unit ih => exact reads_convert ih unit
  | ofConversion _ ih => exact fun n => leads_first (ih.takes_conversion n)
  | join _ ht _ ihv ihw => exact reads_join ihv ht ihw
  | ofComparison _ ih =>
      intro n ts rest h hts hends
      have hread := ih.takes_comparison ts.length (Nat.lt_succ_self _) hts
        (hends.mono (by decide))
      refine yields_expression.mpr (yields_conditional.mpr ⟨_, rest, hread, Or.inr ?_⟩)
      exact ⟨hends.head?_ne (by decide), rfl, rfl⟩
  | ternary _ _ _ ihu ihv ihw => exact reads_ternary ihu ihv ihw
  | ofExpression _ ih =>
      intro ts rest hts hends
      have hread := ih _ (Nat.lt_succ_self _) hts (hends.mono (by decide))
      refine yields_assignment.mpr ⟨_, rest, hread, Or.inr ?_⟩
      exact ⟨hends.head?_ne (by decide), rfl, rfl⟩
  | assign _ _ ihv ihw => exact reads_assign ihv ihw
  | ofAssignment _ ih =>
      intro ts rest hts hends
      have hread := ih hts hends
      obtain ⟨_, _, htarget, _⟩ := yields_assignment.mp hread
      exact yields_statement.mpr
        (Or.inr ⟨head?_ne_of_yields_expression rfl htarget, hread⟩)
  | declare name params _ ih => exact reads_declare name params ih

/-! ## The parser and the grammar -/

theorem parse_of_phrase {w rest : List Token} {a : Expr} (h : Phrase .statement w a) :
    Expr.parse (w ++ .endOfInput :: rest) = .ok a :=
  (parse_eq_ok_iff _ _).mpr ⟨rest, h.reads rfl (ends_cons (by decide))⟩

theorem phrase_of_parse {ts : List Token} {a : Expr} (h : Expr.parse ts = .ok a) :
    ∃ w rest, ts = w ++ .endOfInput :: rest ∧ Phrase .statement w a := by
  obtain ⟨rest, hy⟩ := (parse_eq_ok_iff ts a).mp h
  obtain ⟨w, hts, hw⟩ := phrase_statement hy
  exact ⟨w, rest, hts, hw⟩

/-- **The parser reads the grammar.** Tokens are parsed as `a` exactly when a
statement that stands for `a` and the end of input are in front of them. So no
tokens start with two statements before an end of input that stand for different
expressions. -/
theorem parse_eq_ok_iff_phrase (ts : List Token) :
    (∀ a, Expr.parse ts = .ok a ↔
      ∃ w rest, ts = w ++ .endOfInput :: rest ∧ Phrase .statement w a) ∧
    ∀ w rest a w' rest' a', ts = w ++ .endOfInput :: rest → Phrase .statement w a →
      ts = w' ++ .endOfInput :: rest' → Phrase .statement w' a' → a = a' := by
  constructor
  · intro a
    constructor
    · exact phrase_of_parse
    · rintro ⟨w, rest, rfl, hw⟩
      exact parse_of_phrase hw
  · rintro w rest a w' rest' a' rfl hw hts' hw'
    have hparse : Expr.parse (w ++ .endOfInput :: rest) = .ok a := parse_of_phrase hw
    rw [hts', parse_of_phrase hw'] at hparse
    cases hparse
    rfl

/-- The tokens of `10 - 4 - 3`. -/
def twoDifferences : List Token :=
  [.integer 10, .sign .minus, .integer 4, .sign .minus, .integer 3]

/-- Differences are read from the left, and tokens behind the end are not looked at. -/
theorem parse_twoDifferences :
    Phrase .statement twoDifferences
        (.binary .sub (.binary .sub (.integer 10) (.integer 4)) (.integer 3)) ∧
      Expr.parse (twoDifferences ++ [.endOfInput, .comma]) =
        .ok (.binary .sub (.binary .sub (.integer 10) (.integer 4)) (.integer 3)) ∧
      ∀ a, Phrase .statement twoDifferences a →
        a = .binary .sub (.binary .sub (.integer 10) (.integer 4)) (.integer 3) := by
  have number : ∀ n, Phrase .multiplicative [.integer n] (.integer n) :=
    fun n => .ofUnary (.ofPrimary (.integer n))
  have first : Phrase .additive [.integer 10, .sign .minus, .integer 4]
      (.binary .sub (.integer 10) (.integer 4)) :=
    .join (.ofMultiplicative (number 10)) .minus (number 4)
  have phrase : Phrase .statement twoDifferences
      (.binary .sub (.binary .sub (.integer 10) (.integer 4)) (.integer 3)) :=
    .ofAssignment (.ofExpression (.ofComparison (.ofConversion (.ofAdditive
      (.join first .minus (number 3))))))
  obtain ⟨reads, unique⟩ :=
    parse_eq_ok_iff_phrase (twoDifferences ++ [.endOfInput, .comma])
  refine ⟨phrase, (reads _).mpr ⟨twoDifferences, [.comma], rfl, phrase⟩, fun a ha => ?_⟩
  exact unique twoDifferences [.comma] a twoDifferences [.comma] _ rfl ha rfl phrase

end UnitCalc.Grammar
