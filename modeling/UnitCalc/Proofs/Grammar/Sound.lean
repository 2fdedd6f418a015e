import UnitCalc.Proofs.Grammar.Phrase
import UnitCalc.Proofs.Grammar.Reading

/-!
# What is read is a phrase

Each reader takes a phrase of its category off the front of the tokens and returns
the expression that the phrase stands for. Readers are built over a reader for
nested expressions, and so is the argument: what the nested reader reads is a
phrase, hence what the built reader reads is one. The knot is tied by induction on
the number of tokens.
-/

namespace UnitCalc.Grammar

variable {n : Nat}

theorem joins_multiplicative {t : Token} {op : BinaryOp}
    (h : t.binaryOp?.filter BinaryOp.isMultiplicative = some op) :
    Joins .multiplicative .unary t op := by
  cases t with
  | sign s => cases s <;> cases h <;> constructor
  | keywordTimes => cases h; constructor
  | _ => cases h

theorem joins_additive {t : Token} {op : BinaryOp}
    (h : t.binaryOp?.filter BinaryOp.isAdditive = some op) :
    Joins .additive .multiplicative t op := by
  cases t with
  | sign s => cases s <;> cases h <;> constructor
  | _ => cases h

theorem joins_comparison {t : Token} {op : BinaryOp}
    (h : t.binaryOp?.filter BinaryOp.compares = some op) :
    Joins .comparison .additive t op := by
  cases t with
  | sign s => cases s <;> cases h <;> constructor
  | _ => cases h

/-- The reader reads phrases of the category and nothing else. -/
def ReadsOnly (c : Category) (read : Reader Expr n) : Prop :=
  ∀ {ts : List Token} {h : ts.length < n} {a : Expr} {rest : List Token},
    Yields (read ts h) a rest → ∃ w, ts = w ++ rest ∧ Phrase c w a

/-- Arguments go on from a call that is open after `v`: with any further argument
it is an open call again. -/
theorem phrase_items {nested : Reader Expr n} (hn : ReadsOnly .expression nested)
    {name : String} {more : List Expr} {v ts : List Token} {args : List Expr}
    (hopen : ∀ {w a}, Phrase .expression w a →
      Phrase .openCall (v ++ w) (.call name (args ++ [a])))
    {h : ts.length < n} {rest : List Token}
    (hy : Yields (items nested ts h) more rest) :
    ∃ w, ts = w ++ .rightParen :: rest ∧
      Phrase .openCall (v ++ w) (.call name (args ++ more)) := by
  induction more generalizing v ts args with
  | nil =>
      obtain ⟨a, mid, _, ⟨_, _, _, _, _, hnil⟩ | ⟨_, hnil⟩⟩ := yields_items.mp hy
      · cases hnil
      · cases hnil
  | cons b more ih =>
      obtain ⟨a, mid, hitem, hmore⟩ := yields_items.mp hy
      obtain ⟨w, rfl, hw⟩ := hn hitem
      rcases hmore with ⟨tail, more', h', rfl, hitems, hcons⟩ | ⟨rfl, hcons⟩
      · cases hcons
        -- with this argument and a comma the call is open again
        have hnext : ∀ {w' a'}, Phrase .expression w' a' →
            Phrase .openCall ((v ++ w ++ [.comma]) ++ w')
              (.call name ((args ++ [b]) ++ [a'])) := by
          intro w' a' hw'
          have := Phrase.nextArgument (hopen hw) hw'
          simpa using this
        obtain ⟨w', rfl, hw'⟩ := ih hnext hitems
        refine ⟨w ++ .comma :: w', by simp, ?_⟩
        simpa using hw'
      · cases hcons
        exact ⟨w, rfl, hopen hw⟩

theorem readsOnly_primary {nested : Reader Expr n}
    (hn : ReadsOnly .expression nested) : ReadsOnly .primary (primary nested) := by
  intro ts h a rest hy
  cases PrimaryReading.of_yields hy with
  | integer k => exact ⟨[_], rfl, .integer k⟩
  | real x => exact ⟨[_], rfl, .real x⟩
  | quantity x unit => exact ⟨[_], rfl, .quantity x unit⟩
  | text s => exact ⟨[_], rfl, .text s⟩
  | var name => exact ⟨[_], rfl, .var name⟩
  | call name hlt hargs =>
      rcases yields_listInParens.mp hargs with ⟨rfl, rfl⟩ | ⟨_, hitems⟩
      · exact ⟨[_, _, _], rfl, .emptyCall name⟩
      · have hopen : ∀ {w a}, Phrase .expression w a →
            Phrase .openCall ([.identifier name, .leftParen] ++ w)
              (.call name ([] ++ [a])) := .firstArgument name
        obtain ⟨w, rfl, hw⟩ := phrase_items hn hopen hitems
        exact ⟨.identifier name :: .leftParen :: w ++ [.rightParen], by simp, .call hw⟩
  | group hlt ha =>
      obtain ⟨w, rfl, hw⟩ := hn ha
      exact ⟨.leftParen :: w ++ [.rightParen], by simp, .group hw⟩

theorem Phrase.sign {t : Token} {op : UnaryOp} {w : List Token} {a : Expr}
    (hop : t.unaryOp? = some op) (hw : Phrase .unary w a) :
    Phrase .unary (t :: w) (.unary op a) := by
  cases t with
  | sign s =>
      cases s <;> cases hop
      · exact .minus hw
      · exact .bang hw
  | _ => cases hop

theorem readsOnly_unary {nested : Reader Expr n}
    (hn : ReadsOnly .expression nested) : ReadsOnly .unary (unary nested) := by
  intro ts
  induction ts with
  | nil => exact fun hy => absurd hy not_yields_unary_nil
  | cons t ts ih =>
      intro h a rest hy
      rcases yields_unary_cons.mp hy with ⟨op, operand, hop, hoperand, rfl⟩ | ⟨_, hy⟩
      · obtain ⟨w, rfl, hw⟩ := ih hoperand
        exact ⟨t :: w, rfl, .sign hop hw⟩
      · obtain ⟨w, hts, hw⟩ := readsOnly_primary hn hy
        exact ⟨w, hts, .ofPrimary hw⟩

/-! ## Chains of operators -/

/-- Going on from a phrase of the level leads to a phrase of the level. -/
theorem phrase_foldLeft {level c : Category} {operand : Reader Expr n}
    {accepts : BinaryOp → Bool}
    (hjoin : ∀ {t op}, t.binaryOp?.filter accepts = some op → Joins level c t op)
    (hoperand : ReadsOnly c operand) {v : List Token} {left : Expr}
    (hv : Phrase level v left) {ts : List Token} {h : ts.length < n} {a : Expr}
    {rest : List Token} (hy : Yields (foldLeft operand accepts left ts h) a rest) :
    ∃ w, ts = w ++ rest ∧ Phrase level (v ++ w) a := by
  -- each round of the loop begins with fewer tokens
  induction hlen : ts.length using Nat.strongRecOn generalizing v left ts with
  | ind len ih =>
      rcases yields_foldLeft.mp hy with ⟨t, tail, op, right, mid, h₁, h₂, rfl, hop,
        hright, hmore⟩ | ⟨_, rfl, rfl⟩
      · have hshort : mid.length < len := by
          have := hright.length_lt
          rw [← hlen, List.length_cons]
          omega
        obtain ⟨w, rfl, hw⟩ := hoperand hright
        obtain ⟨w', rfl, hw'⟩ := ih mid.length hshort (.join hv (hjoin hop) hw) hmore rfl
        refine ⟨t :: w ++ w', by simp, ?_⟩
        simpa using hw'
      · exact ⟨[], rfl, by simpa using hv⟩

theorem readsOnly_leftAssociative {level c d : Category} {first operand : Reader Expr n}
    {accepts : BinaryOp → Bool}
    (hjoin : ∀ {t op}, t.binaryOp?.filter accepts = some op → Joins level c t op)
    (hlift : ∀ {w a}, Phrase d w a → Phrase level w a)
    (hfirst : ReadsOnly d first) (hoperand : ReadsOnly c operand) :
    ReadsOnly level (leftAssociative first operand accepts) := by
  intro ts h a rest hy
  obtain ⟨left, mid, h', hleft, hmore⟩ := yields_leftAssociative.mp hy
  obtain ⟨w, rfl, hw⟩ := hfirst hleft
  obtain ⟨w', rfl, hw'⟩ := phrase_foldLeft hjoin hoperand (hlift hw) hmore
  exact ⟨w ++ w', by simp, hw'⟩

theorem readsOnly_multiplicative {nested : Reader Expr n}
    (hn : ReadsOnly .expression nested) :
    ReadsOnly .multiplicative (multiplicative nested) :=
  readsOnly_leftAssociative joins_multiplicative .ofUnary (readsOnly_unary hn)
    (readsOnly_unary hn)

theorem readsOnly_additive {nested : Reader Expr n}
    (hn : ReadsOnly .expression nested) : ReadsOnly .additive (additive nested) :=
  readsOnly_leftAssociative joins_additive .ofMultiplicative
    (readsOnly_multiplicative hn) (readsOnly_multiplicative hn)

theorem phrase_conversions {v ts : List Token} {operand a : Expr} {rest : List Token}
    (hv : Phrase .conversion v operand)
    (hy : Yields (conversions operand ts) a rest) :
    ∃ w, ts = w ++ rest ∧ Phrase .conversion (v ++ w) a := by
  induction hlen : ts.length using Nat.strongRecOn generalizing v operand ts with
  | ind len ih =>
      rcases yields_conversions.mp hy with ⟨unit, tail, rfl, hmore⟩ | ⟨_, rfl, rfl⟩
      · have hshort : tail.length < len := by
          rw [← hlen, List.length_cons, List.length_cons]
          omega
        obtain ⟨w, rfl, hw⟩ := ih tail.length hshort (hv.convert unit) hmore rfl
        refine ⟨.keywordTo :: .unit unit :: w, rfl, ?_⟩
        simpa using hw
      · exact ⟨[], rfl, by simpa using hv⟩

theorem readsOnly_conversion {nested : Reader Expr n}
    (hn : ReadsOnly .expression nested) : ReadsOnly .conversion (conversion nested) := by
  intro ts h a rest hy
  obtain ⟨operand, mid, hoperand, hmore⟩ := yields_conversion.mp hy
  obtain ⟨w, rfl, hw⟩ := readsOnly_additive hn hoperand
  obtain ⟨w', rfl, hw'⟩ := phrase_conversions (.ofAdditive hw) hmore
  exact ⟨w ++ w', by simp, hw'⟩

theorem readsOnly_comparison {nested : Reader Expr n}
    (hn : ReadsOnly .expression nested) : ReadsOnly .comparison (comparison nested) :=
  readsOnly_leftAssociative joins_comparison .ofConversion (readsOnly_conversion hn)
    (readsOnly_additive hn)

/-! ## Expressions and statements -/

theorem readsOnly_conditional {nested : Reader Expr n}
    (hn : ReadsOnly .expression nested) :
    ReadsOnly .expression (conditional nested) := by
  intro ts h a rest hy
  obtain ⟨condition, mid, hcondition, hmid⟩ := yields_conditional.mp hy
  obtain ⟨u, rfl, hu⟩ := readsOnly_comparison hn hcondition
  rcases hmid with ⟨tail, onTrue, mid', onFalse, h₁, h₂, rfl, htrue, hfalse, rfl⟩ |
    ⟨_, rfl, rfl⟩
  · obtain ⟨v, rfl, hv⟩ := hn htrue
    obtain ⟨w, rfl, hw⟩ := hn hfalse
    exact ⟨u ++ .sign .question :: v ++ .sign .colon :: w, by simp, .ternary hu hv hw⟩
  · exact ⟨u, rfl, .ofComparison hu⟩

theorem readsOnly_inner (n : Nat) : ReadsOnly .expression (inner n) := by
  induction n using Nat.strongRecOn with
  | ind n ih =>
      intro ts h a rest hy
      exact readsOnly_conditional (ih ts.length h) (yields_expression.mp hy)

theorem phrase_expression {ts : List Token} {a : Expr} {rest : List Token}
    (hy : Yields (expression ts) a rest) :
    ∃ w, ts = w ++ rest ∧ Phrase .expression w a :=
  readsOnly_inner _ (h := Nat.lt_succ_self _) hy

theorem phrase_assignment {ts : List Token} {a : Expr} {rest : List Token}
    (hy : Yields (assignment ts) a rest) :
    ∃ w, ts = w ++ rest ∧ Phrase .assignment w a := by
  induction hlen : ts.length using Nat.strongRecOn generalizing ts a with
  | ind len ih =>
      obtain ⟨target, mid, htarget, hmid⟩ := yields_assignment.mp hy
      have hshort := htarget.length_lt
      obtain ⟨v, rfl, hv⟩ := phrase_expression htarget
      rcases hmid with ⟨tail, value, rfl, hvalue, rfl⟩ | ⟨_, rfl, rfl⟩
      · rw [List.length_cons] at hshort
        obtain ⟨w, rfl, hw⟩ := ih tail.length (by omega) hvalue rfl
        exact ⟨v ++ .assign :: w, by simp, .assign hv hw⟩
      · exact ⟨v, rfl, .ofExpression hv⟩

theorem parameterTokens_of_items {params : List String} {ts : List Token}
    {h : ts.length < n} {rest : List Token}
    (hy : Yields (items identifier ts h) params rest) :
    ts = parameterTokens params ++ .rightParen :: rest := by
  induction params generalizing ts with
  | nil =>
      obtain ⟨_, _, _, ⟨_, _, _, _, _, hnil⟩ | ⟨_, hnil⟩⟩ := yields_items.mp hy
      · cases hnil
      · cases hnil
  | cons name params ih =>
      obtain ⟨name', mid, hname, hmore⟩ := yields_items.mp hy
      obtain rfl := yields_identifier.mp hname
      rcases hmore with ⟨tail, params', h', rfl, hitems, hcons⟩ | ⟨rfl, hcons⟩
      · cases hcons
        rw [ih hitems]
        -- a comma is only followed by a further parameter
        obtain ⟨_, _, _, ⟨_, _, _, _, _, rfl⟩ | ⟨_, rfl⟩⟩ := yields_items.mp hitems
        · rfl
        · rfl
      · cases hcons
        rfl

theorem phrase_statement {ts : List Token} {a : Expr} {rest : List Token}
    (hy : Yields (statement ts) a rest) :
    ∃ w, ts = w ++ rest ∧ Phrase .statement w a := by
  rcases yields_statement.mp hy with ⟨tail, rfl, hdecl⟩ | ⟨_, hassign⟩
  · obtain ⟨name, tail, params, mid, body, rfl, hparams, hbody, rfl⟩ :=
      yields_declaration.mp hdecl
    obtain ⟨w, rfl, hw⟩ := phrase_expression hbody
    have hlist : tail = parameterTokens params ++ .rightParen :: .assign :: (w ++ rest) := by
      rcases yields_listInParens.mp hparams with ⟨rfl, rfl⟩ | ⟨_, hitems⟩
      · rfl
      · exact parameterTokens_of_items hitems
    exact ⟨_, by rw [hlist]; simp, .declare name params hw⟩
  · obtain ⟨w, hts, hw⟩ := phrase_assignment hassign
    exact ⟨w, hts, .ofAssignment hw⟩

end UnitCalc.Grammar
