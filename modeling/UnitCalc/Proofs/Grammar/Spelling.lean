import UnitCalc.Proofs.Expr.Parts
import UnitCalc.Proofs.Grammar.Phrase

/-!
# Parts of phrases

Whatever name, unit or literal stands somewhere in an expression stands in the
tokens of its phrase. Assignments and declarations are parts of statements only,
and nothing in an expression is one.
-/

namespace UnitCalc.Grammar

open UnitCalc.Expr (Every Plain)

/-- The part of an expression is written with tokens of `w`, apart from its
operands. -/
inductive Spelled (w : List Token) : Expr → Prop
  | integer {n : Int64} (h : .integer n ∈ w) : Spelled w (.integer n)
  | real {x : Float} (h : .real x ∈ w) : Spelled w (.real x)
  | quantity {x : Float} {unit : String} (h : .quantity x unit ∈ w) :
      Spelled w (.quantity x unit)
  | text {s : String} (h : .text s ∈ w) : Spelled w (.text s)
  | var {name : String} (h : .identifier name ∈ w) : Spelled w (.var name)
  | unary (op : UnaryOp) (operand : Expr) : Spelled w (.unary op operand)
  | binary (op : BinaryOp) (left right : Expr) : Spelled w (.binary op left right)
  | ternary (condition onTrue onFalse : Expr) :
      Spelled w (.ternary condition onTrue onFalse)
  | call {name : String} (h : .identifier name ∈ w) (args : List Expr) :
      Spelled w (.call name args)
  | convert {unit : String} (h : .unit unit ∈ w) (operand : Expr) :
      Spelled w (.convert operand unit)

variable {v w : List Token} {a e : Expr}

theorem Spelled.mono (h : Spelled v e) (hvw : v ⊆ w) : Spelled w e := by
  cases h with
  | integer h => exact .integer (hvw h)
  | real h => exact .real (hvw h)
  | quantity h => exact .quantity (hvw h)
  | text h => exact .text (hvw h)
  | var h => exact .var (hvw h)
  | unary op operand => exact .unary op operand
  | binary op left right => exact .binary op left right
  | ternary condition onTrue onFalse => exact .ternary condition onTrue onFalse
  | call h args => exact .call (hvw h) args
  | convert h operand => exact .convert (hvw h) operand

theorem Spelled.plain (h : Spelled w e) : e.Plain := by
  cases h <;> trivial

theorem every_spelled_mono (h : e.Every (Spelled v)) (hvw : v ⊆ w) :
    e.Every (Spelled w) :=
  h.mono fun hspelled => hspelled.mono hvw

/-- The categories of phrases that occur inside expressions. -/
def Category.isInner : Category → Bool
  | .assignment | .statement => false
  | _ => true

theorem Joins.isInner {level operand : Category} {t : Token} {op : BinaryOp}
    (h : Joins level operand t op) :
    level.isInner = true ∧ operand.isInner = true := by
  cases h <;> exact ⟨rfl, rfl⟩

/-- **All parts of an expression are spelled in its phrase.** -/
theorem Phrase.every_spelled {c : Category} (h : Phrase c w a)
    (hc : c.isInner = true) : a.Every (Spelled w) := by
  induction h with
  | integer n => exact .leaf (.integer List.mem_cons_self) rfl
  | real x => exact .leaf (.real List.mem_cons_self) rfl
  | quantity x unit => exact .leaf (.quantity List.mem_cons_self) rfl
  | text s => exact .leaf (.text List.mem_cons_self) rfl
  | var name => exact .leaf (.var List.mem_cons_self) rfl
  | group _ ih => exact every_spelled_mono (ih rfl) fun t ht => by simp [ht]
  | emptyCall name => exact .leaf (.call List.mem_cons_self []) rfl
  | call _ ih => exact every_spelled_mono (ih rfl) fun t ht => by simp [ht]
  | firstArgument name _ ih =>
      refine .intro (.call List.mem_cons_self _) fun c hmem => ?_
      cases List.mem_singleton.mp hmem
      exact every_spelled_mono (ih rfl) fun t ht => by simp [ht]
  | nextArgument _ _ ihv ihw =>
      -- the name was spelled by the call as far as it went before
      cases (ihv rfl).here with
      | call hname _ =>
          refine .intro (.call (List.mem_append_left _ hname) _) fun c hmem => ?_
          rcases List.mem_append.mp hmem with hmem | hmem
          · exact every_spelled_mono ((ihv rfl).child hmem) fun t ht => by simp [ht]
          · cases List.mem_singleton.mp hmem
            exact every_spelled_mono (ihw rfl) fun t ht => by simp [ht]
  | minus _ ih | bang _ ih =>
      refine .intro (.unary _ _) fun c hmem => ?_
      cases List.mem_singleton.mp hmem
      exact every_spelled_mono (ih rfl) fun t ht => by simp [ht]
  | ofPrimary _ ih => exact ih rfl
  | ofUnary _ ih => exact ih rfl
  | ofMultiplicative _ ih => exact ih rfl
  | ofAdditive _ ih => exact ih rfl
  | convert _ unit ih =>
      refine .intro (.convert (by simp) _) fun c hmem => ?_
      cases List.mem_singleton.mp hmem
      exact every_spelled_mono (ih rfl) fun t ht => by simp [ht]
  | ofConversion _ ih => exact ih rfl
  | join _ ht _ ihv ihw =>
      obtain ⟨hlevel, hoperand⟩ := ht.isInner
      refine .intro (.binary _ _ _) fun c hmem => ?_
      simp only [Expr.children, List.mem_cons, List.not_mem_nil, or_false] at hmem
      rcases hmem with rfl | rfl
      · exact every_spelled_mono (ihv hlevel) fun t ht => by simp [ht]
      · exact every_spelled_mono (ihw hoperand) fun t ht => by simp [ht]
  | ofComparison _ ih => exact ih rfl
  | ternary _ _ _ ihu ihv ihw =>
      refine .intro (.ternary _ _ _) fun c hmem => ?_
      simp only [Expr.children, List.mem_cons, List.not_mem_nil, or_false] at hmem
      rcases hmem with rfl | rfl | rfl
      · exact every_spelled_mono (ihu rfl) fun t ht => by simp [ht]
      · exact every_spelled_mono (ihv rfl) fun t ht => by simp [ht]
      · exact every_spelled_mono (ihw rfl) fun t ht => by simp [ht]
  | ofExpression | assign | ofAssignment | declare => cases hc

theorem Phrase.every_plain {c : Category} (h : Phrase c w a) (hc : c.isInner = true) :
    a.Every Plain :=
  (h.every_spelled hc).mono Spelled.plain

/-- All parts of an assignment are assignments or spelled in its phrase. -/
theorem Phrase.every_of_assignment {p : Expr → Prop} (h : Phrase .assignment w a)
    (hassign : ∀ target value, p (.assign target value))
    (hspelled : ∀ {e}, Spelled w e → p e) : a.Every p := by
  generalize hc : Category.assignment = c at h
  induction h with
  | ofExpression h => exact (h.every_spelled rfl).mono hspelled
  | assign hv hw _ ihw =>
      refine .intro (hassign _ _) fun c hmem => ?_
      simp only [Expr.children, List.mem_cons, List.not_mem_nil, or_false] at hmem
      rcases hmem with rfl | rfl
      · exact (hv.every_spelled rfl).mono fun h => hspelled (h.mono fun t ht => by simp [ht])
      · exact ihw (fun h => hspelled (h.mono fun t ht => by simp [ht])) rfl
  | join _ ht => cases hc; cases ht
  | _ => cases hc

/-- All parts of a statement are assignments, the declaration that it is, or spelled
in its phrase. -/
theorem Phrase.every_of_statement {p : Expr → Prop} (h : Phrase .statement w a)
    (hassign : ∀ target value, p (.assign target value))
    (hdeclare : ∀ {name params body}, .identifier name ∈ w → body.Every (Spelled w) →
      p (.declare name params body))
    (hspelled : ∀ {e}, Spelled w e → p e) : a.Every p := by
  cases h with
  | join _ ht _ => cases ht
  | ofAssignment h => exact h.every_of_assignment hassign hspelled
  | @declare name params v body hbody =>
      have hparts : body.Every (Spelled (.keywordFn :: .identifier name :: .leftParen ::
          parameterTokens params ++ .rightParen :: .assign :: v)) :=
        every_spelled_mono (hbody.every_spelled rfl) fun t ht => by simp [ht]
      refine .intro (hdeclare (by simp) hparts) fun c hmem => ?_
      cases List.mem_singleton.mp hmem
      exact hparts.mono hspelled

end UnitCalc.Grammar
