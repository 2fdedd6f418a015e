import UnitCalc.Proofs.Grammar.Complete
import UnitCalc.Proofs.Grammar.Spelling

/-!
# Expressions that can be written

Assignments and declarations stand at the top of what the grammar reads: a statement
declares a function, or it is a chain of assignments over expressions that hold
neither. Every expression of that shape can be written, whatever the operators in it,
because an operand in parentheses fits every place for an operand.
-/

namespace UnitCalc

open Grammar

/-! ## Shapes -/

namespace Expr

/-- Assignments nested to the right, possibly none, over expressions in which no
assignment and no declaration occurs. -/
inductive AssignmentChain : Expr → Prop
  | plain {e : Expr} (h : e.Every Plain) : AssignmentChain e
  | assign {target value : Expr} (htarget : target.Every Plain)
      (hvalue : AssignmentChain value) : AssignmentChain (.assign target value)

/-- The expression has the shape of a statement. -/
inductive WellShaped : Expr → Prop
  | chain {e : Expr} (h : AssignmentChain e) : WellShaped e
  | declare (name : String) (params : List String) {body : Expr} (hbody : body.Every Plain) :
      WellShaped (.declare name params body)

end Expr

/-! ## Writing an expression -/

def UnaryOp.token : UnaryOp → Token
  | .negate => .sign .minus
  | .not => .sign .bang

def BinaryOp.token : BinaryOp → Token
  | .add => .sign .plus
  | .sub => .sign .minus
  | .mul => .sign .star
  | .div => .sign .slash
  | .less => .sign .less
  | .greater => .sign .greater
  | .lessEqual => .sign .lessEqual
  | .greaterEqual => .sign .greaterEqual
  | .equal => .sign .equalEqual
  | .notEqual => .sign .bangEqual

namespace Expr

/-- Tokens in parentheses. -/
def grouped (w : List Token) : List Token := .leftParen :: w ++ [.rightParen]

mutual

/-- The tokens of an expression. Every operand is put in parentheses, so no operator
depends on another for how it groups. -/
def unparse : Expr → List Token
  | .integer n => [.integer n]
  | .real x => [.real x]
  | .quantity x unit => [.quantity x unit]
  | .text s => [.text s]
  | .var name => [.identifier name]
  | .unary op operand => op.token :: grouped operand.unparse
  | .binary op left right => grouped left.unparse ++ op.token :: grouped right.unparse
  | .assign target value => target.unparse ++ .assign :: value.unparse
  | .ternary condition onTrue onFalse =>
      grouped condition.unparse ++ .sign .question :: grouped onTrue.unparse ++
        .sign .colon :: grouped onFalse.unparse
  | .declare name params body =>
      .keywordFn :: .identifier name :: grouped (parameterTokens params) ++
        .assign :: body.unparse
  | .call name args => .identifier name :: grouped (unparseArgs args)
  | .convert operand unit => grouped operand.unparse ++ [.keywordTo, .unit unit]

/-- Arguments with commas between them. -/
def unparseArgs : List Expr → List Token
  | [] => []
  | arg :: args => arg.unparse ++ unparseMore args

/-- Arguments after the first, each with its comma. -/
def unparseMore : List Expr → List Token
  | [] => []
  | arg :: args => .comma :: arg.unparse ++ unparseMore args

end

end Expr

namespace Grammar

open UnitCalc.Expr (AssignmentChain Plain WellShaped)

/-! ## What is read has the shape of a statement -/

theorem Phrase.assignmentChain {w : List Token} {a : Expr}
    (h : Phrase .assignment w a) : AssignmentChain a := by
  generalize hc : Category.assignment = c at h
  induction h with
  | ofExpression h => exact .plain (h.every_plain rfl)
  | assign hv _ _ ih => exact .assign (hv.every_plain rfl) (ih rfl)
  | join _ ht => cases hc; cases ht
  | _ => cases hc

theorem Phrase.wellShaped {w : List Token} {a : Expr}
    (h : Phrase .statement w a) : WellShaped a := by
  cases h with
  | ofAssignment h => exact .chain h.assignmentChain
  | declare name params h => exact .declare name params (h.every_plain rfl)
  | join _ ht => cases ht

/-! ## What is written is read back -/

variable {v w : List Token} {a b : Expr}

theorem Phrase.grouped (h : Phrase .expression w a) :
    Phrase .unary (Expr.grouped w) a :=
  .ofPrimary (.group h)

theorem Phrase.expression_of_additive (h : Phrase .additive w a) :
    Phrase .expression w a :=
  .ofComparison (.ofConversion (.ofAdditive h))

theorem Phrase.expression_of_unary (h : Phrase .unary w a) :
    Phrase .expression w a :=
  expression_of_additive (.ofMultiplicative (.ofUnary h))

/-- Operands that bind tighter than any operator can be joined by each of them. -/
theorem Phrase.joined (op : BinaryOp) (hv : Phrase .unary v a)
    (hw : Phrase .unary w b) : Phrase .expression (v ++ op.token :: w) (.binary op a b) := by
  have hfactor : Phrase .multiplicative v a := .ofUnary hv
  have hterm : Phrase .additive v a := .ofMultiplicative hfactor
  have hcompared : Phrase .comparison v a := .ofConversion (.ofAdditive hterm)
  have hfactor' : Phrase .multiplicative w b := .ofUnary hw
  have hterm' : Phrase .additive w b := .ofMultiplicative hfactor'
  cases op with
  | mul => exact expression_of_additive (.ofMultiplicative (.join hfactor .star hw))
  | div => exact expression_of_additive (.ofMultiplicative (.join hfactor .slash hw))
  | add => exact expression_of_additive (.join hterm .plus hfactor')
  | sub => exact expression_of_additive (.join hterm .minus hfactor')
  | less => exact .ofComparison (.join hcompared .less hterm')
  | greater => exact .ofComparison (.join hcompared .greater hterm')
  | lessEqual => exact .ofComparison (.join hcompared .lessEqual hterm')
  | greaterEqual => exact .ofComparison (.join hcompared .greaterEqual hterm')
  | equal => exact .ofComparison (.join hcompared .equal hterm')
  | notEqual => exact .ofComparison (.join hcompared .notEqual hterm')

/-- Further arguments go on with an open call. -/
theorem Phrase.unparseMore {name : String} {first more : List Expr}
    (h : Phrase .openCall w (.call name first))
    (hmore : ∀ arg ∈ more, Phrase .expression arg.unparse arg) :
    Phrase .openCall (w ++ Expr.unparseMore more) (.call name (first ++ more)) := by
  induction more generalizing w first with
  | nil => simpa [Expr.unparseMore] using h
  | cons arg more ih =>
      have harg := hmore arg List.mem_cons_self
      have hrest := ih (.nextArgument h harg) fun a ha => hmore a (List.mem_cons_of_mem _ ha)
      rw [Expr.unparseMore]
      simpa using hrest

theorem phrase_call (name : String) {args : List Expr}
    (h : ∀ arg ∈ args, Phrase .expression arg.unparse arg) :
    Phrase .expression (Expr.call name args).unparse (.call name args) := by
  rw [Expr.unparse]
  refine Phrase.expression_of_unary (.ofPrimary ?_)
  cases args with
  | nil =>
      rw [Expr.unparseArgs]
      exact .emptyCall name
  | cons first more =>
      have hopen : Phrase .openCall _ (.call name [first]) :=
        .firstArgument name (h first List.mem_cons_self)
      have hall := hopen.unparseMore fun a ha => h a (List.mem_cons_of_mem _ ha)
      have hcall := Phrase.call hall
      rw [Expr.unparseArgs]
      simpa [Expr.grouped] using hcall

theorem phrase_unparse {e : Expr} (he : e.Every Plain) : Phrase .expression e.unparse e := by
  induction e with
  | integer n => exact Phrase.expression_of_unary (.ofPrimary (.integer n))
  | real x => exact Phrase.expression_of_unary (.ofPrimary (.real x))
  | quantity x unit => exact Phrase.expression_of_unary (.ofPrimary (.quantity x unit))
  | text s => exact Phrase.expression_of_unary (.ofPrimary (.text s))
  | var name => exact Phrase.expression_of_unary (.ofPrimary (.var name))
  | unary op operand ih =>
      have hoperand := (ih (he.child (by simp [Expr.children]))).grouped
      refine Phrase.expression_of_unary ?_
      rw [Expr.unparse]
      cases op with
      | negate => exact .minus hoperand
      | not => exact .bang hoperand
  | binary op left right ihl ihr =>
      have hleft := (ihl (he.child (by simp [Expr.children]))).grouped
      have hright := (ihr (he.child (by simp [Expr.children]))).grouped
      rw [Expr.unparse]
      exact hleft.joined op hright
  | ternary condition onTrue onFalse ihc iht ihf =>
      have hcondition := (ihc (he.child (by simp [Expr.children]))).grouped
      have htrue := (iht (he.child (by simp [Expr.children]))).grouped
      have hfalse := (ihf (he.child (by simp [Expr.children]))).grouped
      rw [Expr.unparse]
      exact .ternary (.ofConversion (.ofAdditive (.ofMultiplicative (.ofUnary hcondition))))
        htrue.expression_of_unary hfalse.expression_of_unary
  | call name args ih => exact phrase_call name fun arg harg => ih arg harg (he.child harg)
  | convert operand unit ih =>
      have hoperand := (ih (he.child (by simp [Expr.children]))).grouped
      rw [Expr.unparse]
      exact .ofComparison (.ofConversion
        (.convert (.ofAdditive (.ofMultiplicative (.ofUnary hoperand))) unit))
  | assign | declare => exact he.here.elim

theorem phrase_assignmentChain {e : Expr} (h : AssignmentChain e) :
    Phrase .assignment e.unparse e := by
  induction h with
  | plain h => exact .ofExpression (phrase_unparse h)
  | assign htarget _ ih =>
      rw [Expr.unparse]
      exact .assign (phrase_unparse htarget) ih

theorem phrase_statement_of_wellShaped {e : Expr} (h : WellShaped e) :
    Phrase .statement e.unparse e := by
  cases h with
  | chain h => exact .ofAssignment (phrase_assignmentChain h)
  | declare name params hbody =>
      have hdeclare := Phrase.declare name params (phrase_unparse hbody)
      rw [Expr.unparse]
      simpa [Expr.grouped] using hdeclare

/-- **What can be parsed is what has the shape of a statement.** Whatever the tokens,
the expression that they are parsed as has it, and every expression that has it is
what its own tokens are parsed as. -/
theorem wellShaped_parse_unparse (e : Expr) :
    (∀ ts, Expr.parse ts = .ok e → e.WellShaped) ∧
      (e.WellShaped → Expr.parse (e.unparse ++ [.endOfInput]) = .ok e) := by
  constructor
  · intro ts h
    obtain ⟨w, rest, -, hw⟩ := phrase_of_parse h
    exact hw.wellShaped
  · intro h
    exact parse_of_phrase (phrase_statement_of_wellShaped h)

/-- A conversion on the right of a comparison, which is the condition of a conditional
that is an operand itself. -/
theorem wellShaped_parse_unparse_conversion :
    let compared : Expr := .binary .less (.var "a") (.convert (.var "b") "km")
    let chosen : Expr := .ternary (.ternary compared compared compared) (.var "a") (.var "b")
    let e : Expr := .assign (.var "x") (.binary .mul chosen (.unary .negate compared))
    e.WellShaped ∧ Expr.parse (e.unparse ++ [.endOfInput]) = .ok e := by
  intro compared chosen e
  have name (s : String) : (Expr.var s).Every Plain := .leaf trivial rfl
  have converted : (Expr.convert (.var "b") "km").Every Plain :=
    .intro trivial (by simpa [Expr.children] using name "b")
  have compared' : compared.Every Plain :=
    .intro trivial (by simpa [compared, Expr.children] using ⟨name "a", converted⟩)
  have condition : (Expr.ternary compared compared compared).Every Plain :=
    .intro trivial (by simpa [Expr.children] using compared')
  have chosen' : chosen.Every Plain :=
    .intro trivial (by simpa [chosen, Expr.children] using ⟨condition, name "a", name "b"⟩)
  have negated : (Expr.unary .negate compared).Every Plain :=
    .intro trivial (by simpa [Expr.children] using compared')
  have product : (Expr.binary .mul chosen (.unary .negate compared)).Every Plain :=
    .intro trivial (by simpa [Expr.children] using ⟨chosen', negated⟩)
  have shaped : e.WellShaped := .chain (.assign (name "x") (.plain product))
  exact ⟨shaped, (wellShaped_parse_unparse e).2 shaped⟩

end Grammar

end UnitCalc
