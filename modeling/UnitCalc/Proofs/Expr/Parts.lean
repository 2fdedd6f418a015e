import UnitCalc.Expr

/-!
# Parts of expressions

A property of all parts of an expression, however deep they lie, is one of the
expression and of all parts of its children. The body of a declaration counts as a
part of it.
-/

namespace UnitCalc.Expr

/-- The expressions that an expression is directly made of. -/
def children : Expr → List Expr
  | .integer _ | .real _ | .quantity .. | .text _ | .var _ => []
  | .unary _ operand => [operand]
  | .binary _ left right => [left, right]
  | .assign target value => [target, value]
  | .ternary condition onTrue onFalse => [condition, onTrue, onFalse]
  | .declare _ _ body => [body]
  | .call _ args => args
  | .convert operand _ => [operand]

/-- `p` holds of the expression and of all its parts. -/
inductive Every (p : Expr → Prop) : Expr → Prop
  | intro {e : Expr} (here : p e) (below : ∀ c ∈ e.children, Every p c) : Every p e

/-- Neither an assignment nor a declaration. -/
def Plain : Expr → Prop
  | .assign .. | .declare .. => False
  | _ => True

variable {p q : Expr → Prop} {e : Expr}

namespace Every

theorem here (h : Every p e) : p e := by
  cases h with
  | intro here _ => exact here

theorem child (h : Every p e) {c : Expr} (hc : c ∈ e.children) : Every p c := by
  cases h with
  | intro _ below => exact below c hc

theorem mono (h : Every p e) (hpq : ∀ {e}, p e → q e) : Every q e := by
  induction h with
  | intro here _ ih => exact .intro (hpq here) ih

theorem and (hp : Every p e) (hq : Every q e) : Every (fun e => p e ∧ q e) e := by
  induction hp with
  | intro here _ ih => exact .intro ⟨here, hq.here⟩ fun c hc => ih c hc (hq.child hc)

theorem leaf (h : p e) (hc : e.children = []) : Every p e := by
  refine .intro h fun c hmem => ?_
  rw [hc] at hmem
  cases hmem

theorem of_forall (h : ∀ e, p e) (e : Expr) : Every p e := by
  induction e with
  | call name args ih => exact .intro (h _) ih
  | _ => exact .intro (h _) (by simp_all [children])

end Every

end UnitCalc.Expr
