import UnitCalc.Evaluation
import Mathlib

/-!
# Evaluation ends

Evaluation by its recursion equations alone, with no bound on the number of steps.
`evalStep` says what is done with one expression; everything that has to be
evaluated for it is left to a parameter. The pairs of a chain of scopes and an
expression that the parameter is asked for are the invocations.

An invocation stays in the chain and goes into a smaller expression, or it goes
into the body of a function, of whatever size, with one scope more in the chain, and
it does that only as long as there are fewer than the limit. So the pair of the
calls that may still be opened and the size of the expression goes down
lexicographically, there is no infinite descent, and the equations have one
solution: `eval`.
-/

namespace UnitCalc

namespace Expr

/-- The parts of an expression that evaluation goes into. The target of an
assignment and the body of a declaration are not among them. -/
def operands : Expr → List Expr
  | .unary _ operand => [operand]
  | .binary _ left right => [left, right]
  | .assign _ value => [value]
  | .ternary condition onTrue onFalse => [condition, onTrue, onFalse]
  | .call _ args => args
  | .convert operand _ => [operand]
  | _ => []

mutual

/-- The number of expressions that an expression is made of, itself included. -/
def size : Expr → Nat
  | .integer _ | .real _ | .quantity .. | .text _ | .var _ => 1
  | .unary _ operand => operand.size + 1
  | .binary _ left right => left.size + right.size + 1
  | .assign target value => target.size + value.size + 1
  | .ternary condition onTrue onFalse => condition.size + onTrue.size + onFalse.size + 1
  | .declare _ _ body => body.size + 1
  | .call _ args => sizeAll args + 1
  | .convert operand _ => operand.size + 1

def sizeAll : List Expr → Nat
  | [] => 0
  | e :: es => e.size + sizeAll es

end

theorem size_le_sizeAll {e : Expr} {es : List Expr} (h : e ∈ es) : e.size ≤ sizeAll es := by
  induction es with
  | nil => cases h
  | cons first es ih =>
      rw [sizeAll]
      rcases List.mem_cons.mp h with rfl | h
      · exact Nat.le_add_right _ _
      · exact Nat.le_add_left_of_le (ih h)

theorem size_lt_of_mem_operands {e part : Expr} (h : part ∈ e.operands) :
    part.size < e.size := by
  cases e with
  | unary | convert | assign =>
      cases List.mem_singleton.mp h
      rw [size]
      omega
  | binary op left right =>
      simp only [operands, List.mem_cons, List.not_mem_nil, or_false] at h
      rw [size]
      rcases h with rfl | rfl <;> omega
  | ternary condition onTrue onFalse =>
      simp only [operands, List.mem_cons, List.not_mem_nil, or_false] at h
      rw [size]
      rcases h with rfl | rfl | rfl <;> omega
  | call name args =>
      rw [size]
      exact Nat.lt_succ_of_le (size_le_sizeAll h)
  | _ => cases h

end Expr

open Eval

/-! ## The recursion equations -/

/-- What is done with one expression. All that is evaluated for it is left to
`run`. -/
def evalStep (limit : Nat) (run : List Scope → Expr → Eval Value) (outer : List Scope) :
    Expr → Eval Value
  | .integer n => pure (.integer n)
  | .real x => pure (.real x)
  | .quantity x unit => pure (.quantity x unit)
  | .text s => pure (.text s)
  | .var name => lookup outer name
  | .unary op operand => do
      let v ← run outer operand
      ofExcept (v.unary op)
  | .binary op left right => do
      let l ← run outer left
      let r ← run outer right
      ofExcept (l.binary op r)
  | .assign target value => do
      let v ← run outer value
      bindTarget v target
      return v
  | .ternary condition onTrue onFalse => do
      let c ← run outer condition
      match c.truth? with
      | none => throw .undecidedCondition
      | some true => run outer onTrue
      | some false => run outer onFalse
  | .declare name params body => do
      declare ⟨name, params, body⟩
      return .function
  | .call name args =>
      match Builtin.ofName? name with
      | some builtin => do
          requireArity name builtin.arity args.length
          let values ← args.mapM (run outer)
          ofExcept (builtin.apply values)
      | none => do
          match (← get).functions.get? name with
          | none => throw (.unknownFunction name)
          | some f =>
              requireArity name f.params.length args.length
              let values ← args.mapM (run outer)
              (if outer.length < limit then openCall outer run else refuseCall limit) f values
  | .convert operand unit => do
      let v ← run outer operand
      ofExcept (v.convertTo unit)

theorem evalArgs_eq_mapM (apply : Function → List Value → Eval Value) (outer : List Scope)
    (args : List Expr) : evalArgs apply outer args = args.mapM (evalWith apply outer) := by
  induction args with
  | nil => rw [evalArgs, List.mapM_nil]
  | cons arg args ih => rw [evalArgs, List.mapM_cons, ih]

/-- Evaluation obeys its recursion equations. -/
theorem eval_eq_evalStep (limit : Nat) (outer : List Scope) (e : Expr) :
    eval limit outer e = evalStep limit (eval limit) outer e := by
  have heval := eval_eq limit outer
  cases e with
  | integer | real | quantity | text | var | declare => rw [heval, evalWith, evalStep]
  | unary | binary | assign | convert => rw [heval, evalWith, evalStep, heval]
  | ternary =>
      rewrite [heval, evalWith, evalStep, heval]
      rfl
  | call name args =>
      rewrite [heval, evalWith, evalStep, evalArgs_eq_mapM, heval]
      rfl

/-! ## Invocations -/

/-- `Invokes limit outer e outer' e'`: for `e` in the chain `outer`, it may come to
evaluating `e'` in the chain `outer'`. -/
inductive Invokes (limit : Nat) (outer : List Scope) : Expr → List Scope → Expr → Prop
  | operand {e part : Expr} (h : part ∈ e.operands) : Invokes limit outer e outer part
  /-- What a call goes into can be any expression: functions may be declared anew
  while the arguments are evaluated. -/
  | body {name : String} {args : List Expr} (room : outer.length < limit) (caller : Scope)
      (body : Expr) : Invokes limit outer (.call name args) (caller :: outer) body

variable {limit : Nat} {outer outer' : List Scope} {e e' : Expr}
  {run run' : List Scope → Expr → Eval Value}

theorem mapM_congr_run (args : List Expr) (h : ∀ arg ∈ args, run outer arg = run' outer arg) :
    args.mapM (run outer) = args.mapM (run' outer) := by
  induction args with
  | nil => rfl
  | cons arg args ih =>
      rw [List.forall_mem_cons] at h
      rw [List.mapM_cons, List.mapM_cons, h.1, ih h.2]

/-- Nothing is evaluated for an expression but its invocations. -/
theorem evalStep_congr
    (h : ∀ outer' e', Invokes limit outer e outer' e' → run outer' e' = run' outer' e') :
    evalStep limit run outer e = evalStep limit run' outer e := by
  have operand : ∀ part ∈ e.operands, run outer part = run' outer part :=
    fun part hpart => h outer part (.operand hpart)
  cases e with
  | integer | real | quantity | text | var | declare => rw [evalStep, evalStep]
  | unary op a => rw [evalStep, evalStep, operand a (by simp [Expr.operands])]
  | convert a unit => rw [evalStep, evalStep, operand a (by simp [Expr.operands])]
  | assign target a => rw [evalStep, evalStep, operand a (by simp [Expr.operands])]
  | binary op a b =>
      rw [evalStep, evalStep, operand a (by simp [Expr.operands]),
        operand b (by simp [Expr.operands])]
  | ternary a b c =>
      rw [evalStep, evalStep, operand a (by simp [Expr.operands]),
        operand b (by simp [Expr.operands]), operand c (by simp [Expr.operands])]
  | call name args =>
      rw [evalStep, evalStep, mapM_congr_run args operand]
      by_cases room : outer.length < limit
      · have bodies : ∀ caller, run (caller :: outer) = run' (caller :: outer) :=
          fun caller => funext fun body => h _ _ (.body room caller body)
        rw [openCall_congr bodies]
      · simp only [if_neg room]

/-- How much is left to evaluate: first the calls that may still be opened, then the
size of the expression. -/
def workLeft (limit : Nat) (outer : List Scope) (e : Expr) : Nat × Nat :=
  (limit - outer.length, e.size)

theorem Invokes.workLeft_lt (h : Invokes limit outer e outer' e') :
    Prod.Lex (· < ·) (· < ·) (workLeft limit outer' e') (workLeft limit outer e) := by
  cases h with
  | operand h => exact .right _ (Expr.size_lt_of_mem_operands h)
  | body room caller body =>
      refine .left _ _ ?_
      rw [List.length_cons]
      omega

/-- No evaluation goes down forever. -/
theorem wellFounded_invokes (limit : Nat) :
    WellFounded fun next here : List Scope × Expr =>
      Invokes limit here.1 here.2 next.1 next.2 := by
  refine Subrelation.wf (r := InvImage (Prod.Lex (· < ·) (· < ·))
    fun here : List Scope × Expr => workLeft limit here.1 here.2) (fun h => h.workLeft_lt) ?_
  exact InvImage.wf _ (WellFounded.prod_lex Nat.lt_wfRel.wf Nat.lt_wfRel.wf)

/-- The recursion equations leave no choice. -/
theorem eq_eval_of_eq_evalStep (h : ∀ outer e, run outer e = evalStep limit run outer e) :
    run = eval limit := by
  have agrees : ∀ here : List Scope × Expr, run here.1 here.2 = eval limit here.1 here.2 := by
    intro here
    induction here using (wellFounded_invokes limit).induction with
    | h here ih =>
        rw [h, eval_eq_evalStep]
        exact evalStep_congr fun outer' e' hinvokes => ih (outer', e') hinvokes
  funext outer e
  exact agrees (outer, e)

/-! ## The limit -/

/-- With no room for another call, a call fails once its arguments are evaluated. -/
theorem eval_call_of_full (full : limit ≤ outer.length) {name : String} {args : List Expr}
    {f : Function} {values : List Value} {m after : Machine}
    (hbuiltin : Builtin.ofName? name = none) (hf : m.functions.get? name = some f)
    (harity : f.params.length = args.length)
    (hargs : args.mapM (eval limit outer) m = .ok values after) :
    eval limit outer (.call name args) m =
      .error (.tooDeep f.name limit)
        { after with journal := .depthExceeded f.name :: after.journal } := by
  have hstep : evalStep limit (eval limit) outer (.call name args) m =
      EStateM.bind (args.mapM (eval limit outer)) (fun values => refuseCall limit f values) m := by
    have hroom : ¬ outer.length < limit := Nat.not_lt.mpr full
    have hget : (get : Eval Machine) m = .ok m m := rfl
    simp only [evalStep, hbuiltin, bind, EStateM.bind, hget, hf, requireArity, harity, if_true,
      if_neg hroom]
    rfl
  rw [eval_eq_evalStep, hstep, EStateM.bind, hargs]
  rfl

/-- **Evaluation always ends.** It obeys its recursion equations, which evaluate
nothing for an expression but its invocations. At every invocation the calls left,
and then the size of the expression, go down lexicographically, so that invocations
never go on forever and no other evaluation obeys the equations: no count of steps has
a part in it. An invocation stays in its chain, or opens a call one deeper than its
caller and at most 256 deep; a call at that depth fails, and no body is evaluated for
it. -/
theorem eval_terminates :
    (∀ outer e, eval callDepthLimit outer e =
        evalStep callDepthLimit (eval callDepthLimit) outer e) ∧
      (∀ run run' outer e,
        (∀ outer' e', Invokes callDepthLimit outer e outer' e' → run outer' e' = run' outer' e') →
          evalStep callDepthLimit run outer e = evalStep callDepthLimit run' outer e) ∧
      (∀ outer e outer' e', Invokes callDepthLimit outer e outer' e' →
        Prod.Lex (· < ·) (· < ·) (256 - outer'.length, e'.size) (256 - outer.length, e.size) ∧
          (outer' = outer ∨ ∃ caller, outer' = caller :: outer ∧ outer'.length ≤ 256)) ∧
      (WellFounded fun next here : List Scope × Expr =>
        Invokes callDepthLimit here.1 here.2 next.1 next.2) ∧
      (∀ run, (∀ outer e, run outer e = evalStep callDepthLimit run outer e) →
        run = eval callDepthLimit) ∧
      ∀ outer name args f values m after, 256 ≤ outer.length →
        Builtin.ofName? name = none → m.functions.get? name = some f →
        f.params.length = args.length →
        args.mapM (eval callDepthLimit outer) m = .ok values after →
          eval callDepthLimit outer (.call name args) m =
              .error (.tooDeep f.name 256)
                { after with journal := .depthExceeded f.name :: after.journal } ∧
            ∀ outer' e', Invokes callDepthLimit outer (.call name args) outer' e' →
              outer' = outer ∧ e' ∈ args := by
  refine ⟨eval_eq_evalStep callDepthLimit, fun run run' outer e => evalStep_congr,
    fun outer e outer' e' h => ⟨h.workLeft_lt, ?_⟩, wellFounded_invokes callDepthLimit,
    fun run => eq_eval_of_eq_evalStep, ?_⟩
  · cases h with
    | operand => exact .inl rfl
    | body room caller body => exact .inr ⟨caller, rfl, room⟩
  · intro outer name args f values m after full hbuiltin hf harity hargs
    refine ⟨eval_call_of_full full hbuiltin hf harity hargs, fun outer' e' h => ?_⟩
    cases h with
    | operand h => exact ⟨rfl, h⟩
    | body room => exact absurd room (Nat.not_lt.mpr full)

end UnitCalc
