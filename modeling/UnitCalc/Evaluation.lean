import UnitCalc.Environment
import UnitCalc.Journal
import UnitCalc.Value.Comparison

/-!
# Evaluation

Evaluation is a computation on an environment that may fail, and that keeps what it did to the environment
when it fails. An expression is evaluated by recursion on its parts; what a call of a declared function
does is a parameter of that recursion. Calls nest only to a fixed depth, and evaluation proper is the
recursion on the number of calls that may still be opened: every call opens one, so whatever the declared
functions are, evaluation ends.
-/

namespace UnitCalc

/-- The state of a computation: the environment and the journal, newest event first. -/
structure Machine extends Environment where
  journal : List Event := []

/-- A computation on an environment. -/
abbrev Eval := EStateM EvalError Machine

namespace Eval

variable {α : Type}

def note (event : Event) : Eval Unit :=
  modify fun m => { m with journal := event :: m.journal }

def lookup (outer : List Scope) (name : String) : Eval Value := do
  match (← get).lookup? outer name with
  | some v => pure v
  | none => throw (.unboundVariable name)

/-- Puts a changed environment in the place of the present one. -/
def update (env : Environment) : Eval Unit :=
  modify fun m => { m with toEnvironment := env }

def assign (name : String) (value : Value) : Eval Unit := do
  note (.assigning name value)
  update (← ofExcept ((← get).toEnvironment.assign name value))

def declare (f : Function) : Eval Unit := do
  let env ← ofExcept ((← get).toEnvironment.declare f)
  if (Builtin.ofName? f.name).isSome then
    note (.shadowed f.name)
  note (.declared f.name f.params)
  update env

def requireArity (name : String) (expected found : Nat) : Eval Unit :=
  if expected = found then pure () else throw (.argumentCount name expected found)

/-- Computes with variables of its own. Whatever the outcome, the variables from before are back
afterwards; functions and journal are kept as the computation left them. -/
def inScope (locals : Scope) (body : Eval α) : Eval α := fun m =>
  match body { m with scope := locals } with
  | .ok a after => .ok a { after with scope := m.scope }
  | .error e after => .error e { after with scope := m.scope }

/-- Binds the variable that an assignment is aimed at. The target of an assignment to an assignment is
that of the inner one. -/
def bindTarget (value : Value) : Expr → Eval Unit
  | .var name => assign name value
  | .assign target _ => bindTarget value target
  | _ => throw .unassignable

end Eval

open Eval

mutual

/-- Evaluates an expression in the innermost scope, with the scopes around it; `apply` calls declared
functions. The number of arguments is checked before any of them is evaluated. -/
def evalWith (apply : Function → List Value → Eval Value) (outer : List Scope) : Expr → Eval Value
  | .integer n => pure (.integer n)
  | .real x => pure (.real x)
  | .quantity x unit => pure (.quantity x unit)
  | .text s => pure (.text s)
  | .var name => lookup outer name
  | .unary op operand => do
    let v ← evalWith apply outer operand
    ofExcept (v.unary op)
  | .binary op left right => do
    let l ← evalWith apply outer left
    let r ← evalWith apply outer right
    ofExcept (l.binary op r)
  | .assign target value => do
    let v ← evalWith apply outer value
    bindTarget v target
    return v
  | .ternary condition onTrue onFalse => do
    let c ← evalWith apply outer condition
    match c.truth? with
    | none => throw .undecidedCondition
    | some true => evalWith apply outer onTrue
    | some false => evalWith apply outer onFalse
  | .declare name params body => do
    declare ⟨name, params, body⟩
    return .function
  | .call name args =>
    match Builtin.ofName? name with
    | some builtin => do
      requireArity name builtin.arity args.length
      let values ← evalArgs apply outer args
      ofExcept (builtin.apply values)
    | none => do
      match (← get).functions.get? name with
      | none => throw (.unknownFunction name)
      | some f =>
        requireArity name f.params.length args.length
        let values ← evalArgs apply outer args
        apply f values
  | .convert operand unit => do
    let v ← evalWith apply outer operand
    ofExcept (v.convertTo unit)

/-- Evaluates arguments from left to right. -/
def evalArgs (apply : Function → List Value → Eval Value) (outer : List Scope) :
    List Expr → Eval (List Value)
  | [] => pure []
  | arg :: args => do
    let v ← evalWith apply outer arg
    let vs ← evalArgs apply outer args
    return v :: vs

end

/-- Calls a declared function: its body is run with the parameters as innermost scope and the caller's
scope added to those around it. -/
def openCall (outer : List Scope) (run : List Scope → Expr → Eval Value) (f : Function)
    (values : List Value) : Eval Value := do
  note (.calling f.name (outer.length + 1))
  let caller := (← get).scope
  inScope (.ofPairs (f.params.zip values)) (run (caller :: outer) f.body)

/-- A call that would nest too deep does not run the body. -/
def refuseCall (limit : Nat) (f : Function) (_ : List Value) : Eval Value := do
  note (.depthExceeded f.name)
  throw (.tooDeep f.name limit)

/-- Evaluation that may still open `calls` nested calls. -/
def evalCalls (limit : Nat) : (calls : Nat) → (outer : List Scope) → Expr → Eval Value
  | 0, outer => evalWith (refuseCall limit) outer
  | calls + 1, outer => evalWith (openCall outer (evalCalls limit calls)) outer

/-- Evaluates an expression with calls nested at most `limit` deep. A scope around the innermost one is a
call that is open already. -/
def eval (limit : Nat) (outer : List Scope) (e : Expr) : Eval Value :=
  evalCalls limit (limit - outer.length) outer e

theorem openCall_congr {outer : List Scope} {run run' : List Scope → Expr → Eval Value}
    (h : ∀ caller, run (caller :: outer) = run' (caller :: outer)) :
    openCall outer run = openCall outer run' := by
  funext f values
  simp only [openCall, h]

/-- Evaluation goes through expressions, and a call goes on to evaluate a body one scope further in, as
long as the limit is not reached. -/
theorem eval_eq (limit : Nat) (outer : List Scope) :
    eval limit outer =
      evalWith (if outer.length < limit then openCall outer (eval limit) else refuseCall limit)
        outer := by
  funext e
  by_cases h : outer.length < limit
  · obtain ⟨calls, hcalls⟩ := Nat.exists_eq_add_of_lt h
    have here : limit - outer.length = calls + 1 := by omega
    have inside : ∀ caller : Scope,
        evalCalls limit calls (caller :: outer) = eval limit (caller :: outer) := by
      intro caller
      funext body
      have : limit - (caller :: outer).length = calls := by rw [List.length_cons]; omega
      simp only [eval, this]
    simp only [eval, here, evalCalls, if_pos h]
    rw [openCall_congr inside]
  · have here : limit - outer.length = 0 := by omega
    simp only [eval, here, evalCalls, if_neg h]

/-- How deep calls nest in a session. -/
def callDepthLimit : Nat := 256

end UnitCalc
