import UnitCalc.Evaluation

/-!
# Calls see a snapshot of their caller

A second evaluator, without a chain of scopes. It carries one flat map of
variables. A call copies the map of its caller, writes the parameters into the
copy, evaluates the body there and drops the copy; how deep calls are nested is
a counter.

The chain of scopes implements it. `flatten` reads a chain as one flat map, and
evaluation over the chain, looked at through `flatten`, is evaluation over the
flat map: value or error, functions and variables agree, whatever the expression
and wherever it fails (`eval_flatten`).
-/

namespace UnitCalc

/-- The state of the flat evaluator. -/
structure Flat where
  vars : String → Option Value
  functions : Bindings Function

namespace Flat

variable {α β : Type}

/-! ## The flat evaluator -/

/-- A computation on a flat map. -/
abbrev Run := EStateM EvalError Flat

/-- Constants come before the map. -/
def lookup (name : String) : Run Value := do
  match (constant? name).or ((← get).vars name) with
  | some v => pure v
  | none => throw (.unboundVariable name)

/-- A map with one name bound anew. -/
def rebind (vars : String → Option Value) (name : String) (value : Value) :
    String → Option Value :=
  fun other => if other = name then some value else vars other

/-- A map overwritten with bindings, in their order. -/
def overwrite (vars : String → Option Value) (pairs : List (String × Value)) :
    String → Option Value :=
  pairs.foldl (fun map pair => rebind map pair.1 pair.2) vars

def store (value : Value) : Expr → Run Unit
  | .var name =>
      if isConstant name then throw (.constantAssigned name)
      else modify fun s => { s with vars := rebind s.vars name value }
  | .assign target _ => store value target
  | _ => throw .unassignable

def declare (f : Function) : Run Unit :=
  if isConstant f.name then throw (.constantDeclared f.name)
  else modify fun s => { s with functions := s.functions.set f.name f }

def requireArity (name : String) (expected found : Nat) : Run Unit :=
  if expected = found then pure () else throw (.argumentCount name expected found)

/-- Computes on a copy of the map with some bindings overwritten. However the
computation ends, the map from before is back; functions stay as they are
then. -/
def inCopy (pairs : List (String × Value)) (body : Run α) : Run α := fun s =>
  match body { s with vars := overwrite s.vars pairs } with
  | .ok a after => .ok a { after with vars := s.vars }
  | .error e after => .error e { after with vars := s.vars }

mutual

/-- Evaluation on a flat map, inside `depth` calls of at most `limit`. -/
def eval (limit depth : Nat) : Expr → Run Value
  | .integer n => pure (.integer n)
  | .real x => pure (.real x)
  | .quantity x unit => pure (.quantity x unit)
  | .text s => pure (.text s)
  | .var name => lookup name
  | .unary op operand => do
      let v ← eval limit depth operand
      ofExcept (v.unary op)
  | .binary op left right => do
      let l ← eval limit depth left
      let r ← eval limit depth right
      ofExcept (l.binary op r)
  | .assign target value => do
      let v ← eval limit depth value
      store v target
      return v
  | .ternary condition onTrue onFalse => do
      let c ← eval limit depth condition
      match c.truth? with
      | none => throw .undecidedCondition
      | some true => eval limit depth onTrue
      | some false => eval limit depth onFalse
  | .declare name params body => do
      declare ⟨name, params, body⟩
      return .function
  | .call name args =>
      match Builtin.ofName? name with
      | some builtin => do
          requireArity name builtin.arity args.length
          let values ← evalAll limit depth args
          ofExcept (builtin.apply values)
      | none => do
          match (← get).functions.get? name with
          | none => throw (.unknownFunction name)
          | some f =>
              requireArity name f.params.length args.length
              let values ← evalAll limit depth args
              if depth < limit then
                inCopy (f.params.zip values) (eval limit (depth + 1) f.body)
              else throw (.tooDeep f.name limit)
  | .convert operand unit => do
      let v ← eval limit depth operand
      ofExcept (v.convertTo unit)
termination_by e => (limit - depth, sizeOf e)

def evalAll (limit depth : Nat) : List Expr → Run (List Value)
  | [] => pure []
  | arg :: args => do
      let v ← eval limit depth arg
      let vs ← evalAll limit depth args
      return v :: vs
termination_by args => (limit - depth, sizeOf args)

end

/-! ## A chain of scopes as a flat map -/

/-- The map that a chain of scopes stands for: of two bindings of a name the
inner one counts. -/
def flatten (outer : List Scope) (m : Machine) : Flat :=
  ⟨m.toEnvironment.binding? outer, m.functions⟩

@[simp] theorem flatten_functions (outer : List Scope) (m : Machine) :
    (flatten outer m).functions = m.functions := rfl

/-- The variables of the session, outermost in a chain. -/
def globals (outer : List Scope) (m : Machine) : Scope :=
  (m.scope :: outer).getLast (List.cons_ne_nil _ _)

/-- The end of a computation, its state looked at through `view`. -/
def throughView {ε σ τ : Type} (view : σ → τ) :
    EStateM.Result ε σ α → EStateM.Result ε τ α
  | .ok a s => .ok a (view s)
  | .error e s => .error e (view s)

/-- The state at the end of a computation. -/
def endState {ε σ : Type} : EStateM.Result ε σ α → σ
  | .ok _ s | .error _ s => s

theorem binding?_cons (env : Environment) (outer : List Scope) (name : String) :
    env.binding? outer name =
      (env.scope.get? name).or (outer.findSome? fun s => s.get? name) := by
  unfold Environment.binding?
  rw [List.findSome?_cons]
  cases env.scope.get? name <;> rfl

theorem binding?_set (env : Environment) (outer : List Scope) (name : String)
    (value : Value) :
    Environment.binding? { env with scope := env.scope.set name value } outer =
      rebind (env.binding? outer) name value := by
  funext other
  simp only [binding?_cons, rebind, Bindings.get?_set]
  split <;> rfl

/-- Binding pairs in a scope of their own, over the chain, is overwriting them
in the flat map. -/
theorem or_get?_foldl_set (pairs : List (String × Value))
    (base : String → Option Value) (locals : Scope) (name : String) :
    ((pairs.foldl (fun b pair => b.set pair.1 pair.2) locals).get? name).or
        (base name) =
      overwrite (fun other => (locals.get? other).or (base other)) pairs name := by
  induction pairs generalizing locals with
  | nil => rfl
  | cons pair rest ih =>
      simp only [List.foldl_cons, overwrite]
      rw [ih]
      congr 1
      funext other
      simp only [rebind, Bindings.get?_set]
      split <;> rfl

theorem binding?_ofPairs (env : Environment) (outer : List Scope)
    (pairs : List (String × Value)) :
    Environment.binding? { env with scope := .ofPairs pairs } (env.scope :: outer) =
      overwrite (env.binding? outer) pairs := by
  funext name
  rw [binding?_cons]
  exact or_get?_foldl_set pairs (env.binding? outer) .empty name

/-! ## The simulation -/

/-- `flat` does on the flat map what `chained` does on the chain. -/
def Simulates (outer : List Scope) (flat : Run α) (chained : Eval α) : Prop :=
  ∀ m, flat (flatten outer m) = throughView (flatten outer) (chained m)

variable {outer : List Scope}

theorem simulates_pure (a : α) : Simulates outer (pure a) (pure a) :=
  fun _ => rfl

theorem simulates_throw (e : EvalError) :
    Simulates outer (throw e : Run α) (throw e) :=
  fun _ => rfl

theorem simulates_bind {x : Run α} {y : Eval α} {f : α → Run β} {g : α → Eval β}
    (hx : Simulates outer x y) (hf : ∀ a, Simulates outer (f a) (g a)) :
    Simulates outer (x >>= f) (y >>= g) := by
  intro m
  have hm := hx m
  show EStateM.bind x f (flatten outer m) =
    throughView (flatten outer) (EStateM.bind y g m)
  unfold EStateM.bind
  cases hy : y m with
  | ok a after =>
      rw [hm, hy]
      exact hf a after
  | error e after =>
      rw [hm, hy]
      rfl

theorem simulates_get {x : Flat → Run α} {y : Machine → Eval α}
    (h : ∀ m, x (flatten outer m) (flatten outer m) =
      throughView (flatten outer) (y m m)) :
    Simulates outer (get >>= x) (get >>= y) :=
  h

theorem simulates_ofExcept (r : Except EvalError α) :
    Simulates outer (ofExcept r) (ofExcept r) := by
  cases r with
  | ok a => exact simulates_pure a
  | error e => exact simulates_throw e

/-- The journal is no part of the flat state. -/
theorem simulates_note_bind (event : Event) {x : Run α} {y : Eval α}
    (h : Simulates outer x y) :
    Simulates outer x (Eval.note event >>= fun _ => y) :=
  fun m => h { m with journal := event :: m.journal }

theorem simulates_requireArity (name : String) (expected found : Nat) :
    Simulates outer (requireArity name expected found)
      (Eval.requireArity name expected found) := by
  unfold requireArity Eval.requireArity
  split
  · exact simulates_pure ()
  · exact simulates_throw _

theorem simulates_lookup (name : String) :
    Simulates outer (lookup name) (Eval.lookup outer name) := by
  refine simulates_get fun m => ?_
  have same : (constant? name).or ((flatten outer m).vars name) =
      m.toEnvironment.lookup? outer name := rfl
  rw [same]
  cases m.toEnvironment.lookup? outer name with
  | none => exact simulates_throw _ m
  | some v => exact simulates_pure v m

theorem simulates_assign (name : String) (value : Value) :
    Simulates outer (store value (.var name)) (Eval.assign name value) := by
  refine simulates_note_bind _ fun m => ?_
  unfold store
  by_cases hc : isConstant name = true
  · have refused : m.toEnvironment.assign name value =
        .error (.constantAssigned name) := by
      simp only [Environment.assign, if_pos hc]
    show _ = throughView _ (EStateM.bind (ofExcept
      (m.toEnvironment.assign name value)) Eval.update m)
    rw [refused, if_pos hc]
    rfl
  · have bound : m.toEnvironment.assign name value =
        .ok { m.toEnvironment with scope := m.scope.set name value } := by
      simp only [Environment.assign, if_neg hc]
    show _ = throughView _ (EStateM.bind (ofExcept
      (m.toEnvironment.assign name value)) Eval.update m)
    rw [bound, if_neg hc]
    show EStateM.Result.ok () (Flat.mk (rebind (m.toEnvironment.binding? outer)
      name value) m.functions) = _
    rw [← binding?_set]
    rfl

theorem simulates_bindTarget (value : Value) (target : Expr) :
    Simulates outer (store value target) (Eval.bindTarget value target) := by
  induction target with
  | var name => exact simulates_assign name value
  | assign target _ ih => exact ih
  | _ => exact simulates_throw _

theorem simulates_declare (f : Function) :
    Simulates outer (declare f) (Eval.declare f) := by
  intro m
  unfold declare
  by_cases hc : isConstant f.name = true
  · have refused : m.toEnvironment.declare f =
        .error (.constantDeclared f.name) := by
      simp only [Environment.declare, if_pos hc]
    show _ = throughView _ (EStateM.bind (ofExcept
      (m.toEnvironment.declare f)) _ m)
    rw [refused, if_pos hc]
    rfl
  · have stored : m.toEnvironment.declare f =
        .ok { m.toEnvironment with functions := m.functions.set f.name f } := by
      simp only [Environment.declare, if_neg hc]
    show _ = throughView _ (EStateM.bind (ofExcept
      (m.toEnvironment.declare f)) _ m)
    rw [stored, if_neg hc]
    -- the note about a builtin of the same name only reaches the journal
    by_cases hb : (Builtin.ofName? f.name).isSome = true
    · simp only [hb]
      rfl
    · simp only [hb]
      rfl

/-- The scope of the parameters, put before the caller's chain, is the copy of
the caller's map. -/
theorem simulates_openCall {run : List Scope → Expr → Eval Value}
    {flatRun : Expr → Run Value} (f : Function) (values : List Value)
    (h : ∀ caller, Simulates (caller :: outer) (flatRun f.body)
      (run (caller :: outer) f.body)) :
    Simulates outer (inCopy (f.params.zip values) (flatRun f.body))
      (openCall outer run f values) := by
  refine simulates_note_bind _ fun m => ?_
  have entered : flatten (m.scope :: outer)
      { m with scope := .ofPairs (f.params.zip values) } =
      ⟨overwrite (m.toEnvironment.binding? outer) (f.params.zip values),
        m.functions⟩ :=
    congrArg (Flat.mk · m.functions) (binding?_ofPairs m.toEnvironment outer _)
  have body := h m.scope { m with scope := .ofPairs (f.params.zip values) }
  rw [entered] at body
  show inCopy _ (flatRun f.body) (flatten outer m) = throughView (flatten outer)
    (Eval.inScope (.ofPairs (f.params.zip values)) (run (m.scope :: outer) f.body) m)
  unfold inCopy Eval.inScope
  simp only [flatten]
  rw [body]
  cases run (m.scope :: outer) f.body
    { m with scope := .ofPairs (f.params.zip values) } <;> rfl

theorem simulates_evalAll {limit depth : Nat}
    {apply : Function → List Value → Eval Value} (args : List Expr)
    (h : ∀ arg ∈ args,
      Simulates outer (eval limit depth arg) (evalWith apply outer arg)) :
    Simulates outer (evalAll limit depth args) (evalArgs apply outer args) := by
  induction args with
  | nil =>
      rw [evalAll, evalArgs]
      exact simulates_pure []
  | cons arg args ih =>
      rw [evalAll, evalArgs]
      refine simulates_bind (h arg List.mem_cons_self) fun v => ?_
      refine simulates_bind (ih fun a ha => h a (List.mem_cons_of_mem _ ha)) fun vs => ?_
      exact simulates_pure _

/-- What a call of a declared function does on the flat map. -/
def enter (limit depth : Nat) (f : Function) (values : List Value) : Run Value :=
  if depth < limit then
    inCopy (f.params.zip values) (eval limit (depth + 1) f.body)
  else throw (.tooDeep f.name limit)

/-- One level of evaluation: if calls agree, so do all expressions. -/
theorem simulates_evalWith {limit depth : Nat}
    {apply : Function → List Value → Eval Value}
    (h : ∀ f values,
      Simulates outer (enter limit depth f values) (apply f values))
    (e : Expr) :
    Simulates outer (eval limit depth e) (evalWith apply outer e) := by
  induction e with
  | integer n => rw [eval, evalWith]; exact simulates_pure _
  | real x => rw [eval, evalWith]; exact simulates_pure _
  | quantity x unit => rw [eval, evalWith]; exact simulates_pure _
  | text s => rw [eval, evalWith]; exact simulates_pure _
  | var name => rw [eval, evalWith]; exact simulates_lookup name
  | unary op operand ih =>
      rw [eval, evalWith]
      exact simulates_bind ih fun v => simulates_ofExcept _
  | binary op left right ihl ihr =>
      rw [eval, evalWith]
      refine simulates_bind ihl fun l => simulates_bind ihr fun r => ?_
      exact simulates_ofExcept _
  | assign target value _ ih =>
      rw [eval, evalWith]
      refine simulates_bind ih fun v => ?_
      exact simulates_bind (simulates_bindTarget v target) fun _ => simulates_pure v
  | ternary condition onTrue onFalse ihc iht ihf =>
      rw [eval, evalWith]
      refine simulates_bind ihc fun c => ?_
      rcases c.truth? with _ | _ | _
      · exact simulates_throw _
      · exact ihf
      · exact iht
  | declare name params body _ =>
      rw [eval, evalWith]
      exact simulates_bind (simulates_declare _) fun _ => simulates_pure _
  | call name args ih =>
      rw [eval, evalWith]
      have hargs := simulates_evalAll args ih
      cases Builtin.ofName? name with
      | some builtin =>
          refine simulates_bind (simulates_requireArity _ _ _) fun _ => ?_
          exact simulates_bind hargs fun _ => simulates_ofExcept _
      | none =>
          -- the function is looked up before the arguments are evaluated
          refine simulates_get fun m => ?_
          rw [flatten_functions]
          cases m.functions.get? name with
          | none => exact simulates_throw _ m
          | some f =>
              refine simulates_bind (simulates_requireArity _ _ _) (fun _ => ?_) m
              exact simulates_bind hargs fun values => h f values
  | convert operand unit ih =>
      rw [eval, evalWith]
      exact simulates_bind ih fun v => simulates_ofExcept _

/-- Evaluation over a chain is evaluation over the flat map, with as many calls
open as the chain has scopes around the innermost. The induction is on the calls
that may still be opened. -/
theorem simulates_eval (limit : Nat) (outer : List Scope) (e : Expr) :
    Simulates outer (eval limit outer.length e) (UnitCalc.eval limit outer e) := by
  induction hc : limit - outer.length generalizing outer e with
  | zero =>
      have full : ¬ outer.length < limit := by omega
      rw [eval_eq, if_neg full]
      refine simulates_evalWith (fun f values => ?_) e
      rw [enter, if_neg full]
      exact simulates_note_bind _ (simulates_throw _)
  | succ calls ih =>
      have room : outer.length < limit := by omega
      rw [eval_eq, if_pos room]
      refine simulates_evalWith (fun f values => ?_) e
      rw [enter, if_pos room]
      refine simulates_openCall f values fun caller => ?_
      exact ih (caller :: outer) f.body (by rw [List.length_cons]; omega)

/-- A call leaves the caller's scope as it is, whatever the body does. -/
theorem scope_openCall (outer : List Scope) (run : List Scope → Expr → Eval Value)
    (f : Function) (values : List Value) (m : Machine) :
    (endState (openCall outer run f values m)).scope = m.scope := by
  show (endState (Eval.inScope _ (run (m.scope :: outer) f.body) _)).scope = m.scope
  unfold Eval.inScope
  split <;> rfl

/-- Inside a call, the variables of the session are out of reach. -/
theorem globals_endState {outer : List Scope} (h : outer ≠ []) (x : Eval α)
    (m : Machine) : globals outer (endState (x m)) = globals outer m := by
  unfold globals
  rw [List.getLast_cons h, List.getLast_cons h]

/-- **Snapshot scoping.** Evaluation over a chain of scopes ends as evaluation
over the flat map does: with the same value or error, the same functions, and a
chain that flattens to the same map. A call never touches the variables of its
caller, nor, however deep, those of the session. These last two hold by the shape of the
state, whatever evaluates the body: a call gives its caller's scope back as it was, and the
scopes further out are not part of what it can change. -/
theorem eval_flatten (limit : Nat) (outer : List Scope) (e : Expr) (m : Machine) :
    eval limit outer.length e (flatten outer m) =
        throughView (flatten outer) (UnitCalc.eval limit outer e m) ∧
      (∀ f values, (endState (openCall outer (UnitCalc.eval limit) f values m)).scope =
        m.scope) ∧
      ∀ caller, globals (caller :: outer)
          (endState (UnitCalc.eval limit (caller :: outer) e m)) =
        globals (caller :: outer) m := by
  refine ⟨simulates_eval limit outer e m, fun f values => ?_, fun caller => ?_⟩
  · exact scope_openCall outer _ f values m
  · exact globals_endState (List.cons_ne_nil caller outer) _ m

end Flat

end UnitCalc
