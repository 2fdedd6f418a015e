import UnitCalc.Proofs.Evaluation.Discipline

/-!
# Two evaluations side by side

A coupling relates the environments of two runs, together with the scopes around
them. Its laws say that what a single step reads is the same in related
environments, and that related environments stay related when the same is done to
both. Then two whole evaluations of an expression run alike (`coupled_eval`): they
end with the same value or the same error, in related environments. The first run
may also give up with an error that the coupling excuses, for instance because its
calls may nest less deep.
-/

namespace UnitCalc

/-- A relation between the environments of two runs that evaluation keeps, for
expressions whose parts all satisfy `node`. -/
structure Coupling where
  node : Expr → Prop
  related : List Scope → List Scope → Environment → Environment → Prop
  excused : EvalError → Prop
  lookup : ∀ {outer outer' env env' name}, related outer outer' env env' →
    node (.var name) → env.lookup? outer name = env'.lookup? outer' name
  assign : ∀ {outer outer' env env' name} (v : Value), related outer outer' env env' →
    related outer outer' { env with scope := env.scope.set name v }
      { env' with scope := env'.scope.set name v }
  declare : ∀ {outer outer' env env' name params body}, related outer outer' env env' →
    body.Every node →
    related outer outer'
      { env with functions := env.functions.set name ⟨name, params, body⟩ }
      { env' with functions := env'.functions.set name ⟨name, params, body⟩ }
  function : ∀ {outer outer' env env' name args}, related outer outer' env env' →
    node (.call name args) → Builtin.ofName? name = none →
    env.functions.get? name = env'.functions.get? name ∧
      ∀ f, env.functions.get? name = some f → f.body.Every node
  enter : ∀ {outer outer' env env'} (locals : Scope), related outer outer' env env' →
    related (env.scope :: outer) (env'.scope :: outer') { env with scope := locals }
      { env' with scope := locals }
  leave : ∀ {outer outer' env env' after after'}, related outer outer' env env' →
    related (env.scope :: outer) (env'.scope :: outer') after after' →
    related outer outer' { after with scope := env.scope } { after' with scope := env'.scope }

namespace Coupling

variable {α β : Type} (c : Coupling)

/-- The ends of two runs, in chains with these scopes around. -/
inductive Alike (outer outer' : List Scope) : EStateM.Result EvalError Machine α →
    EStateM.Result EvalError Machine α → Prop
  | ok {a : α} {m m' : Machine}
      (h : c.related outer outer' m.toEnvironment m'.toEnvironment) :
      Alike outer outer' (.ok a m) (.ok a m')
  | error {e : EvalError} {m m' : Machine}
      (h : c.related outer outer' m.toEnvironment m'.toEnvironment) :
      Alike outer outer' (.error e m) (.error e m')
  | excused {e : EvalError} {m : Machine} {r : EStateM.Result EvalError Machine α}
      (h : c.excused e) : Alike outer outer' (.error e m) r

/-- Begun in related environments, the computations end alike. -/
def Coupled (outer outer' : List Scope) (x y : Eval α) : Prop :=
  ∀ m m', c.related outer outer' m.toEnvironment m'.toEnvironment →
    c.Alike outer outer' (x m) (y m')

variable {c} {outer outer' : List Scope}

/-! ## Computations in general -/

theorem coupled_pure (a : α) : c.Coupled outer outer' (pure a) (pure a) :=
  fun _ _ h => .ok h

theorem coupled_throw (e : EvalError) :
    c.Coupled outer outer' (throw e : Eval α) (throw e) :=
  fun _ _ h => .error h

theorem coupled_bind {x y : Eval α} {f g : α → Eval β} (hxy : c.Coupled outer outer' x y)
    (hfg : ∀ a, c.Coupled outer outer' (f a) (g a)) :
    c.Coupled outer outer' (x >>= f) (y >>= g) := by
  intro m m' h
  have hends := hxy m m' h
  show c.Alike outer outer' (EStateM.bind x f m) (EStateM.bind y g m')
  unfold EStateM.bind
  cases hx : x m with
  | ok a after =>
      rw [hx] at hends
      generalize y m' = r at hends
      cases hends with
      | ok hafter => exact hfg a _ _ hafter
  | error e after =>
      rw [hx] at hends
      generalize y m' = r at hends
      cases hends with
      | error hafter => exact .error hafter
      | excused he => exact .excused he

theorem coupled_get {f g : Machine → Eval α}
    (h : ∀ m m', c.related outer outer' m.toEnvironment m'.toEnvironment →
      c.Alike outer outer' (f m m) (g m' m')) :
    c.Coupled outer outer' (get >>= f) (get >>= g) :=
  h

theorem coupled_ofExcept (r : Except EvalError α) :
    c.Coupled outer outer' (ofExcept r) (ofExcept r) := by
  cases r with
  | ok a => exact coupled_pure a
  | error e => exact coupled_throw e

theorem coupled_note (event event' : Event) :
    c.Coupled outer outer' (Eval.note event) (Eval.note event') :=
  fun _ _ h => .ok h

theorem coupled_requireArity (name : String) (expected found : Nat) :
    c.Coupled outer outer' (Eval.requireArity name expected found)
      (Eval.requireArity name expected found) := by
  unfold Eval.requireArity
  split
  · exact coupled_pure ()
  · exact coupled_throw _

/-! ## Steps of evaluation -/

theorem coupled_lookup {name : String} (hname : c.node (.var name)) :
    c.Coupled outer outer' (Eval.lookup outer name) (Eval.lookup outer' name) := by
  refine coupled_get fun m m' h => ?_
  rw [c.lookup h hname]
  cases m'.toEnvironment.lookup? outer' name with
  | none => exact coupled_throw _ m m' h
  | some v => exact coupled_pure v m m' h

theorem coupled_assign (name : String) (v : Value) :
    c.Coupled outer outer' (Eval.assign name v) (Eval.assign name v) := by
  intro m m' h
  cases hc : isConstant name with
  | true =>
      obtain ⟨journal, hm⟩ := Eval.assign_of_constant hc v m
      obtain ⟨journal', hm'⟩ := Eval.assign_of_constant hc v m'
      rw [hm, hm']
      exact .error h
  | false =>
      obtain ⟨journal, hm⟩ := Eval.assign_of_not_constant hc v m
      obtain ⟨journal', hm'⟩ := Eval.assign_of_not_constant hc v m'
      rw [hm, hm']
      exact .ok (c.assign v h)

theorem coupled_bindTarget (v : Value) (target : Expr) :
    c.Coupled outer outer' (Eval.bindTarget v target) (Eval.bindTarget v target) := by
  induction target with
  | var name => exact coupled_assign name v
  | assign target _ ih => exact ih
  | _ => exact coupled_throw _

theorem coupled_declare {name : String} {params : List String} {body : Expr}
    (hbody : body.Every c.node) :
    c.Coupled outer outer' (Eval.declare ⟨name, params, body⟩)
      (Eval.declare ⟨name, params, body⟩) := by
  intro m m' h
  cases hc : isConstant name with
  | true =>
      rw [Eval.declare_of_constant (f := ⟨name, params, body⟩) hc m,
        Eval.declare_of_constant (f := ⟨name, params, body⟩) hc m']
      exact .error h
  | false =>
      obtain ⟨journal, hm⟩ := Eval.declare_of_not_constant (f := ⟨name, params, body⟩) hc m
      obtain ⟨journal', hm'⟩ := Eval.declare_of_not_constant (f := ⟨name, params, body⟩) hc m'
      rw [hm, hm']
      exact .ok (c.declare h hbody)

/-- Calls run alike if their bodies do. -/
theorem coupled_openCall {run run' : List Scope → Expr → Eval Value} {f : Function}
    (values : List Value)
    (h : ∀ caller caller', c.Coupled (caller :: outer) (caller' :: outer')
      (run (caller :: outer) f.body) (run' (caller' :: outer') f.body)) :
    c.Coupled outer outer' (openCall outer run f values) (openCall outer' run' f values) := by
  refine coupled_bind (coupled_note _ _) fun _ => ?_
  intro m m' hm
  have hbody := h m.scope m'.scope { m with scope := .ofPairs (f.params.zip values) }
    { m' with scope := .ofPairs (f.params.zip values) } (c.enter _ hm)
  show c.Alike outer outer' (Eval.inScope _ (run (m.scope :: outer) f.body) m)
    (Eval.inScope _ (run' (m'.scope :: outer') f.body) m')
  unfold Eval.inScope
  generalize run (m.scope :: outer) f.body
    { m with scope := .ofPairs (f.params.zip values) } = r at hbody
  generalize run' (m'.scope :: outer') f.body
    { m' with scope := .ofPairs (f.params.zip values) } = r' at hbody
  cases hbody with
  | ok hafter => exact .ok (c.leave hm hafter)
  | error hafter => exact .error (c.leave hm hafter)
  | excused he => exact .excused he

/-! ## Whole evaluations -/

theorem coupled_evalArgs {apply apply' : Function → List Value → Eval Value}
    {args : List Expr}
    (h : ∀ arg ∈ args, c.Coupled outer outer' (evalWith apply outer arg)
      (evalWith apply' outer' arg)) :
    c.Coupled outer outer' (evalArgs apply outer args) (evalArgs apply' outer' args) := by
  induction args with
  | nil =>
      rw [evalArgs, evalArgs]
      exact coupled_pure []
  | cons arg args ih =>
      rw [evalArgs, evalArgs]
      refine coupled_bind (h arg List.mem_cons_self) fun v => ?_
      refine coupled_bind (ih fun a ha => h a (List.mem_cons_of_mem _ ha)) fun vs => ?_
      exact coupled_pure _

/-- One level of evaluation: if calls run alike, so does every expression whose parts
are as the coupling asks. -/
theorem coupled_evalWith {apply apply' : Function → List Value → Eval Value}
    (happly : ∀ {f : Function} (values : List Value), f.body.Every c.node →
      c.Coupled outer outer' (apply f values) (apply' f values))
    {e : Expr} (he : e.Every c.node) :
    c.Coupled outer outer' (evalWith apply outer e) (evalWith apply' outer' e) := by
  induction e with
  | integer | real | quantity | text =>
      rw [evalWith, evalWith]
      exact coupled_pure _
  | var name =>
      rw [evalWith, evalWith]
      exact coupled_lookup he.here
  | unary op operand ih =>
      rw [evalWith, evalWith]
      refine coupled_bind (ih (he.child (by simp [Expr.children]))) fun v => ?_
      exact coupled_ofExcept _
  | binary op left right ihl ihr =>
      rw [evalWith, evalWith]
      refine coupled_bind (ihl (he.child (by simp [Expr.children]))) fun l => ?_
      refine coupled_bind (ihr (he.child (by simp [Expr.children]))) fun r => ?_
      exact coupled_ofExcept _
  | assign target value _ ih =>
      rw [evalWith, evalWith]
      refine coupled_bind (ih (he.child (by simp [Expr.children]))) fun v => ?_
      exact coupled_bind (coupled_bindTarget v target) fun _ => coupled_pure v
  | ternary condition onTrue onFalse ihc iht ihf =>
      rw [evalWith, evalWith]
      refine coupled_bind (ihc (he.child (by simp [Expr.children]))) fun v => ?_
      rcases v.truth? with _ | _ | _
      · exact coupled_throw _
      · exact ihf (he.child (by simp [Expr.children]))
      · exact iht (he.child (by simp [Expr.children]))
  | declare name params body _ =>
      rw [evalWith, evalWith]
      have hbody : body.Every c.node := he.child (by simp [Expr.children])
      exact coupled_bind (coupled_declare hbody) fun _ => coupled_pure _
  | call name args ih =>
      rw [evalWith, evalWith]
      have hargs := coupled_evalArgs fun arg harg => ih arg harg (he.child harg)
      cases hb : Builtin.ofName? name with
      | some builtin =>
          refine coupled_bind (coupled_requireArity _ _ _) fun _ => ?_
          exact coupled_bind hargs fun _ => coupled_ofExcept _
      | none =>
          refine coupled_get fun m m' h => ?_
          obtain ⟨hsame, hbodies⟩ := c.function h he.here hb
          rw [← hsame]
          cases hf : m.functions.get? name with
          | none => exact coupled_throw _ m m' h
          | some f =>
              refine coupled_bind (coupled_requireArity _ _ _) (fun _ => ?_) m m' h
              exact coupled_bind hargs fun values => happly values (hbodies f hf)
  | convert operand unit ih =>
      rw [evalWith, evalWith]
      refine coupled_bind (ih (he.child (by simp [Expr.children]))) fun v => ?_
      exact coupled_ofExcept _

/-- **Coupled evaluations run alike.** The first may nest calls less deep if it is
excused for that. The induction is on the calls that it may still open. -/
theorem coupled_eval {limit limit' : Nat} (hlimit : limit ≤ limit')
    (hexcused : limit < limit' → ∀ name, c.excused (.tooDeep name limit))
    (hdepth : outer.length = outer'.length) {e : Expr} (he : e.Every c.node) :
    c.Coupled outer outer' (eval limit outer e) (eval limit' outer' e) := by
  induction hc : limit - outer.length generalizing outer outer' e with
  | zero =>
      have full : ¬ outer.length < limit := by omega
      rw [eval_eq, eval_eq, if_neg full]
      refine coupled_evalWith (fun values _ => ?_) he
      rcases Nat.lt_or_eq_of_le hlimit with hless | rfl
      · exact fun m m' _ => .excused (hexcused hless _)
      · rw [← hdepth, if_neg full]
        exact coupled_bind (coupled_note _ _) fun _ => coupled_throw _
  | succ calls ih =>
      have room : outer.length < limit := by omega
      have room' : outer'.length < limit' := by omega
      rw [eval_eq, eval_eq, if_pos room, if_pos room']
      refine coupled_evalWith (fun values hbody => ?_) he
      refine coupled_openCall values fun caller caller' => ?_
      refine ih ?_ hbody ?_
      · rw [List.length_cons, List.length_cons, hdepth]
      · rw [List.length_cons]
        omega

end Coupling

end UnitCalc
