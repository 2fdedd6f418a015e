import UnitCalc.Evaluation
import UnitCalc.Proofs.Expr.Parts

/-!
# Disciplines of evaluation

A discipline says what the parts of expressions, values, stored functions and
errors are like and how an environment may move. Its laws say that each single
step of evaluation keeps to that. Then whole evaluations do (`obeys_eval`),
whatever functions are called, whether they end with a value or with an error: the
environment stays within the discipline, it has moved as the discipline allows,
and so is the value or the error.
-/

namespace UnitCalc

/-- The result is a value or an error as asked for. -/
def Fits (value : Value → Prop) (error : EvalError → Prop) :
    Except EvalError Value → Prop
  | .ok v => value v
  | .error e => error e

/-- The error is not that a unit is unknown. -/
def EvalError.UnitsKnown : EvalError → Prop
  | .unknownUnit _ => False
  | _ => True

/-- The value that a literal stands for. -/
inductive Literal : Expr → Value → Prop
  | integer (n : Int64) : Literal (.integer n) (.integer n)
  | real (x : Float) : Literal (.real x) (.real x)
  | quantity (x : Float) (unit : String) : Literal (.quantity x unit) (.quantity x unit)
  | text (s : String) : Literal (.text s) (.text s)

/-! ## What a binding does -/

namespace Eval

variable {name : String} {f : Function}

theorem assign_of_constant (h : isConstant name = true) (v : Value) (m : Machine) :
    ∃ journal, assign name v m = .error (.constantAssigned name) { m with journal } := by
  refine ⟨.assigning name v :: m.journal, ?_⟩
  show EStateM.bind (ofExcept (m.toEnvironment.assign name v)) _ _ = _
  simp only [Environment.assign, h, if_true]
  rfl

theorem assign_of_not_constant (h : isConstant name = false) (v : Value) (m : Machine) :
    ∃ journal, assign name v m =
      .ok () { m with scope := m.scope.set name v, journal } := by
  refine ⟨.assigning name v :: m.journal, ?_⟩
  show EStateM.bind (ofExcept (m.toEnvironment.assign name v)) _ _ = _
  simp only [Environment.assign, h]
  rfl

theorem declare_of_constant (h : isConstant f.name = true) (m : Machine) :
    declare f m = .error (.constantDeclared f.name) m := by
  show EStateM.bind (ofExcept (m.toEnvironment.declare f)) _ m = _
  simp only [Environment.declare, h, if_true]
  rfl

theorem declare_of_not_constant (h : isConstant f.name = false) (m : Machine) :
    ∃ journal, declare f m =
      .ok () { m with functions := m.functions.set f.name f, journal } := by
  show ∃ journal, EStateM.bind (ofExcept (m.toEnvironment.declare f)) _ m = _
  simp only [Environment.declare, h]
  by_cases hb : (Builtin.ofName? f.name).isSome = true
  · simp only [hb]
    exact ⟨_, rfl⟩
  · simp only [hb]
    exact ⟨_, rfl⟩

end Eval

/-! ## Disciplines -/

structure Discipline where
  node : Expr → Prop
  value : Value → Prop
  function : String → Function → Prop
  error : EvalError → Prop
  /-- How the environment may change. -/
  moves : Environment → Environment → Prop
  refl : ∀ env, moves env env
  trans : ∀ {first second third}, moves first second → moves second third →
    moves first third
  /-- What a call does to its own variables is lost. -/
  leave : ∀ {env after : Environment} {locals : Scope},
    moves { env with scope := locals } after → moves env { after with scope := env.scope }
  /-- Only unknown units can be ruled out. -/
  raised : ∀ {e : EvalError}, e.UnitsKnown → error e
  literal : ∀ {e v}, Literal e v → node e → value v
  constant : ∀ {name v}, constant? name = some v → value v
  unary : ∀ {op v}, value v → Fits value error (v.unary op)
  binary : ∀ {op l r}, value l → value r → Fits value error (l.binary op r)
  convert : ∀ {operand unit v}, node (.convert operand unit) → value v →
    Fits value error (v.convertTo unit)
  builtin : ∀ {name args b vs}, node (.call name args) → Builtin.ofName? name = some b →
    (∀ v ∈ vs, value v) → Fits value error (b.apply vs)
  assign : ∀ {target source name v} (env : Environment), node (.assign target source) →
    node (.var name) → isConstant name = false → value v →
    moves env { env with scope := env.scope.set name v }
  declare : ∀ {name params body}, node (.declare name params body) → body.Every node →
    isConstant name = false → value .function ∧ function name ⟨name, params, body⟩ ∧
      ∀ env : Environment,
        moves env { env with functions := env.functions.set name ⟨name, params, body⟩ }
  body : ∀ {name f}, function name f → f.body.Every node

namespace Discipline

variable {α β : Type} (d : Discipline)

/-- All values in a scope are as the discipline asks. -/
def SaneScope (s : Scope) : Prop := ∀ name v, s.get? name = some v → d.value v

/-- The variables and functions of an environment are as the discipline asks. -/
def Sane (env : Environment) : Prop :=
  d.SaneScope env.scope ∧ ∀ name f, env.functions.get? name = some f → d.function name f

/-- An end that the discipline allows for a computation begun in `env`. -/
def Allows (Q : α → Prop) (env : Environment) : EStateM.Result EvalError Machine α → Prop
  | .ok a m => d.Sane m.toEnvironment ∧ d.moves env m.toEnvironment ∧ Q a
  | .error e m => d.Sane m.toEnvironment ∧ d.moves env m.toEnvironment ∧ d.error e

/-- Begun in any sane environment, the computation ends as allowed, and with a
result in `Q` if it has one. -/
def Obeys (Q : α → Prop) (x : Eval α) : Prop :=
  ∀ m, d.Sane m.toEnvironment → d.Allows Q m.toEnvironment (x m)

variable {d}

/-! ## Computations in general -/

theorem obeys_pure {Q : α → Prop} {a : α} (h : Q a) : d.Obeys Q (pure a) :=
  fun m hm => ⟨hm, d.refl m.toEnvironment, h⟩

theorem obeys_throw {Q : α → Prop} {e : EvalError} (h : d.error e) :
    d.Obeys Q (throw e) :=
  fun m hm => ⟨hm, d.refl m.toEnvironment, h⟩

theorem Allows.of_moves {Q : α → Prop} {env env' : Environment}
    {r : EStateM.Result EvalError Machine α} (hmoves : d.moves env env')
    (h : d.Allows Q env' r) : d.Allows Q env r := by
  cases r with
  | ok a m =>
      obtain ⟨hm, hmoves', ha⟩ := h
      exact ⟨hm, d.trans hmoves hmoves', ha⟩
  | error e m =>
      obtain ⟨hm, hmoves', he⟩ := h
      exact ⟨hm, d.trans hmoves hmoves', he⟩

theorem obeys_bind {Q : α → Prop} {R : β → Prop} {x : Eval α} {f : α → Eval β}
    (hx : d.Obeys Q x) (hf : ∀ a, Q a → d.Obeys R (f a)) : d.Obeys R (x >>= f) := by
  intro m hm
  have hm' := hx m hm
  show d.Allows R m.toEnvironment (EStateM.bind x f m)
  unfold EStateM.bind
  cases hr : x m with
  | ok a after =>
      rw [hr] at hm'
      obtain ⟨hafter, hmoves, ha⟩ := hm'
      exact (hf a ha after hafter).of_moves hmoves
  | error e after =>
      rw [hr] at hm'
      exact hm'

theorem obeys_get {Q : α → Prop} {f : Machine → Eval α}
    (h : ∀ m, d.Sane m.toEnvironment → d.Allows Q m.toEnvironment (f m m)) :
    d.Obeys Q (get >>= f) :=
  h

theorem obeys_ofExcept {r : Except EvalError Value} (h : Fits d.value d.error r) :
    d.Obeys d.value (ofExcept r) := by
  cases r with
  | ok v => exact obeys_pure h
  | error e => exact obeys_throw h

theorem obeys_note (event : Event) : d.Obeys (fun _ => True) (Eval.note event) :=
  fun m hm => ⟨hm, d.refl m.toEnvironment, trivial⟩

theorem obeys_requireArity (name : String) (expected found : Nat) :
    d.Obeys (fun _ => True) (Eval.requireArity name expected found) := by
  unfold Eval.requireArity
  split
  · exact obeys_pure trivial
  · exact obeys_throw (d.raised trivial)

/-! ## Steps of evaluation -/

theorem obeys_lookup {outer : List Scope} (houter : ∀ s ∈ outer, d.SaneScope s)
    (name : String) : d.Obeys d.value (Eval.lookup outer name) := by
  refine obeys_get fun m hm => ?_
  cases hv : m.toEnvironment.lookup? outer name with
  | none => exact obeys_throw (d.raised (by trivial)) m hm
  | some v =>
      refine obeys_pure ?_ m hm
      rcases Option.or_eq_some_iff.mp hv with hconstant | ⟨_, hbinding⟩
      · exact d.constant hconstant
      · obtain ⟨s, hs, hget⟩ := List.exists_of_findSome?_eq_some hbinding
        rcases List.mem_cons.mp hs with rfl | hs
        · exact hm.1 name v hget
        · exact houter s hs name v hget

theorem SaneScope.set {s : Scope} (h : d.SaneScope s) (name : String) {v : Value}
    (hv : d.value v) : d.SaneScope (s.set name v) := by
  intro other w hget
  rw [Bindings.get?_set] at hget
  split at hget
  · cases hget
    exact hv
  · exact h other w hget

theorem obeys_assign {target source : Expr} {name : String} {v : Value}
    (hassign : d.node (.assign target source)) (hname : d.node (.var name))
    (hv : d.value v) : d.Obeys (fun _ => True) (Eval.assign name v) := by
  intro m hm
  cases hc : isConstant name with
  | true =>
      obtain ⟨journal, hrun⟩ := Eval.assign_of_constant hc v m
      rw [hrun]
      exact ⟨hm, d.refl m.toEnvironment, d.raised trivial⟩
  | false =>
      obtain ⟨journal, hrun⟩ := Eval.assign_of_not_constant hc v m
      rw [hrun]
      exact ⟨⟨hm.1.set name hv, hm.2⟩, d.assign m.toEnvironment hassign hname hc hv,
        trivial⟩

theorem obeys_bindTarget {target source : Expr} {v : Value}
    (hassign : d.node (.assign target source)) (htarget : target.Every d.node)
    (hv : d.value v) : d.Obeys (fun _ => True) (Eval.bindTarget v target) := by
  induction target generalizing source with
  | var name => exact obeys_assign hassign htarget.here hv
  | assign target value ih _ =>
      exact ih htarget.here (htarget.child List.mem_cons_self)
  | _ => exact obeys_throw (d.raised trivial)

theorem obeys_declare {name : String} {params : List String} {body : Expr}
    (hdeclare : d.node (.declare name params body)) (hbody : body.Every d.node) :
    d.Obeys (fun _ => d.value .function) (Eval.declare ⟨name, params, body⟩) := by
  intro m hm
  cases hc : isConstant name with
  | true =>
      have hrun := Eval.declare_of_constant (f := ⟨name, params, body⟩) hc m
      rw [hrun]
      exact ⟨hm, d.refl m.toEnvironment, d.raised trivial⟩
  | false =>
      obtain ⟨journal, hrun⟩ :=
        Eval.declare_of_not_constant (f := ⟨name, params, body⟩) hc m
      obtain ⟨hvalue, hfunction, hmoves⟩ := d.declare hdeclare hbody hc
      rw [hrun]
      refine ⟨⟨hm.1, fun other f hget => ?_⟩, hmoves m.toEnvironment, hvalue⟩
      rw [Bindings.get?_set] at hget
      split at hget
      · next heq =>
          cases hget
          exact heq ▸ hfunction
      · exact hm.2 other f hget

theorem saneScope_ofPairs {pairs : List (String × Value)}
    (h : ∀ pair ∈ pairs, d.value pair.2) : d.SaneScope (.ofPairs pairs) := by
  have fold : ∀ (pairs : List (String × Value)) (s : Scope), d.SaneScope s →
      (∀ pair ∈ pairs, d.value pair.2) →
      d.SaneScope (pairs.foldl (fun b pair => b.set pair.1 pair.2) s) := by
    intro pairs
    induction pairs with
    | nil => exact fun s hs _ => hs
    | cons pair pairs ih =>
        intro s hs hpairs
        refine ih _ (hs.set pair.1 (hpairs pair List.mem_cons_self)) ?_
        exact fun p hp => hpairs p (List.mem_cons_of_mem _ hp)
  refine fold pairs .empty (fun name v hget => ?_) h
  rw [Bindings.get?_empty] at hget
  cases hget

/-- A call keeps to the discipline if its body does: the body begins in a sane
environment, and leaving the call undoes what happened to its variables. -/
theorem obeys_openCall {outer : List Scope} {run : List Scope → Expr → Eval Value}
    {f : Function} {values : List Value} (hvalues : ∀ v ∈ values, d.value v)
    (hrun : ∀ caller, d.SaneScope caller →
      d.Obeys d.value (run (caller :: outer) f.body)) :
    d.Obeys d.value (openCall outer run f values) := by
  refine obeys_bind (obeys_note _) fun _ _ => fun m hm => ?_
  have hlocals : d.SaneScope (.ofPairs (f.params.zip values)) :=
    saneScope_ofPairs fun pair hpair => hvalues _ (List.of_mem_zip hpair).2
  have hbody := hrun m.scope hm.1 { m with scope := .ofPairs (f.params.zip values) }
    ⟨hlocals, hm.2⟩
  show d.Allows _ _ (Eval.inScope _ (run (m.scope :: outer) f.body) m)
  unfold Eval.inScope
  -- on both ends the functions are those of the body, the variables the caller's
  cases hr : run (m.scope :: outer) f.body
      { m with scope := .ofPairs (f.params.zip values) } with
  | ok v after =>
      rw [hr] at hbody
      obtain ⟨hafter, hmoves, hv⟩ := hbody
      exact ⟨⟨hm.1, hafter.2⟩, d.leave hmoves, hv⟩
  | error e after =>
      rw [hr] at hbody
      obtain ⟨hafter, hmoves, he⟩ := hbody
      exact ⟨⟨hm.1, hafter.2⟩, d.leave hmoves, he⟩

/-! ## Whole evaluations -/

theorem obeys_evalArgs {apply : Function → List Value → Eval Value}
    {outer : List Scope} {args : List Expr}
    (h : ∀ arg ∈ args, d.Obeys d.value (evalWith apply outer arg)) :
    d.Obeys (fun vs => ∀ v ∈ vs, d.value v) (evalArgs apply outer args) := by
  induction args with
  | nil =>
      rw [evalArgs]
      exact obeys_pure fun v hv => nomatch hv
  | cons arg args ih =>
      rw [evalArgs]
      refine obeys_bind (h arg List.mem_cons_self) fun v hv => ?_
      refine obeys_bind (ih fun a ha => h a (List.mem_cons_of_mem _ ha)) fun vs hvs => ?_
      refine obeys_pure fun w hw => ?_
      rcases List.mem_cons.mp hw with rfl | hw
      · exact hv
      · exact hvs w hw

/-- One level of evaluation: if calls keep to the discipline, so does every
expression whose parts are as it asks. -/
theorem obeys_evalWith {apply : Function → List Value → Eval Value}
    {outer : List Scope} (houter : ∀ s ∈ outer, d.SaneScope s)
    (happly : ∀ {name f values}, d.function name f → (∀ v ∈ values, d.value v) →
      d.Obeys d.value (apply f values))
    {e : Expr} (he : e.Every d.node) : d.Obeys d.value (evalWith apply outer e) := by
  induction e with
  | integer n => rw [evalWith]; exact obeys_pure (d.literal (.integer n) he.here)
  | real x => rw [evalWith]; exact obeys_pure (d.literal (.real x) he.here)
  | quantity x unit =>
      rw [evalWith]; exact obeys_pure (d.literal (.quantity x unit) he.here)
  | text s => rw [evalWith]; exact obeys_pure (d.literal (.text s) he.here)
  | var name => rw [evalWith]; exact obeys_lookup houter name
  | unary op operand ih =>
      rw [evalWith]
      refine obeys_bind (ih (he.child (by simp [Expr.children]))) fun v hv => ?_
      exact obeys_ofExcept (d.unary hv)
  | binary op left right ihl ihr =>
      rw [evalWith]
      refine obeys_bind (ihl (he.child (by simp [Expr.children]))) fun l hl => ?_
      refine obeys_bind (ihr (he.child (by simp [Expr.children]))) fun r hr => ?_
      exact obeys_ofExcept (d.binary hl hr)
  | assign target value _ ih =>
      rw [evalWith]
      have htarget : target.Every d.node := he.child (by simp [Expr.children])
      refine obeys_bind (ih (he.child (by simp [Expr.children]))) fun v hv => ?_
      exact obeys_bind (obeys_bindTarget he.here htarget hv) fun _ _ => obeys_pure hv
  | ternary condition onTrue onFalse ihc iht ihf =>
      rw [evalWith]
      refine obeys_bind (ihc (he.child (by simp [Expr.children]))) fun c _ => ?_
      rcases c.truth? with _ | _ | _
      · exact obeys_throw (d.raised trivial)
      · exact ihf (he.child (by simp [Expr.children]))
      · exact iht (he.child (by simp [Expr.children]))
  | declare name params body _ =>
      rw [evalWith]
      have hbody : body.Every d.node := he.child (by simp [Expr.children])
      exact obeys_bind (obeys_declare he.here hbody) fun _ hv => obeys_pure hv
  | call name args ih =>
      rw [evalWith]
      have hargs := obeys_evalArgs fun arg harg => ih arg harg (he.child harg)
      cases hb : Builtin.ofName? name with
      | some builtin =>
          refine obeys_bind (obeys_requireArity _ _ _) fun _ _ => ?_
          refine obeys_bind hargs fun vs hvs => ?_
          exact obeys_ofExcept (d.builtin he.here hb hvs)
      | none =>
          refine obeys_get fun m hm => ?_
          cases hf : m.functions.get? name with
          | none => exact obeys_throw (d.raised (by trivial)) m hm
          | some f =>
              -- what is known of the stored function outlasts its arguments
              have hstored := hm.2 name f hf
              refine obeys_bind (obeys_requireArity _ _ _) (fun _ _ => ?_) m hm
              exact obeys_bind hargs fun vs hvs => happly hstored hvs
  | convert operand unit ih =>
      rw [evalWith]
      refine obeys_bind (ih (he.child (by simp [Expr.children]))) fun v hv => ?_
      exact obeys_ofExcept (d.convert he.here hv)

/-- **Evaluation keeps to the discipline.** The induction is on the calls that may
still be opened. -/
theorem obeys_eval (limit : Nat) {outer : List Scope}
    (houter : ∀ s ∈ outer, d.SaneScope s) {e : Expr} (he : e.Every d.node) :
    d.Obeys d.value (eval limit outer e) := by
  induction hc : limit - outer.length generalizing outer e with
  | zero =>
      have full : ¬ outer.length < limit := by omega
      rw [eval_eq, if_neg full]
      refine obeys_evalWith houter (fun _ _ => ?_) he
      exact obeys_bind (obeys_note _) fun _ _ =>
        obeys_throw (d.raised trivial)
  | succ calls ih =>
      have room : outer.length < limit := by omega
      rw [eval_eq, if_pos room]
      refine obeys_evalWith houter (fun hf hvs => ?_) he
      refine obeys_openCall hvs fun caller hcaller => ?_
      have hchain : ∀ s ∈ caller :: outer, d.SaneScope s := by
        intro s hs
        rcases List.mem_cons.mp hs with rfl | hs
        · exact hcaller
        · exact houter s hs
      exact ih hchain (d.body hf) (by rw [List.length_cons]; omega)

end Discipline

end UnitCalc
