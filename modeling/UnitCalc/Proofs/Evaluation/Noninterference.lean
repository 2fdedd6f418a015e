import Mathlib
import UnitCalc.Proofs.Evaluation.Coupling

/-!
# A result depends only on the names it can reach

Take a set of variables and a set of functions, such that an expression and the
functions of the set mention no other variables and call no other functions, builtin
functions apart. Two environments that agree on these sets cannot be told apart by
evaluating the expression: it has the same value or fails with the same error, and
the environments still agree afterwards.

The scopes of the calls that are open and the variables of the session are compared
apart: a call writes to the former only.
-/

namespace UnitCalc

open UnitCalc.Expr (Every)

/-- The part of an expression mentions a variable of `vars` if any, and calls a
function of `funs` or a builtin function if any. -/
def Expr.Within (vars funs : Set String) : Expr → Prop
  | .var name => name ∈ vars
  | .call name _ => name ∈ funs ∨ Builtin.ofName? name ≠ none
  | _ => True

namespace Environment

/-- The innermost binding of a variable among the calls that are open, the variables
of the session left out. -/
def frameBinding? (env : Environment) (outer : List Scope) (name : String) : Option Value :=
  (env.scope :: outer).dropLast.findSome? fun s => s.get? name

/-- The binding of a variable in the session. -/
def globalBinding? (env : Environment) (outer : List Scope) (name : String) : Option Value :=
  ((env.scope :: outer).getLast (List.cons_ne_nil _ _)).get? name

/-- The scopes of the open calls hide the variables of the session. -/
theorem binding?_eq_or (env : Environment) (outer : List Scope) (name : String) :
    env.binding? outer name =
      (env.frameBinding? outer name).or (env.globalBinding? outer name) := by
  have hchain := List.dropLast_concat_getLast (List.cons_ne_nil env.scope outer)
  unfold binding? frameBinding? globalBinding?
  conv_lhs => rw [← hchain]
  rw [List.findSome?_append, List.findSome?_singleton]

@[simp] theorem frameBinding?_nil (env : Environment) (name : String) :
    env.frameBinding? [] name = none := rfl

@[simp] theorem globalBinding?_nil (env : Environment) (name : String) :
    env.globalBinding? [] name = env.scope.get? name := rfl

/-- The innermost of the open calls comes first. -/
@[simp] theorem frameBinding?_cons (env : Environment) (s : Scope) (outer : List Scope)
    (name : String) :
    env.frameBinding? (s :: outer) name =
      (env.scope.get? name).or (frameBinding? { env with scope := s } outer name) := by
  unfold frameBinding?
  rw [List.dropLast_cons_cons, List.findSome?_cons]
  cases env.scope.get? name <;> rfl

/-- Inside a call the variables of the session lie further out. -/
@[simp] theorem globalBinding?_cons (env : Environment) (s : Scope) (outer : List Scope)
    (name : String) :
    env.globalBinding? (s :: outer) name = globalBinding? { env with scope := s } outer name := by
  unfold globalBinding?
  rw [List.getLast_cons (List.cons_ne_nil s outer)]

end Environment

/-- The environments agree on the variables of `vars` and on the functions of `funs`,
and these functions stay within the two sets. A function under the name of a builtin
function does not count. -/
structure Agree (vars funs : Set String) (outer outer' : List Scope)
    (env env' : Environment) : Prop where
  depth : outer.length = outer'.length
  frames : ∀ name ∈ vars, env.frameBinding? outer name = env'.frameBinding? outer' name
  globals : ∀ name ∈ vars, env.globalBinding? outer name = env'.globalBinding? outer' name
  functions : ∀ name ∈ funs, Builtin.ofName? name = none →
    env.functions.get? name = env'.functions.get? name
  bodies : ∀ name ∈ funs, Builtin.ofName? name = none →
    ∀ f, env.functions.get? name = some f → f.body.Every (Expr.Within vars funs)

namespace Agree

variable {vars funs : Set String} {outer outer' : List Scope} {env env' : Environment}

theorem lookup (h : Agree vars funs outer outer' env env') {name : String}
    (hname : name ∈ vars) : env.lookup? outer name = env'.lookup? outer' name := by
  unfold Environment.lookup?
  rw [env.binding?_eq_or, env'.binding?_eq_or, h.frames name hname, h.globals name hname]

/-- Assignment writes to the innermost scope, which is that of the session only if no
call is open. -/
theorem assign (h : Agree vars funs outer outer' env env') (name : String) (v : Value) :
    Agree vars funs outer outer' { env with scope := env.scope.set name v }
      { env' with scope := env'.scope.set name v } := by
  have hdepth := h.depth
  cases outer with
  | nil =>
      obtain rfl := List.length_eq_zero_iff.mp hdepth.symm
      refine ⟨rfl, fun _ _ => rfl, fun other hother => ?_, h.functions, h.bodies⟩
      have hglobals := h.globals other hother
      simp only [Environment.globalBinding?_nil, Bindings.get?_set] at hglobals ⊢
      rw [hglobals]
  | cons s outer =>
      obtain ⟨s', outer', rfl⟩ := List.exists_cons_of_length_eq_add_one hdepth.symm
      refine ⟨hdepth, fun other hother => ?_, h.globals, h.functions, h.bodies⟩
      have hframes := h.frames other hother
      simp only [Environment.frameBinding?_cons, Bindings.get?_set] at hframes ⊢
      split
      · rfl
      · exact hframes

theorem declare (h : Agree vars funs outer outer' env env') {name : String}
    {params : List String} {body : Expr} (hbody : body.Every (Expr.Within vars funs)) :
    Agree vars funs outer outer'
      { env with functions := env.functions.set name ⟨name, params, body⟩ }
      { env' with functions := env'.functions.set name ⟨name, params, body⟩ } := by
  refine ⟨h.depth, h.frames, h.globals, fun other hother hb => ?_,
    fun other hother hb f hf => ?_⟩
  · rw [Bindings.get?_set, Bindings.get?_set, h.functions other hother hb]
  · rw [Bindings.get?_set] at hf
    split at hf
    · cases hf
      exact hbody
    · exact h.bodies other hother hb f hf

theorem enter (h : Agree vars funs outer outer' env env') (locals : Scope) :
    Agree vars funs (env.scope :: outer) (env'.scope :: outer')
      { env with scope := locals } { env' with scope := locals } := by
  refine ⟨congrArg (· + 1) h.depth, fun name hname => ?_, fun name hname => ?_,
    h.functions, h.bodies⟩
  · rw [Environment.frameBinding?_cons, Environment.frameBinding?_cons]
    exact congrArg _ (h.frames name hname)
  · rw [Environment.globalBinding?_cons, Environment.globalBinding?_cons]
    exact h.globals name hname

/-- A call leaves the scopes of its caller as they were, and its functions. -/
theorem leave (h : Agree vars funs outer outer' env env') {after after' : Environment}
    {inner inner' : List Scope} (hafter : Agree vars funs inner inner' after after') :
    Agree vars funs outer outer' { after with scope := env.scope }
      { after' with scope := env'.scope } :=
  ⟨h.depth, h.frames, h.globals, hafter.functions, hafter.bodies⟩

end Agree

/-- Two runs that agree on the names within reach. -/
def reachableNames (vars funs : Set String) : Coupling where
  node := Expr.Within vars funs
  related := Agree vars funs
  excused _ := False
  lookup h hname := h.lookup hname
  assign v h := h.assign _ v
  declare h hbody := h.declare hbody
  function h hname hbuiltin := by
    have hname := hname.resolve_right fun hne => hne hbuiltin
    exact ⟨h.functions _ hname hbuiltin, h.bodies _ hname hbuiltin⟩
  enter locals h := h.enter locals
  leave h hafter := h.leave hafter

/-- The same value or the same error, in environments that agree. -/
inductive SameEnd (vars funs : Set String) (outer outer' : List Scope) :
    EStateM.Result EvalError Machine Value → EStateM.Result EvalError Machine Value → Prop
  | value {v : Value} {m m' : Machine}
      (h : Agree vars funs outer outer' m.toEnvironment m'.toEnvironment) :
      SameEnd vars funs outer outer' (.ok v m) (.ok v m')
  | error {e : EvalError} {m m' : Machine}
      (h : Agree vars funs outer outer' m.toEnvironment m'.toEnvironment) :
      SameEnd vars funs outer outer' (.error e m) (.error e m')

theorem sameEnd_eval (limit : Nat) {vars funs : Set String} {outer outer' : List Scope}
    {e : Expr} {m m' : Machine} (he : e.Every (Expr.Within vars funs))
    (h : Agree vars funs outer outer' m.toEnvironment m'.toEnvironment) :
    SameEnd vars funs outer outer' (eval limit outer e m) (eval limit outer' e m') := by
  have hends := (reachableNames vars funs).coupled_eval (Nat.le_refl limit)
    (fun hless => absurd hless (Nat.lt_irrefl limit)) h.depth he m m' h
  generalize eval limit outer e m = r at hends
  generalize eval limit outer' e m' = r' at hends
  cases hends with
  | ok hafter => exact .value hafter
  | error hafter => exact .error hafter
  | excused hfalse => exact hfalse.elim

theorem every_within_univ (e : Expr) : e.Every (Expr.Within Set.univ Set.univ) := by
  refine .of_forall (fun e => ?_) e
  cases e with
  | call => exact .inl trivial
  | _ => trivial

/-- Environments that differ only in the functions under names of builtin functions agree
on everything. -/
theorem agree_univ {functions : Bindings Function} {env : Environment}
    (h : ∀ name, Builtin.ofName? name = none →
      env.functions.get? name = functions.get? name) (outer : List Scope) :
    Agree Set.univ Set.univ outer outer env { env with functions } :=
  ⟨rfl, fun _ _ => rfl, fun _ _ => rfl, fun name _ hname => h name hname,
    fun _ _ _ f _ => every_within_univ f.body⟩

/-- **A result depends only on the names within reach.** If an expression stays within
a set of variables and a set of functions, as do the functions of the set, then in
environments that agree on these it ends the same way, and they agree afterwards. So
what is bound to other names is never noticed, and a function declared under the name
of a builtin function is noticed by nothing at all. -/
theorem eval_noninterference {vars funs : Set String} {outer outer' : List Scope}
    {e : Expr} {m m' : Machine} (he : e.Every (Expr.Within vars funs))
    (h : Agree vars funs outer outer' m.toEnvironment m'.toEnvironment) :
    SameEnd vars funs outer outer' (eval callDepthLimit outer e m)
        (eval callDepthLimit outer' e m') ∧
      ∀ functions : Bindings Function,
        (∀ name, Builtin.ofName? name = none →
          m.functions.get? name = functions.get? name) →
        SameEnd Set.univ Set.univ outer outer (eval callDepthLimit outer e m)
          (eval callDepthLimit outer e { m with functions }) := by
  refine ⟨sameEnd_eval callDepthLimit he h, fun functions hfunctions => ?_⟩
  exact sameEnd_eval callDepthLimit (every_within_univ e) (agree_univ hfunctions outer)

/-- One more variable and a declared function under the name of a builtin one make no
difference to a call that does not reach them. -/
theorem eval_noninterference_call :
    let f : Function := ⟨"f", ["x"], .binary .add (.var "x") (.var "z")⟩
    let m : Machine :=
      { scope := .ofPairs [("z", .integer 1)], functions := .ofPairs [("f", f)] }
    let m' : Machine :=
      { scope := .ofPairs [("y", .integer 2), ("z", .integer 1)]
        functions := .ofPairs [("sin", ⟨"sin", [], .var "y"⟩), ("f", f)] }
    let e : Expr := .call "f" [.integer 3]
    e.Every (Expr.Within {"x", "z"} {"f"}) ∧
      Agree {"x", "z"} {"f"} [] [] m.toEnvironment m'.toEnvironment ∧
      SameEnd {"x", "z"} {"f"} [] [] (eval callDepthLimit [] e m)
        (eval callDepthLimit [] e m') := by
  intro f m m' e
  have body : f.body.Every (Expr.Within {"x", "z"} {"f"}) := by
    refine .intro trivial fun part hpart => ?_
    obtain rfl | rfl : part = .var "x" ∨ part = .var "z" := by
      simpa [f, Expr.children] using hpart
    · exact .intro (.inl rfl) fun _ h => absurd h List.not_mem_nil
    · exact .intro (.inr rfl) fun _ h => absurd h List.not_mem_nil
  have within : e.Every (Expr.Within {"x", "z"} {"f"}) := by
    refine .intro (.inl rfl) fun part hpart => ?_
    obtain rfl := List.mem_singleton.mp hpart
    exact .intro trivial fun _ h => absurd h List.not_mem_nil
  have agree : Agree {"x", "z"} {"f"} [] [] m.toEnvironment m'.toEnvironment := by
    refine ⟨rfl, fun _ _ => rfl, ?_, ?_, ?_⟩
    · rintro name (rfl | rfl)
      · rfl
      · rfl
    · rintro name rfl _
      rfl
    · rintro name rfl _ g hg
      cases hg
      exact body
  exact ⟨within, agree, (eval_noninterference within agree).1⟩

end UnitCalc
