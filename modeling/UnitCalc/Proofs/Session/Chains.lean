import Mathlib
import UnitCalc.Proofs.Session.Purity
import UnitCalc.Proofs.Token.Scanned

/-!
# Chains of assignments

A chain `t₁ = t₂ = … = tₙ = e` evaluates `e` and binds its targets from the right.
It is no transaction: a target that cannot be bound ends it, and the targets to the
right of that one stay bound. Targets are looked at, never evaluated.
-/

namespace UnitCalc

open UnitCalc.Expr (Every Plain)
open Grammar (Phrase)

namespace Expr

/-- `t₁ = t₂ = … = tₙ = e`. -/
def chain (targets : List Expr) (e : Expr) : Expr := targets.foldr .assign e

/-- A variable whose name is not that of a constant. -/
def Assignable : Expr → Prop
  | .var name => isConstant name = false
  | _ => False

/-- Why an expression that is not assignable cannot be assigned to. -/
def refusal : Expr → EvalError
  | .var name => .constantAssigned name
  | _ => .unassignable

/-- The variable that an assignment to the expression binds. -/
def target? : Expr → Option String
  | .var name => some name
  | .assign target _ => target.target?
  | _ => none

end Expr

/-- Exactly the variables among `targets` are bound anew, all to `v`. -/
def Rebound (targets : List Expr) (v : Value) (before after : Scope) : Prop :=
  ∀ name, (.var name ∈ targets → after.get? name = some v) ∧
    (.var name ∉ targets → after.get? name = before.get? name)

theorem Rebound.nil (v : Value) (s : Scope) : Rebound [] v s s :=
  fun _ => ⟨fun h => absurd h List.not_mem_nil, fun _ => rfl⟩

theorem Rebound.cons {targets : List Expr} {v : Value} {before after : Scope}
    (h : Rebound targets v before after) (name : String) :
    Rebound (.var name :: targets) v before (after.set name v) := by
  intro other
  rw [Bindings.get?_set]
  by_cases hsame : other = name
  · rw [if_pos hsame, hsame]
    exact ⟨fun _ => rfl, fun hnot => absurd List.mem_cons_self hnot⟩
  · have hother : Expr.var other ≠ .var name := fun heq => hsame (Expr.var.inj heq)
    rw [if_neg hsame, List.mem_cons, or_iff_right hother]
    exact h other

/-! ## Binding the targets -/

namespace Eval

/-- Binds targets from the right. -/
def bindTargets (v : Value) : List Expr → Eval Unit
  | [] => pure ()
  | target :: targets => do
    bindTargets v targets
    bindTarget v target

/-- Binds the variable of a target, if it has one. -/
def bindVariable (v : Value) : Option String → Eval Unit
  | some name => assign name v
  | none => throw .unassignable

/-- Nothing in a target counts but its variable. -/
theorem bindTarget_eq (v : Value) (target : Expr) :
    bindTarget v target = bindVariable v target.target? := by
  induction target with
  | assign target _ ih => exact ih
  | _ => rfl

theorem bindTargets_congr (v : Value) {targets others : List Expr}
    (h : others.map Expr.target? = targets.map Expr.target?) :
    bindTargets v others = bindTargets v targets := by
  induction targets generalizing others with
  | nil =>
      obtain rfl := List.map_eq_nil_iff.mp h
      rfl
  | cons target targets ih =>
      obtain ⟨other, others, rfl, hother, hothers⟩ := List.map_eq_cons_iff.mp h
      rw [bindTargets, bindTargets, ih hothers, bindTarget_eq, bindTarget_eq, hother]

theorem bindTarget_of_assignable {target : Expr} (h : target.Assignable) (v : Value)
    (m : Machine) :
    ∃ name journal, target = .var name ∧
      bindTarget v target m = .ok () { m with scope := m.scope.set name v, journal } := by
  cases target with
  | var name =>
      obtain ⟨journal, hrun⟩ := assign_of_not_constant h v m
      exact ⟨name, journal, rfl, hrun⟩
  | _ => exact h.elim

theorem bindTarget_of_not_assignable {target : Expr} (hplain : target.Plain)
    (h : ¬ target.Assignable) (v : Value) (m : Machine) :
    ∃ journal, bindTarget v target m = .error target.refusal { m with journal } := by
  cases target with
  | var name => exact assign_of_constant (Bool.eq_true_of_not_eq_false h) v m
  | assign => exact hplain.elim
  | _ => exact ⟨m.journal, rfl⟩

/-- Once the targets to its right are bound, a target is. -/
theorem bindTargets_cons_of_ok {v : Value} {targets : List Expr} {m m' : Machine}
    (h : bindTargets v targets m = .ok () m') (target : Expr) :
    bindTargets v (target :: targets) m = bindTarget v target m' := by
  show EStateM.bind (bindTargets v targets) _ m = _
  rw [EStateM.bind, h]

/-- A refusal to the right of a target is final. -/
theorem bindTargets_cons_of_error {v : Value} {targets : List Expr} {m m' : Machine}
    {error : EvalError} (h : bindTargets v targets m = .error error m') (target : Expr) :
    bindTargets v (target :: targets) m = .error error m' := by
  show EStateM.bind (bindTargets v targets) _ m = _
  rw [EStateM.bind, h]

/-- Assignable targets are all bound. -/
theorem bindTargets_of_assignable {targets : List Expr} (h : ∀ t ∈ targets, t.Assignable)
    (v : Value) (m : Machine) :
    ∃ scope journal, bindTargets v targets m = .ok () { m with scope, journal } ∧
      Rebound targets v m.scope scope := by
  induction targets with
  | nil => exact ⟨m.scope, m.journal, rfl, .nil v m.scope⟩
  | cons target targets ih =>
      rw [List.forall_mem_cons] at h
      obtain ⟨scope, journal, hrun, hbound⟩ := ih h.2
      obtain ⟨name, journal, rfl, hlast⟩ :=
        bindTarget_of_assignable h.1 v { m with scope, journal }
      refine ⟨scope.set name v, journal, ?_, hbound.cons name⟩
      rw [bindTargets_cons_of_ok hrun, hlast]

/-- The last target that is not assignable ends the binding, with the targets after
it bound. -/
theorem bindTargets_of_not_assignable (before : List Expr) {after : List Expr} {target : Expr}
    (hplain : target.Plain) (h : ¬ target.Assignable)
    (hafter : ∀ t ∈ after, t.Assignable) (v : Value) (m : Machine) :
    ∃ scope journal,
      bindTargets v (before ++ target :: after) m =
        .error target.refusal { m with scope, journal } ∧
      Rebound after v m.scope scope := by
  induction before with
  | nil =>
      obtain ⟨scope, journal, hrun, hbound⟩ := bindTargets_of_assignable hafter v m
      obtain ⟨journal, hlast⟩ :=
        bindTarget_of_not_assignable hplain h v { m with scope, journal }
      refine ⟨scope, journal, ?_, hbound⟩
      rw [List.nil_append, bindTargets_cons_of_ok hrun, hlast]
  | cons first before ih =>
      obtain ⟨scope, journal, hrun, hbound⟩ := ih
      exact ⟨scope, journal, bindTargets_cons_of_error hrun first, hbound⟩

end Eval

theorem evalWith_chain (apply : Function → List Value → Eval Value) (outer : List Scope)
    (targets : List Expr) (e : Expr) :
    evalWith apply outer (.chain targets e) = do
      let v ← evalWith apply outer e
      Eval.bindTargets v targets
      return v := by
  induction targets with
  | nil => simp only [Expr.chain, List.foldr_nil, Eval.bindTargets, pure_bind, bind_pure]
  | cons target targets ih =>
      have hchain : Expr.chain (target :: targets) e = .assign target (.chain targets e) := rfl
      rw [hchain, evalWith, ih]
      simp only [Eval.bindTargets, bind_assoc, pure_bind]

theorem eval_chain (limit : Nat) (outer : List Scope) (targets : List Expr) (e : Expr) :
    eval limit outer (.chain targets e) = do
      let v ← eval limit outer e
      Eval.bindTargets v targets
      return v := by
  rw [eval_eq]
  exact evalWith_chain _ outer targets e

theorem eval_chain_congr (limit : Nat) (outer : List Scope) (e : Expr)
    {targets others : List Expr} (h : others.map Expr.target? = targets.map Expr.target?) :
    eval limit outer (.chain others e) = eval limit outer (.chain targets e) := by
  simp only [eval_chain, Eval.bindTargets_congr _ h]

/-! ## The chain of a line -/

/-- Neither the targets of a chain nor what it assigns hold assignments. -/
theorem Grammar.Phrase.plain_of_chain {w : List Token} {targets : List Expr} {e : Expr}
    (h : Phrase .assignment w (.chain targets e)) (he : ∀ target value, e ≠ .assign target value) :
    (∀ t ∈ targets, t.Plain) ∧ e.Every Plain := by
  induction targets generalizing w with
  | nil =>
      refine ⟨fun t ht => absurd ht List.not_mem_nil, ?_⟩
      cases h with
      | join _ ht _ => cases ht
      | ofExpression h => exact h.every_plain rfl
      | assign => exact absurd rfl (he _ _)
  | cons target targets ih =>
      cases h with
      | ofExpression h => exact (h.every_plain rfl).here.elim
      | assign hv hw =>
          obtain ⟨htargets, heplain⟩ := ih hw
          have htarget := (hv.every_plain rfl).here
          exact ⟨List.forall_mem_cons.mpr ⟨htarget, htargets⟩, heplain⟩

theorem plain_of_statementOf_chain {line : String} {targets : List Expr} {e : Expr}
    (h : statementOf line = .ok (.chain targets e)) (hn : targets ≠ [])
    (he : ∀ target value, e ≠ .assign target value) :
    (∀ t ∈ targets, t.Plain) ∧ e.Every Plain := by
  obtain ⟨w, hphrase, -⟩ := phrase_of_statementOf h
  obtain ⟨target, targets, rfl⟩ := List.exists_cons_of_ne_nil hn
  cases hphrase with
  | ofAssignment hphrase => exact hphrase.plain_of_chain he

/-- A line that states something is not blank. -/
theorem not_isBlank_of_statementOf {line : String} {a : Expr}
    (h : statementOf line = .ok a) : ¬ Text.isBlank line = true := by
  intro hblank
  unfold statementOf at h
  split at h
  · cases h
  · next ts hscan =>
      obtain rfl := Lexical.scan_of_isBlank hblank hscan
      split at h
      · cases h
      · next statement hparse =>
          obtain ⟨rest, hyields⟩ := (Grammar.parse_eq_ok_iff _ _).mp hparse
          have hshort := hyields.length_lt
          simp at hshort

theorem runLine_of_statementOf (env : Environment) {line : String} {a : Expr}
    (h : statementOf line = .ok a) :
    (runLine env line).outcome = .ofResult (runStatement env a).result ∧
      (runLine env line).environment = (runStatement env a).environment := by
  rw [runLine, if_neg (not_isBlank_of_statementOf h), h]
  exact ⟨rfl, rfl⟩

/-! ## The effect of a chain -/

section Effect

variable {env : Environment} {a e : Expr} {targets : List Expr} {v : Value}
  {error : EvalError} {m m' : Machine}

theorem runStatement_of_ok (h : eval callDepthLimit [] a { env with journal := [] } = .ok v m) :
    runStatement env a = ⟨.ok v, m.toEnvironment, m.journal.reverse⟩ := by
  rw [runStatement, h]

theorem runStatement_of_error
    (h : eval callDepthLimit [] a { env with journal := [] } = .error error m) :
    runStatement env a = ⟨.error error, m.toEnvironment, (.failed error :: m.journal).reverse⟩ := by
  rw [runStatement, h]

/-- If what is assigned fails, nothing else happens. -/
theorem runStatement_chain_of_error (h : (runStatement env e).result = .error error) :
    runStatement env (.chain targets e) = runStatement env e := by
  cases hrun : eval callDepthLimit [] e { env with journal := [] } with
  | ok v m =>
      rw [runStatement_of_ok hrun] at h
      cases h
  | error error m =>
      have hchain : eval callDepthLimit [] (.chain targets e) { env with journal := [] } =
          .error error m := by
        rw [eval_chain]
        show EStateM.bind (eval callDepthLimit [] e) _ _ = _
        simp only [EStateM.bind, hrun]
      rw [runStatement_of_error hrun, runStatement_of_error hchain]

/-- If what is assigned has a value and changes nothing, binding the targets is what
is left to do. -/
theorem eval_chain_of_ok (h : (runStatement env e).result = .ok v)
    (hpure : (runStatement env e).environment = env) (targets : List Expr) :
    ∃ journal, eval callDepthLimit [] (.chain targets e) { env with journal := [] } =
      EStateM.bind (Eval.bindTargets v targets) (fun _ => pure v) { env with journal } := by
  cases hrun : eval callDepthLimit [] e { env with journal := [] } with
  | error error m =>
      rw [runStatement_of_error hrun] at h
      cases h
  | ok w m =>
      rw [runStatement_of_ok hrun] at h hpure
      cases h
      subst hpure
      refine ⟨m.journal, ?_⟩
      rw [eval_chain]
      show EStateM.bind (eval callDepthLimit [] e) _ _ = _
      rw [EStateM.bind, hrun]
      rfl

theorem runStatement_chain_of_assignable (h : (runStatement env e).result = .ok v)
    (hpure : (runStatement env e).environment = env) (htargets : ∀ t ∈ targets, t.Assignable) :
    ∃ scope, (runStatement env (.chain targets e)).result = .ok v ∧
      (runStatement env (.chain targets e)).environment = { env with scope } ∧
      Rebound targets v env.scope scope := by
  obtain ⟨journal, hchain⟩ := eval_chain_of_ok h hpure targets
  obtain ⟨scope, journal, hbind, hbound⟩ :=
    Eval.bindTargets_of_assignable htargets v { env with journal }
  rw [EStateM.bind, hbind] at hchain
  rw [runStatement_of_ok hchain]
  exact ⟨scope, rfl, rfl, hbound⟩

theorem runStatement_chain_of_not_assignable (before : List Expr) {after : List Expr}
    {target : Expr}
    (h : (runStatement env e).result = .ok v)
    (hpure : (runStatement env e).environment = env) (hplain : target.Plain)
    (htarget : ¬ target.Assignable) (hafter : ∀ t ∈ after, t.Assignable) :
    ∃ scope,
      (runStatement env (.chain (before ++ target :: after) e)).result = .error target.refusal ∧
      (runStatement env (.chain (before ++ target :: after) e)).environment =
        { env with scope } ∧
      Rebound after v env.scope scope := by
  obtain ⟨journal, hchain⟩ := eval_chain_of_ok h hpure (before ++ target :: after)
  obtain ⟨scope, journal, hbind, hbound⟩ :=
    Eval.bindTargets_of_not_assignable before hplain htarget hafter v
      { env with journal }
  rw [EStateM.bind, hbind] at hchain
  rw [runStatement_of_error hchain]
  exact ⟨scope, rfl, rfl, hbound⟩

/-- Either all targets are assignable, or there is a last one that is not. -/
theorem assignable_or_last_not (targets : List Expr) :
    (∀ t ∈ targets, t.Assignable) ∨ ∃ before target after,
      targets = before ++ target :: after ∧ ¬ target.Assignable ∧ ∀ t ∈ after, t.Assignable := by
  induction targets with
  | nil => exact .inl fun t ht => absurd ht List.not_mem_nil
  | cons first targets ih =>
      rcases ih with hall | ⟨before, target, after, rfl, htarget, hafter⟩
      · by_cases hfirst : first.Assignable
        · exact .inl (List.forall_mem_cons.mpr ⟨hfirst, hall⟩)
        · exact .inr ⟨[], first, targets, rfl, hfirst, hall⟩
      · exact .inr ⟨first :: before, target, after, rfl, htarget, hafter⟩

end Effect

/-- **A chain of assignments commits a suffix of its targets.** If what is assigned
fails, so does the line, and nothing changes. Otherwise the targets after the last
one that is not assignable are bound to the value, all of them if there is none,
and nothing else is; the line has the value, or fails for the reason that the target
gives. What stands in a target besides its variable makes no difference to anything,
the journal included: targets are not evaluated. -/
theorem runLine_chain {env : Environment} (h : Reached env) {line : String}
    {targets : List Expr} {e : Expr} (hline : statementOf line = .ok (.chain targets e))
    (hn : targets ≠ []) (he : ∀ target value, e ≠ .assign target value) :
    (∀ error, (runStatement env e).result = .error error →
        (runLine env line).outcome = .failed (.eval error) ∧
          (runLine env line).environment = env) ∧
      (∀ v, (runStatement env e).result = .ok v →
        ((∀ t ∈ targets, t.Assignable) →
          (runLine env line).outcome = .value v ∧
            Rebound targets v env.scope (runLine env line).environment.scope) ∧
        ∀ k, (hk : k < targets.length) → ¬ targets[k].Assignable →
          (∀ t ∈ targets.drop (k + 1), t.Assignable) →
            (runLine env line).outcome = .failed (.eval targets[k].refusal) ∧
              Rebound (targets.drop (k + 1)) v env.scope
                (runLine env line).environment.scope) ∧
      (runLine env line).environment.functions = env.functions ∧
      ∀ others, others.map Expr.target? = targets.map Expr.target? →
        runStatement env (.chain others e) = runStatement env (.chain targets e) := by
  obtain ⟨hplain, hepure⟩ := plain_of_statementOf_chain hline hn he
  have hpure := environment_runStatement_plain h.kept hepure
  obtain ⟨houtcome, henvironment⟩ := runLine_of_statementOf env hline
  rw [houtcome, henvironment]
  refine ⟨fun error herror => ?_, fun v hv => ⟨fun htargets => ?_, fun k hk hkth hafter => ?_⟩,
    ?_, fun others hothers => ?_⟩
  · rw [runStatement_chain_of_error herror, herror, hpure]
    exact ⟨rfl, rfl⟩
  · obtain ⟨scope, hresult, hend, hbound⟩ :=
      runStatement_chain_of_assignable hv hpure htargets
    rw [hresult, hend]
    exact ⟨rfl, hbound⟩
  · have hsplit : targets.take k ++ targets[k] :: targets.drop (k + 1) = targets := by
      rw [← List.drop_eq_getElem_cons hk, List.take_append_drop]
    obtain ⟨scope, hresult, hend, hbound⟩ :=
      runStatement_chain_of_not_assignable (targets.take k) hv hpure
        (hplain _ (List.getElem_mem hk)) hkth hafter
    rw [hsplit] at hresult hend
    rw [hresult, hend]
    exact ⟨rfl, hbound⟩
  · cases hresult : (runStatement env e).result with
    | error error => rw [runStatement_chain_of_error hresult, hpure]
    | ok v =>
        rcases assignable_or_last_not targets with
          htargets | ⟨before, target, after, rfl, htarget, hafter⟩
        · obtain ⟨scope, -, hend, -⟩ :=
            runStatement_chain_of_assignable hresult hpure htargets
          rw [hend]
        · obtain ⟨scope, -, hend, -⟩ := runStatement_chain_of_not_assignable
            before hresult hpure (hplain target (by simp)) htarget hafter
          rw [hend]
  · rw [runStatement, runStatement, eval_chain_congr callDepthLimit [] e hothers]

/-- The target behind the constant is bound, the one before it is not. -/
theorem runLine_chain_past_constant :
    let line := "x = pi = y = 3"
    statementOf line = .ok (.chain [.var "x", .var "pi", .var "y"] (.integer 3)) ∧
      (runLine {} line).outcome = .failed (.eval (.constantAssigned "pi")) ∧
      (runLine {} line).environment.scope.get? "x" = none ∧
      (runLine {} line).environment.scope.get? "y" = some (.integer 3) := by
  intro line
  have states : statementOf line =
      .ok (.chain [.var "x", .var "pi", .var "y"] (.integer 3)) := by
    cbv
  have value : (runStatement {} (.integer 3)).result = .ok (.integer 3) := by
    cbv
  obtain ⟨-, binds, -⟩ := runLine_chain .fresh states (List.cons_ne_nil _ _)
    (fun _ _ h => by cases h)
  have constant : ¬ (Expr.var "pi").Assignable := by
    show ¬ isConstant "pi" = false
    decide
  have last : ∀ t ∈ [Expr.var "y"], t.Assignable := by
    refine List.forall_mem_singleton.mpr ?_
    show isConstant "y" = false
    decide
  obtain ⟨outcome, bound⟩ := (binds _ value).2 1 (by decide) constant last
  refine ⟨states, outcome, ?_, (bound "y").1 List.mem_cons_self⟩
  exact (bound "x").2 (by simp)

end UnitCalc
