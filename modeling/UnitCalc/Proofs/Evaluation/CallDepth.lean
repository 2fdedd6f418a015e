import UnitCalc.Proofs.Evaluation.Coupling

/-!
# The call depth limit is transparent

Run an expression twice in the same environment, the second time with calls
allowed to nest deeper. The runs go through the same environments until the first
one has a call refused, and then it ends with that refusal. So a limit turns
results into refusals and does nothing else: any other result, and the environment
that it leaves, is that of every higher limit too.
-/

namespace UnitCalc

/-- A call was refused because it would have nested too deep. -/
def EvalError.IsRefusal (e : EvalError) : Prop := ∃ name limit, e = .tooDeep name limit

/-- Two runs in one environment, of which the first may have a call refused. -/
def sameEnvironment : Coupling where
  node _ := True
  related outer outer' env env' := outer = outer' ∧ env = env'
  excused := EvalError.IsRefusal
  lookup h _ := by
    obtain ⟨rfl, rfl⟩ := h
    rfl
  assign v h := by
    obtain ⟨rfl, rfl⟩ := h
    exact ⟨rfl, rfl⟩
  declare h _ := by
    obtain ⟨rfl, rfl⟩ := h
    exact ⟨rfl, rfl⟩
  function h _ _ := by
    obtain ⟨rfl, rfl⟩ := h
    exact ⟨rfl, fun f _ => .of_forall (fun _ => trivial) f.body⟩
  enter locals h := by
    obtain ⟨rfl, rfl⟩ := h
    exact ⟨rfl, rfl⟩
  leave h hafter := by
    obtain ⟨rfl, rfl⟩ := h
    obtain ⟨-, rfl⟩ := hafter
    exact ⟨rfl, rfl⟩

theorem alike_eval {limit limit' : Nat} (h : limit ≤ limit') (outer : List Scope) (e : Expr)
    (m : Machine) :
    sameEnvironment.Alike outer outer (eval limit outer e m) (eval limit' outer e m) := by
  have hexcused : ∀ name, sameEnvironment.excused (.tooDeep name limit) :=
    fun name => ⟨name, limit, rfl⟩
  have hparts : e.Every sameEnvironment.node := .of_forall (fun _ => trivial) e
  exact Coupling.coupled_eval h (fun _ => hexcused) rfl hparts m m ⟨rfl, rfl⟩

/-- **The call depth limit is transparent.** A value, or an error that does not refuse
a call, is also what every higher limit leads to, with the same functions and the same
innermost scope left behind; the scopes around it are never written. -/
theorem eval_of_le_limit {limit limit' : Nat} (h : limit ≤ limit') (outer : List Scope)
    (e : Expr) (m : Machine) :
    (∀ v after, eval limit outer e m = .ok v after →
      ∃ after', eval limit' outer e m = .ok v after' ∧
        after'.toEnvironment = after.toEnvironment) ∧
    ∀ error after, eval limit outer e m = .error error after → ¬ error.IsRefusal →
      ∃ after', eval limit' outer e m = .error error after' ∧
        after'.toEnvironment = after.toEnvironment := by
  have halike := alike_eval h outer e m
  constructor
  · intro v after hv
    rw [hv] at halike
    generalize eval limit' outer e m = result at halike
    cases halike with
    | ok hsame => exact ⟨_, rfl, hsame.2.symm⟩
  · intro error after herror hkept
    rw [herror] at halike
    generalize eval limit' outer e m = result at halike
    cases halike with
    | error hsame => exact ⟨_, rfl, hsame.2.symm⟩
    | excused hrefused => exact absurd hrefused hkept

/-- A call inside a call fits a limit of two; what the inner one fails with comes
before any refusal. -/
theorem eval_of_le_limit_nested :
    let inner : Function := ⟨"inner", ["x"], .ternary (.var "x") (.var "y") (.var "z")⟩
    let outermost : Function := ⟨"outermost", ["x"], .call "inner" [.var "x"]⟩
    let m : Machine :=
      { scope := .ofPairs [("y", .text "y")]
        functions := .ofPairs [("inner", inner), ("outermost", outermost)] }
    2 ≤ callDepthLimit ∧
      (∃ after, eval 2 [] (.call "outermost" [.var "true"]) m = .ok (.text "y") after) ∧
      (∃ after, eval callDepthLimit [] (.call "outermost" [.var "true"]) m =
        .ok (.text "y") after) ∧
      (∃ after, eval 2 [] (.call "outermost" [.var "false"]) m =
        .error (.unboundVariable "z") after) ∧
      ∃ after, eval callDepthLimit [] (.call "outermost" [.var "false"]) m =
        .error (.unboundVariable "z") after := by
  intro inner outermost m
  have limits : 2 ≤ callDepthLimit := by decide
  have value : ∃ after, eval 2 [] (.call "outermost" [.var "true"]) m =
      .ok (.text "y") after := ⟨_, rfl⟩
  have error : ∃ after, eval 2 [] (.call "outermost" [.var "false"]) m =
      .error (.unboundVariable "z") after := ⟨_, rfl⟩
  have kept : ¬ (EvalError.unboundVariable "z").IsRefusal := by
    rintro ⟨name, limit, h⟩
    cases h
  obtain ⟨after, hafter⟩ := value
  obtain ⟨after', hvalue, -⟩ := (eval_of_le_limit limits [] _ m).1 _ _ hafter
  obtain ⟨left, hleft⟩ := error
  obtain ⟨left', herror, -⟩ := (eval_of_le_limit limits [] _ m).2 _ _ hleft kept
  exact ⟨limits, ⟨after, hafter⟩, ⟨after', hvalue⟩, ⟨left, hleft⟩, ⟨left', herror⟩⟩

end UnitCalc
