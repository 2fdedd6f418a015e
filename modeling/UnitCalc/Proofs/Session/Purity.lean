import Mathlib
import UnitCalc.Proofs.Session.WellFormed

/-!
# Purity of expressions in sessions

The bodies of the functions of a session are expressions without assignments or
declarations, so calls change nothing, and a line changes the session only by what
it states itself.
-/

namespace UnitCalc

open UnitCalc.Expr (Every Plain)
open Grammar (Phrase)

/-- The line is blank, states nothing, or states an expression that is neither an
assignment nor a declaration. -/
def Passive (line : String) : Prop :=
  Text.isBlank line = true ∨ (∃ e, statementOf line = .error e) ∨
    ∃ a, statementOf line = .ok a ∧ a.Plain

theorem fits_true (r : Except EvalError Value) :
    Fits (fun _ => True) (fun _ => True) r := by
  cases r <;> trivial

/-- Evaluation that changes nothing. -/
def pureEvaluation : Discipline where
  node := Plain
  value _ := True
  function _ f := f.body.Every Plain
  error _ := True
  moves env after := after = env
  refl _ := rfl
  trans first second := second.trans first
  leave h := by rw [h]
  raised _ := trivial
  literal _ _ := trivial
  constant _ := trivial
  unary _ := fits_true _
  binary _ _ := fits_true _
  convert _ _ := fits_true _
  builtin _ _ _ := fits_true _
  assign _ h := h.elim
  declare h := h.elim
  body h := h

theorem Kept.pure_sane {env : Environment} (h : Kept env) : pureEvaluation.Sane env := by
  refine ⟨fun _ _ _ => trivial, fun name f hf => ?_⟩
  obtain ⟨_, _, _, hplain⟩ := h.sane.2 name f hf
  exact hplain

theorem environment_runStatement_plain {env : Environment} (h : Kept env) {a : Expr}
    (ha : a.Every Plain) : (runStatement env a).environment = env := by
  obtain ⟨_, hsame, _⟩ := Discipline.runStatement_obeys h.pure_sane ha
  exact hsame

theorem every_plain_of_statementOf {line : String} {a : Expr}
    (h : statementOf line = .ok a) (ha : a.Plain) : a.Every Plain := by
  obtain ⟨w, hphrase, _⟩ := phrase_of_statementOf h
  cases hphrase with
  | join _ ht _ => cases ht
  | declare => exact ha.elim
  | ofAssignment hphrase =>
      cases hphrase with
      | join _ ht _ => cases ht
      | assign => exact ha.elim
      | ofExpression hphrase => exact hphrase.every_plain rfl

theorem environment_runLine_of_statementOf (env : Environment) {line : String}
    {a : Expr} (h : statementOf line = .ok a) :
    (runLine env line).environment = env ∨
      (runLine env line).environment = (runStatement env a).environment := by
  unfold runLine
  split
  · exact .inl rfl
  · rw [h]
    exact .inr rfl

/-- A declaration stores the function, unless its name is that of a constant. -/
theorem environment_runStatement_declare (env : Environment) (name : String)
    (params : List String) (body : Expr) :
    (runStatement env (.declare name params body)).environment =
      if isConstant name then env
      else { env with functions := env.functions.set name ⟨name, params, body⟩ } := by
  have heval : eval callDepthLimit [] (.declare name params body) =
      EStateM.bind (Eval.declare ⟨name, params, body⟩) fun _ => pure .function := by
    rw [eval_eq, evalWith]
    rfl
  cases hc : isConstant name with
  | true =>
      have hrun := Eval.declare_of_constant (f := ⟨name, params, body⟩) hc
        { env with journal := [] }
      simp only [runStatement, heval, EStateM.bind, hrun, if_true]
  | false =>
      obtain ⟨journal, hrun⟩ := Eval.declare_of_not_constant
        (f := ⟨name, params, body⟩) hc { env with journal := [] }
      simp only [runStatement, heval, EStateM.bind, hrun]
      rfl

/-- **Expressions and calls change nothing.** A line that states no assignment and
no declaration leaves the session as it was, whatever becomes of it. A declaration
changes nothing but the function of its own name, and not even that if the name is
a constant. -/
theorem environment_runLine_of_reached {env : Environment} (h : Reached env)
    (line : String) :
    (Passive line → (runLine env line).environment = env) ∧
      ∀ name params body, statementOf line = .ok (.declare name params body) →
        (runLine env line).environment.scope = env.scope ∧
          (∀ other, other ≠ name → (runLine env line).environment.functions.get? other =
            env.functions.get? other) ∧
          (isConstant name = true → (runLine env line).environment = env) := by
  constructor
  · rintro (hblank | ⟨e, hstatement⟩ | ⟨a, hstatement, hplain⟩)
    · rw [runLine, if_pos hblank]
    · unfold runLine
      split
      · rfl
      · rw [hstatement]
    · rcases environment_runLine_of_statementOf env hstatement with hsame | hrun
      · exact hsame
      · rw [hrun]
        exact environment_runStatement_plain h.kept
          (every_plain_of_statementOf hstatement hplain)
  · intro name params body hstatement
    -- whether a line that declares can be blank need not be settled
    rcases environment_runLine_of_statementOf env hstatement with hsame | hrun
    · rw [hsame]
      exact ⟨rfl, fun _ _ => rfl, fun _ => rfl⟩
    · rw [hrun, environment_runStatement_declare]
      split
      · exact ⟨rfl, fun _ _ => rfl, fun _ => rfl⟩
      · next hconstant =>
          refine ⟨rfl, fun other hother => ?_, fun h => absurd h hconstant⟩
          rw [Bindings.get?_set, if_neg hother]

/-- A function that calls itself without end, and a declaration under the name of a
constant. -/
theorem environment_runLine_endless_recursion :
    (let env := (runLine {} "fn f(x) = f(x)").environment
     Reached env ∧ Passive "f(1)" ∧ (runLine env "f(1)").environment = env) ∧
      statementOf "fn pi(x) = x" = .ok (.declare "pi" ["x"] (.var "x")) ∧
      (runLine {} "fn pi(x) = x").environment = {} := by
  have reached : Reached (runLine {} "fn f(x) = f(x)").environment := .line .fresh _
  have passive : Passive "f(1)" :=
    .inr (.inr ⟨.call "f" [.integer 1], by cbv, trivial⟩)
  have declares : statementOf "fn pi(x) = x" = .ok (.declare "pi" ["x"] (.var "x")) := by
    cbv
  refine ⟨⟨reached, passive, (environment_runLine_of_reached reached _).1 passive⟩,
    declares, ?_⟩
  exact ((environment_runLine_of_reached .fresh _).2 "pi" ["x"] _ declares).2.2 (by decide)

end UnitCalc
