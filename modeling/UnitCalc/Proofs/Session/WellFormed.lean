import UnitCalc.Proofs.Grammar.Complete
import UnitCalc.Proofs.Grammar.Spelling
import UnitCalc.Proofs.Session.Reached
import UnitCalc.Proofs.Token.Words
import UnitCalc.Proofs.Value.Registered

/-!
# Well-formed sessions

Every session stays well-formed: the names it binds are free for it, the units it
holds are registered, and constants and builtin functions are what they were. The
scan of a line checks the words, the grammar carries them into the statement, and
evaluation makes no others. So no line ever meets an unknown unit.
-/

namespace UnitCalc

open UnitCalc.Expr (Every Plain)
open Grammar (Phrase Spelled)

/-- The unit that a part of an expression names: that of a quantity, or the target
of a conversion. -/
def Expr.unit? : Expr → Option String
  | .quantity _ unit => some unit
  | .convert _ unit => some unit
  | _ => none

/-- The words in a part of a statement come from a scanned text, and nothing in the
body of a function is an assignment or a declaration. -/
structure Expr.Proper (e : Expr) : Prop where
  unit : ∀ {unit}, e.unit? = some unit → Measure.isSymbol unit = true
  variableName : ∀ {name}, e = .var name → IsIdentifier name
  functionName : ∀ {name params body}, e = .declare name params body → IsIdentifier name
  body : ∀ {name params body}, e = .declare name params body → body.Every Plain

/-! ## The statement of a line -/

theorem Grammar.Spelled.proper {w : List Token} {e : Expr} (h : Spelled w e)
    (hw : ∀ t ∈ w, t.Proper) : e.Proper := by
  cases h with
  | quantity h => exact ⟨fun hu => by cases hu; exact hw _ h, nofun, nofun, nofun⟩
  | convert h => exact ⟨fun hu => by cases hu; exact hw _ h, nofun, nofun, nofun⟩
  | var h => exact ⟨nofun, fun hn => by cases hn; exact hw _ h, nofun, nofun⟩
  | _ => exact ⟨nofun, nofun, nofun, nofun⟩

theorem Grammar.Phrase.every_proper {w : List Token} {a : Expr}
    (h : Phrase .statement w a) (hw : ∀ t ∈ w, t.Proper) : a.Every Expr.Proper := by
  refine h.every_of_statement (fun _ _ => ⟨nofun, nofun, nofun, nofun⟩) ?_ fun h => h.proper hw
  intro name params body hname hbody
  refine ⟨nofun, nofun, ?_, ?_⟩
  · intro _ _ _ hdeclare
    cases hdeclare
    exact hw (.identifier name) hname
  · intro _ _ _ hdeclare
    cases hdeclare
    exact hbody.mono Spelled.plain

/-- The statement of a line is a phrase of tokens of the line. -/
theorem phrase_of_statementOf {line : String} {a : Expr}
    (h : statementOf line = .ok a) :
    ∃ w, Phrase .statement w a ∧ ∃ ts, Token.scan line = .ok ts ∧ w ⊆ ts := by
  unfold statementOf at h
  split at h
  · cases h
  · next ts hscan =>
      split at h
      · cases h
      · next statement hparse =>
          cases h
          obtain ⟨w, rest, rfl, hw⟩ := Grammar.phrase_of_parse hparse
          exact ⟨w, hw, _, hscan, List.subset_append_left w _⟩

theorem every_proper_of_statementOf {line : String} {a : Expr}
    (h : statementOf line = .ok a) : a.Every Expr.Proper := by
  obtain ⟨w, hphrase, ts, hscan, hsub⟩ := phrase_of_statementOf h
  exact hphrase.every_proper fun t ht => Token.proper_of_scan hscan t (hsub ht)

/-! ## Evaluation of proper statements -/

theorem Discipline.sane_fresh (d : Discipline) : d.Sane {} := by
  refine ⟨fun name v h => ?_, fun name f h => ?_⟩
  · cases h
  · cases h

/-- At the top of a session a statement keeps to a discipline as anywhere. -/
theorem Discipline.runStatement_obeys {d : Discipline} {env : Environment}
    (h : d.Sane env) {a : Expr} (ha : a.Every d.node) :
    d.Sane (runStatement env a).environment ∧
      d.moves env (runStatement env a).environment ∧
      Fits d.value d.error (runStatement env a).result := by
  have hend := d.obeys_eval callDepthLimit (fun s hs => absurd hs List.not_mem_nil) ha
    { env with journal := [] } h
  unfold runStatement
  cases hr : eval callDepthLimit [] a { env with journal := [] } with
  | ok v m =>
      rw [hr] at hend
      exact hend
  | error e m =>
      rw [hr] at hend
      exact hend

/-- Evaluation of proper statements: values are registered, functions are declared
under free names, and variables are bound to no other names. -/
def properEvaluation : Discipline where
  node := Expr.Proper
  value := Value.Registered
  function name f :=
    f.name = name ∧ IsFree name ∧ f.body.Every Expr.Proper ∧ f.body.Every Plain
  error := EvalError.UnitsKnown
  moves env after :=
    ∀ name, after.scope.get? name ≠ none → env.scope.get? name ≠ none ∨ IsFree name
  refl _ _ h := .inl h
  trans first second name h := by
    rcases second name h with h | h
    · exact first name h
    · exact .inr h
  leave _ _ h := .inl h
  raised h := h
  literal h hproper := by
    cases h with
    | quantity x unit => exact hproper.unit rfl
    | _ => trivial
  constant {name v} h := by
    unfold constant? at h
    split at h <;> cases h <;> trivial
  unary {op v} hv := v.inUnits_unary op hv
  binary {op l r} hl hr := l.inUnits_binary op hl hr
  convert hproper hv := Value.inUnits_convertTo hv (hproper.unit rfl)
  builtin {name args b vs} _ _ _ := b.inUnits_apply vs
  assign env _ hvar hconstant _ := by
    intro other h
    rw [Bindings.get?_set] at h
    split at h
    · next heq => exact .inr (heq ▸ ⟨hvar.variableName rfl, hconstant⟩)
    · exact .inl h
  declare hproper hbody hconstant :=
    ⟨trivial, ⟨rfl, ⟨hproper.functionName rfl, hconstant⟩, hbody, hproper.body rfl⟩,
      fun _ _ h => .inl h⟩
  body h := h.2.2.1

/-! ## Sessions -/

/-- What every line of a session finds and leaves: the invariant from which the
promises of `WellFormed` follow. -/
structure Kept (env : Environment) : Prop where
  sane : properEvaluation.Sane env
  variableNames : ∀ name, env.scope.get? name ≠ none → IsFree name

/-- All units in the outcome of a line are registered. -/
def Outcome.InUnits : Outcome → Prop
  | .blank => True
  | .value v => v.Registered
  | .failed e => ∀ symbol, e ≠ .eval (.unknownUnit symbol)

theorem kept_fresh : Kept {} where
  sane := properEvaluation.sane_fresh
  variableNames _ h := absurd rfl h

theorem inUnits_ofResult {r : Except EvalError Value} (h : InUnits r) :
    (Outcome.ofResult r).InUnits := by
  cases r with
  | ok v => exact h
  | error e =>
      intro symbol he
      cases he
      exact h

theorem kept_runStatement {env : Environment} (h : Kept env) {a : Expr}
    (ha : a.Every Expr.Proper) :
    Kept (runStatement env a).environment ∧ InUnits (runStatement env a).result := by
  obtain ⟨hsane, hmoves, hresult⟩ := Discipline.runStatement_obeys h.sane ha
  refine ⟨⟨hsane, fun name hname => ?_⟩, hresult⟩
  rcases hmoves name hname with hbefore | hfree
  · exact h.variableNames name hbefore
  · exact hfree

theorem kept_runLine {env : Environment} (h : Kept env) (line : String) :
    Kept (runLine env line).environment ∧ (runLine env line).outcome.InUnits := by
  unfold runLine
  split
  · exact ⟨h, trivial⟩
  · split
    · next e hstatement =>
        -- what stops a line before evaluation is no error of evaluation
        refine ⟨h, fun symbol he => ?_⟩
        subst he
        unfold statementOf at hstatement
        split at hstatement
        · cases hstatement
        · split at hstatement
          · cases hstatement
          · cases hstatement
    · next a hstatement =>
        obtain ⟨hkept, hunits⟩ :=
          kept_runStatement h (every_proper_of_statementOf hstatement)
        exact ⟨hkept, inUnits_ofResult hunits⟩

theorem Reached.kept {env : Environment} (h : Reached env) : Kept env :=
  h.of_runLine kept_fresh kept_runLine

/-- A builtin function is found under its name whatever functions are declared. -/
theorem eval_call_builtin (limit : Nat) (outer : List Scope) (b : Builtin)
    (arg : Expr) :
    eval limit outer (.call b.name [arg]) =
      (eval limit outer arg >>= fun v => ofExcept (b.applyTo v)) := by
  have hname : Builtin.ofName? b.name = some b := by cases b <;> decide
  rw [eval_eq, evalWith, hname]
  simp only [Eval.requireArity, Builtin.arity, List.length_singleton, if_true, evalArgs,
    pure_bind, bind_assoc, Builtin.apply]

/-- What a session keeps of its environment. The last two fields hold of every environment, by
the way names are looked up: constants come before variables and builtin functions before
declared ones, so that nothing an environment holds can take their place. -/
structure WellFormed (env : Environment) : Prop where
  variableNames : ∀ name, env.scope.get? name ≠ none → IsFree name
  functionNames : ∀ name, env.functions.get? name ≠ none → IsFree name
  /-- Functions are stored under the names that they are declared with. -/
  ownNames : ∀ name f, env.functions.get? name = some f → f.name = name
  values : ∀ name v, env.scope.get? name = some v → v.Registered
  bodies : ∀ name f, env.functions.get? name = some f →
    f.body.Every fun e => ∀ unit, e.unit? = some unit → Measure.isSymbol unit = true
  constants : ∀ name v, constant? name = some v → env.lookup? [] name = some v
  builtins : ∀ (b : Builtin) (arg : Expr) (journal : List Event),
    eval callDepthLimit [] (.call b.name [arg]) { env with journal } =
      (eval callDepthLimit [] arg >>= fun v => ofExcept (b.applyTo v)) { env with journal }

theorem Kept.wellFormed {env : Environment} (h : Kept env) : WellFormed env where
  variableNames := h.variableNames
  functionNames name hname := by
    obtain ⟨f, hf⟩ := Option.ne_none_iff_exists'.mp hname
    obtain ⟨_, hfree, _⟩ := h.sane.2 name f hf
    exact hfree
  ownNames name f hf := (h.sane.2 name f hf).1
  values := h.sane.1
  bodies name f hf := by
    obtain ⟨_, _, hproper, _⟩ := h.sane.2 name f hf
    exact hproper.mono fun hp unit hunit => hp.unit hunit
  constants name v hv := by
    rw [Environment.lookup?, hv, Option.some_or]
  builtins b arg journal := by
    rw [eval_call_builtin]

/-- **Sessions stay well-formed.** This holds after every line of a session,
whatever the lines are and whether they fail. Then no value of a line has an
unregistered unit, and no line fails because a unit is unknown. -/
theorem wellFormed_of_reached {env : Environment} (h : Reached env) :
    WellFormed env ∧ (∀ line, (runLine env line).outcome.InUnits) ∧
      ∀ text, ∀ record ∈ (runDocument env text).records, record.outcome.InUnits := by
  refine ⟨h.kept.wellFormed, fun line => ?_, fun text => ?_⟩
  · exact (kept_runLine h.kept line).2
  · exact (runLines_of_runLine kept_runLine h.kept 1 (Text.lines text)).2

/-- After a variable with a unit and a function that converts to another. -/
theorem wellFormed_after_conversion :
    let env := (runLine (runLine {} "x = 2km").environment
      "fn f(a) = a to m").environment
    Reached env ∧ WellFormed env ∧ (runLine env "f(x) + 1mb").outcome.InUnits ∧
      ∀ record ∈ (runDocument env "y = f(x)\ny to gb").records,
        record.outcome.InUnits := by
  intro env
  have reached : Reached env := .line (.line .fresh _) _
  obtain ⟨wellFormed, lines, documents⟩ := wellFormed_of_reached reached
  exact ⟨reached, wellFormed, lines _, documents _⟩

end UnitCalc
