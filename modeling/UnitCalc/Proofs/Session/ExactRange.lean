import Mathlib
import UnitCalc.Proofs.Number.Nearest
import UnitCalc.Proofs.Session.WellFormed
import UnitCalc.Proofs.Value.ExactRange

/-!
# Integers of a session

As long as no line asks for the length of a text, all integers that a session shows
or holds are in the exact range. Literals are checked when they are scanned, and
evaluation makes no integers outside the range from integers inside it.
-/

namespace UnitCalc

open UnitCalc.Expr (Every)
open Grammar (Phrase Spelled)

/-- The expression is not itself a call of the builtin function. -/
def Expr.Avoids (b : Builtin) (e : Expr) : Prop := ∀ args, e ≠ .call b.name args

/-- If the expression is an integer, it is in the exact range. -/
def Expr.ExactLiteral (e : Expr) : Prop := ∀ n, e = .integer n → IsExact n

/-! ## Literals of a line -/

def Token.Exact (t : Token) : Prop := ∀ n, t = .integer n → IsExact n

theorem Token.exact_of_scan {source : String} {ts : List Token}
    (h : Token.scan source = .ok ts) : ∀ t ∈ ts, t.Exact := by
  rintro t ht n rfl
  rcases Lexical.origin_of_scan h _ ht with hend | horigin
  · cases hend
  · generalize hn : Token.integer n = t at horigin
    cases horigin with
    | number h =>
        subst hn
        rcases Lexical.readNumber_cases h with ⟨_, _, ht, -⟩ | ⟨_, ht⟩ | ⟨value, hlimit, ht⟩
        · cases ht
        · cases ht
        · cases ht
          exact isExact_ofNat hlimit
    | word letters =>
        have hword := Lexical.isWord_readWord letters
        rw [← hn] at hword
        exact hword.elim
    | text s => cases hn
    | mark h =>
        subst hn
        cases h

variable {line : String} {a : Expr}

theorem every_exactLiteral_of_statementOf (h : statementOf line = .ok a) :
    a.Every Expr.ExactLiteral := by
  obtain ⟨w, hphrase, ts, hscan, hsub⟩ := phrase_of_statementOf h
  refine hphrase.every_of_statement (fun _ _ n hn => ?_) (fun _ _ n hn => ?_) ?_
  · cases hn
  · cases hn
  · rintro e hspelled n rfl
    cases hspelled with
    | integer h => exact Token.exact_of_scan hscan _ (hsub h) n rfl

/-- A function that no token names is not called. -/
theorem every_avoids_of_scan {b : Builtin} {ts : List Token} (hscan : Token.scan line = .ok ts)
    (hname : .identifier b.name ∉ ts) (h : statementOf line = .ok a) :
    a.Every (Expr.Avoids b) := by
  obtain ⟨w, hphrase, ts', hscan', hsub⟩ := phrase_of_statementOf h
  rw [hscan] at hscan'
  cases hscan'
  refine hphrase.every_of_statement (fun _ _ args hcall => ?_) (fun _ _ args hcall => ?_) ?_
  · cases hcall
  · cases hcall
  · rintro e hspelled args rfl
    cases hspelled with
    | call h => exact hname (hsub h)

/-! ## Evaluation -/

/-- Evaluation that stays in the exact range. -/
def exactEvaluation : Discipline where
  node e := e.ExactLiteral ∧ e.Avoids .length
  value := Value.Exact
  function _ f := f.body.Every fun e => e.ExactLiteral ∧ e.Avoids .length
  error _ := True
  moves _ _ := True
  refl _ := trivial
  trans _ _ := trivial
  leave _ := trivial
  raised _ := trivial
  literal h hnode := by
    cases h with
    | integer n => exact hnode.1 n rfl
    | _ => trivial
  constant {name v} h := by
    unfold constant? at h
    split at h <;> cases h <;> trivial
  unary {op v} hv := v.inRange_unary op hv
  binary {op l r} _ _ := l.inRange_binary op r
  convert {operand unit v} _ _ := v.inRange_convertTo unit
  builtin {name args b vs} hnode hb _ := by
    refine Builtin.inRange_apply ?_ vs
    rintro rfl
    have hname : Builtin.length.name = name := by simpa using List.find?_some hb
    exact hnode.2 args (by rw [hname])
  assign _ _ _ _ _ := trivial
  declare _ hbody _ := ⟨trivial, hbody, fun _ => trivial⟩
  body h := h

/-! ## Sessions -/

/-- If the line has an integer for value, it is in the exact range. -/
def Outcome.Exact (o : Outcome) : Prop := ∀ n, o = .value (.integer n) → IsExact n

theorem exact_ofResult {r : Except EvalError Value} (h : InRange r) :
    (Outcome.ofResult r).Exact := by
  intro n hn
  cases r with
  | ok v =>
      cases hn
      exact h
  | error e => cases hn

theorem exact_runLine {env : Environment} (h : exactEvaluation.Sane env)
    (hline : ∀ a, statementOf line = .ok a → a.Every (Expr.Avoids .length)) :
    exactEvaluation.Sane (runLine env line).environment ∧ (runLine env line).outcome.Exact := by
  unfold runLine
  split
  · exact ⟨h, fun n hn => by cases hn⟩
  · split
    · exact ⟨h, fun n hn => by cases hn⟩
    · next a hstatement =>
        have hnodes := (every_exactLiteral_of_statementOf hstatement).and (hline a hstatement)
        obtain ⟨hsane, -, hresult⟩ := Discipline.runStatement_obeys h hnodes
        exact ⟨hsane, exact_ofResult hresult⟩

theorem isExact_iff {n : Int64} : IsExact n ↔ |n.toInt| ≤ 2 ^ 53 - 1 :=
  Binary64.natAbs_le_exactLimit_iff

/-- **Integers stay in the exact range.** In a session whose lines ask for no length
of a text, no line has an integer of greater magnitude for its value, no variable
holds one, and none is written in the body of a function. -/
theorem integers_stay_exact (lines : List String)
    (h : ∀ line ∈ lines, ∀ a, statementOf line = .ok a → a.Every (Expr.Avoids .length)) :
    (∀ record ∈ (runLines {} 1 lines).records, ∀ n,
        record.outcome = .value (.integer n) → |n.toInt| ≤ 2 ^ 53 - 1) ∧
      (∀ name n, (runLines {} 1 lines).environment.scope.get? name = some (.integer n) →
        |n.toInt| ≤ 2 ^ 53 - 1) ∧
      ∀ name f, (runLines {} 1 lines).environment.functions.get? name = some f →
        f.body.Every fun e => ∀ n, e = .integer n → |n.toInt| ≤ 2 ^ 53 - 1 := by
  obtain ⟨⟨hvariables, hfunctions⟩, hrecords⟩ :=
    runLines_of_mem (p := exactEvaluation.Sane) (q := Outcome.Exact)
      (fun henv line hline => exact_runLine henv (h line hline)) exactEvaluation.sane_fresh 1
  refine ⟨fun record hrecord n hn => ?_, fun name n hn => ?_, fun name f hf => ?_⟩
  · exact isExact_iff.mp (hrecords record hrecord n hn)
  · exact isExact_iff.mp (hvariables name _ hn)
  · exact (hfunctions name f hf).mono fun hnode n hn => isExact_iff.mp (hnode.1 n hn)

/-- The greatest integer of the range, one more than it, and the negative of it. -/
theorem integers_stay_exact_at_limit :
    let lines := ["x = 9_007_199_254_740_991", "fn f(a) = -a - 1", "f(x - 1)", "x + 1"]
    (∀ line ∈ lines, ∀ a, statementOf line = .ok a → a.Every (Expr.Avoids .length)) ∧
      (∀ record ∈ (runLines {} 1 lines).records, ∀ n,
        record.outcome = .value (.integer n) → |n.toInt| ≤ 2 ^ 53 - 1) ∧
      (∀ name n, (runLines {} 1 lines).environment.scope.get? name = some (.integer n) →
        |n.toInt| ≤ 2 ^ 53 - 1) ∧
      ∀ name f, (runLines {} 1 lines).environment.functions.get? name = some f →
        f.body.Every fun e => ∀ n, e = .integer n → |n.toInt| ≤ 2 ^ 53 - 1 := by
  intro lines
  have avoids : ∀ line ∈ lines, ∀ a, statementOf line = .ok a →
      a.Every (Expr.Avoids .length) := by
    have named : ∀ line ∈ lines, ∃ ts, Token.scan line = .ok ts ∧
        Token.identifier Builtin.length.name ∉ ts := by
      simp only [lines, List.forall_mem_cons]
      refine ⟨⟨_, by cbv, by decide⟩, ⟨_, by cbv, by decide⟩, ⟨_, by cbv, by decide⟩,
        ⟨_, by cbv, by decide⟩, fun line hline => absurd hline List.not_mem_nil⟩
    intro line hline a ha
    obtain ⟨ts, hscan, hname⟩ := named line hline
    exact every_avoids_of_scan hscan hname ha
  exact ⟨avoids, integers_stay_exact lines avoids⟩

end UnitCalc
