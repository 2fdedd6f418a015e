import UnitCalc.Evaluation
import UnitCalc.Expr.Parse
import UnitCalc.Text.Blank
import UnitCalc.Text.Lines
import UnitCalc.Token.Scan

/-!
# Sessions

A session is an environment that lines are executed in, one after the other. A document is a sequence of
lines: executed tolerantly, a line that fails is recorded and the next one goes on from what is left;
executed strictly, the first failing line ends it.
-/

namespace UnitCalc

inductive Error where
  | lex (e : LexError)
  | parse (e : ParseError)
  | eval (e : EvalError)
deriving DecidableEq

def Error.message : Error → String
  | lex e => e.message
  | parse e => e.message
  | eval e => e.message

/-- What became of a line. -/
inductive Outcome where
  | blank
  | value (v : Value)
  | failed (e : Error)
deriving DecidableEq

/-- The text shown for a line; nothing for a blank or failing one. -/
def Outcome.shown : Outcome → String
  | value v => v.render
  | blank | failed _ => ""

/-- A statement after its evaluation: its result, the environment it left, and the journal in order. -/
structure StatementRun where
  result : Except EvalError Value
  environment : Environment
  journal : List Event

/-- Evaluates a statement at the top of a session. -/
def runStatement (env : Environment) (statement : Expr) : StatementRun :=
  match eval callDepthLimit [] statement { env with journal := [] } with
  | .ok v m => ⟨.ok v, m.toEnvironment, m.journal.reverse⟩
  | .error e m => ⟨.error e, m.toEnvironment, (.failed e :: m.journal).reverse⟩

/-- The statement of a line. -/
def statementOf (line : String) : Except Error Expr :=
  match Token.scan line with
  | .error e => .error (.lex e)
  | .ok ts =>
    match Expr.parse ts with
    | .error e => .error (.parse e)
    | .ok statement => .ok statement

/-- A line after its execution. -/
structure LineRun where
  outcome : Outcome
  environment : Environment
  journal : List Event

def Outcome.ofResult : Except EvalError Value → Outcome
  | .ok v => .value v
  | .error e => .failed (.eval e)

/-- Executes a line. A blank line does nothing. -/
def runLine (env : Environment) (line : String) : LineRun :=
  if Text.isBlank line then ⟨.blank, env, []⟩
  else
    match statementOf line with
    | .error e => ⟨.failed e, env, []⟩
    | .ok statement =>
      let run := runStatement env statement
      ⟨.ofResult run.result, run.environment, .evaluating line :: run.journal⟩

/-- The outcome of a line of a document, with its number. -/
structure LineRecord where
  line : Nat
  outcome : Outcome
deriving DecidableEq

/-- A document after its execution. -/
structure DocumentRun where
  records : List LineRecord
  environment : Environment
  journal : List Event

/-- Executes lines that are numbered from `number` on. -/
def runLines (env : Environment) (number : Nat) : List String → DocumentRun
  | [] => ⟨[], env, []⟩
  | line :: lines =>
    let run := runLine env line
    let rest := runLines run.environment (number + 1) lines
    ⟨⟨number, run.outcome⟩ :: rest.records, rest.environment, run.journal ++ rest.journal⟩

/-- Executes every line of a document. -/
def runDocument (env : Environment) (text : String) : DocumentRun :=
  runLines env 1 (Text.lines text)

/-- The texts shown beside the lines of a document. -/
def DocumentRun.shown (run : DocumentRun) : List String :=
  run.records.map fun record => record.outcome.shown

/-- A document after its strict execution: the last value or the first error, and the journal up to
there. -/
structure StrictRun where
  result : Except Error (Option Value)
  journal : List Event

/-- What came before is in the journal first. -/
def StrictRun.after (run : StrictRun) (journal : List Event) : StrictRun :=
  { run with journal := journal ++ run.journal }

/-- Executes lines until one fails; `last` is the value of the last line that had one. -/
def runStrictly (env : Environment) (last : Option Value) : List String → StrictRun
  | [] => ⟨.ok last, []⟩
  | line :: lines =>
    let run := runLine env line
    match run.outcome with
    | .blank => (runStrictly run.environment last lines).after run.journal
    | .value v => (runStrictly run.environment (some v) lines).after run.journal
    | .failed e => ⟨.error e, run.journal⟩

/-- Executes a document strictly, in a fresh session. -/
def runDocumentStrictly (text : String) : StrictRun :=
  runStrictly {} none (Text.lines text)

/-- The last value of a document in a fresh session, or its first error. -/
def resultOf (text : String) : Except Error (Option Value) :=
  (runDocumentStrictly text).result

end UnitCalc
