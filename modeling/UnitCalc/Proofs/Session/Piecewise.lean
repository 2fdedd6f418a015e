import UnitCalc.Proofs.Session.Reached
import UnitCalc.Proofs.Text.Lines

/-!
# Documents in pieces

A document is executed line by line, and all that a line leaves to the next one is the
environment. So a document may be cut after any line and executed in two pieces, of
which the second has its lines numbered anew.
-/

namespace UnitCalc

/-- The environment after some lines, whatever becomes of each. -/
def environmentAfter (env : Environment) (lines : List String) : Environment :=
  lines.foldl (fun env line => (runLine env line).environment) env

/-- The record with `count` more lines before it. -/
def LineRecord.moved (count : Nat) (r : LineRecord) : LineRecord := { r with line := r.line + count }

namespace DocumentRun

/-- One run and then another. -/
def followedBy (first next : DocumentRun) : DocumentRun :=
  ⟨first.records ++ next.records, next.environment, first.journal ++ next.journal⟩

def moved (count : Nat) (run : DocumentRun) : DocumentRun :=
  { run with records := run.records.map (LineRecord.moved count) }

end DocumentRun

/-! ## Lines -/

theorem environment_runLines (env : Environment) (number : Nat) (lines : List String) :
    (runLines env number lines).environment = environmentAfter env lines := by
  induction lines generalizing env number with
  | nil => rfl
  | cons line lines ih => exact ih _ _

/-- Every line has its record, and what is recorded is what the line comes to after the
lines before it. -/
theorem records_runLines (env : Environment) (number : Nat) (lines : List String) :
    (runLines env number lines).records = lines.mapIdx fun k line =>
      ⟨k + number, (runLine (environmentAfter env (lines.take k)) line).outcome⟩ := by
  induction lines generalizing env number with
  | nil => rfl
  | cons line lines ih =>
      have hnumber : ∀ k, k + (number + 1) = k + 1 + number := by omega
      rw [runLines, ih, List.mapIdx_cons, Nat.zero_add]
      simp only [hnumber]
      rfl

theorem lineNumbers_runLines (env : Environment) (number : Nat) (lines : List String) :
    (runLines env number lines).records.map LineRecord.line =
      List.range' number lines.length := by
  induction lines generalizing env number with
  | nil => rfl
  | cons line lines ih =>
      rw [runLines, List.map_cons, ih, List.length_cons, List.range'_succ]

/-- More lines go on from the environment and the number that the first ones leave. -/
theorem runLines_append (env : Environment) (number : Nat) (first next : List String) :
    runLines env number (first ++ next) = (runLines env number first).followedBy
      (runLines (runLines env number first).environment (number + first.length) next) := by
  induction first generalizing env number with
  | nil => rfl
  | cons line first ih =>
      have hnumber : number + 1 + first.length = number + (line :: first).length := by
        rw [List.length_cons]
        omega
      rw [List.cons_append, runLines, ih, hnumber]
      simp only [DocumentRun.followedBy, runLines, List.cons_append, List.append_assoc]

/-- No line knows its number. -/
theorem runLines_add (env : Environment) (number count : Nat) (lines : List String) :
    runLines env (number + count) lines = (runLines env number lines).moved count := by
  induction lines generalizing env number with
  | nil => rfl
  | cons line lines ih =>
      have hnumber : number + count + 1 = number + 1 + count := by omega
      rw [runLines, hnumber, ih]
      rfl

/-! ## Documents -/

theorem runDocument_append {a : String} (h : a = "" ∨ ∃ s, a = s ++ "\n") (env : Environment)
    (b : String) :
    runDocument env (a ++ b) = (runDocument env a).followedBy
      ((runDocument (runDocument env a).environment b).moved (Text.lines a).length) := by
  rw [runDocument, Text.lines_append h, runLines_append, runLines_add]
  rfl

/-- **Documents can be executed in pieces.** Where the first piece ends with a line of its
own, the whole has the outcomes of the first piece and then those of the second, executed
in the environment that the first one leaves, with as many lines before them as the first
has. Every line of a document has one record, numbered from one on, and one shown text,
whatever becomes of the line. -/
theorem documents_run_piecewise (env : Environment) :
    (∀ a b : String, (a = "" ∨ ∃ s, a = s ++ "\n") →
      (runDocument env (a ++ b)).records =
          (runDocument env a).records ++ (runDocument (runDocument env a).environment b).records.map
            (LineRecord.moved (Text.lines a).length) ∧
        (runDocument env (a ++ b)).environment =
          (runDocument (runDocument env a).environment b).environment ∧
        (runDocument env (a ++ b)).journal =
          (runDocument env a).journal ++ (runDocument (runDocument env a).environment b).journal) ∧
    ∀ text : String,
      (∀ lines, Text.Divided text.toList (lines.map String.toList) ↔ lines = Text.lines text) ∧
        (runDocument env text).records = (Text.lines text).mapIdx (fun k line =>
          ⟨k + 1, (runLine (environmentAfter env ((Text.lines text).take k)) line).outcome⟩) ∧
        (runDocument env text).environment = environmentAfter env (Text.lines text) ∧
        (runDocument env text).records.map LineRecord.line =
          List.range' 1 (Text.lines text).length ∧
        (runDocument env text).shown.length = (Text.lines text).length := by
  constructor
  · intro a b h
    rw [runDocument_append h]
    exact ⟨rfl, rfl, rfl⟩
  · intro text
    have hlength : (runDocument env text).shown.length = (Text.lines text).length := by
      rw [DocumentRun.shown, List.length_map, runDocument, records_runLines, List.length_mapIdx]
    exact ⟨fun lines => Text.divided_iff_eq_lines, records_runLines env 1 _,
      environment_runLines env 1 _, lineNumbers_runLines env 1 _, hlength⟩

/-- The second piece goes on after a failing line, with a variable from before it. -/
theorem documents_run_piecewise_after_failure :
    ("x = 6\r\n\nx / 0\n" = "" ∨ ∃ s, "x = 6\r\n\nx / 0\n" = s ++ "\n") ∧
      (runDocument {} ("x = 6\r\n\nx / 0\n" ++ "\r\nx")).records =
        [⟨1, .value (.integer 6)⟩, ⟨2, .blank⟩, ⟨3, .failed (.eval .divisionByZero)⟩,
          ⟨4, .blank⟩, ⟨5, .value (.integer 6)⟩] := by
  have ended : "x = 6\r\n\nx / 0\n" = "" ∨ ∃ s, "x = 6\r\n\nx / 0\n" = s ++ "\n" :=
    .inr ⟨"x = 6\r\n\nx / 0", by decide +kernel⟩
  obtain ⟨records, -, -⟩ := (documents_run_piecewise {}).1 _ "\r\nx" ended
  refine ⟨ended, records.trans ?_⟩
  decide +kernel

end UnitCalc
