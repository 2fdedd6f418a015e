import UnitCalc.Session

/-!
# Reached sessions
-/

namespace UnitCalc

/-- The environments of a session at its start and after every line, whether the
line is executed on its own or is one of a document. -/
inductive Reached : Environment → Prop
  | fresh : Reached {}
  | line {env : Environment} (h : Reached env) (text : String) :
      Reached (runLine env text).environment
  | document {env : Environment} (h : Reached env) (text : String)
      {done : List String} (hdone : done <+: Text.lines text) :
      Reached (runLines env 1 done).environment

variable {p : Environment → Prop} {q : Outcome → Prop}

/-- What each of some lines keeps, all of them keep one after the other; and then
what each has for outcome, all of them have. -/
theorem runLines_of_mem {lines : List String}
    (step : ∀ {env}, p env → ∀ line ∈ lines, p (runLine env line).environment ∧
      q (runLine env line).outcome)
    {env : Environment} (h : p env) (number : Nat) :
    p (runLines env number lines).environment ∧
      ∀ record ∈ (runLines env number lines).records, q record.outcome := by
  induction lines generalizing env number with
  | nil =>
      rw [runLines]
      exact ⟨h, fun _ hrecord => absurd hrecord List.not_mem_nil⟩
  | cons line lines ih =>
      obtain ⟨hafter, houtcome⟩ := step h line List.mem_cons_self
      obtain ⟨hend, hrecords⟩ :=
        ih (fun h line hline => step h line (List.mem_cons_of_mem _ hline)) hafter (number + 1)
      refine ⟨hend, fun record hrecord => ?_⟩
      rcases List.mem_cons.mp hrecord with rfl | hrecord
      · exact houtcome
      · exact hrecords record hrecord

theorem runLines_of_runLine
    (step : ∀ {env}, p env → ∀ line, p (runLine env line).environment ∧
      q (runLine env line).outcome)
    {env : Environment} (h : p env) (number : Nat) (lines : List String) :
    p (runLines env number lines).environment ∧
      ∀ record ∈ (runLines env number lines).records, q record.outcome :=
  runLines_of_mem (p := p) (q := q) (fun h line _ => step h line) h number

theorem Reached.of_runLine (fresh : p {})
    (step : ∀ {env}, p env → ∀ line, p (runLine env line).environment ∧
      q (runLine env line).outcome)
    {env : Environment} (h : Reached env) : p env := by
  induction h with
  | fresh => exact fresh
  | line _ text ih => exact (step ih text).1
  | document _ text _ ih => exact (runLines_of_runLine step ih 1 _).1

/-! ## Outcomes of lines -/

def DocumentRun.outcomes (run : DocumentRun) : List Outcome :=
  run.records.map LineRecord.outcome

theorem outcomes_runLines_cons (env : Environment) (number : Nat) (line : String)
    (lines : List String) :
    (runLines env number (line :: lines)).outcomes =
      (runLine env line).outcome ::
        (runLines (runLine env line).environment (number + 1) lines).outcomes := rfl

theorem journal_runLines_cons (env : Environment) (number : Nat) (line : String)
    (lines : List String) :
    (runLines env number (line :: lines)).journal =
      (runLine env line).journal ++
        (runLines (runLine env line).environment (number + 1) lines).journal := rfl

theorem length_outcomes_runLines (env : Environment) (number : Nat) (lines : List String) :
    (runLines env number lines).outcomes.length = lines.length := by
  induction lines generalizing env number with
  | nil => rfl
  | cons line lines ih => rw [outcomes_runLines_cons, List.length_cons, ih, List.length_cons]

/-- What the first lines of a document come to does not depend on the others. -/
theorem outcomes_runLines_take (env : Environment) (number count : Nat) (lines : List String) :
    (runLines env number (lines.take count)).outcomes =
      (runLines env number lines).outcomes.take count := by
  induction lines generalizing env number count with
  | nil => rw [List.take_nil]; exact List.take_nil.symm
  | cons line lines ih =>
      cases count with
      | zero => rfl
      | succ count =>
          rw [List.take_succ_cons, outcomes_runLines_cons, outcomes_runLines_cons,
            List.take_succ_cons, ih]

end UnitCalc
