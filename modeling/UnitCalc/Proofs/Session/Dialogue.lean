import UnitCalc.CommandLine
import UnitCalc.Proofs.Session.Reached
import UnitCalc.Proofs.Token.Separation

/-!
# The dialogue and documents

The dialogue executes lines with their terminators, a document has them taken off.
A terminator is white space at the end of its line, which changes neither the tokens
of the line nor a fault in it, so the two come to the same outcomes line by line, leave
the same environments and give the same warnings.
-/

namespace UnitCalc

open Lexical (Blank)

/-- What the dialogue shows for a line: the prompt, and an answer unless the line is
blank. -/
def Outcome.exchange : Outcome → String
  | .value v => "> " ++ v.render ++ "\n"
  | .blank => "> "
  | .failed e => "> Error: " ++ e.message ++ "\n"

/-- The line does not end the dialogue. -/
def GoesOn (line : String) : Prop := Text.trimmed line ≠ ":quit" ∧ Text.trimmed line ≠ ":q"

instance (line : String) : Decidable (GoesOn line) := inferInstanceAs (Decidable (_ ∧ _))

/-- The lines of a text before the first one that ends the dialogue. -/
def spokenLines (input : String) : List String :=
  (Text.lines input).takeWhile fun line => GoesOn line

/-! ## Terminators -/

section

variable {cs w : List Char}

theorem isWhite_of_blank {c : Char} (h : Blank c) : Text.isWhite c = true := by
  simp only [Blank, List.mem_cons, List.not_mem_nil, or_false] at h
  rcases h with rfl | rfl | rfl | rfl | rfl <;> rfl

/-- What is taken off a line is white space. -/
theorem exists_withoutTerminator (line : List Char) :
    ∃ cs w, line = cs ++ w ∧ Text.withoutTerminator line = cs ∧ ∀ c ∈ w, Blank c := by
  unfold Text.withoutTerminator
  split
  · next rest h =>
      refine ⟨rest.reverse, ['\r', '\n'], ?_, rfl, by simp [Blank]⟩
      rw [← line.reverse_reverse, h]
      simp
  · next rest _ h =>
      refine ⟨rest.reverse, ['\n'], ?_, rfl, by simp [Blank]⟩
      rw [← line.reverse_reverse, h]
      simp
  · exact ⟨line, [], (List.append_nil line).symm, rfl, fun c hc => absurd hc List.not_mem_nil⟩

theorem isBlank_append (hw : ∀ c ∈ w, Blank c) :
    Text.isBlank (String.ofList (cs ++ w)) = Text.isBlank (String.ofList cs) := by
  have hwhite : w.all Text.isWhite = true :=
    List.all_eq_true.mpr fun c hc => isWhite_of_blank (hw c hc)
  simp only [Text.isBlank, String.toList_ofList, List.all_append, hwhite, Bool.and_true]

theorem trimmed_append (hw : ∀ c ∈ w, Blank c) :
    Text.trimmed (String.ofList (cs ++ w)) = Text.trimmed (String.ofList cs) := by
  have hwhite : ∀ c ∈ w, Text.isWhite c = true := fun c hc => isWhite_of_blank (hw c hc)
  have hfront : w.dropWhile Text.isWhite = [] := List.dropWhile_eq_nil_iff.mpr hwhite
  have hback : ∀ ds, (w.reverse ++ ds).dropWhile Text.isWhite = ds.dropWhile Text.isWhite :=
    fun ds => List.dropWhile_append_of_pos fun c hc => hwhite c (List.mem_reverse.mp hc)
  rw [Text.trimmed, Text.trimmed, String.toList_ofList, String.toList_ofList,
    List.dropWhile_append]
  split
  · next hall => rw [hfront, List.isEmpty_iff.mp hall]
  · rw [List.reverse_append, hback]

theorem statementOf_append (hw : ∀ c ∈ w, Blank c) :
    statementOf (String.ofList (cs ++ w)) = statementOf (String.ofList cs) := by
  have hscan : Token.scan (String.ofList (cs ++ w)) = Token.scan (String.ofList cs) := by
    rw [Token.scan, Token.scan, String.toList_ofList, String.toList_ofList,
      Lexical.readAll_cut_append_blanks hw]
  rw [statementOf, statementOf, hscan]

/-- White space at the end of a line does not change what the line does. It is only seen in
the journal, where the line is quoted. -/
theorem runLine_append (cs : List Char) (hw : ∀ c ∈ w, Blank c) (env : Environment) :
    (runLine env (String.ofList (cs ++ w))).outcome = (runLine env (String.ofList cs)).outcome ∧
      (runLine env (String.ofList (cs ++ w))).environment =
        (runLine env (String.ofList cs)).environment ∧
      Event.warnings (runLine env (String.ofList (cs ++ w))).journal =
        Event.warnings (runLine env (String.ofList cs)).journal := by
  unfold runLine
  rw [isBlank_append hw, statementOf_append hw]
  split
  · exact ⟨rfl, rfl, rfl⟩
  · split <;> exact ⟨rfl, rfl, rfl⟩

end

/-! ## The dialogue -/

theorem exchange_eq (o : Outcome) : o.exchange = Dialogue.prompt ++ Dialogue.reply o := by
  cases o with
  | blank => exact String.append_empty.symm
  | value v => exact String.append_assoc
  | failed e =>
      rw [Dialogue.reply, asLine, ← String.append_assoc, ← String.append_assoc]
      rfl

theorem isFarewell_eq_false {line : String} : Dialogue.isFarewell line = false ↔ GoesOn line := by
  simp [Dialogue.isFarewell, GoesOn]

section

variable {line : String} (env : Environment) (lines : List String)

theorem converse_of_goesOn (h : GoesOn line) :
    (Dialogue.converse env (line :: lines)).text =
        (runLine env line).outcome.exchange ++
          (Dialogue.converse (runLine env line).environment lines).text ∧
      (Dialogue.converse env (line :: lines)).journal =
        (runLine env line).journal ++
          (Dialogue.converse (runLine env line).environment lines).journal := by
  rw [Dialogue.converse, isFarewell_eq_false.mpr h, if_neg Bool.false_ne_true, exchange_eq]
  exact ⟨rfl, rfl⟩

theorem converse_of_not_goesOn (h : ¬ GoesOn line) :
    Dialogue.converse env (line :: lines) = ⟨"> ", []⟩ := by
  have hleaves : Dialogue.isFarewell line = true := by
    rw [← Bool.not_eq_false, isFarewell_eq_false]
    exact h
  rw [Dialogue.converse, if_pos hleaves]
  rfl

end

/-- The dialogue over lines with their terminators, from a run of the lines without
them. -/
theorem converse_eq (env : Environment) (number : Nat) (lines : List (List Char)) :
    (Dialogue.converse env (lines.map String.ofList)).text =
        String.join ((runLines env number
          ((lines.map fun line => String.ofList (Text.withoutTerminator line)).takeWhile
            fun line => GoesOn line)).outcomes.map Outcome.exchange) ++ "> " ∧
      Event.warnings (Dialogue.converse env (lines.map String.ofList)).journal =
        Event.warnings (runLines env number
          ((lines.map fun line => String.ofList (Text.withoutTerminator line)).takeWhile
            fun line => GoesOn line)).journal := by
  induction lines generalizing env number with
  | nil => exact ⟨rfl, rfl⟩
  | cons line lines ih =>
      obtain ⟨cs, w, rfl, hcs, hw⟩ := exists_withoutTerminator line
      obtain ⟨houtcome, hafter, hwarnings⟩ := runLine_append cs hw env
      have hgoes : GoesOn (String.ofList (cs ++ w)) ↔ GoesOn (String.ofList cs) := by
        rw [GoesOn, GoesOn, trimmed_append hw]
      rw [List.map_cons, List.map_cons, hcs, List.takeWhile_cons]
      by_cases h : GoesOn (String.ofList cs)
      · -- the lines that follow go on from the same environment in both
        obtain ⟨htext, hjournal⟩ := converse_of_goesOn env (lines.map String.ofList) (hgoes.mpr h)
        obtain ⟨ihtext, ihjournal⟩ := ih (runLine env (String.ofList cs)).environment (number + 1)
        rw [htext, hjournal, houtcome, hafter, ihtext, if_pos (decide_eq_true h),
          outcomes_runLines_cons, journal_runLines_cons, List.map_cons, String.join_cons,
          String.append_assoc, Event.warnings_append, Event.warnings_append, hwarnings, ihjournal]
        exact ⟨rfl, rfl⟩
      · rw [converse_of_not_goesOn env _ (mt hgoes.mp h), decide_eq_false h,
          if_neg Bool.false_ne_true]
        exact ⟨rfl, rfl⟩

/-- **The dialogue agrees with document mode.** Over the lines before the first one
that ends it, the dialogue writes a prompt for each, then the value or the error that
a document has at this line, and at last one more prompt. It gives the warnings that the
document of these lines gives, and reports no errors apart from its answers. -/
theorem dialogue_agrees_with_document (input : String) :
    dialogueTranscript input =
        { output :=
            String.join ((runLines {} 1 (spokenLines input)).outcomes.map Outcome.exchange) ++ "> ",
          warnings := Event.warnings (runLines {} 1 (spokenLines input)).journal,
          errors := "", code := 0 } ∧
      (runLines {} 1 (spokenLines input)).outcomes.length = (spokenLines input).length ∧
      (runLines {} 1 (spokenLines input)).outcomes <+: (runDocument {} input).outcomes := by
  refine ⟨?_, length_outcomes_runLines _ _ _, ?_⟩
  · obtain ⟨htext, hwarnings⟩ := converse_eq {} 1 (Text.cutLines input.toList)
    exact congrArg₂ (fun output warnings => ({ output, warnings } : Transcript)) htext hwarnings
  · have hspoken : spokenLines input <+: Text.lines input := List.takeWhile_prefix _
    rw [List.prefix_iff_eq_take.mp hspoken, outcomes_runLines_take]
    exact List.take_prefix _ _

end UnitCalc
