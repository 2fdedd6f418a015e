import UnitCalc.CommandLine
import UnitCalc.Proofs.Session.Reached

/-!
# Strict and tolerant execution

Executed strictly, a document goes the same way as executed tolerantly up to its
first failing line, and there it ends. So its result can be read off the outcomes
of the tolerant execution (`runStrictly_eq`): their first error, or else their last
value. Its journal is the beginning of the journal of the tolerant one. The two modes of
the command line differ accordingly.
-/

namespace UnitCalc

namespace Outcome

def value? : Outcome → Option Value
  | .value v => some v
  | .blank | .failed _ => none

def error? : Outcome → Option Error
  | .failed e => some e
  | .blank | .value _ => none

end Outcome

/-- No line fails. -/
def Succeeds (outcomes : List Outcome) : Prop := ∀ o ∈ outcomes, ∀ e, o ≠ .failed e

/-- The first line that fails does so with `e`. -/
def FailsWith (outcomes : List Outcome) (e : Error) : Prop :=
  ∃ before after, outcomes = before ++ .failed e :: after ∧ Succeeds before

/-- The last line that is not blank has this value; without a value, all lines are
blank. -/
def EndsWith (outcomes : List Outcome) : Option Value → Prop
  | none => ∀ o ∈ outcomes, o = .blank
  | some v => ∃ before after, outcomes = before ++ .value v :: after ∧ ∀ o ∈ after, o = .blank

/-- What document mode prints for the lines that have a value. -/
def printed (outcomes : List Outcome) : List String :=
  (outcomes.filterMap Outcome.value?).map fun v => asLine v.render

/-! ## The two runs -/

/-- The result of strict execution, from the outcomes of the tolerant one. -/
theorem runStrictly_eq (env : Environment) (number : Nat) (last : Option Value)
    (lines : List String) :
    (runStrictly env last lines).result =
      ((runLines env number lines).outcomes.findSome? Outcome.error?).elim
        (.ok (((runLines env number lines).outcomes.filterMap Outcome.value?).getLast?.or last))
        .error := by
  induction lines generalizing env number last with
  | nil => rfl
  | cons line lines ih =>
      rw [runStrictly, outcomes_runLines_cons]
      cases houtcome : (runLine env line).outcome with
      | blank => exact ih _ (number + 1) last
      | value v =>
          have hlast : ∀ vs : List Value,
              (v :: vs).getLast?.or last = vs.getLast?.or (some v) := by
            intro vs
            rw [List.getLast?_cons]
            cases vs.getLast? <;> rfl
          rw [List.findSome?_cons_of_isNone, List.filterMap_cons_some (b := v), hlast]
          · exact ih _ (number + 1) (some v)
          · rfl
          · rfl
      | failed e => rfl

/-- Strict execution goes the same way as the tolerant one, as far as it goes. -/
theorem isPrefix_journal_runStrictly (env : Environment) (number : Nat) (last : Option Value)
    (lines : List String) :
    (runStrictly env last lines).journal <+: (runLines env number lines).journal := by
  induction lines generalizing env number last with
  | nil => exact List.prefix_rfl
  | cons line lines ih =>
      rw [runStrictly, journal_runLines_cons]
      cases (runLine env line).outcome with
      | blank => exact (List.prefix_append_right_inj _).mpr (ih _ (number + 1) last)
      | value v => exact (List.prefix_append_right_inj _).mpr (ih _ (number + 1) (some v))
      | failed e => exact List.prefix_append _ _

theorem journal_runStrictly_of_succeeds (env : Environment) (number : Nat) (last : Option Value)
    (lines : List String) (h : Succeeds (runLines env number lines).outcomes) :
    (runStrictly env last lines).journal = (runLines env number lines).journal := by
  induction lines generalizing env number last with
  | nil => rfl
  | cons line lines ih =>
      rw [outcomes_runLines_cons, Succeeds, List.forall_mem_cons] at h
      obtain ⟨hline, hlines⟩ := h
      rw [runStrictly, journal_runLines_cons]
      cases houtcome : (runLine env line).outcome with
      | blank => exact congrArg _ (ih _ (number + 1) last hlines)
      | value v => exact congrArg _ (ih _ (number + 1) (some v) hlines)
      | failed e => exact absurd houtcome (hline e)

/-! ## Outcomes in order -/

section

variable {outcomes : List Outcome} {o : Outcome} {e : Error} {last : Option Value}

theorem error?_eq_some : o.error? = some e ↔ o = .failed e := by
  cases o <;> simp [Outcome.error?]

theorem error?_eq_none : o.error? = none ↔ ∀ e, o ≠ .failed e := by
  cases o <;> simp [Outcome.error?]

theorem value?_eq_some {v : Value} : o.value? = some v ↔ o = .value v := by
  cases o <;> simp [Outcome.value?]

/-- Among lines that do not fail, those without a value are blank. -/
theorem value?_eq_none (h : ∀ e, o ≠ .failed e) : o.value? = none ↔ o = .blank := by
  cases o with
  | failed e => exact absurd rfl (h e)
  | _ => simp [Outcome.value?]

theorem succeeds_iff : Succeeds outcomes ↔ outcomes.findSome? Outcome.error? = none := by
  simp only [Succeeds, List.findSome?_eq_none_iff, error?_eq_none]

theorem failsWith_iff : FailsWith outcomes e ↔ outcomes.findSome? Outcome.error? = some e := by
  rw [List.findSome?_eq_some_iff]
  simp only [error?_eq_some, error?_eq_none]
  constructor
  · rintro ⟨before, after, hsplit, hbefore⟩
    exact ⟨before, .failed e, after, hsplit, rfl, hbefore⟩
  · rintro ⟨before, _, after, hsplit, rfl, hbefore⟩
    exact ⟨before, after, hsplit, hbefore⟩

theorem endsWith_iff (h : Succeeds outcomes) :
    EndsWith outcomes last ↔ (outcomes.filterMap Outcome.value?).getLast? = last := by
  rw [List.getLast?_filterMap]
  cases last with
  | none =>
      rw [List.findSome?_eq_none_iff, EndsWith]
      constructor
      · intro hblank o ho
        rw [hblank o (List.mem_reverse.mp ho)]
        rfl
      · intro hnone o ho
        exact (value?_eq_none (h o ho)).mp (hnone o (List.mem_reverse.mpr ho))
  | some v =>
      rw [List.findSome?_eq_some_iff, EndsWith]
      constructor
      · rintro ⟨before, after, rfl, hblank⟩
        refine ⟨after.reverse, .value v, before.reverse, by simp, rfl, fun o ho => ?_⟩
        rw [hblank o (List.mem_reverse.mp ho)]
        rfl
      · rintro ⟨after, o, before, hsplit, ho, hnone⟩
        obtain rfl := value?_eq_some.mp ho
        have hsame : outcomes = before.reverse ++ .value v :: after.reverse := by
          rw [← outcomes.reverse_reverse, hsplit]
          simp
        refine ⟨before.reverse, after.reverse, hsame, fun o ho => ?_⟩
        refine (value?_eq_none (h o ?_)).mp (hnone o (List.mem_reverse.mp ho))
        rw [hsame]
        exact List.mem_append_right _ (List.mem_cons_of_mem _ ho)

end

theorem resultOf_eq (text : String) :
    resultOf text = ((runDocument {} text).outcomes.findSome? Outcome.error?).elim
      (.ok ((runDocument {} text).outcomes.filterMap Outcome.value?).getLast?) .error := by
  rw [resultOf, runDocumentStrictly, runStrictly_eq {} 1 none, Option.or_none]
  rfl

theorem resultOf_eq_error {text : String} {e : Error} :
    resultOf text = .error e ↔ FailsWith (runDocument {} text).outcomes e := by
  rw [resultOf_eq, failsWith_iff]
  cases (runDocument {} text).outcomes.findSome? Outcome.error? <;> simp

theorem resultOf_eq_ok {text : String} {last : Option Value} :
    resultOf text = .ok last ↔
      Succeeds (runDocument {} text).outcomes ∧ EndsWith (runDocument {} text).outcomes last := by
  rw [resultOf_eq, succeeds_iff]
  constructor
  · intro h
    cases hfirst : (runDocument {} text).outcomes.findSome? Outcome.error? with
    | some e =>
        rw [hfirst] at h
        cases h
    | none =>
        rw [hfirst] at h
        cases h
        exact ⟨rfl, (endsWith_iff (succeeds_iff.mpr hfirst)).mpr rfl⟩
  · rintro ⟨hfirst, hlast⟩
    rw [hfirst, (endsWith_iff (succeeds_iff.mpr hfirst)).mp hlast]
    rfl

/-! ## The command line -/

/-- The text that an invocation executes. -/
def Invocation.source? (i : Invocation) (fileText : String → Option String) : Option String :=
  i.contents.bind fun contents => if i.file then fileText contents else some contents

theorem run_of_source {i : Invocation} {arguments : List String} {input text : String}
    {fileText : String → Option String} (manual : Manual)
    (hrequest : Request.ofArguments {} false arguments = .run i)
    (hsource : i.source? fileText = some text) :
    CommandLine.run arguments input fileText manual = CommandLine.execute i text := by
  obtain ⟨contents, hcontents, htext⟩ := Option.bind_eq_some_iff.mp hsource
  simp only [CommandLine.run, hrequest, hcontents]
  split at htext
  · next hfile => rw [if_pos hfile, htext]
  · next hfile =>
      cases htext
      rw [if_neg hfile]

theorem join_eq_empty {texts : List String} :
    String.join texts = "" ↔ ∀ s ∈ texts, s = "" := by
  induction texts with
  | nil => simp [String.join]
  | cons s texts ih => rw [String.join_cons, String.append_eq_empty_iff, ih, List.forall_mem_cons]

theorem asLine_ne_empty (s : String) : asLine s ≠ "" := by
  intro h
  exact absurd (String.append_eq_empty_iff.mp h).2 (by decide)

theorem report_eq_empty {r : LineRecord} : r.report = "" ↔ ∀ e, r.outcome ≠ .failed e := by
  unfold LineRecord.report
  split
  · next e he =>
      rw [he]
      exact ⟨fun h => absurd h (asLine_ne_empty _), fun h => absurd rfl (h e)⟩
  · next h => simp [h]
  · next h => simp [h]

/-- Document mode reports nothing if no line fails. -/
theorem errors_documentTranscript (text : String) :
    (documentTranscript text).errors = "" ↔ Succeeds (runDocument {} text).outcomes := by
  show String.join _ = "" ↔ _
  rw [join_eq_empty, Succeeds, DocumentRun.outcomes, List.forall_mem_map, List.forall_mem_map]
  simp only [report_eq_empty]

/-- Document mode prints the values of the lines. -/
theorem output_documentTranscript (text : String) :
    (documentTranscript text).output = String.join (printed (runDocument {} text).outcomes) := by
  show String.join ((runDocument {} text).records.map LineRecord.output) = _
  rw [printed, DocumentRun.outcomes]
  induction (runDocument {} text).records with
  | nil => rfl
  | cons r records ih =>
      rw [List.map_cons, String.join_cons, ih]
      obtain ⟨line, outcome⟩ := r
      cases outcome with
      | value v => exact String.join_cons.symm
      | blank | failed e => exact String.empty_append

theorem pipeTranscript_of_failsWith {text : String} {e : Error}
    (h : FailsWith (runDocument {} text).outcomes e) :
    pipeTranscript text =
      { output := "", warnings := (pipeTranscript text).warnings, errors := asLine e.message,
        code := 1 } := by
  have hresult : (runDocumentStrictly text).result = .error e := resultOf_eq_error.mpr h
  rw [pipeTranscript, hresult]

theorem pipeTranscript_of_succeeds {text : String} (h : Succeeds (runDocument {} text).outcomes) :
    pipeTranscript text =
      { output := (printed (runDocument {} text).outcomes).getLast?.getD "",
        warnings := (documentTranscript text).warnings, errors := "", code := 0 } := by
  have hresult : (runDocumentStrictly text).result =
      .ok ((runDocument {} text).outcomes.filterMap Outcome.value?).getLast? := by
    rw [← resultOf, resultOf_eq, succeeds_iff.mp h]
    rfl
  have hjournal : (runDocumentStrictly text).journal = (runDocument {} text).journal :=
    journal_runStrictly_of_succeeds {} 1 none (Text.lines text) h
  rw [pipeTranscript, hresult, hjournal, printed, List.getLast?_map]
  cases ((runDocument {} text).outcomes.filterMap Outcome.value?).getLast? <;> rfl

theorem warnings_pipeTranscript (text : String) :
    (pipeTranscript text).warnings = Event.warnings (runDocumentStrictly text).journal := by
  unfold pipeTranscript
  dsimp only
  split <;> rfl

/-- What pipe mode does beside document mode on a document with these outcomes. The errors are
those that the two modes report themselves: warnings on standard error are no errors. -/
structure ModesAgree (outcomes : List Outcome) (pipe document : Transcript) : Prop where
  /-- If and only if document mode reports a failing line, pipe mode ends with the
  first error and prints nothing. -/
  failure : document.errors ≠ "" ↔
    ∃ e, FailsWith outcomes e ∧
      pipe = { output := "", warnings := pipe.warnings, errors := asLine e.message, code := 1 }
  /-- Otherwise it prints what document mode prints last. -/
  success : document.errors = "" →
    pipe = { output := (printed outcomes).getLast?.getD "", warnings := document.warnings,
             errors := "", code := 0 }
  output : document.output = String.join (printed outcomes)
  /-- Pipe mode gives the warnings of document mode up to where it ends. -/
  warnings : pipe.warnings <+: document.warnings

theorem modesAgree (text : String) :
    ModesAgree (runDocument {} text).outcomes (pipeTranscript text) (documentTranscript text) where
  failure := by
    rw [Ne, errors_documentTranscript, succeeds_iff, ← Ne, Option.ne_none_iff_exists']
    simp only [← failsWith_iff]
    constructor
    · rintro ⟨e, h⟩
      exact ⟨e, h, pipeTranscript_of_failsWith h⟩
    · rintro ⟨e, h, -⟩
      exact ⟨e, h⟩
  success h := pipeTranscript_of_succeeds ((errors_documentTranscript text).mp h)
  output := output_documentTranscript text
  warnings := by
    rw [warnings_pipeTranscript]
    exact (isPrefix_journal_runStrictly {} 1 none (Text.lines text)).filter _

/-- **Strict and tolerant execution agree.** A document executed strictly fails with
the error of the first line that fails when it is executed tolerantly; if there is
none, it has the value of the last line that is not blank. On the command line pipe
mode and document mode, asked for with the same text, differ in the same way. -/
theorem strict_agrees_with_tolerant (text : String) :
    (∀ e, resultOf text = .error e ↔ FailsWith (runDocument {} text).outcomes e) ∧
      (∀ last, resultOf text = .ok last ↔
        Succeeds (runDocument {} text).outcomes ∧ EndsWith (runDocument {} text).outcomes last) ∧
      ∀ (i : Invocation) (piped plain : List String) (input : String)
        (fileText : String → Option String) (manual : Manual),
        Request.ofArguments {} false piped = .run { i with pipe := true } →
        Request.ofArguments {} false plain = .run { i with pipe := false } →
        i.source? fileText = some text →
        ModesAgree (runDocument {} text).outcomes (CommandLine.run piped input fileText manual)
          (CommandLine.run plain input fileText manual) := by
  refine ⟨fun e => resultOf_eq_error, fun last => resultOf_eq_ok, ?_⟩
  intro i piped plain input fileText manual hpiped hplain hsource
  rw [run_of_source manual hpiped hsource, run_of_source manual hplain hsource]
  exact modesAgree text

/-- A document whose third line divides by zero. Document mode goes on behind it, where one
more line has a value and one more gives a warning. Pipe mode ends there. -/
theorem strict_agrees_with_tolerant_division :
    let text := "fn sin(x) = x\nx = 1\nx / 0\n\nfn cos(x) = x\nx + 1"
    let pipe := CommandLine.run ["-p", "--", text] "" (fun _ => none) .brief
    let document := CommandLine.run ["--", text] "" (fun _ => none) .brief
    Request.ofArguments {} false ["-p", "--", text] = .run ⟨false, true, some text⟩ ∧
      Request.ofArguments {} false ["--", text] = .run ⟨false, false, some text⟩ ∧
      FailsWith (runDocument {} text).outcomes (.eval .divisionByZero) ∧
      resultOf text = .error (.eval .divisionByZero) ∧
      pipe = { output := "", warnings := [.shadowed "sin"],
               errors := "Arithmetic error: Division by zero\n", code := 1 } ∧
      document = { output := "function\n1\nfunction\n2\n",
                   warnings := [.shadowed "sin", .shadowed "cos"],
                   errors := "line 3: Arithmetic error: Division by zero\n", code := 0 } ∧
      ModesAgree (runDocument {} text).outcomes pipe document := by
  intro text pipe document
  have piped : Request.ofArguments {} false ["-p", "--", text] = .run ⟨false, true, some text⟩ := by
    rfl
  have plain : Request.ofArguments {} false ["--", text] = .run ⟨false, false, some text⟩ := by
    rfl
  have fails : FailsWith (runDocument {} text).outcomes (.eval .divisionByZero) :=
    failsWith_iff.mpr (by decide +kernel)
  obtain ⟨error, -, modes⟩ := strict_agrees_with_tolerant text
  refine ⟨piped, plain, fails, (error _).mpr fails, ?_, ?_, ?_⟩
  · decide +kernel
  · decide +kernel
  · exact modes ⟨false, false, some text⟩ _ _ _ _ _ piped plain rfl

end UnitCalc
