import UnitCalc.Session

/-!
# The command line

What the program writes and the code it ends with, given its arguments, its standard input and the files
it can read. Without a text to execute it holds a dialogue on its standard input.
-/

namespace UnitCalc

/-- What a run of the program leaves behind. Its standard error has the warnings of the journal, unless
the user asks for more or less of it, and after them `errors`. Each warning is logged on a line of its
own with the time, so the lines are not spelled out here. -/
structure Transcript where
  output : String := ""
  warnings : List Event := []
  errors : String := ""
  code : Nat := 0
deriving DecidableEq

/-- A line of text. -/
def asLine (s : String) : String := s ++ "\n"

namespace LineRecord

/-- What document mode shows for a line. -/
def output (r : LineRecord) : String :=
  match r.outcome with
  | .value v => asLine v.render
  | .blank | .failed _ => ""

/-- What document mode reports about a line. -/
def report (r : LineRecord) : String :=
  match r.outcome with
  | .failed e => asLine ("line " ++ toString r.line ++ ": " ++ e.message)
  | .blank | .value _ => ""

end LineRecord

/-- Document mode shows the value of every line and reports the failing ones, after all are executed. -/
def documentTranscript (text : String) : Transcript :=
  let run := runDocument {} text
  { output := String.join (run.records.map LineRecord.output),
    warnings := Event.warnings run.journal,
    errors := String.join (run.records.map LineRecord.report) }

/-- Pipe mode shows the last value alone, or the first error. -/
def pipeTranscript (text : String) : Transcript :=
  let run := runDocumentStrictly text
  let warnings := Event.warnings run.journal
  match run.result with
  | .ok none => { warnings }
  | .ok (some v) => { output := asLine v.render, warnings }
  | .error e => { warnings, errors := asLine e.message, code := 1 }

/-- A dialogue as it was held: what was written, and the journal of its lines. -/
structure Dialogue where
  text : String
  journal : List Event

namespace Dialogue

def prompt : String := "> "

def isFarewell (line : String) : Bool :=
  let word := Text.trimmed line
  word = ":quit" || word = ":q"

/-- What the dialogue answers to a line. -/
def reply : Outcome → String
  | .blank => ""
  | .value v => asLine v.render
  | .failed e => asLine ("Error: " ++ e.message)

/-- The whole dialogue over lines that keep their terminators: a prompt before each line and one more
when they end or the user leaves. -/
def converse (env : Environment) : List String → Dialogue
  | [] => ⟨prompt, []⟩
  | line :: lines =>
    if isFarewell line then ⟨prompt, []⟩
    else
      let run := runLine env line
      let rest := converse run.environment lines
      ⟨prompt ++ reply run.outcome ++ rest.text, run.journal ++ rest.journal⟩

end Dialogue

def dialogueTranscript (input : String) : Transcript :=
  let dialogue := Dialogue.converse {} (Text.terminatedLines input)
  { output := dialogue.text, warnings := Event.warnings dialogue.journal }

/-- What the arguments ask for: `contents` is a text to execute, or with `file` the path of one. -/
structure Invocation where
  file : Bool := false
  pipe : Bool := false
  contents : Option String := none
deriving DecidableEq

inductive Request where
  | run (invocation : Invocation)
  | help
  | version
  | misuse (argument : String)
deriving DecidableEq

namespace Invocation

/-- One more argument that is not a flag. There can be one only. -/
def withContents (i : Invocation) (argument : String) : Option Invocation :=
  if i.contents.isSome then none else some { i with contents := some argument }

/-- One more flag, by its letter. No flag is given twice. -/
def withFlag (i : Invocation) (letter : Char) : Option Invocation :=
  if letter = 'f' ∧ !i.file then some { i with file := true }
  else if letter = 'p' ∧ !i.pipe then some { i with pipe := true }
  else none

/-- The letters of a group of flags, up to one that asks for help or the version. -/
def withFlags (i : Invocation) (argument : String) : List Char → Except Request Invocation
  | [] => .ok i
  | letter :: letters =>
    if letter = 'h' then .error .help
    else if letter = 'V' then .error .version
    else
      match i.withFlag letter with
      | some i => withFlags i argument letters
      | none => .error (.misuse argument)

end Invocation

namespace Request

/-- The letter of a flag's long name. -/
def letterOf? (argument : String) : Option Char :=
  if argument = "--file" then some 'f'
  else if argument = "--pipe-mode" then some 'p'
  else if argument = "--help" then some 'h'
  else if argument = "--version" then some 'V'
  else none

/-- The flags in an argument, by their letters; none if the argument is no group of flags. A single dash
is not one. -/
def flagsOf? (argument : String) : Option (List Char) :=
  match argument.toList with
  | '-' :: '-' :: _ => some ((letterOf? argument).elim ['?'] ([·]))
  | '-' :: letter :: letters => some (letter :: letters)
  | _ => none

/-- Reads arguments; after `--` none is a flag. -/
def ofArguments (i : Invocation) (flagsEnded : Bool) : List String → Request
  | [] => .run i
  | argument :: arguments =>
    if !flagsEnded ∧ argument = "--" then ofArguments i true arguments
    else
      match if flagsEnded then none else flagsOf? argument with
      | some letters =>
        match i.withFlags argument letters with
        | .ok i => ofArguments i flagsEnded arguments
        | .error request => request
      | none =>
        match i.withContents argument with
        | some i => ofArguments i flagsEnded arguments
        | none => .misuse argument

end Request

/-- How the arguments are explained: the help that is asked for, and what is said about an argument that
cannot be used. The texts depend on how arguments are read, and nothing else depends on them. -/
structure Manual where
  help : String
  misuse : String → String

def Manual.brief : Manual where
  help := asLine "Usage: umni [OPTIONS] [CONTENTS]"
  misuse argument := asLine ("error: unexpected argument '" ++ argument ++ "' found")

namespace CommandLine

def versionText : String := asLine "umni 0.1.0"

def unreadable (path : String) : Transcript :=
  { errors := asLine ("Failed to read the input file '" ++ path
      ++ "'. Perhaps this file does not exist?"),
    code := 1 }

/-- Executes a text in the mode asked for. -/
def execute (i : Invocation) (text : String) : Transcript :=
  if i.pipe then pipeTranscript text else documentTranscript text

/-- The whole program; `fileText` gives the text of a file that can be read. -/
def run (arguments : List String) (input : String) (fileText : String → Option String)
    (manual : Manual := .brief) : Transcript :=
  match Request.ofArguments {} false arguments with
  | .help => { output := manual.help }
  | .version => { output := versionText }
  | .misuse argument => { errors := manual.misuse argument, code := 2 }
  | .run i =>
    match i.contents with
    | none => dialogueTranscript input
    | some contents =>
      if i.file then
        match fileText contents with
        | some text => execute i text
        | none => unreadable contents
      else execute i contents

end CommandLine

end UnitCalc
