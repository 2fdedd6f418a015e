import UnitCalc.CommandLine

/-!
# The program
-/

namespace UnitCalc

/-- The text of a file, if it can be read. -/
def fileText (path : String) : IO (Option String) := do
  try
    return some (← IO.FS.readFile path)
  catch _ =>
    return none

def logWarnings (warnings : List Event) : IO Unit :=
  warnings.forM fun e => IO.eprintln e.text

/-- The dialogue, with each line answered as it comes. -/
partial def holdDialogue (env : Environment) : IO Unit := do
  let out ← IO.getStdout
  out.putStr Dialogue.prompt
  out.flush
  let line ← (← IO.getStdin).getLine
  unless line.isEmpty || Dialogue.isFarewell line do
    let run := runLine env line
    logWarnings (Event.warnings run.journal)
    out.putStr (Dialogue.reply run.outcome)
    holdDialogue run.environment

/-- Writes a transcript and gives the code to end with. -/
def present (t : Transcript) : IO UInt32 := do
  logWarnings t.warnings
  IO.print t.output
  IO.eprint t.errors
  return UInt32.ofNat t.code

end UnitCalc

open UnitCalc

def main (arguments : List String) : IO UInt32 := do
  match Request.ofArguments {} false arguments with
  | .run ⟨_, _, none⟩ =>
    holdDialogue {}
    return 0
  | .run ⟨true, _, some path⟩ =>
    let text ← fileText path
    present (CommandLine.run arguments "" fun _ => text)
  | _ => present (CommandLine.run arguments "" fun _ => none)
