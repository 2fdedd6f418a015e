import UnitCalc.EvalError
import UnitCalc.Text.Quoted

/-!
# The journal

What an evaluation reports about its course, apart from its result.
-/

namespace UnitCalc

inductive Event where
  | evaluating (line : String)
  | failed (error : EvalError)
  | assigning (name : String) (value : Value)
  | declared (name : String) (params : List String)
  /-- A function was declared under the name of a builtin function, which calls will go on to use. -/
  | shadowed (name : String)
  | calling (name : String) (depth : Nat)
  | depthExceeded (name : String)
deriving DecidableEq

namespace Event

def isWarning : Event → Bool
  | shadowed _ => true
  | _ => false

def message : Event → String
  | evaluating line => "evaluating " ++ Text.quoted line
  | failed error => "statement failed: " ++ error.message
  | assigning name value => "assigning " ++ name ++ " = " ++ value.render
  | declared name params => "declared " ++ name ++ "(" ++ String.intercalate ", " params ++ ")"
  | shadowed name => "function '" ++ name ++ "' is shadowed by the builtin of the same name"
  | calling name depth => "calling " ++ name ++ " at depth " ++ toString depth
  | depthExceeded name => name ++ " exceeded the call depth limit"

/-- The warnings in a journal. -/
def warnings (journal : List Event) : List Event := journal.filter isWarning

theorem warnings_append (first next : List Event) :
    warnings (first ++ next) = warnings first ++ warnings next :=
  List.filter_append first next

/-- A line of the journal: the weight of the event, then what happened. -/
def text (e : Event) : String := (if e.isWarning then "WARN " else "DEBUG ") ++ e.message

end Event

end UnitCalc
