/-!
# Lines

A line ends with a line feed, which may have one carriage return before it. A carriage return anywhere
else is an ordinary character, and a line feed at the very end starts no further line.
-/

namespace UnitCalc.Text

/-- Cuts a text after every line feed. -/
def cutLines : List Char → List (List Char)
  | [] => []
  | c :: cs =>
    if c = '\n' then [c] :: cutLines cs
    else
      match cutLines cs with
      | [] => [[c]]
      | line :: lines => (c :: line) :: lines

/-- A line without the line feed at its end and a carriage return before that. -/
def withoutTerminator (line : List Char) : List Char :=
  match line.reverse with
  | '\n' :: '\r' :: rest => rest.reverse
  | '\n' :: rest => rest.reverse
  | _ => line

/-- The lines of a text with their terminators. -/
def terminatedLines (s : String) : List String := (cutLines s.toList).map String.ofList

/-- The lines of a text. -/
def lines (s : String) : List String :=
  (cutLines s.toList).map fun line => String.ofList (withoutTerminator line)

end UnitCalc.Text
