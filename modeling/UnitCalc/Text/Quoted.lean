import UnitCalc.Text.Blank

/-!
# Quoted text

The form in which the journal quotes a line: in double quotes, with quotes, backslashes, tabs, line
feeds, carriage returns and null characters written as escapes. Other control characters and other white
space than the blank are written by their numbers.
-/

namespace UnitCalc.Text

/-- A character with no form of its own. Format characters, combining marks and numbers that stand for
no character have none either; they are left out here, and quoted as they are. -/
def isFormless (c : Char) : Bool :=
  c.toNat < 0x20 || (0x7f ≤ c.toNat && c.toNat < 0xa0) || (isWhite c && c != ' ')

/-- The number of a character, in sixteens and in braces. -/
def numbered (c : Char) : List Char :=
  ['\\', 'u', '\x7b'] ++ Nat.toDigits 16 c.toNat ++ ['\x7d']

def escaped (c : Char) : List Char :=
  match c with
  | '\x22' => ['\\', c]
  | '\\' => ['\\', c]
  | '\t' => ['\\', 't']
  | '\n' => ['\\', 'n']
  | '\r' => ['\\', 'r']
  | '\x00' => ['\\', '0']
  | _ => if isFormless c then numbered c else [c]

def quoted (s : String) : String :=
  String.ofList ('\x22' :: s.toList.flatMap escaped ++ ['\x22'])

end UnitCalc.Text
