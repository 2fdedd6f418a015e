import UnitCalc.Measure
import UnitCalc.Token.Lexeme

/-!
# Reading lexemes as tokens

Each lexeme is read on its own: white space makes no token, and a lexeme that makes none for another
reason is a fault. The tokens of a source end with the end-of-input token; the first fault is reported
with the number of characters before its lexeme.
-/

namespace UnitCalc

/-- Why a lexeme makes no token. -/
inductive LexFault where
  | malformedNumber
  | unclosedQuote
  | unregisteredUnit (unit : String)
  | unknownCharacter (c : Char)
  | literalTooLarge
deriving DecidableEq

def LexFault.message : LexFault → String
  | malformedNumber => "Invalid number format."
  | unclosedQuote => "Unterminated string literal."
  | unregisteredUnit unit => "Unsupported unit '" ++ unit ++ "'."
  | unknownCharacter c => "Unknown character '" ++ c.toString ++ "'."
  | literalTooLarge => "Literal is too large."

structure LexError where
  fault : LexFault
  position : Nat
deriving DecidableEq

def LexError.message (e : LexError) : String :=
  "Lexer error at position " ++ toString e.position ++ ": " ++ e.fault.message

namespace Lexeme

/-- Every underscore stands between two digits; `afterDigit` tells what came before. -/
def separated (afterDigit : Bool) : List Char → Bool
  | [] => true
  | c :: cs =>
    if c = '_' then afterDigit && cs.head?.any Char.isDigit && separated false cs
    else separated c.isDigit cs

/-- The digits of a number have at most one point, and underscores only between digits. -/
def wellFormed (digits : List Char) : Bool :=
  decide (digits.count '.' ≤ 1) && separated false digits

/-- All digits of a number, read as one natural number. -/
def digitValue (digits : List Char) : Nat :=
  Nat.ofDigitChars 10 (digits.filter Char.isDigit) 0

/-- How many digits stand after the point. -/
def placesAfterPoint (digits : List Char) : Nat :=
  ((digits.dropWhile (· != '.')).filter Char.isDigit).length

/-- The binary64 number nearest to the decimal. -/
def decimalValue (digits : List Char) : Float :=
  Float.ofScientific (digitValue digits) true (placesAfterPoint digits)

/-- Digits alone are read as a 64-bit integer first, and this must then be in the exact range. -/
def readInteger (digits : List Char) : Except LexFault Token :=
  match Number.word? (digitValue digits) with
  | none => .error .literalTooLarge
  | some n =>
    if n.toInt.natAbs ≤ Number.exactLimit then .ok (.integer n) else .error .literalTooLarge

/-- Letters after the digits make a quantity, a point a real, and digits alone an integer. -/
def readNumber (digits suffix : List Char) : Except LexFault Token :=
  if !wellFormed digits then .error .malformedNumber
  else if suffix ≠ [] then
    let unit := String.ofList suffix
    if Measure.isSymbol unit then .ok (.quantity (decimalValue digits) unit)
    else .error (.unregisteredUnit unit)
  else if digits.contains '.' then .ok (.real (decimalValue digits))
  else readInteger digits

/-- A word is a keyword, the symbol of a measure or an identifier. -/
def readWord (letters : List Char) : Token :=
  let name := String.ofList letters
  if name = "fn" then .keywordFn
  else if name = "to" then .keywordTo
  else if name = "times" then .keywordTimes
  else if Measure.isSymbol name then .unit name
  else .identifier name

/-- The token of a lexeme; none for white space. -/
def read : Lexeme → Except LexFault (Option Token)
  | space _ => .ok none
  | number digits suffix => (readNumber digits suffix).map some
  | word letters => .ok (some (readWord letters))
  | quoted _ content true => .ok (some (.text (String.ofList content)))
  | quoted _ _ false => .error .unclosedQuote
  | mark t _ => .ok (some t)
  | unknown c => .error (.unknownCharacter c)

/-- The tokens of a sequence of lexemes that starts at the given position. -/
def readAll (position : Nat) : List Lexeme → Except LexError (List Token)
  | [] => .ok [.endOfInput]
  | l :: ls =>
    match l.read with
    | .error fault => .error ⟨fault, position⟩
    | .ok none => readAll (position + l.chars.length) ls
    | .ok (some t) => (readAll (position + l.chars.length) ls).map (t :: ·)

end Lexeme

/-- The tokens of a source text. -/
def Token.scan (source : String) : Except LexError (List Token) :=
  Lexeme.readAll 0 (Lexeme.cut source.toList)

end UnitCalc
