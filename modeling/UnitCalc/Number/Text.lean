import UnitCalc.Number.Integer
import UnitCalc.Number.Shortest

/-!
# Numbers as text

Results are shown with the integer part in comma-separated groups of three and with at most four digits
after the point, cut and not rounded. Messages about tokens show the plain digits instead.
-/

namespace UnitCalc.Number

/-- Puts a comma before every group of three digits, counted from the right. -/
def grouped : List Char → List Char
  | [] => []
  | d :: ds => if ds ≠ [] ∧ ds.length % 3 = 0 then d :: ',' :: grouped ds else d :: grouped ds

def signText (negative : Bool) : String := if negative then "-" else ""

/-- An integer in digit groups. -/
def integerText (n : Int64) : String :=
  signText (n < 0) ++ String.ofList (grouped (Nat.toDigits 10 n.toInt.natAbs))

/-- An integer in plain digits. -/
def integerDigits (n : Int64) : String :=
  signText (n < 0) ++ String.ofList (Nat.toDigits 10 n.toInt.natAbs)

/-- How many digits are shown after the point. -/
def shownPlaces : Nat := 4

/-- A point and the digits after it, or nothing. -/
def fractionText : List Char → String
  | [] => ""
  | digits => String.ofList ('.' :: digits)

/-- A real number in digit groups, its fraction cut to the shown places. Zero has no sign. -/
def realText (x : Float) : String :=
  match Exact.ofFloat x with
  | .nan => "NaN"
  | .infinite negative => signText negative ++ "Infinity"
  | .finite negative mantissa exponent =>
    let decimal := Decimal.shortest mantissa exponent
    signText (negative && mantissa ≠ 0)
      ++ String.ofList (grouped (Nat.toDigits 10 decimal.whole))
      ++ fractionText (decimal.fraction.take shownPlaces)

/-- A real number in plain digits: the shortest that read back, never with an exponent. -/
def realDigits (x : Float) : String :=
  match Exact.ofFloat x with
  | .nan => "NaN"
  | .infinite negative => signText negative ++ "inf"
  | .finite negative mantissa exponent =>
    let decimal := Decimal.shortest mantissa exponent
    signText negative
      ++ String.ofList (Nat.toDigits 10 decimal.whole)
      ++ fractionText decimal.fraction

end UnitCalc.Number
