/-!
# Measures

The registered units of length and of data size. Every measure has a factor to one common base, so an
amount can be converted between any two of them, also across dimensions.
-/

namespace UnitCalc

inductive Dimension where
  | length
  | dataSize
deriving DecidableEq

inductive Measure where
  | metre
  | kilometre
  | centimetre
  | millimetre
  | kilobyte
  | megabyte
  | gigabyte
deriving DecidableEq

namespace Measure

/-- All measures, in the order in which they are listed to a user. -/
def all : List Measure :=
  [metre, kilometre, centimetre, millimetre, kilobyte, megabyte, gigabyte]

def symbol : Measure → String
  | metre => "m"
  | kilometre => "km"
  | centimetre => "cm"
  | millimetre => "mm"
  | kilobyte => "kb"
  | megabyte => "mb"
  | gigabyte => "gb"

def ofSymbol? (s : String) : Option Measure :=
  all.find? fun m => m.symbol = s

/-- Whether a word is the symbol of a measure. -/
def isSymbol (s : String) : Bool := (ofSymbol? s).isSome

def dimension : Measure → Dimension
  | metre | kilometre | centimetre | millimetre => .length
  | kilobyte | megabyte | gigabyte => .dataSize

def factor : Measure → Float
  | metre => 1
  | kilometre => 1000
  | centimetre => 0.01
  | millimetre => 0.001
  | kilobyte => 1024
  | megabyte => 1048576
  | gigabyte => 1073741824

/-- The measure of a plain number that is converted. -/
def standard : Measure := metre

/-- An amount of `source` as an amount of `target`. An amount that stays in its measure is not touched
by rounding. -/
def convert (amount : Float) (source target : Measure) : Float :=
  if source = target then amount else amount * source.factor / target.factor

end Measure

end UnitCalc
