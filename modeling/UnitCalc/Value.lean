import UnitCalc.Number.Text

/-!
# Values

What an expression evaluates to. The unit of a quantity is kept as its symbol and need not be
registered; only conversion asks for that.
-/

namespace UnitCalc

/-- The kind of a value, as users see it. -/
inductive Kind where
  | integer
  | real
  | quantity
  | text
  | truth
  | function
deriving DecidableEq

def Kind.name : Kind → String
  | .integer => "integer"
  | .real => "double"
  | .quantity => "double with unit"
  | .text => "string"
  | .truth => "boolean"
  | .function => "function"

inductive Value where
  | integer (n : Int64)
  | real (x : Float)
  | quantity (amount : Float) (unit : String)
  | text (s : String)
  | truth (b : Bool)
  /-- The result of a function declaration. -/
  | function
deriving DecidableEq

namespace Value

def kind : Value → Kind
  | integer _ => .integer
  | real _ => .real
  | quantity .. => .quantity
  | text _ => .text
  | truth _ => .truth
  | function => .function

/-- An arithmetic result: an integer when it is one within the exact range, else a real. -/
def ofNumber (x : Float) : Value :=
  match Number.integer? x with
  | some n => integer n
  | none => real x

/-- The number of an integer, a real or a quantity. -/
def number? : Value → Option Float
  | integer n => some (Number.ofInteger n)
  | real x => some x
  | quantity x _ => some x
  | _ => none

/-- The number of a value that carries no unit. -/
def plainNumber? : Value → Option Float
  | integer n => some (Number.ofInteger n)
  | real x => some x
  | _ => none

def unit? : Value → Option String
  | quantity _ unit => some unit
  | _ => none

def truth? : Value → Option Bool
  | truth b => some b
  | _ => none

/-- The text in which a value is shown. -/
def render : Value → String
  | integer n => Number.integerText n
  | real x => Number.realText x
  | quantity x unit => Number.realText x ++ unit
  | text s => s
  | truth true => "true"
  | truth false => "false"
  | function => "function"

end Value

end UnitCalc
