import UnitCalc.EvalError
import UnitCalc.Text.Bytes

/-!
# Builtin functions

All of them take one argument.
-/

namespace UnitCalc

inductive Builtin where
  | sin
  | cos
  | length
  | encodeBase64
  | decodeBase64
  | type
deriving DecidableEq

namespace Builtin

/-- All builtin functions, in the order in which they are listed to a user. -/
def all : List Builtin := [sin, cos, length, encodeBase64, decodeBase64, type]

def name : Builtin → String
  | sin => "sin"
  | cos => "cos"
  | length => "length"
  | encodeBase64 => "b64Encode"
  | decodeBase64 => "b64Decode"
  | type => "type"

def ofName? (s : String) : Option Builtin := all.find? fun b => b.name = s

def arity (_ : Builtin) : Nat := 1

/-- The text of a text argument. -/
def textArgument (b : Builtin) : Value → Except EvalError String
  | .text s => .ok s
  | v => .error (.argument b.name (.notAText v.kind))

/-- The number of a numeric argument, without its unit. -/
def numberArgument (b : Builtin) (v : Value) : Except EvalError Float :=
  match v.number? with
  | some x => .ok x
  | none => .error (.argument b.name (.notANumber v.kind))

/-- The text whose UTF-8 bytes a Base64 text holds. -/
def decodeText (s : String) : Except EvalError String :=
  match Base64.decode (Text.bytes s) with
  | .error fault => .error (.argument decodeBase64.name (.notBase64 fault))
  | .ok bytes =>
    match Text.ofBytes? bytes with
    | some t => .ok t
    | none => .error (.argument decodeBase64.name .notUtf8)

/-- Applies a builtin function to its one argument. -/
def applyTo (b : Builtin) (v : Value) : Except EvalError Value :=
  match b with
  | sin => (b.numberArgument v).map fun x => .real x.sin
  | cos => (b.numberArgument v).map fun x => .real x.cos
  | length => (b.textArgument v).map fun s => .integer ((Number.word? s.length).getD Int64.maxValue)
  | encodeBase64 =>
    (b.textArgument v).map fun s => .text (String.ofList (Base64.encode (Text.bytes s)))
  | decodeBase64 => do
    let s ← b.textArgument v
    return .text (← decodeText s)
  | type => .ok (.text v.kind.name)

def apply (b : Builtin) : List Value → Except EvalError Value
  | [v] => b.applyTo v
  | vs => .error (.argumentCount b.name b.arity vs.length)

end Builtin

end UnitCalc
