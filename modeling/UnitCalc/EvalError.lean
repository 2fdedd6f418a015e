import UnitCalc.Operator
import UnitCalc.Text.Base64
import UnitCalc.Value

/-!
# Errors of evaluation
-/

namespace UnitCalc

inductive ErrorFamily where
  | name
  | arity
  | type
  | arithmetic
  | unit
  | resource
deriving DecidableEq

def ErrorFamily.title : ErrorFamily → String
  | name => "Name"
  | arity => "Arity"
  | type => "Type"
  | arithmetic => "Arithmetic"
  | unit => "Unit"
  | resource => "Resource"

/-- What is wrong with the argument of a builtin function. -/
inductive ArgumentFault where
  | notANumber (found : Kind)
  | notAText (found : Kind)
  | notBase64 (fault : Base64.Fault)
  | notUtf8
deriving DecidableEq

def ArgumentFault.message : ArgumentFault → String
  | notANumber found => "expected a number, found " ++ found.name
  | notAText found => "expected a string, found " ++ found.name
  | notBase64 fault => fault.message
  | notUtf8 => "decoded bytes are not UTF-8"

inductive EvalError where
  | unboundVariable (name : String)
  | unknownFunction (name : String)
  | constantAssigned (name : String)
  | constantDeclared (name : String)
  | unassignable
  | argumentCount (name : String) (expected found : Nat)
  | unaryOperand (op : UnaryOp) (operand : Kind)
  | binaryOperands (op : BinaryOp) (left right : Value)
  | argument (function : String) (fault : ArgumentFault)
  | undecidedCondition
  | notConvertible
  | divisionByZero
  | unknownUnit (symbol : String)
  | tooDeep (name : String) (limit : Nat)
deriving DecidableEq

namespace EvalError

def family : EvalError → ErrorFamily
  | unboundVariable _ | unknownFunction _ | constantAssigned _ | constantDeclared _
  | unassignable => .name
  | argumentCount .. => .arity
  | unaryOperand .. | binaryOperands .. | argument .. | undecidedCondition
  | notConvertible => .type
  | divisionByZero => .arithmetic
  | unknownUnit _ => .unit
  | tooDeep .. => .resource

/-- What happened, without the family. -/
def details : EvalError → String
  | unboundVariable name => "Undefined variable: " ++ name
  | unknownFunction name => "Undefined function: " ++ name
  | constantAssigned name => "Cannot assign to constant '" ++ name ++ "'"
  | constantDeclared name => "Cannot declare constant '" ++ name ++ "' as function"
  | unassignable => "Invalid assignment target"
  | argumentCount name expected found =>
    "Argument count mismatch for function: " ++ name ++ " (expected " ++ toString expected
      ++ ", found " ++ toString found ++ ")"
  | unaryOperand op operand =>
    "Invalid operand for unary '" ++ op.symbol ++ "': " ++ operand.name
  | binaryOperands op left right =>
    "Invalid operands for '" ++ op.symbol ++ "': " ++ left.render ++ " and " ++ right.render
  | argument function fault => "Invalid argument for " ++ function ++ ": " ++ fault.message
  | undecidedCondition => "Condition must evaluate to a boolean value"
  | notConvertible => "Cannot convert non-numeric value"
  | divisionByZero => "Division by zero"
  | unknownUnit symbol => "Unknown unit: " ++ symbol
  | tooDeep name limit =>
    "Calls nested deeper than " ++ toString limit ++ " in " ++ name

def message (e : EvalError) : String := e.family.title ++ " error: " ++ e.details

end EvalError

end UnitCalc
