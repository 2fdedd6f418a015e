import UnitCalc.Text.Bytes
import UnitCalc.Value.Arithmetic

/-!
# Comparison of values

Numbers are compared by size, with a unit on either side in the unit of the left one, or of the right one
if the left has none; texts by their bytes; truth values with false first. Values of other mixed kinds
have no order and are only ever unequal.
-/

namespace UnitCalc

/-- How two values stand to each other. Values of comparable kinds have no order when one of them is a
number that is none. -/
inductive Standing where
  | comparable (order : Option Ordering)
  | incomparable
deriving DecidableEq

namespace Value

def standing (left right : Value) : Except EvalError Standing :=
  match left, right with
  | quantity _ unit, integer _ | quantity _ unit, real _ | quantity _ unit, quantity ..
  | integer _, quantity _ unit | real _, quantity _ unit => do
    let a ← left.measuredIn unit
    let b ← right.measuredIn unit
    return .comparable (Number.order? a b)
  | integer a, integer b => .ok (.comparable (some (compare a.toInt b.toInt)))
  | integer a, real b => .ok (.comparable (Number.order? (Number.ofInteger a) b))
  | real a, integer b => .ok (.comparable (Number.order? a (Number.ofInteger b)))
  | real a, real b => .ok (.comparable (Number.order? a b))
  | text a, text b => .ok (.comparable (some (compare (Text.bytes a) (Text.bytes b))))
  | truth a, truth b => .ok (.comparable (some (compare a b)))
  | function, function => .ok (.comparable (some .eq))
  | _, _ => .ok .incomparable

/-- Compares two values. An arithmetic operator between values of comparable kinds is carried out
instead. -/
def comparison (op : BinaryOp) (left right : Value) : Except EvalError Value := do
  match ← standing left right with
  | .comparable order =>
    if op.compares then return truth (op.holds order) else arithmetic op left right
  | .incomparable =>
    match op with
    | .equal => return truth false
    | .notEqual => return truth true
    | _ => throw (.binaryOperands op left right)

/-- Applies an operator to two values. -/
def binary (op : BinaryOp) (left right : Value) : Except EvalError Value :=
  if op.compares then comparison op left right else arithmetic op left right

end Value

end UnitCalc
