import UnitCalc.Value.Conversion

/-!
# Arithmetic on values

Numbers without unit are combined as binary64 numbers, and a whole result becomes an integer again,
except that a quotient stays real. With a unit on either side both operands are taken in the unit of the
left one, or of the right one if the left has none. Texts are joined with texts and numbers, and repeated.
-/

namespace UnitCalc.Value

/-- Arithmetic on numbers without unit. -/
def scalar (op : BinaryOp) (left right : Value) : Except EvalError Value :=
  match left.plainNumber?, right.plainNumber? with
  | some a, some b =>
    match op with
    | .add => .ok (ofNumber (a + b))
    | .sub => .ok (ofNumber (a - b))
    | .mul => .ok (ofNumber (a * b))
    | .div => if b == 0 then .error .divisionByZero else .ok (real (a / b))
    | _ => .error (.binaryOperands op left right)
  | _, _ => .error (.binaryOperands op left right)

/-- Arithmetic with a unit on at least one side. -/
def measured (op : BinaryOp) (left right : Value) : Except EvalError Value :=
  match left.unit?.or right.unit? with
  | none => scalar op left right
  | some unit => do
    let a ← left.measuredIn unit
    let b ← right.measuredIn unit
    match op with
    | .add => .ok (quantity (a + b) unit)
    | .sub => .ok (quantity (a - b) unit)
    | .mul => .ok (quantity (a * b) unit)
    | .div => if b == 0 then .error .divisionByZero else .ok (quantity (a / b) unit)
    | _ => .error (.binaryOperands op left right)

/-- The longest text, in bytes, that repetition makes. -/
def repetitionLimit : Nat := 1 <<< 28

/-- `s` joined `count` times. -/
def repeated (s : String) (count : Nat) : String :=
  if s = "" then "" else Nat.repeat (· ++ s) count ""

/-- Operations on a text and a text or a number. -/
def textual (op : BinaryOp) (left right : Value) : Except EvalError Value :=
  match op, left, right with
  | .add, text a, text b => .ok (text (a ++ b))
  | .add, text a, integer _ | .add, text a, real _ | .add, text a, quantity .. =>
    .ok (text (a ++ right.render))
  | .add, integer _, text b | .add, real _, text b | .add, quantity .., text b =>
    .ok (text (left.render ++ b))
  | .mul, text s, integer n => repeating s (Number.repetitions (Number.ofInteger n))
  | .mul, text s, real x => repeating s (Number.repetitions x)
  | _, _, _ => .error (.binaryOperands op left right)
where
  repeating (s : String) (count : Nat) : Except EvalError Value :=
    match (Number.countProduct? s.utf8ByteSize count).filter (· ≤ repetitionLimit) with
    | some _ => .ok (text (repeated s count))
    | none => .error (.binaryOperands op left right)

/-- Whether an operand is a plain zero, of either sign. -/
def isPlainZero (v : Value) : Bool := v.plainNumber?.any (· == 0)

/-- Arithmetic on any two values. A plain zero divisor is an error whatever is divided. -/
def arithmetic (op : BinaryOp) (left right : Value) : Except EvalError Value :=
  if op = .div ∧ right.isPlainZero then .error .divisionByZero
  else
    match left.kind, right.kind with
    | .integer, .integer | .integer, .real | .real, .integer | .real, .real => scalar op left right
    | .quantity, .integer | .quantity, .real | .quantity, .quantity | .integer, .quantity
    | .real, .quantity => measured op left right
    | .text, _ | _, .text => textual op left right
    | _, _ => .error (.binaryOperands op left right)

/-- A sign or a negation. The least integer has no negative among the integers. -/
def unary (op : UnaryOp) (v : Value) : Except EvalError Value :=
  match op, v with
  | .negate, integer n =>
    .ok (if n = Int64.minValue then real (-Number.ofInteger n) else integer (-n))
  | .negate, real x => .ok (real (-x))
  | .negate, quantity x unit => .ok (quantity (-x) unit)
  | .not, truth b => .ok (truth !b)
  | op, v => .error (.unaryOperand op v.kind)

end UnitCalc.Value
