/-!
# Operators
-/

namespace UnitCalc

inductive UnaryOp where
  | negate
  | not
deriving DecidableEq

def UnaryOp.symbol : UnaryOp → String
  | .negate => "-"
  | .not => "!"

inductive BinaryOp where
  | add
  | sub
  | mul
  | div
  | less
  | greater
  | lessEqual
  | greaterEqual
  | equal
  | notEqual
deriving DecidableEq

namespace BinaryOp

def symbol : BinaryOp → String
  | add => "+"
  | sub => "-"
  | mul => "*"
  | div => "/"
  | less => "<"
  | greater => ">"
  | lessEqual => "<="
  | greaterEqual => ">="
  | equal => "=="
  | notEqual => "!="

def compares : BinaryOp → Bool
  | add | sub | mul | div => false
  | less | greater | lessEqual | greaterEqual | equal | notEqual => true

/-- The operators of sums. -/
def isAdditive : BinaryOp → Bool
  | add | sub => true
  | _ => false

/-- The operators of products. -/
def isMultiplicative : BinaryOp → Bool
  | mul | div => true
  | _ => false

/-- Whether a comparison holds of two operands in the given order. Operands without an order differ, and
no other comparison holds of them. -/
def holds (op : BinaryOp) (order : Option Ordering) : Bool :=
  match op with
  | less => order == some .lt
  | lessEqual => order == some .lt || order == some .eq
  | greater => order == some .gt
  | greaterEqual => order == some .gt || order == some .eq
  | equal => order == some .eq
  | notEqual => order != some .eq
  | add | sub | mul | div => false

end BinaryOp

end UnitCalc
