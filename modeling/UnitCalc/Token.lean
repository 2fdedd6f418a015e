import UnitCalc.Operator
import UnitCalc.Number.Text

/-!
# Tokens
-/

namespace UnitCalc

/-- The signs that stand for operators. -/
inductive Sign where
  | plus
  | minus
  | star
  | slash
  | greater
  | greaterEqual
  | less
  | lessEqual
  | equalEqual
  | bangEqual
  | bang
  | question
  | colon
deriving DecidableEq

def Sign.symbol : Sign → String
  | plus => "+"
  | minus => "-"
  | star => "*"
  | slash => "/"
  | greater => ">"
  | greaterEqual => ">="
  | less => "<"
  | lessEqual => "<="
  | equalEqual => "=="
  | bangEqual => "!="
  | bang => "!"
  | question => "?"
  | colon => ":"

inductive Token where
  | integer (n : Int64)
  | real (x : Float)
  | quantity (amount : Float) (unit : String)
  | text (s : String)
  | identifier (name : String)
  | unit (symbol : String)
  | sign (s : Sign)
  | keywordTo
  | keywordTimes
  | keywordFn
  | assign
  | leftParen
  | rightParen
  | comma
  | endOfInput
deriving DecidableEq

namespace Token

/-- How messages speak of a token. -/
def describe : Token → String
  | integer n => "number " ++ Number.integerDigits n
  | real x => "number " ++ Number.realDigits x
  | quantity x symbol => "number " ++ Number.realDigits x ++ symbol
  | text s => "string \x22" ++ s ++ "\x22"
  | identifier name => "identifier '" ++ name ++ "'"
  | unit symbol => "unit '" ++ symbol ++ "'"
  | sign s => "'" ++ s.symbol ++ "'"
  | keywordTo => "'to'"
  | keywordTimes => "'times'"
  | keywordFn => "'fn'"
  | assign => "'='"
  | leftParen => "'('"
  | rightParen => "')'"
  | comma => "','"
  | endOfInput => "end of input"

/-- The operator that a token puts between two operands. The word `times` multiplies. -/
def binaryOp? : Token → Option BinaryOp
  | sign .plus => some .add
  | sign .minus => some .sub
  | sign .star => some .mul
  | sign .slash => some .div
  | sign .less => some .less
  | sign .greater => some .greater
  | sign .lessEqual => some .lessEqual
  | sign .greaterEqual => some .greaterEqual
  | sign .equalEqual => some .equal
  | sign .bangEqual => some .notEqual
  | keywordTimes => some .mul
  | _ => none

/-- The operator that a token puts before one operand. -/
def unaryOp? : Token → Option UnaryOp
  | sign .minus => some .negate
  | sign .bang => some .not
  | _ => none

end Token

end UnitCalc
