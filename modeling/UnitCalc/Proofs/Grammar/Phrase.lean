import UnitCalc.Expr
import UnitCalc.Token

/-!
# The phrases of the grammar

The grammar as a relation between tokens and the expressions they stand for. A
rule that repeats, such as `additive := multiplicative (("+" | "-")
multiplicative)*`, is a rule that goes on from a shorter phrase of the same
category, so operators of a level group to the left. Conditionals and assignments
nest to the right.
-/

namespace UnitCalc.Grammar

inductive Category where
  | primary
  /-- A call that has arguments, up to its closing parenthesis. -/
  | openCall
  | unary
  | multiplicative
  | additive
  | conversion
  | comparison
  | expression
  | assignment
  | statement
deriving DecidableEq

/-- `Joins level operand t op`: between a phrase of `level` and one of `operand`
the token `t` stands for `op`. What is compared is a sum, never a conversion. -/
inductive Joins : Category → Category → Token → BinaryOp → Prop
  | star : Joins .multiplicative .unary (.sign .star) .mul
  | times : Joins .multiplicative .unary .keywordTimes .mul
  | slash : Joins .multiplicative .unary (.sign .slash) .div
  | plus : Joins .additive .multiplicative (.sign .plus) .add
  | minus : Joins .additive .multiplicative (.sign .minus) .sub
  | less : Joins .comparison .additive (.sign .less) .less
  | lessEqual : Joins .comparison .additive (.sign .lessEqual) .lessEqual
  | greater : Joins .comparison .additive (.sign .greater) .greater
  | greaterEqual : Joins .comparison .additive (.sign .greaterEqual) .greaterEqual
  | equal : Joins .comparison .additive (.sign .equalEqual) .equal
  | notEqual : Joins .comparison .additive (.sign .bangEqual) .notEqual

/-- The tokens of a list of parameters. -/
def parameterTokens (params : List String) : List Token :=
  (params.map .identifier).intersperse .comma

/-- `Phrase c w a`: the tokens `w` are a phrase of the category `c` and stand for
the expression `a`. -/
inductive Phrase : Category → List Token → Expr → Prop
  | integer (n : Int64) : Phrase .primary [.integer n] (.integer n)
  | real (x : Float) : Phrase .primary [.real x] (.real x)
  | quantity (x : Float) (unit : String) :
      Phrase .primary [.quantity x unit] (.quantity x unit)
  | text (s : String) : Phrase .primary [.text s] (.text s)
  | var (name : String) : Phrase .primary [.identifier name] (.var name)
  | group {w : List Token} {a : Expr} (h : Phrase .expression w a) :
      Phrase .primary (.leftParen :: w ++ [.rightParen]) a
  | emptyCall (name : String) :
      Phrase .primary [.identifier name, .leftParen, .rightParen] (.call name [])
  | call {w : List Token} {a : Expr} (h : Phrase .openCall w a) :
      Phrase .primary (w ++ [.rightParen]) a
  | firstArgument (name : String) {w : List Token} {a : Expr}
      (h : Phrase .expression w a) :
      Phrase .openCall (.identifier name :: .leftParen :: w) (.call name [a])
  | nextArgument {name : String} {v w : List Token} {args : List Expr} {a : Expr}
      (hv : Phrase .openCall v (.call name args)) (hw : Phrase .expression w a) :
      Phrase .openCall (v ++ .comma :: w) (.call name (args ++ [a]))
  | minus {w : List Token} {a : Expr} (h : Phrase .unary w a) :
      Phrase .unary (.sign .minus :: w) (.unary .negate a)
  | bang {w : List Token} {a : Expr} (h : Phrase .unary w a) :
      Phrase .unary (.sign .bang :: w) (.unary .not a)
  | ofPrimary {w : List Token} {a : Expr} (h : Phrase .primary w a) :
      Phrase .unary w a
  | ofUnary {w : List Token} {a : Expr} (h : Phrase .unary w a) :
      Phrase .multiplicative w a
  | ofMultiplicative {w : List Token} {a : Expr} (h : Phrase .multiplicative w a) :
      Phrase .additive w a
  | ofAdditive {w : List Token} {a : Expr} (h : Phrase .additive w a) :
      Phrase .conversion w a
  | convert {w : List Token} {a : Expr} (h : Phrase .conversion w a)
      (unit : String) :
      Phrase .conversion (w ++ [.keywordTo, .unit unit]) (.convert a unit)
  | ofConversion {w : List Token} {a : Expr} (h : Phrase .conversion w a) :
      Phrase .comparison w a
  | join {level operand : Category} {t : Token} {op : BinaryOp} {v w : List Token}
      {a b : Expr} (hv : Phrase level v a) (ht : Joins level operand t op)
      (hw : Phrase operand w b) :
      Phrase level (v ++ t :: w) (.binary op a b)
  | ofComparison {w : List Token} {a : Expr} (h : Phrase .comparison w a) :
      Phrase .expression w a
  | ternary {u v w : List Token} {a b c : Expr} (hu : Phrase .comparison u a)
      (hv : Phrase .expression v b) (hw : Phrase .expression w c) :
      Phrase .expression (u ++ .sign .question :: v ++ .sign .colon :: w)
        (.ternary a b c)
  | ofExpression {w : List Token} {a : Expr} (h : Phrase .expression w a) :
      Phrase .assignment w a
  | assign {v w : List Token} {a b : Expr} (hv : Phrase .expression v a)
      (hw : Phrase .assignment w b) :
      Phrase .assignment (v ++ .assign :: w) (.assign a b)
  | ofAssignment {w : List Token} {a : Expr} (h : Phrase .assignment w a) :
      Phrase .statement w a
  | declare (name : String) (params : List String) {w : List Token} {body : Expr}
      (h : Phrase .expression w body) :
      Phrase .statement
        (.keywordFn :: .identifier name :: .leftParen :: parameterTokens params ++
          .rightParen :: .assign :: w)
        (.declare name params body)

end UnitCalc.Grammar
