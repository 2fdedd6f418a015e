import UnitCalc.Expr
import UnitCalc.Token

/-!
# The grammar

```
statement      := "fn" declaration | assignment
declaration    := IDENTIFIER "(" (IDENTIFIER ("," IDENTIFIER)*)? ")" "=" expression
assignment     := expression ("=" assignment)?
expression     := comparison ("?" expression ":" expression)?
comparison     := conversion (("<" | "<=" | ">" | ">=" | "==" | "!=") additive)*
conversion     := additive ("to" UNIT)*
additive       := multiplicative (("+" | "-") multiplicative)*
multiplicative := unary (("*" | "/" | "times") unary)*
unary          := ("-" | "!") unary | primary
primary        := number | quantity | text | IDENTIFIER ("(" arguments ")")? | "(" expression ")"
```

Binary operators associate to the left, assignments and conditionals to the right. A reader takes tokens
off the front of a list and always leaves fewer; each level of the grammar is built from a reader for
the expressions nested in it, which it only uses on shorter lists.
-/

namespace UnitCalc

/-- What the grammar asks for at some place. -/
inductive Expectation where
  | expression
  | identifier
  | token (t : Token)
  | commaOr (closing : Token)
deriving DecidableEq

def Expectation.describe : Expectation → String
  | expression => "an expression"
  | identifier => "identifier"
  | token t => t.describe
  | commaOr closing => Token.comma.describe ++ " or " ++ closing.describe

/-- Why tokens make no statement. The offending token is missing when the tokens ran out. -/
inductive ParseError where
  | unexpectedToken (expected : Expectation) (found : Option Token)
  | expectedColon (found : Option Token)
  | expectedUnit (found : Option Token)
  | trailingTokens (found : Token)
  | unexpectedEnd
deriving DecidableEq

namespace ParseError

def describeFound : Option Token → String
  | some t => t.describe
  | none => Token.endOfInput.describe

def message : ParseError → String
  | unexpectedToken expected found =>
    "Parse error: Expected " ++ expected.describe ++ " but found " ++ describeFound found ++ "."
  | expectedColon found =>
    "Parse error: Expected ':' in ternary operation but found " ++ describeFound found ++ "."
  | expectedUnit found =>
    "Parse error: Expected unit after 'to' but found " ++ describeFound found ++ "."
  | trailingTokens found =>
    "Parse error: Extra tokens after statement, starting at " ++ found.describe ++ "."
  | unexpectedEnd => "Parse error: Unexpected end of input."

end ParseError

/-- What was read, and the tokens after it, fewer than `n`. -/
structure Parsed (α : Type) (n : Nat) where
  value : α
  rest : List Token
  fewer : rest.length < n

/-- Reads from the front of a list of fewer than `n` tokens, and takes at least one of them. -/
abbrev Reader (α : Type) (n : Nat) :=
  (ts : List Token) → ts.length < n → Except ParseError (Parsed α ts.length)

namespace Grammar

variable {α : Type} {n : Nat}

/-- The token in front must be `t`. -/
def expect (t : Token) : (ts : List Token) → Except ParseError (Parsed Unit ts.length)
  | [] => .error (.unexpectedToken (.token t) none)
  | found :: rest =>
    if found = t then .ok ⟨(), rest, Nat.lt_succ_self _⟩
    else .error (.unexpectedToken (.token t) (some found))

def identifier : Reader String n := fun ts _ =>
  match ts with
  | .identifier name :: rest => .ok ⟨name, rest, Nat.lt_succ_self _⟩
  | ts => .error (.unexpectedToken .identifier ts.head?)

/-- One item or more, with commas between them, and the closing parenthesis. -/
def items (item : Reader α n) (ts : List Token) (h : ts.length < n) :
    Except ParseError (Parsed (List α) ts.length) := do
  let ⟨first, rest, fewer⟩ ← item ts h
  match rest, fewer with
  | .comma :: rest, fewer =>
    have fewer : rest.length < ts.length := Nat.lt_of_succ_lt fewer
    let more ← items item rest (Nat.lt_trans fewer h)
    return ⟨first :: more.value, more.rest, Nat.lt_trans more.fewer fewer⟩
  | .rightParen :: rest, fewer => return ⟨[first], rest, Nat.lt_of_succ_lt fewer⟩
  | found :: _, _ => throw (.unexpectedToken (.commaOr .rightParen) (some found))
  | [], _ => throw .unexpectedEnd
termination_by ts.length

/-- A list in parentheses, read after the opening one. -/
def listInParens (item : Reader α n) : Reader (List α) n := fun ts h =>
  match ts, h with
  | .rightParen :: rest, _ => .ok ⟨[], rest, Nat.lt_succ_self _⟩
  | ts, h => items item ts h

def primary (nested : Reader Expr n) : Reader Expr (n + 1) := fun ts h =>
  match ts, h with
  | .integer k :: rest, _ => .ok ⟨.integer k, rest, Nat.lt_succ_self _⟩
  | .real x :: rest, _ => .ok ⟨.real x, rest, Nat.lt_succ_self _⟩
  | .quantity x unit :: rest, _ => .ok ⟨.quantity x unit, rest, Nat.lt_succ_self _⟩
  | .text s :: rest, _ => .ok ⟨.text s, rest, Nat.lt_succ_self _⟩
  | .identifier name :: .leftParen :: rest, h => do
    let args ← listInParens nested rest (Nat.lt_of_succ_lt (Nat.lt_of_succ_lt_succ h))
    return ⟨.call name args.value, args.rest, Nat.lt_succ_of_lt (Nat.lt_succ_of_lt args.fewer)⟩
  | .identifier name :: rest, _ => .ok ⟨.var name, rest, Nat.lt_succ_self _⟩
  | .leftParen :: rest, h => do
    let inner ← nested rest (Nat.lt_of_succ_lt_succ h)
    let close ← expect .rightParen inner.rest
    return ⟨inner.value, close.rest, Nat.lt_succ_of_lt (Nat.lt_trans close.fewer inner.fewer)⟩
  | ts, _ => .error (.unexpectedToken .expression ts.head?)

def unary (nested : Reader Expr n) : Reader Expr (n + 1)
  | [], h => primary nested [] h
  | t :: rest, h =>
    match t.unaryOp? with
    | some op => do
      let operand ← unary nested rest (Nat.lt_of_succ_lt h)
      return ⟨.unary op operand.value, operand.rest, Nat.lt_succ_of_lt operand.fewer⟩
    | none => primary nested (t :: rest) h

/-- Goes on from a first operand as long as an accepted operator follows, grouping to the left. -/
def foldLeft (operand : Reader Expr n) (accepts : BinaryOp → Bool) (left : Expr) (ts : List Token)
    (h : ts.length < n) : Except ParseError (Parsed Expr (ts.length + 1)) :=
  match ts, h with
  | [], _ => .ok ⟨left, [], Nat.lt_succ_self _⟩
  | t :: rest, h =>
    match t.binaryOp?.filter accepts with
    | none => .ok ⟨left, t :: rest, Nat.lt_succ_self _⟩
    | some op => do
      let right ← operand rest (Nat.lt_of_succ_lt h)
      let result ← foldLeft operand accepts (.binary op left right.value) right.rest
        (Nat.lt_trans right.fewer (Nat.lt_of_succ_lt h))
      return ⟨result.value, result.rest,
        Nat.lt_of_lt_of_le result.fewer (Nat.le_succ_of_le (Nat.le_succ_of_le right.fewer))⟩
termination_by ts.length
decreasing_by exact Nat.lt_succ_of_lt right.fewer

/-- Operands of one level joined by its operators. The first operand may be of a level of its own. -/
def leftAssociative (first operand : Reader Expr n) (accepts : BinaryOp → Bool) : Reader Expr n :=
  fun ts h => do
    let left ← first ts h
    let result ← foldLeft operand accepts left.value left.rest (Nat.lt_trans left.fewer h)
    return ⟨result.value, result.rest, Nat.lt_of_lt_of_le result.fewer left.fewer⟩

def multiplicative (nested : Reader Expr n) : Reader Expr (n + 1) :=
  leftAssociative (unary nested) (unary nested) BinaryOp.isMultiplicative

def additive (nested : Reader Expr n) : Reader Expr (n + 1) :=
  leftAssociative (multiplicative nested) (multiplicative nested) BinaryOp.isAdditive

/-- The conversions that follow an expression. -/
def conversions (operand : Expr) (ts : List Token) :
    Except ParseError (Parsed Expr (ts.length + 1)) :=
  match ts with
  | .keywordTo :: .unit symbol :: rest => do
    let result ← conversions (.convert operand symbol) rest
    return ⟨result.value, result.rest, Nat.lt_succ_of_lt (Nat.lt_succ_of_lt result.fewer)⟩
  | .keywordTo :: rest => .error (.expectedUnit rest.head?)
  | ts => .ok ⟨operand, ts, Nat.lt_succ_self _⟩

def conversion (nested : Reader Expr n) : Reader Expr (n + 1) := fun ts h => do
  let operand ← additive nested ts h
  let result ← conversions operand.value operand.rest
  return ⟨result.value, result.rest, Nat.lt_of_lt_of_le result.fewer operand.fewer⟩

/-- Only the first operand of a comparison can be a conversion. -/
def comparison (nested : Reader Expr n) : Reader Expr (n + 1) :=
  leftAssociative (conversion nested) (additive nested) BinaryOp.compares

def colon : (ts : List Token) → Except ParseError (Parsed Unit ts.length)
  | .sign .colon :: rest => .ok ⟨(), rest, Nat.lt_succ_self _⟩
  | ts => .error (.expectedColon ts.head?)

def conditional (nested : Reader Expr n) : Reader Expr (n + 1) := fun ts h => do
  let ⟨condition, rest, fewer⟩ ← comparison nested ts h
  match rest, fewer with
  | .sign .question :: rest, fewer =>
    have fewer : rest.length < ts.length := Nat.lt_of_succ_lt fewer
    have shorter : rest.length < n := Nat.lt_of_lt_of_le fewer (Nat.le_of_lt_succ h)
    let onTrue ← nested rest shorter
    let between ← colon onTrue.rest
    let onFalse ← nested between.rest
      (Nat.lt_trans between.fewer (Nat.lt_trans onTrue.fewer shorter))
    return ⟨.ternary condition onTrue.value onFalse.value, onFalse.rest,
      Nat.lt_trans onFalse.fewer (Nat.lt_trans between.fewer (Nat.lt_trans onTrue.fewer fewer))⟩
  | rest, fewer => return ⟨condition, rest, fewer⟩

/-- An expression, with all expressions nested in it. -/
def expression (ts : List Token) : Except ParseError (Parsed Expr ts.length) :=
  conditional (fun shorter _ => expression shorter) ts (Nat.lt_succ_self _)
termination_by ts.length

def assignment (ts : List Token) : Except ParseError (Parsed Expr ts.length) := do
  let ⟨target, rest, fewer⟩ ← expression ts
  match rest, fewer with
  | .assign :: rest, fewer =>
    have fewer : rest.length < ts.length := Nat.lt_of_succ_lt fewer
    let value ← assignment rest
    return ⟨.assign target value.value, value.rest, Nat.lt_trans value.fewer fewer⟩
  | rest, fewer => return ⟨target, rest, fewer⟩
termination_by ts.length

/-- A function declaration, read after its keyword. -/
def declaration (ts : List Token) : Except ParseError (Parsed Expr ts.length) := do
  let name ← identifier ts (Nat.lt_succ_self _)
  let opening ← expect .leftParen name.rest
  let params ← listInParens identifier opening.rest (Nat.lt_succ_self _)
  let equals ← expect .assign params.rest
  let body ← expression equals.rest
  return ⟨.declare name.value params.value body.value, body.rest,
    Nat.lt_trans body.fewer (Nat.lt_trans equals.fewer (Nat.lt_trans params.fewer
      (Nat.lt_trans opening.fewer name.fewer)))⟩

def statement : (ts : List Token) → Except ParseError (Parsed Expr ts.length)
  | .keywordFn :: rest => do
    let result ← declaration rest
    return ⟨result.value, result.rest, Nat.lt_succ_of_lt result.fewer⟩
  | ts => assignment ts

end Grammar

/-- Reads one statement, which the end-of-input token must follow. Tokens after that are not looked
at. -/
def Expr.parse (ts : List Token) : Except ParseError Expr := do
  let result ← Grammar.statement ts
  match result.rest with
  | .endOfInput :: _ => return result.value
  | found :: _ => throw (.trailingTokens found)
  | [] => throw .unexpectedEnd

end UnitCalc
