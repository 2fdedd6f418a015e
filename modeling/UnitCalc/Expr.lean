import UnitCalc.Operator

/-!
# Expressions

Statements are expressions too: assignments and function declarations have a value. The type allows them
anywhere, although the grammar only puts them at the top of a statement.
-/

namespace UnitCalc

inductive Expr where
  | integer (n : Int64)
  | real (x : Float)
  | quantity (amount : Float) (unit : String)
  | text (s : String)
  | var (name : String)
  | unary (op : UnaryOp) (operand : Expr)
  | binary (op : BinaryOp) (left right : Expr)
  | assign (target value : Expr)
  | ternary (condition onTrue onFalse : Expr)
  | declare (name : String) (params : List String) (body : Expr)
  | call (name : String) (args : List Expr)
  | convert (operand : Expr) (unit : String)

/-- Induction on expressions. The arguments of a call are parts of it as operands are. -/
@[induction_eliminator, elab_as_elim]
theorem Expr.induct {motive : Expr → Prop}
    (integer : ∀ n, motive (.integer n))
    (real : ∀ x, motive (.real x))
    (quantity : ∀ amount unit, motive (.quantity amount unit))
    (text : ∀ s, motive (.text s))
    (var : ∀ name, motive (.var name))
    (unary : ∀ op operand, motive operand → motive (.unary op operand))
    (binary : ∀ op left right, motive left → motive right → motive (.binary op left right))
    (assign : ∀ target value, motive target → motive value → motive (.assign target value))
    (ternary : ∀ condition onTrue onFalse, motive condition → motive onTrue → motive onFalse →
      motive (.ternary condition onTrue onFalse))
    (declare : ∀ name params body, motive body → motive (.declare name params body))
    (call : ∀ name args, (∀ arg ∈ args, motive arg) → motive (.call name args))
    (convert : ∀ operand unit, motive operand → motive (.convert operand unit)) (e : Expr) :
    motive e := by
  refine Expr.rec integer real quantity text var unary binary assign ternary declare call convert
    ?_ ?_ e
  · exact fun _ h => nomatch h
  · intro head tail hhead htail arg harg
    cases harg with
    | head => exact hhead
    | tail _ harg => exact htail arg harg

end UnitCalc
