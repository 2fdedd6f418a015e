import UnitCalc.Proofs.Value.Registered

/-!
# The unit of an arithmetic result

An arithmetic expression is made of numbers and quantities with signs, sums, products,
quotients and conversions. Its operators choose between numbers without unit,
quantities and texts at every step, each by its own two operands. Over a whole
expression that comes to this: the result is in the first unit that is met when the
leaves are read from left to right, and nothing can fail but a division by zero.
-/

namespace UnitCalc

/-! ## Operators on numbers -/

/-- A number, or a quantity in a registered unit. -/
inductive Value.Numeric : Value → Prop
  | integer (n : Int64) : Numeric (.integer n)
  | real (x : Float) : Numeric (.real x)
  | quantity (x : Float) {unit : String} (h : Measure.isSymbol unit = true) :
      Numeric (.quantity x unit)

namespace Value

variable {op : BinaryOp} {v left right : Value} {unit : String} {a b : Float}

/-- The divisor is zero in the unit of the quotient, if that has one. -/
def ZeroDivisor (left right : Value) : Prop :=
  ∃ b, right.measuredIn ((left.unit?.or right.unit?).getD Measure.standard.symbol) = .ok b ∧
    (b == 0) = true

theorem numeric_ofNumber (x : Float) : (ofNumber x).Numeric ∧ (ofNumber x).unit? = none := by
  unfold ofNumber
  split
  · exact ⟨.integer _, rfl⟩
  · exact ⟨.real _, rfl⟩

theorem measuredIn_of_plainNumber? (h : v.plainNumber? = some b) (unit : String) :
    v.measuredIn unit = .ok b := by
  cases v with
  | integer | real =>
      cases h
      rfl
  | _ => cases h

namespace Numeric

theorem plainNumber? (h : v.Numeric) (hunit : v.unit? = none) : ∃ x, v.plainNumber? = some x := by
  cases h with
  | integer n => exact ⟨_, rfl⟩
  | real x => exact ⟨x, rfl⟩
  | quantity x h => cases hunit

theorem registered (h : v.Numeric) : v.Registered := by
  cases h with
  | integer | real => trivial
  | quantity x h => exact h

theorem measuredIn (h : v.Numeric) (hunit : Measure.isSymbol unit = true) :
    ∃ x, v.measuredIn unit = .ok x := by
  cases h with
  | integer n => exact ⟨_, rfl⟩
  | real x => exact ⟨x, rfl⟩
  | quantity x h => exact convertAmount_of_isSymbol h hunit x

theorem unary_negate (h : v.Numeric) :
    ∃ w, v.unary .negate = .ok w ∧ w.Numeric ∧ w.unit? = v.unit? := by
  cases h with
  | integer n =>
      by_cases hleast : n = Int64.minValue
      · exact ⟨.real _, congrArg Except.ok (if_pos hleast), .real _, rfl⟩
      · exact ⟨.integer _, congrArg Except.ok (if_neg hleast), .integer _, rfl⟩
  | real x => exact ⟨_, rfl, .real _, rfl⟩
  | quantity x h => exact ⟨_, rfl, .quantity _ h, rfl⟩

theorem convertTo (h : v.Numeric) (hunit : Measure.isSymbol unit = true) :
    ∃ x, v.convertTo unit = .ok (.quantity x unit) := by
  have converted : ∀ {amount source}, Measure.isSymbol source = true →
      ∃ x, (convertAmount amount source unit).map (Value.quantity · unit) =
        .ok (.quantity x unit) := by
    intro amount source hsource
    obtain ⟨x, hx⟩ := convertAmount_of_isSymbol hsource hunit amount
    exact ⟨x, by rw [hx]; rfl⟩
  cases h with
  | integer | real => exact converted isSymbol_standard
  | quantity x h => exact converted h

end Numeric

theorem scalar_of_plainNumber? (hop : op.compares = false) (hleft : left.plainNumber? = some a)
    (hright : right.plainNumber? = some b) :
    (op = .div ∧ (b == 0) = true ∧ scalar op left right = .error .divisionByZero) ∨
      ∃ v, scalar op left right = .ok v ∧ v.Numeric ∧ v.unit? = none := by
  unfold scalar
  rw [hleft, hright]
  cases op with
  | add | sub | mul => exact .inr ⟨_, rfl, numeric_ofNumber _⟩
  | div =>
      by_cases hb : (b == 0) = true
      · exact .inl ⟨rfl, hb, if_pos hb⟩
      · exact .inr ⟨_, if_neg hb, .real _, rfl⟩
  | _ => cases hop

theorem measured_of_unit? (hop : op.compares = false)
    (hunit : left.unit?.or right.unit? = some unit) (hleft : left.measuredIn unit = .ok a)
    (hright : right.measuredIn unit = .ok b) :
    (op = .div ∧ (b == 0) = true ∧ measured op left right = .error .divisionByZero) ∨
      ∃ x, measured op left right = .ok (.quantity x unit) := by
  unfold measured
  rw [hunit]
  simp only [hleft, hright]
  cases op with
  | add | sub | mul => exact .inr ⟨_, rfl⟩
  | div =>
      by_cases hb : (b == 0) = true
      · exact .inl ⟨rfl, hb, if_pos hb⟩
      · exact .inr ⟨_, if_neg hb⟩
  | _ => cases hop

/-- Past the check for a plain zero divisor, numbers are combined without unit or in
the unit of one of them. -/
theorem arithmetic_of_numeric (hleft : left.Numeric) (hright : right.Numeric)
    (hzero : ¬ (op = .div ∧ right.isPlainZero = true)) :
    arithmetic op left right =
      if left.unit?.or right.unit? = none then scalar op left right
      else measured op left right := by
  rw [arithmetic, if_neg hzero]
  cases hleft <;> cases hright <;> rfl

/-- **One step of arithmetic.** The result is in the unit of the left operand, or of
the right one if the left has none. -/
theorem binary_of_numeric (hop : op.compares = false) (hleft : left.Numeric)
    (hright : right.Numeric) :
    (op = .div ∧ ZeroDivisor left right ∧ left.binary op right = .error .divisionByZero) ∨
      ∃ v, left.binary op right = .ok v ∧ v.Numeric ∧ v.unit? = left.unit?.or right.unit? := by
  have hbinary : left.binary op right = arithmetic op left right := by
    rw [binary, hop]
    rfl
  rw [hbinary]
  by_cases hzero : op = .div ∧ right.isPlainZero = true
  · obtain ⟨b, hb, hb0⟩ := (Option.any_eq_true _ _).mp hzero.2
    exact .inl ⟨hzero.1, ⟨b, measuredIn_of_plainNumber? hb _, hb0⟩, if_pos hzero⟩
  rw [arithmetic_of_numeric hleft hright hzero]
  cases hunit : left.unit?.or right.unit? with
  | none =>
      obtain ⟨hl, hr⟩ := Option.or_eq_none_iff.mp hunit
      obtain ⟨a, ha⟩ := hleft.plainNumber? hl
      obtain ⟨b, hb⟩ := hright.plainNumber? hr
      rw [if_pos rfl]
      rcases scalar_of_plainNumber? hop ha hb with ⟨hdiv, hb0, herror⟩ | hvalue
      · exact .inl ⟨hdiv, ⟨b, measuredIn_of_plainNumber? hb _, hb0⟩, herror⟩
      · exact .inr hvalue
  | some unit =>
      have hregistered : Measure.isSymbol unit = true :=
        isSymbol_of_or_unit? hleft.registered hright.registered hunit
      obtain ⟨a, ha⟩ := hleft.measuredIn hregistered
      obtain ⟨b, hb⟩ := hright.measuredIn hregistered
      rw [if_neg (Option.some_ne_none unit)]
      rcases measured_of_unit? hop hunit ha hb with ⟨hdiv, hb0, herror⟩ | ⟨x, hx⟩
      · exact .inl ⟨hdiv, ⟨b, by rw [hunit]; exact hb, hb0⟩, herror⟩
      · exact .inr ⟨_, hx, .quantity x hregistered, rfl⟩

end Value

/-! ## Whole expressions -/

namespace Expr

/-- Numbers, quantities and numeric variables under signs, arithmetic operators and
conversions. All units are registered. -/
inductive Arithmetic (env : Environment) (outer : List Scope) : Expr → Prop
  | integer (n : Int64) : Arithmetic env outer (.integer n)
  | real (x : Float) : Arithmetic env outer (.real x)
  | quantity (x : Float) {unit : String} (hunit : Measure.isSymbol unit = true) :
      Arithmetic env outer (.quantity x unit)
  | var {name : String} {v : Value} (h : env.lookup? outer name = some v) (hv : v.Numeric) :
      Arithmetic env outer (.var name)
  | negate {operand : Expr} (h : Arithmetic env outer operand) :
      Arithmetic env outer (.unary .negate operand)
  | binary {op : BinaryOp} {left right : Expr} (hop : op.compares = false)
      (hleft : Arithmetic env outer left) (hright : Arithmetic env outer right) :
      Arithmetic env outer (.binary op left right)
  | convert {operand : Expr} {unit : String} (h : Arithmetic env outer operand)
      (hunit : Measure.isSymbol unit = true) : Arithmetic env outer (.convert operand unit)

/-- What operators are applied to in the end, from left to right. A conversion is not
looked into. -/
def leaves : Expr → List Expr
  | .unary _ operand => leaves operand
  | .binary _ left right => leaves left ++ leaves right
  | e => [e]

/-- The unit that a leaf carries. -/
def carriedUnit? (env : Environment) (outer : List Scope) : Expr → Option String
  | .quantity _ unit => some unit
  | .convert _ unit => some unit
  | .var name => (env.lookup? outer name).bind Value.unit?
  | _ => none

/-- The first unit that is met in reading the leaves. -/
def leadingUnit? (env : Environment) (outer : List Scope) (e : Expr) : Option String :=
  e.leaves.findSome? (carriedUnit? env outer)

/-- The operands of all divisions in an arithmetic expression. -/
def divisions : Expr → List (Expr × Expr)
  | .unary _ operand => divisions operand
  | .binary op left right =>
    divisions left ++ divisions right ++ if op = .div then [(left, right)] else []
  | .convert operand _ => divisions operand
  | _ => []

end Expr

namespace Eval

variable {α β : Type} {x : Eval α} {f : α → Eval β} {m m' : Machine}

theorem bind_of_ok {a : α} (h : x m = .ok a m') : (x >>= f) m = f a m' := by
  show EStateM.bind x f m = _
  rw [EStateM.bind, h]

theorem bind_of_error {e : EvalError} (h : x m = .error e m') : (x >>= f) m = .error e m' := by
  show EStateM.bind x f m = _
  rw [EStateM.bind, h]

theorem lookup_of_some {outer : List Scope} {name : String} {v : Value}
    (h : m.toEnvironment.lookup? outer name = some v) : lookup outer name m = .ok v m := by
  have hget : (get : Eval Machine) m = .ok m m := rfl
  refine (bind_of_ok hget).trans ?_
  simp only [h]
  rfl

end Eval

section

variable {apply : Function → List Value → Eval Value} {outer : List Scope} {m : Machine} {e : Expr}

open Eval

/-- Arithmetic does nothing to the environment. It fails where the divisor of one of
its divisions is zero, and otherwise has a number in the leading unit for its result. -/
theorem evalWith_arithmetic (h : e.Arithmetic m.toEnvironment outer) :
    (evalWith apply outer e m = .error .divisionByZero m ∧
      ∃ d ∈ e.divisions, ∃ a b, evalWith apply outer d.1 m = .ok a m ∧
        evalWith apply outer d.2 m = .ok b m ∧ Value.ZeroDivisor a b) ∨
    ∃ v, evalWith apply outer e m = .ok v m ∧ v.Numeric ∧
      v.unit? = e.leadingUnit? m.toEnvironment outer := by
  induction h with
  | integer n => exact .inr ⟨_, by rw [evalWith]; rfl, .integer n, rfl⟩
  | real x => exact .inr ⟨_, by rw [evalWith]; rfl, .real x, rfl⟩
  | quantity x hunit => exact .inr ⟨_, by rw [evalWith]; rfl, .quantity x hunit, rfl⟩
  | @var name v h hv =>
      refine .inr ⟨v, by rw [evalWith, lookup_of_some h], hv, ?_⟩
      simp [Expr.leadingUnit?, Expr.leaves, Expr.carriedUnit?, h]
  | negate h ih =>
      rw [evalWith]
      rcases ih with ⟨herror, hdivision⟩ | ⟨v, hvalue, hnumeric, hunit⟩
      · exact .inl ⟨bind_of_error herror, hdivision⟩
      · obtain ⟨w, hw, hnumeric', hunit'⟩ := hnumeric.unary_negate
        refine .inr ⟨w, ?_, hnumeric', hunit'.trans hunit⟩
        rw [bind_of_ok hvalue, hw]
        rfl
  | @binary op left right hop _ _ ihl ihr =>
      have hleading : (Expr.binary op left right).leadingUnit? m.toEnvironment outer =
          (left.leadingUnit? m.toEnvironment outer).or
            (right.leadingUnit? m.toEnvironment outer) :=
        List.findSome?_append
      rw [evalWith, hleading]
      -- the operands are evaluated from left to right
      rcases ihl with ⟨herror, d, hd, hzero⟩ | ⟨l, hl, hleft, hunitl⟩
      · refine .inl ⟨bind_of_error herror, d, ?_, hzero⟩
        exact List.mem_append_left _ (List.mem_append_left _ hd)
      rw [bind_of_ok hl]
      rcases ihr with ⟨herror, d, hd, hzero⟩ | ⟨r, hr, hright, hunitr⟩
      · refine .inl ⟨bind_of_error herror, d, ?_, hzero⟩
        exact List.mem_append_left _ (List.mem_append_right _ hd)
      rw [bind_of_ok hr, ← hunitl, ← hunitr]
      rcases Value.binary_of_numeric hop hleft hright with ⟨rfl, hzero, herror⟩ | ⟨v, hv, hresult⟩
      · rw [herror]
        refine .inl ⟨rfl, (left, right), ?_, l, r, hl, hr, hzero⟩
        exact List.mem_append_right _ List.mem_cons_self
      · rw [hv]
        exact .inr ⟨v, rfl, hresult⟩
  | @convert operand unit h hunit ih =>
      rw [evalWith]
      rcases ih with ⟨herror, hdivision⟩ | ⟨v, hvalue, hnumeric, -⟩
      · exact .inl ⟨bind_of_error herror, hdivision⟩
      · obtain ⟨x, hx⟩ := hnumeric.convertTo hunit
        refine .inr ⟨_, ?_, .quantity x hunit, rfl⟩
        rw [bind_of_ok hvalue, hx]
        rfl

/-- **The unit of an arithmetic result is that of the first leaf that carries one**, and
a division by zero is all that can fail. -/
theorem eval_leadingUnit (limit : Nat) (h : e.Arithmetic m.toEnvironment outer) :
    (eval limit outer e m = .error .divisionByZero m ∧
      ∃ d ∈ e.divisions, ∃ a b, eval limit outer d.1 m = .ok a m ∧
        eval limit outer d.2 m = .ok b m ∧ Value.ZeroDivisor a b) ∨
    ∃ v, eval limit outer e m = .ok v m ∧
      (∀ unit, (∃ x, v = .quantity x unit) ↔
        e.leaves.findSome? (Expr.carriedUnit? m.toEnvironment outer) = some unit) ∧
      (e.leaves.findSome? (Expr.carriedUnit? m.toEnvironment outer) = none →
        (∃ n, v = .integer n) ∨ ∃ x, v = .real x) := by
  rw [eval_eq]
  refine (evalWith_arithmetic h).imp_right ?_
  rintro ⟨v, hvalue, hnumeric, hunit⟩
  refine ⟨v, hvalue, ?_⟩
  rw [← Expr.leadingUnit?, ← hunit]
  cases hnumeric with
  | integer n => simp [Value.unit?]
  | real x => simp [Value.unit?]
  | quantity x _ => simp [Value.unit?]

/-- In `-(n * d) + (5m to km)` the unit is that of `d`. -/
theorem eval_leadingUnit_of_variable :
    let m : Machine := { scope := ⟨[("d", .quantity 2 "cm")]⟩ }
    let outer : List Scope := [⟨[("n", .integer 3)]⟩]
    let e : Expr := .binary .add (.unary .negate (.binary .mul (.var "n") (.var "d")))
      (.convert (.quantity 5 "m") "km")
    e.Arithmetic m.toEnvironment outer ∧ ∃ x, eval 1 outer e m = .ok (.quantity x "cm") m := by
  intro m outer e
  have number : m.toEnvironment.lookup? outer "n" = some (.integer 3) := rfl
  have distance : m.toEnvironment.lookup? outer "d" = some (.quantity 2 "cm") := rfl
  have arithmetic : e.Arithmetic m.toEnvironment outer :=
    .binary rfl
      (.negate (.binary rfl (.var number (.integer 3)) (.var distance (.quantity 2 (by decide)))))
      (.convert (.quantity 5 (by decide)) (by decide))
  have leading : e.leaves.findSome? (Expr.carriedUnit? m.toEnvironment outer) = some "cm" := rfl
  refine ⟨arithmetic, ?_⟩
  rcases eval_leadingUnit 1 arithmetic with ⟨-, d, hd, -⟩ | ⟨v, hvalue, hunit, -⟩
  · cases hd
  · obtain ⟨x, rfl⟩ := (hunit "cm").mpr leading
    exact ⟨x, hvalue⟩

end

end UnitCalc
