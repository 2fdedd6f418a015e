import Mathlib
import UnitCalc.Proofs.Number.Whole
import UnitCalc.Proofs.Value.Results

/-!
# Integers in the exact range

Where integers come from: an operator makes one by arithmetic on numbers without
unit, which keeps to the exact range, or by negation, under which the range is
closed. Of the builtin functions only `length` makes any.
-/

namespace UnitCalc

/-- The integer is also a binary64 number, and so are all of smaller magnitude. -/
def IsExact (n : Int64) : Prop := n.toInt.natAbs ≤ Number.exactLimit

/-- If the value is an integer, it is in the exact range. -/
def Value.Exact : Value → Prop
  | .integer n => IsExact n
  | _ => True

/-- A result that is in the exact range if it is an integer. -/
abbrev InRange (r : Except EvalError Value) : Prop := Fits Value.Exact (fun _ => True) r

theorem isExact_ofInt {n : Int} (h : n.natAbs ≤ Number.exactLimit) : IsExact (Int64.ofInt n) := by
  rw [IsExact, Number.toInt_ofInt h]
  exact h

theorem isExact_ofNat {n : Nat} (h : n ≤ Number.exactLimit) : IsExact (Int64.ofNat n) := by
  rw [← Int64.ofInt_eq_ofNat]
  exact isExact_ofInt h

theorem isExact_neg {n : Int64} (h : IsExact n) : IsExact (-n) := by
  rw [IsExact] at h
  have hneg : -n = Int64.ofInt (-n.toInt) := by
    rw [Int64.ofInt_neg, Int64.ofInt_toInt]
  rw [hneg]
  refine isExact_ofInt ?_
  rw [Int.natAbs_neg]
  exact h

theorem Number.isExact_of_integer? {x : Float} {n : Int64} (h : Number.integer? x = some n) :
    IsExact n :=
  (Number.integer?_eq_some_iff.mp h).2

namespace Value

theorem exact_ofNumber (x : Float) : (ofNumber x).Exact := by
  unfold ofNumber
  split
  · next h => exact Number.isExact_of_integer? h
  · trivial

theorem admitsPlain_exact : AdmitsPlain Exact fun _ => True where
  number := exact_ofNumber
  real _ := trivial
  text _ := trivial
  truth _ := trivial
  raised _ := trivial

theorem inRange_unary (op : UnaryOp) {v : Value} (hv : v.Exact) : InRange (v.unary op) := by
  unfold unary
  split
  · split
    · trivial
    · exact isExact_neg hv
  all_goals trivial

theorem inRange_convertTo (unit : String) (v : Value) : InRange (v.convertTo unit) := by
  cases v with
  | integer | real | quantity => exact fits_map (fun _ _ => trivial) fun _ => trivial
  | _ => trivial

/-- Whatever the operands are, an integer that an operator makes is in the range. -/
theorem inRange_binary (op : BinaryOp) (left right : Value) : InRange (left.binary op right) := by
  refine admitsPlain_exact.binary op (fun _ _ => trivial) ?_
  exact admitsPlain_exact.measured op (fun _ _ => trivial) (fun _ _ _ => trivial)
    fun _ _ _ => trivial

end Value

theorem Builtin.inRange_apply {b : Builtin} (hb : b ≠ .length) (vs : List Value) :
    InRange (b.apply vs) :=
  Value.admitsPlain_exact.apply (fun h => absurd h hb) vs

end UnitCalc
