import UnitCalc.Number.Exact

/-!
# Whole numbers among the reals

Integers are 64-bit words and reals are binary64 numbers. The two meet on the integers of magnitude at
most `2 ^ 53 - 1`, where the passage from one to the other loses nothing.
-/

namespace UnitCalc.Number

/-- The greatest magnitude up to which every integer is a binary64 number of its own. -/
def exactLimit : Nat := (1 <<< 53) - 1

/-- The exact range lies within 64 bits. -/
theorem toInt_ofInt {z : Int} (h : z.natAbs ≤ exactLimit) : (Int64.ofInt z).toInt = z := by
  have hlimit : exactLimit = 9007199254740991 := rfl
  exact Int64.toInt_ofInt_of_le (by omega) (by omega)

/-- A natural number as a 64-bit integer, when it is one. -/
def word? (n : Nat) : Option Int64 :=
  if n < 1 <<< 63 then some (Int64.ofNat n) else none

/-- The binary64 number nearest to an integer. -/
def ofInteger (n : Int64) : Float := Float.ofInt n.toInt

/-- The binary64 number equal to an integer, for integers within the exact range. -/
def exactOfInteger? (n : Int64) : Option Float :=
  if n.toInt.natAbs ≤ exactLimit then some (ofInteger n) else none

/-- The integer equal to a binary64 number, when there is one within the exact range. -/
def integer? (x : Float) : Option Int64 :=
  let value := Exact.ofFloat x
  if !value.isFinite || value.hasFraction || value.exceeds exactLimit then none
  else some value.truncated

/-- The greatest count, of 64 bits. -/
def countLimit : Nat := (1 <<< 64) - 1

/-- The product of two counts, when it is one. -/
def countProduct? (a b : Nat) : Option Nat :=
  if a * b ≤ countLimit then some (a * b) else none

/-- How often a number asks a text to be repeated: its whole part, or the greatest count if that is beyond
it, and not at all when it is negative, infinite or no number. -/
def repetitions (x : Float) : Nat :=
  match Exact.ofFloat x with
  | .finite false mantissa exponent => min (Exact.wholePart mantissa exponent) countLimit
  | _ => 0

/-- The order of two binary64 numbers; none when one of them is no number. -/
def order? (x y : Float) : Option Ordering :=
  if x < y then some .lt
  else if x == y then some .eq
  else if y < x then some .gt
  else none

end UnitCalc.Number
