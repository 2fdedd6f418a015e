/-!
# Exact values of binary64 numbers

A binary64 number is a sign, a whole mantissa and a power of two, an infinity, or no number at all.
Everything the calculator decides about a real number (is it whole, how often does it repeat a text,
which digits show it) is decided here on naturals and integers, never by rounded operations.
-/

namespace UnitCalc

/-- The exact meaning of a binary64 number: a finite one is `± mantissa · 2 ^ exponent`. -/
inductive Exact where
  | nan
  | infinite (negative : Bool)
  | finite (negative : Bool) (mantissa : Nat) (exponent : Int)
deriving DecidableEq

namespace Exact

/-- Reads the sign bit, the eleven exponent bits and the fifty-two fraction bits. Numbers with no
exponent bit set share the least exponent and have no hidden leading bit. -/
def ofBits (bits : Nat) : Exact :=
  let negative := decide (1 <<< 63 ≤ bits)
  let biased : Nat := bits / (1 <<< 52) % (1 <<< 11)
  let fraction : Nat := bits % (1 <<< 52)
  if biased = (1 <<< 11) - 1 then
    if fraction = 0 then infinite negative else nan
  else if biased = 0 then finite negative fraction (-1074)
  else finite negative ((1 <<< 52) + fraction) ((biased : Int) - 1075)

def ofFloat (x : Float) : Exact := ofBits x.toBits.toNat

/-- The whole part of `mantissa · 2 ^ exponent`. -/
def wholePart (mantissa : Nat) (exponent : Int) : Nat :=
  mantissa <<< exponent.toNat >>> (-exponent).toNat

/-- Nothing is left of `mantissa · 2 ^ exponent` after its whole part. -/
def IsWhole (mantissa : Nat) (exponent : Int) : Prop :=
  mantissa % (1 <<< (-exponent).toNat) = 0

instance (mantissa : Nat) (exponent : Int) : Decidable (IsWhole mantissa exponent) :=
  inferInstanceAs (Decidable (_ = _))

def isFinite : Exact → Bool
  | finite .. => true
  | infinite _ | nan => false

/-- Something other than zero is left after the whole part. Of an infinity no number is left. -/
def hasFraction : Exact → Bool
  | finite _ mantissa exponent => !decide (IsWhole mantissa exponent)
  | infinite _ | nan => true

/-- The magnitude is greater than `limit`. -/
def exceeds (limit : Nat) : Exact → Bool
  | finite _ mantissa exponent => decide (limit <<< (-exponent).toNat < mantissa <<< exponent.toNat)
  | infinite _ => true
  | nan => false

/-- The whole part as a 64-bit integer. Beyond their range it is the integer nearest to it, and zero for
what is no number. -/
def truncated : Exact → Int64
  | finite false mantissa exponent => Int64.ofIntClamp (wholePart mantissa exponent)
  | finite true mantissa exponent => Int64.ofIntClamp (-wholePart mantissa exponent)
  | infinite false => Int64.maxValue
  | infinite true => Int64.minValue
  | nan => 0

end Exact

end UnitCalc
