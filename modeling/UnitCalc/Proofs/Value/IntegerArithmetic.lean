import Mathlib
import UnitCalc.Proofs.Number.Nearest
import UnitCalc.Proofs.Number.Whole
import UnitCalc.Value.Comparison

/-!
# Arithmetic on integers is exact

Integers are added, subtracted and multiplied as binary64 numbers, and nothing checks
for overflow. Still no sum, difference or product of integers of the exact range comes
out as a wrong integer: in the range it is exact, and beyond it the result is too large
to be taken for an integer again.
-/

namespace UnitCalc

open Binary64 (Nearest)

namespace Number

variable {x : Float} {z : Int} {p : Extended}

theorem integer?_of_within (hx : (Exact.ofFloat x).value? = some p) (hp : Nearest z p)
    (h : |z| ≤ 2 ^ 53 - 1) : integer? x = some (Int64.ofInt z) := by
  have hlimit := Binary64.natAbs_le_exactLimit_iff.mpr h
  rw [integer?_eq_some_iff, toInt_ofInt hlimit, hx, hp.eq_intCast (by omega)]
  exact ⟨rfl, hlimit⟩

/-- A whole number beyond the range is not rounded into it: it does not pass `2 ^ 53`. -/
theorem integer?_of_beyond (hx : (Exact.ofFloat x).value? = some p) (hp : Nearest z p)
    (h : 2 ^ 53 - 1 < |z|) : integer? x = none := by
  rw [Option.eq_none_iff_forall_ne_some]
  intro n hn
  obtain ⟨hvalue, hlimit⟩ := integer?_eq_some_iff.mp hn
  rw [Binary64.natAbs_le_exactLimit_iff] at hlimit
  rw [hx, Option.some.injEq] at hvalue
  cases hp with
  | top => cases hvalue
  | bottom => cases hvalue
  | rational hfaithful =>
      cases Extended.strictMono_ofRat.injective hvalue
      have hlarge : (2 ^ 53 : Int) ≤ |z| := by omega
      have hkept : (2 ^ 53 : Int) ≤ |n.toInt| := by
        exact_mod_cast hfaithful.two_pow_le_abs (by exact_mod_cast hlarge)
      omega

end Number

/-- What an operator makes of two whole numbers, for the operators that make a whole
number of any two. -/
def BinaryOp.onIntegers? : BinaryOp → Option (Int → Int → Int)
  | .add => some fun a b => a + b
  | .sub => some fun a b => a - b
  | .mul => some fun a b => a * b
  | _ => none

namespace Value

theorem binary_integers {op : BinaryOp} {f : Int → Int → Int} (hop : op.onIntegers? = some f)
    {a b : Int64} (ha : |a.toInt| ≤ 2 ^ 53 - 1) (hb : |b.toInt| ≤ 2 ^ 53 - 1) :
    ∃ x p, (integer a).binary op (integer b) = .ok (ofNumber x) ∧
      (Exact.ofFloat x).value? = some p ∧ Nearest (f a.toInt b.toInt) p := by
  have hx := Number.value?_ofInteger (Binary64.natAbs_le_exactLimit_iff.mpr ha)
  have hy := Number.value?_ofInteger (Binary64.natAbs_le_exactLimit_iff.mpr hb)
  cases op with
  | add =>
      cases hop
      obtain ⟨p, hp, hnearest⟩ := Binary64.nearest_add hx hy
      exact ⟨_, p, rfl, hp, by exact_mod_cast hnearest⟩
  | sub =>
      cases hop
      obtain ⟨p, hp, hnearest⟩ := Binary64.nearest_sub hx hy
      exact ⟨_, p, rfl, hp, by exact_mod_cast hnearest⟩
  | mul =>
      cases hop
      obtain ⟨p, hp, hnearest⟩ := Binary64.nearest_mul hx hy
      exact ⟨_, p, rfl, hp, by exact_mod_cast hnearest⟩
  | _ => cases hop

/-- **Integer arithmetic never yields a wrong integer.** Of integers in the exact range, a
sum, difference or product that is in the range is the exact integer, and one that is
not is a real number. -/
theorem integer_arithmetic_exact {op : BinaryOp} {f : Int → Int → Int}
    (hop : op.onIntegers? = some f) {a b : Int64} (ha : |a.toInt| ≤ 2 ^ 53 - 1)
    (hb : |b.toInt| ≤ 2 ^ 53 - 1) :
    (|f a.toInt b.toInt| ≤ 2 ^ 53 - 1 →
      ∃ n : Int64, n.toInt = f a.toInt b.toInt ∧
        (integer a).binary op (integer b) = .ok (integer n)) ∧
    (2 ^ 53 - 1 < |f a.toInt b.toInt| →
      ∃ x, (integer a).binary op (integer b) = .ok (real x)) := by
  obtain ⟨x, p, hbinary, hp, hnearest⟩ := binary_integers hop ha hb
  rw [hbinary]
  constructor
  · intro hwithin
    refine ⟨Int64.ofInt (f a.toInt b.toInt), ?_, ?_⟩
    · exact Number.toInt_ofInt (Binary64.natAbs_le_exactLimit_iff.mpr hwithin)
    · rw [ofNumber, Number.integer?_of_within hp hnearest hwithin]
  · intro hbeyond
    exact ⟨x, by rw [ofNumber, Number.integer?_of_beyond hp hnearest hbeyond]⟩

/-- The greatest integer of the range less itself, and twice it. -/
theorem integer_arithmetic_exact_at_limit :
    let a : Int64 := 9007199254740991
    BinaryOp.sub.onIntegers? = some (fun a b => a - b) ∧
      BinaryOp.mul.onIntegers? = some (fun a b => a * b) ∧ |a.toInt| ≤ 2 ^ 53 - 1 ∧
      (∃ n : Int64, n.toInt = 0 ∧ (integer a).binary .sub (integer a) = .ok (integer n)) ∧
      ∃ x, (integer a).binary .mul (integer a) = .ok (real x) := by
  intro a
  have value : a.toInt = 9007199254740991 := rfl
  have range : |a.toInt| ≤ 2 ^ 53 - 1 := by norm_num [value]
  have minus : BinaryOp.sub.onIntegers? = some (fun a b => a - b) := rfl
  have star : BinaryOp.mul.onIntegers? = some (fun a b => a * b) := rfl
  have difference := (integer_arithmetic_exact minus range range).1 (by norm_num)
  have product := (integer_arithmetic_exact star range range).2 (by norm_num [value])
  rw [sub_self] at difference
  exact ⟨minus, star, range, difference, product⟩

end Value

end UnitCalc
