import Mathlib
import UnitCalc.Proofs.Number.Order

/-!
# Whole numbers among the binary64 numbers

A binary64 number is whole if the bits of its mantissa below the unit are zero, and its
whole part is what shifting leaves of the mantissa. That is integrality and the floor of the
rational number that is meant, and shifting compares its magnitude with a limit. So an
integer is found exactly where there is one.
-/

namespace UnitCalc

namespace Exact

theorem scaled_natCast (mantissa k : Nat) :
    (mantissa * 2 ^ (k : Int) : ℚ) = (mantissa * 2 ^ k : ℕ) := by
  push_cast
  rw [zpow_natCast]

theorem scaled_neg_natCast (mantissa k : Nat) :
    (mantissa * 2 ^ (-(k : Int)) : ℚ) = mantissa / (2 ^ k : ℕ) := by
  push_cast
  rw [zpow_neg, zpow_natCast, div_eq_mul_inv]

theorem wholePart_eq_floor (mantissa : Nat) (exponent : Int) :
    wholePart mantissa exponent = ⌊(mantissa * 2 ^ exponent : ℚ)⌋.toNat := by
  rw [Int.floor_toNat, wholePart]
  rcases Int.le_total 0 exponent with h | h
  · obtain ⟨k, rfl⟩ := Int.eq_ofNat_of_zero_le h
    have hdown : (-(k : Int)).toNat = 0 := by omega
    rw [scaled_natCast, Nat.floor_natCast, Int.toNat_natCast, hdown, Nat.shiftRight_zero,
      Nat.shiftLeft_eq]
  · obtain ⟨k, hk⟩ := Int.eq_ofNat_of_zero_le (Int.neg_nonneg.mpr h)
    obtain rfl : exponent = -(k : Int) := by omega
    have hup : (-(k : Int)).toNat = 0 := by omega
    rw [scaled_neg_natCast, Nat.floor_div_eq_div, neg_neg, Int.toNat_natCast, hup,
      Nat.shiftLeft_zero, Nat.shiftRight_eq_div_pow]

theorem isWhole_iff (mantissa : Nat) (exponent : Int) :
    IsWhole mantissa exponent ↔ ∃ n : ℕ, (mantissa * 2 ^ exponent : ℚ) = n := by
  rw [IsWhole, Nat.one_shiftLeft, ← Nat.dvd_iff_mod_eq_zero]
  rcases Int.le_total 0 exponent with h | h
  · obtain ⟨k, rfl⟩ := Int.eq_ofNat_of_zero_le h
    have hdown : (-(k : Int)).toNat = 0 := by omega
    rw [hdown, pow_zero]
    exact iff_of_true (one_dvd mantissa) ⟨_, scaled_natCast mantissa k⟩
  · obtain ⟨k, hk⟩ := Int.eq_ofNat_of_zero_le (Int.neg_nonneg.mpr h)
    obtain rfl : exponent = -(k : Int) := by omega
    have hpos : ((2 ^ k : ℕ) : ℚ) ≠ 0 := by positivity
    simp only [neg_neg, Int.toNat_natCast, scaled_neg_natCast, div_eq_iff hpos]
    constructor
    · rintro ⟨n, rfl⟩
      exact ⟨n, by push_cast; ring⟩
    · rintro ⟨n, hn⟩
      exact ⟨n, by rw [mul_comm]; exact_mod_cast hn⟩

theorem wholePart_of_eq {mantissa n : Nat} {exponent : Int}
    (h : (mantissa * 2 ^ exponent : ℚ) = n) : wholePart mantissa exponent = n := by
  rw [wholePart_eq_floor, h, Int.floor_natCast, Int.toNat_natCast]

theorem hasFraction_iff (negative : Bool) (mantissa : Nat) (exponent : Int) :
    (finite negative mantissa exponent).hasFraction = false ↔
      ∃ n : ℕ, (mantissa * 2 ^ exponent : ℚ) = n := by
  rw [hasFraction, Bool.not_eq_false_eq_eq_true, decide_eq_true_eq, isWhole_iff]

theorem exceeds_iff (limit : Nat) (negative : Bool) (mantissa : Nat) (exponent : Int) :
    (finite negative mantissa exponent).exceeds limit = true ↔
      (limit : ℚ) < mantissa * 2 ^ exponent := by
  rw [exceeds, decide_eq_true_eq, Nat.shiftLeft_eq, Nat.shiftLeft_eq]
  rcases Int.le_total 0 exponent with h | h
  · obtain ⟨k, rfl⟩ := Int.eq_ofNat_of_zero_le h
    have hdown : (-(k : Int)).toNat = 0 := by omega
    rw [hdown, Int.toNat_natCast, pow_zero, mul_one, scaled_natCast, Nat.cast_lt]
  · obtain ⟨k, hk⟩ := Int.eq_ofNat_of_zero_le (Int.neg_nonneg.mpr h)
    obtain rfl : exponent = -(k : Int) := by omega
    have hup : (-(k : Int)).toNat = 0 := by omega
    have hpos : (0 : ℚ) < (2 ^ k : ℕ) := by positivity
    rw [neg_neg, hup, Int.toNat_natCast, pow_zero, mul_one, scaled_neg_natCast, lt_div_iff₀ hpos]
    exact_mod_cast Iff.rfl

theorem toInt_truncated {mantissa n : Nat} {exponent : Int} (negative : Bool)
    (h : (mantissa * 2 ^ exponent : ℚ) = n) (hn : n ≤ Number.exactLimit) :
    (finite negative mantissa exponent).truncated.toInt = if negative then -(n : Int) else n := by
  have hlimit : Number.exactLimit = 9007199254740991 := rfl
  have hleast : Int64.minValue.toInt = -9223372036854775808 := rfl
  have hgreatest : Int64.maxValue.toInt = 9223372036854775807 := rfl
  cases negative with
  | false =>
      rw [truncated, wholePart_of_eq h, Int64.toInt_ofIntClamp (by omega) (by omega)]
      rfl
  | true =>
      rw [truncated, wholePart_of_eq h, Int64.toInt_ofIntClamp (by omega) (by omega)]
      rfl

end Exact

namespace Number

variable {x : Float} {n : Int64}

/-- Where an integer is found, by the parts of the number. -/
theorem exists_parts_of_integer? (h : integer? x = some n) :
    ∃ negative m e, ∃ k : ℕ, Exact.ofFloat x = .finite negative m e ∧ (m * 2 ^ e : ℚ) = k ∧
      k ≤ exactLimit ∧ n.toInt = if negative then -(k : Int) else k := by
  unfold integer? at h
  simp only [Option.ite_none_left_eq_some, Bool.or_eq_true, Bool.not_eq_true', not_or,
    Bool.not_eq_false, Bool.not_eq_true, Option.some.injEq] at h
  obtain ⟨⟨⟨hfinite, hfraction⟩, hexceeds⟩, rfl⟩ := h
  generalize Exact.ofFloat x = value at hfinite hfraction hexceeds
  cases value with
  | nan => cases hfinite
  | infinite negative => cases hfinite
  | finite negative m e =>
      obtain ⟨k, hk⟩ := (Exact.hasFraction_iff negative m e).mp hfraction
      have hlimit : k ≤ exactLimit := by
        rw [Bool.eq_false_iff, Ne, Exact.exceeds_iff, hk, Nat.cast_lt, not_lt] at hexceeds
        exact hexceeds
      exact ⟨negative, m, e, k, rfl, hk, hlimit, Exact.toInt_truncated negative hk hlimit⟩

theorem integer?_of_parts {negative : Bool} {m k : Nat} {e : Int}
    (hparts : Exact.ofFloat x = .finite negative m e) (hk : (m * 2 ^ e : ℚ) = k)
    (hlimit : k ≤ exactLimit) :
    ∃ n, integer? x = some n ∧ n.toInt = if negative then -(k : Int) else k := by
  have hfraction := (Exact.hasFraction_iff negative m e).mpr ⟨k, hk⟩
  have hexceeds : (Exact.finite negative m e).exceeds exactLimit = false := by
    rw [Bool.eq_false_iff, Ne, Exact.exceeds_iff, hk, Nat.cast_lt, not_lt]
    exact hlimit
  refine ⟨_, ?_, Exact.toInt_truncated negative hk hlimit⟩
  unfold integer?
  dsimp only
  rw [hparts, hfraction, hexceeds]
  rfl

/-- **A binary64 number is taken for an integer exactly if it is one within the exact range.** -/
theorem integer?_eq_some_iff :
    integer? x = some n ↔
      (Exact.ofFloat x).value? = some (.ofRat n.toInt) ∧ n.toInt.natAbs ≤ exactLimit := by
  constructor
  · intro h
    obtain ⟨negative, m, e, k, hparts, hk, hlimit, hn⟩ := exists_parts_of_integer? h
    rw [hparts, hn]
    cases negative with
    | false =>
        rw [if_neg Bool.false_ne_true, Exact.value?, hk]
        exact ⟨rfl, by omega⟩
    | true =>
        rw [if_pos rfl, Exact.value?, hk]
        exact ⟨by push_cast; rfl, by omega⟩
  · rintro ⟨hvalue, hlimit⟩
    obtain ⟨negative, m, e, hparts, hv⟩ := Exact.exists_parts hvalue
    have hk : (m * 2 ^ e : ℚ) = n.toInt.natAbs := by
      rw [← abs_of_parts hv, Nat.cast_natAbs, Int.cast_abs]
    have hsign : (if negative then -(n.toInt.natAbs : Int) else n.toInt.natAbs) = n.toInt := by
      rw [hk] at hv
      generalize n.toInt.natAbs = k at hv ⊢
      cases negative <;> exact_mod_cast hv.symm
    obtain ⟨n', hfound, hn'⟩ := integer?_of_parts hparts hk hlimit
    rw [hfound, Int64.toInt_inj.mp (hn'.trans hsign)]

end Number

end UnitCalc
