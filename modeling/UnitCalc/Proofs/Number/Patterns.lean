import Mathlib
import UnitCalc.Proofs.Number.Nearest

/-!
# Bit patterns

What sixty-four bits stand for by the definition of the binary64 format: a sign, a fraction
between one and two, and a power of two. The calculator reads a whole mantissa instead,
with a smaller power, and takes all patterns that stand for no number as one.
-/

namespace UnitCalc.Binary64

open Float.Model (Format UnpackedFloat)

/-- The eleven exponent bits, as a number. -/
def exponentField (bits : UInt64) : ℕ := (bits.toBitVec.extractLsb' 52 11).toNat

/-- The fifty-two fraction bits, as a number. -/
def fractionField (bits : UInt64) : ℕ := (bits.toBitVec.extractLsb' 0 52).toNat

def signOf (bits : UInt64) : ℚ := if bits.toBitVec.msb then -1 else 1

/-- The number that a pattern stands for. The fraction has a leading one and is scaled by
the exponent less its bias. With no exponent bit set it has a leading zero and the least
scale, and with all of them set the pattern is an infinity or no number. -/
def patternValue? (bits : UInt64) : Option Extended :=
  if exponentField bits = 2047 then
    if fractionField bits = 0 then some (if bits.toBitVec.msb then ⊥ else ⊤) else none
  else if exponentField bits = 0 then
    some (.ofRat (signOf bits * ((0 + fractionField bits / 2 ^ 52) * 2 ^ (-1022 : ℤ))))
  else
    some (.ofRat (signOf bits *
      ((1 + fractionField bits / 2 ^ 52) * 2 ^ ((exponentField bits : ℤ) - 1023))))

section Fields

variable (bits : UInt64)

theorem exponentField_eq : exponentField bits = bits.toNat / 2 ^ 52 % 2 ^ 11 := by
  rw [exponentField, BitVec.extractLsb'_toNat, Nat.shiftRight_eq_div_pow]
  rfl

theorem fractionField_eq : fractionField bits = bits.toNat % 2 ^ 52 := by
  rw [fractionField, BitVec.extractLsb'_toNat, Nat.shiftRight_zero]
  rfl

theorem msb_eq : bits.toBitVec.msb = decide (2 ^ 63 ≤ bits.toNat) :=
  BitVec.msb_eq_decide _

end Fields

theorem value?_finite (negative : Bool) (m : Nat) (e : Int) :
    (Exact.finite negative m e).value? =
      some (.ofRat ((if negative then -1 else 1) * (m * 2 ^ e))) := by
  cases negative <;> simp [Exact.value?]

/-- A whole mantissa, as a fraction with a leading digit. -/
theorem scaled_fraction (leading fraction : ℕ) {e k : ℤ} (hk : e + 52 = k) :
    ((leading * 2 ^ 52 + fraction : ℕ) : ℚ) * 2 ^ e = (leading + fraction / 2 ^ 52) * 2 ^ k := by
  rw [← hk, zpow_add₀ two_ne_zero]
  push_cast
  generalize (2 : ℚ) ^ e = scale
  norm_num
  ring

/-- **The calculator reads every pattern as the format says.** -/
theorem value?_ofBits (bits : UInt64) : (Exact.ofBits bits.toNat).value? = patternValue? bits := by
  unfold Exact.ofBits patternValue?
  simp only [Nat.one_shiftLeft, exponentField_eq, fractionField_eq, signOf, msb_eq]
  generalize bits.toNat / 2 ^ 52 % 2 ^ 11 = exponent
  generalize bits.toNat % 2 ^ 52 = fraction
  generalize decide (2 ^ 63 ≤ bits.toNat) = negative
  split
  · split
    · cases negative <;> rfl
    · rfl
  · split
    · have hscaled := scaled_fraction 0 fraction (e := -1074) (k := -1022) (by norm_num)
      rw [Nat.zero_mul, Nat.zero_add, Nat.cast_zero] at hscaled
      rw [value?_finite, hscaled]
    · have hscaled := scaled_fraction 1 fraction (e := (exponent : ℤ) - 1075)
        (k := (exponent : ℤ) - 1023) (by ring)
      rw [Nat.one_mul, Nat.cast_one] at hscaled
      rw [value?_finite, hscaled]

/-- A pattern that stands for no number may be stored as another one, but it is read as what
it was. -/
theorem ofFloat_ofBits (bits : UInt64) :
    Exact.ofFloat (.ofBits bits) = Exact.ofBits bits.toNat := by
  have hunpack : (Float.ofBits bits).toModel.unpack =
      UnpackedFloat.unpack Format.binary64 bits.toBitVec :=
    (canonical_unpackBits bits.toBitVec).unpack_pack
  rw [Exact.ofFloat_eq, hunpack, ← Exact.ofBits_eq]
  rfl

theorem value?_ofFloat_ofBits (bits : UInt64) :
    (Exact.ofFloat (.ofBits bits)).value? = patternValue? bits := by
  rw [ofFloat_ofBits, value?_ofBits]

theorem value?_ofFloat (x : Float) : (Exact.ofFloat x).value? = patternValue? x.toBits :=
  value?_ofBits x.toBits

/-! ## Kinds of patterns -/

section Kinds

variable {bits : UInt64} {v : ℚ}

theorem exists_patternValue? (h : exponentField bits ≠ 2047) :
    ∃ v : ℚ, patternValue? bits = some (.ofRat v) := by
  rw [patternValue?, if_neg h]
  split
  · exact ⟨_, rfl⟩
  · exact ⟨_, rfl⟩

theorem exponentField_ne (h : patternValue? bits = some (.ofRat v)) : exponentField bits ≠ 2047 := by
  intro hspecial
  rw [patternValue?, if_pos hspecial] at h
  split at h
  · split at h <;> cases h
  · cases h

theorem patternValue?_zero (hexponent : exponentField bits = 0) (hfraction : fractionField bits = 0) :
    patternValue? bits = some (.ofRat 0) := by
  rw [patternValue?, if_neg (by omega), if_pos hexponent, hfraction]
  simp

/-- Subnormal numbers lie between zero and one. -/
theorem abs_subnormal (hexponent : exponentField bits = 0) (hfraction : fractionField bits ≠ 0)
    (h : patternValue? bits = some (.ofRat v)) : 0 < |v| ∧ |v| < 1 := by
  rw [patternValue?, if_neg (by omega), if_pos hexponent] at h
  have hv := Extended.strictMono_ofRat.injective (Option.some.inj h)
  have hsign : |signOf bits| = 1 := by
    rw [signOf]
    split <;> simp
  have hpos : (0 : ℚ) < fractionField bits := by exact_mod_cast Nat.pos_of_ne_zero hfraction
  have hlt : (fractionField bits : ℚ) < 2 ^ 52 := by
    exact_mod_cast (bits.toBitVec.extractLsb' 0 52).isLt
  have hscale : (2 : ℚ) ^ (-1022 : ℤ) < 1 := zpow_lt_one_of_neg₀ (by norm_num) (by norm_num)
  rw [← hv, abs_mul, hsign, one_mul, zero_add, abs_of_pos (by positivity)]
  have hbelow : (fractionField bits : ℚ) / 2 ^ 52 < 1 := (div_lt_one (by positivity)).mpr hlt
  exact ⟨by positivity, mul_lt_one_of_nonneg_of_lt_one_left (by positivity) hbelow hscale.le⟩

end Kinds

end UnitCalc.Binary64
