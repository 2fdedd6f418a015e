import Mathlib
import UnitCalc.Number.Integer

/-!
# Binary64 numbers, unpacked

A binary64 number is stored as sixty-four bits and computed with as a sign, a mantissa
and an exponent. The exact value read off the bits is that of the unpacked number, and
packing loses nothing of a number with a full mantissa of fifty-three bits and an
exponent in range.
-/

namespace UnitCalc

open Float.Model (Format UnpackedFloat)
open Float.Model.UnpackedFloat (Sign packComponents unpackExponent unpackMantissa unpackSign)

namespace Binary64

/-! ## The fields of the bits -/

section Fields

variable (b : BitVec Format.binary64.numBits)

theorem toNat_unpackMantissa : (unpackMantissa b).toNat = b.toNat % 2 ^ 52 := by
  simp [unpackMantissa]

theorem toNat_unpackExponent : (unpackExponent b).toNat = b.toNat / 2 ^ 52 % 2 ^ 11 := by
  simp [unpackExponent, Nat.shiftRight_eq_div_pow]

theorem toNat_unpackSign : (unpackSign b).toNat = b.toNat / 2 ^ 63 := by
  have hlt : b.toNat < 2 ^ 64 := b.isLt
  have hbit : b.toNat / 2 ^ 63 < 2 := by omega
  simp only [unpackSign, BitVec.toNat_cast, BitVec.extractLsb_toNat, Nat.shiftRight_eq_div_pow]
  exact Nat.mod_eq_of_lt hbit

theorem unpackSign_packComponents {spec : Format} (s : Sign) (e : BitVec spec.exponentBits)
    (m : BitVec spec.mantissaBitsWithoutImplicit) :
    unpackSign (packComponents spec s e m) = s.toBitVec := by
  ext i hi
  have hi : i = 0 := by omega
  subst hi
  simp [unpackSign, packComponents, BitVec.getLsbD_append, BitVec.getElem_append]

/-- The mantissa of a normal number has a leading bit that is not stored. -/
theorem toNat_append_leading (m : BitVec 52) : (1#1 ++ m).toNat = 2 ^ 52 + m.toNat := by
  rw [BitVec.toNat_append, ← Nat.shiftLeft_add_eq_or_of_lt m.isLt]
  simp [Nat.shiftLeft_eq]

end Fields

def isNegative : Sign → Bool
  | .negative => true
  | .positive => false

theorem isNegative_ofBitVec (b : BitVec Format.binary64.numBits) :
    isNegative (Sign.ofBitVec (unpackSign b)) = decide (2 ^ 63 ≤ b.toNat) := by
  have hlt : b.toNat < 2 ^ 64 := b.isLt
  have hsign := toNat_unpackSign b
  unfold Sign.ofBitVec
  by_cases hzero : unpackSign b = 0#1
  · rw [hzero, BitVec.toNat_zero] at hsign
    have hless : ¬ 2 ^ 63 ≤ b.toNat := by omega
    rw [if_pos hzero, decide_eq_false hless, isNegative]
  · have hone : (unpackSign b).toNat ≠ 0 := fun h => hzero (BitVec.eq_of_toNat_eq h)
    have hmore : 2 ^ 63 ≤ b.toNat := by omega
    rw [if_neg hzero, decide_eq_true hmore, isNegative]

/-! ## Packing -/

theorem ofBitVec_toBitVec (s : Sign) : Sign.ofBitVec s.toBitVec = s := by
  cases s <;> rfl

theorem unpack_pack_zero (s : Sign) : (Float.Model.pack (.zero s)).unpack = .zero s := by
  cases s <;> rfl

/-- An exponent that is too large makes the number infinite. -/
theorem unpack_pack_of_overflow (s : Sign) {m : Nat} {e : Int} (hm : 0 < m) (he : 971 < e) :
    (Float.Model.pack (.finite s m e hm)).unpack = .infinity s := by
  have hover : 2 ^ 11 ≤ (e + 1023 + 52).toNat + 1 := by omega
  have hpack : UnpackedFloat.pack Format.binary64 (.finite s m e hm) =
      UnpackedFloat.packedInfinity Format.binary64 s := if_pos hover
  show UnpackedFloat.unpack Format.binary64 (UnpackedFloat.pack Format.binary64 _) = _
  rw [hpack]
  cases s <;> rfl

theorem unpack_pack_finite (s : Sign) {m : Nat} {e : Int} (hm : 0 < m) (hlog : m.log2 = 52)
    (hlow : -1074 ≤ e) (hhigh : e ≤ 971) :
    (Float.Model.pack (.finite s m e hm)).unpack = .finite s m e hm := by
  have hfits : ¬ 2 ^ 11 ≤ (e + 1023 + 52).toNat + 1 := by omega
  have hfull : m.log2 + 1 = Format.binary64.mantissaBits := by rw [hlog]; rfl
  have hpack : UnpackedFloat.pack Format.binary64 (.finite s m e hm) =
      packComponents Format.binary64 s (BitVec.ofNat 11 (e + 1023 + 52).toNat)
        (BitVec.ofNat 52 m) :=
    (if_neg hfits).trans (if_pos hfull)
  -- neither of the two exponents with a meaning of their own
  have hexponent : (BitVec.ofNat 11 (e + 1023 + 52).toNat).toNat = (e + 1023 + 52).toNat := by
    rw [BitVec.toNat_ofNat]
    omega
  have hones : BitVec.ofNat 11 (e + 1023 + 52).toNat ≠ -1#11 := by
    intro h
    rw [h] at hexponent
    have hall : (-1#11).toNat = 2047 := rfl
    omega
  have hzeros : BitVec.ofNat 11 (e + 1023 + 52).toNat ≠ 0#11 := by
    intro h
    rw [h, BitVec.toNat_zero] at hexponent
    omega
  have hmantissa : (1#1 ++ BitVec.ofNat 52 m).toNat = m := by
    obtain ⟨hge, hlt⟩ := (Nat.log2_eq_iff hm.ne').mp hlog
    rw [toNat_append_leading, BitVec.toNat_ofNat]
    omega
  show UnpackedFloat.unpack Format.binary64 (UnpackedFloat.pack Format.binary64 _) = _
  rw [hpack]
  unfold UnpackedFloat.unpack
  simp only [UnpackedFloat.unpackExponent_packComponents,
    UnpackedFloat.unpackMantissa_packComponents, unpackSign_packComponents, ofBitVec_toBitVec]
  rw [if_neg hones, if_neg hzeros]
  congr 1
  rw [hexponent]
  show ((e + 1023 + 52).toNat : Int) - (1023 + 52) = e
  omega

end Binary64

open Binary64 (isNegative)

/-- The exact meaning of an unpacked number. -/
def Exact.ofUnpacked : UnpackedFloat → Exact
  | .notANumber => .nan
  | .infinity s => .infinite (isNegative s)
  | .zero s => .finite (isNegative s) 0 (-1074)
  | .finite s m e _ => .finite (isNegative s) m e

theorem Exact.ofBits_eq (b : BitVec Format.binary64.numBits) :
    ofBits b.toNat = ofUnpacked (UnpackedFloat.unpack Format.binary64 b) := by
  have hmantissa := Binary64.toNat_unpackMantissa b
  have hexponent := Binary64.toNat_unpackExponent b
  have hsign := Binary64.isNegative_ofBitVec b
  have hones : unpackExponent b = -1#_ ↔ b.toNat / 2 ^ 52 % 2 ^ 11 = 2 ^ 11 - 1 := by
    rw [← hexponent, ← BitVec.toNat_inj]
    rfl
  have hzeros : unpackExponent b = 0#_ ↔ b.toNat / 2 ^ 52 % 2 ^ 11 = 0 := by
    rw [← hexponent, ← BitVec.toNat_inj]
    rfl
  have hnone : unpackMantissa b = 0#_ ↔ b.toNat % 2 ^ 52 = 0 := by
    rw [← hmantissa, ← BitVec.toNat_inj]
    rfl
  unfold ofBits UnpackedFloat.unpack
  simp only [Nat.one_shiftLeft]
  by_cases hspecial : b.toNat / 2 ^ 52 % 2 ^ 11 = 2 ^ 11 - 1
  · rw [if_pos hspecial, if_pos (hones.mpr hspecial)]
    by_cases hfraction : b.toNat % 2 ^ 52 = 0
    · rw [if_pos hfraction, if_pos (hnone.mpr hfraction), ofUnpacked, hsign]
    · rw [if_neg hfraction, if_neg (mt hnone.mp hfraction), ofUnpacked]
  · rw [if_neg hspecial, if_neg (mt hones.mp hspecial)]
    by_cases hsmall : b.toNat / 2 ^ 52 % 2 ^ 11 = 0
    · rw [if_pos hsmall, if_pos (hzeros.mpr hsmall)]
      by_cases hfraction : b.toNat % 2 ^ 52 = 0
      · rw [dif_pos (hnone.mpr hfraction), ofUnpacked, hsign, hfraction]
      · rw [dif_neg (mt hnone.mp hfraction), ofUnpacked, hsign, hmantissa, hexponent, hsmall]
        rfl
    · rw [if_neg hsmall, if_neg (mt hzeros.mp hsmall), ofUnpacked, hsign,
        Binary64.toNat_append_leading, hmantissa, hexponent]
      rfl

theorem Exact.ofFloat_eq (x : Float) : ofFloat x = ofUnpacked x.toModel.unpack :=
  ofBits_eq x.toModel.toBits.toBitVec

end UnitCalc
