import Mathlib
import UnitCalc.Proofs.Number.Rounding

/-!
# Arithmetic on binary64 numbers

Packing loses nothing of a number that was rounded, unless its exponent is too large, and
then the number becomes infinite. So a sum, a difference, a product or a quotient of
binary64 numbers is the exact one rounded, and it is infinite only if it is beyond the
greatest number. Whole numbers of at most fifty-three bits are converted without rounding.
-/

namespace UnitCalc

namespace Binary64

open Float.Model (Format UnpackedFloat)
open Float.Model.UnpackedFloat (Sign packComponents roundWithAccuracy)
open Exact (Full)

/-! ## Packing -/

/-- The unpacked number is one that bits can stand for. -/
inductive Canonical : UnpackedFloat → Prop
  | notANumber : Canonical .notANumber
  | infinity (s : Sign) : Canonical (.infinity s)
  | zero (s : Sign) : Canonical (.zero s)
  | finite (s : Sign) {m : Nat} {e : Int} (hm : 0 < m) (h : Full m e) (he : e ≤ 971) :
      Canonical (.finite s m e hm)

theorem unpack_pack_subnormal (s : Sign) {m : Nat} (hm : 0 < m) (hsmall : m < 2 ^ 52) :
    (Float.Model.pack (.finite s m (-1074) hm)).unpack = .finite s m (-1074) hm := by
  have hlog : m.log2 < 52 := (Nat.log2_lt hm.ne').mpr hsmall
  have hshort : ¬ m.log2 + 1 = Format.binary64.mantissaBits := by
    have hbits : Format.binary64.mantissaBits = 53 := rfl
    omega
  have hpack : UnpackedFloat.pack Format.binary64 (.finite s m (-1074) hm) =
      packComponents Format.binary64 s 0#11 (BitVec.ofNat 52 m) :=
    if_neg hshort
  have hmantissa : (BitVec.ofNat 52 m).toNat = m := by
    rw [BitVec.toNat_ofNat]
    exact Nat.mod_eq_of_lt hsmall
  have hnonzero : ¬ BitVec.ofNat 52 m = 0#52 := by
    intro h
    rw [h, BitVec.toNat_zero] at hmantissa
    omega
  show UnpackedFloat.unpack Format.binary64 (UnpackedFloat.pack Format.binary64 _) = _
  rw [hpack]
  unfold UnpackedFloat.unpack
  simp only [UnpackedFloat.unpackExponent_packComponents,
    UnpackedFloat.unpackMantissa_packComponents, unpackSign_packComponents, ofBitVec_toBitVec]
  rw [if_neg (by decide), if_pos trivial, dif_neg hnonzero]
  congr 1

theorem Canonical.unpack_pack {u : UnpackedFloat} (h : Canonical u) :
    (Float.Model.pack u).unpack = u := by
  cases h with
  | notANumber => rfl
  | infinity s => cases s <;> rfl
  | zero s => exact unpack_pack_zero s
  | @finite s m e hm h he =>
      by_cases hnormal : 2 ^ 52 ≤ m
      · have hlog : m.log2 = 52 := (Nat.log2_eq_iff hm.ne').mpr ⟨hnormal, h.fits⟩
        exact unpack_pack_finite s hm hlog h.least he
      · obtain rfl : e = -1074 := h.filled.resolve_left hnormal
        exact unpack_pack_subnormal s hm (by omega)

theorem exponent_le_of_ofBits {bits mantissa : Nat} {exponent : Int} {negative : Bool}
    (h : Exact.ofBits bits = .finite negative mantissa exponent) : exponent ≤ 971 := by
  unfold Exact.ofBits at h
  simp only [Nat.one_shiftLeft] at h
  split at h
  · split at h <;> cases h
  · split at h
    · cases h
      decide
    · cases h
      omega

theorem canonical_unpackBits (b : BitVec Format.binary64.numBits) :
    Canonical (UnpackedFloat.unpack Format.binary64 b) := by
  have hfull : ∀ {negative m e}, Exact.ofBits b.toNat = .finite negative m e → Full m e ∧ e ≤ 971 :=
    fun hfinite => ⟨Exact.full_of_ofBits hfinite, exponent_le_of_ofBits hfinite⟩
  rw [Exact.ofBits_eq] at hfull
  generalize UnpackedFloat.unpack Format.binary64 b = u at hfull
  cases u with
  | notANumber => exact .notANumber
  | infinity s => exact .infinity s
  | zero s => exact .zero s
  | finite s m e hm =>
      obtain ⟨h, he⟩ := hfull rfl
      exact .finite s hm h he

theorem canonical_unpack (x : Float) : Canonical x.toModel.unpack :=
  canonical_unpackBits x.toModel.toBits.toBitVec

theorem Canonical.neg {u : UnpackedFloat} (h : Canonical u) : Canonical u.neg := by
  cases h with
  | notANumber => exact .notANumber
  | infinity s => exact .infinity (-s)
  | zero s => exact .zero (-s)
  | finite s hm h he => exact .finite (-s) hm h he

/-- The greatest binary64 number. -/
def greatest : ℚ := (2 ^ 53 - 1) * 2 ^ 971

theorem greatest_pos : 0 < greatest :=
  mul_pos (by norm_num) (by positivity)

/-- The extended number is `q` rounded to a binary64 number. -/
inductive Nearest (q : ℚ) : Extended → Prop
  | rational {r : ℚ} (h : Faithful r q) : Nearest q (.ofRat r)
  | top (h : greatest < q) : Nearest q ⊤
  | bottom (h : q < -greatest) : Nearest q ⊥

section Packed

variable {u : UnpackedFloat} {a b q : ℚ} {p : Extended} {x y : Float}

/-- A number is not rounded beyond the greatest unless it is greater itself. -/
theorem greatest_lt_of_close {r : ℚ} (hr : 2 ^ 1024 ≤ r) (h : Close r q) : greatest < q := by
  have hscale : (2 : ℚ) ^ 1024 = 2 ^ 53 * 2 ^ 971 := by rw [← pow_add]
  have hlarge : (1 : ℚ) ≤ 2 ^ 971 := one_le_pow₀ (by norm_num)
  have htiny : (2 : ℚ) ^ (-1075 : ℤ) < 1 := zpow_lt_one_of_neg₀ (by norm_num) (by norm_num)
  have hpos : 0 < q := by
    by_contra! hneg
    have hlow : (0 : ℚ) < 2 ^ 1024 := by positivity
    exact absurd (hlow.trans_le hr) (h.nonpos hneg).not_gt
  have hrounded := (le_abs_self (r - q)).trans h.error
  rw [abs_of_pos hpos] at hrounded
  rw [hscale] at hr
  rw [greatest]
  generalize (2 : ℚ) ^ 971 = g at hr hlarge ⊢
  rcases le_max_iff.mp hrounded with hrelative | habsolute
  · norm_num at hr hrelative ⊢
    linarith
  · linarith

theorem Rounded.packed (h : Rounded u q) :
    ∃ p, Means (Float.Model.pack u).unpack p ∧ Nearest q p := by
  obtain ⟨r, hdenotes, hfaithful⟩ := h
  obtain ⟨s, rfl, rfl⟩ | ⟨s, m, e, hm, rfl, hfull, rfl⟩ := hdenotes.cases_signed
  · rw [unpack_pack_zero]
    exact ⟨_, .rational (.zero s), .rational hfaithful⟩
  · by_cases hhigh : e ≤ 971
    · rw [(Canonical.finite s hm hfull hhigh).unpack_pack]
      exact ⟨_, .rational hdenotes, .rational hfaithful⟩
    · have hnormal : 2 ^ 52 ≤ m := hfull.filled.resolve_right (by omega)
      have hlarge : (2 : ℚ) ^ 1024 ≤ (m : ℚ) * 2 ^ e := by
        calc (2 : ℚ) ^ 1024 = (2 : ℚ) ^ 52 * 2 ^ (972 : ℤ) := by
              rw [← zpow_natCast, ← zpow_natCast, ← zpow_add₀ (by norm_num)]
              rfl
          _ ≤ (m : ℚ) * 2 ^ e := by
              gcongr
              · exact_mod_cast hnormal
              · norm_num
              · omega
      rw [unpack_pack_of_overflow s hm (by omega)]
      cases s with
      | negative =>
          have hneg := hfaithful.toClose.neg
          rw [signed, neg_neg] at hneg
          exact ⟨⊥, .bottom, .bottom (lt_neg.mpr (greatest_lt_of_close hlarge hneg))⟩
      | positive => exact ⟨⊤, .top, .top (greatest_lt_of_close hlarge hfaithful.toClose)⟩

theorem Means.value? (h : Means u p) : (Exact.ofUnpacked u).value? = some p := by
  cases h with
  | bottom => rfl
  | top => rfl
  | rational h =>
      cases h with
      | zero s => cases s <;> simp [Exact.ofUnpacked, isNegative, Exact.value?]
      | positive hm h => rfl
      | negative hm h => rfl

theorem denotes_unpack (h : (Exact.ofFloat x).value? = some (.ofRat a)) :
    Denotes x.toModel.unpack a := by
  have hmeans := means_unpack h
  generalize x.toModel.unpack = u at hmeans ⊢
  generalize hp : Extended.ofRat a = p at hmeans
  cases hmeans with
  | bottom => cases hp
  | top => cases hp
  | rational h =>
      cases Extended.strictMono_ofRat.injective hp
      exact h

theorem abs_le_greatest (h : (Exact.ofFloat x).value? = some (.ofRat a)) : |a| ≤ greatest := by
  have hdenotes := denotes_unpack h
  have hcanonical := canonical_unpack x
  generalize x.toModel.unpack = u at hdenotes hcanonical
  have hscaled : ∀ {m : Nat} {e : Int}, Full m e → e ≤ 971 → (m : ℚ) * 2 ^ e ≤ greatest := by
    intro m e hfull he
    have hfits : (m : ℚ) ≤ 2 ^ 53 - 1 := by
      have : (m : ℚ) + 1 ≤ 2 ^ 53 := by exact_mod_cast hfull.fits
      linarith
    have hpower : (2 : ℚ) ^ e ≤ 2 ^ 971 := by
      rw [← zpow_natCast]
      exact zpow_le_zpow_right₀ (by norm_num) (by exact_mod_cast he)
    exact mul_le_mul hfits hpower (by positivity) (by norm_num)
  cases hdenotes with
  | zero s =>
      rw [abs_zero]
      exact greatest_pos.le
  | positive hm hfull =>
      cases hcanonical with
      | finite _ _ _ he =>
          rw [abs_of_pos (scaled_pos hm)]
          exact hscaled hfull he
  | negative hm hfull =>
      cases hcanonical with
      | finite _ _ _ he =>
          rw [abs_neg, abs_of_pos (scaled_pos hm)]
          exact hscaled hfull he

theorem Rounded.nearest {z : Float} (h : Rounded u q)
    (hz : z.toModel.unpack = (Float.Model.pack u).unpack) :
    ∃ p, (Exact.ofFloat z).value? = some p ∧ Nearest q p := by
  obtain ⟨p, hp, hnearest⟩ := h.packed
  refine ⟨p, ?_, hnearest⟩
  rw [Exact.ofFloat_eq, hz]
  exact hp.value?

/-- **A sum is the exact sum, rounded.** -/
theorem nearest_add (hx : (Exact.ofFloat x).value? = some (.ofRat a))
    (hy : (Exact.ofFloat y).value? = some (.ofRat b)) :
    ∃ p, (Exact.ofFloat (x + y)).value? = some p ∧ Nearest (a + b) p :=
  ((denotes_unpack hx).add (denotes_unpack hy)).nearest rfl

/-- **A difference is the exact difference, rounded.** -/
theorem nearest_sub (hx : (Exact.ofFloat x).value? = some (.ofRat a))
    (hy : (Exact.ofFloat y).value? = some (.ofRat b)) :
    ∃ p, (Exact.ofFloat (x - y)).value? = some p ∧ Nearest (a - b) p :=
  ((denotes_unpack hx).sub (denotes_unpack hy)).nearest rfl

/-- **A product is the exact product, rounded.** -/
theorem nearest_mul (hx : (Exact.ofFloat x).value? = some (.ofRat a))
    (hy : (Exact.ofFloat y).value? = some (.ofRat b)) :
    ∃ p, (Exact.ofFloat (x * y)).value? = some p ∧ Nearest (a * b) p :=
  ((denotes_unpack hx).mul (denotes_unpack hy)).nearest rfl

/-- **A quotient is the exact quotient, rounded.** -/
theorem nearest_div (hx : (Exact.ofFloat x).value? = some (.ofRat a))
    (hy : (Exact.ofFloat y).value? = some (.ofRat b)) (hb : b ≠ 0) :
    ∃ p, (Exact.ofFloat (x / y)).value? = some p ∧ Nearest (a / b) p :=
  ((denotes_unpack hx).div (denotes_unpack hy) hb).nearest rfl

/-- An infinity stays what it is when it is divided by a positive number. -/
theorem value?_div_of_infinite (hp : p = ⊤ ∨ p = ⊥) (hx : (Exact.ofFloat x).value? = some p)
    (hy : (Exact.ofFloat y).value? = some (.ofRat b)) (hb : 0 < b) :
    (Exact.ofFloat (x / y)).value? = some p := by
  obtain ⟨m, e, hm, hv⟩ := (denotes_unpack hy).eq_positive hb
  have hmeans := means_unpack hx
  have hdiv : (x / y).toModel.unpack = (Float.Model.pack
    (UnpackedFloat.div Format.binary64 x.toModel.unpack y.toModel.unpack)).unpack := rfl
  rw [Exact.ofFloat_eq, hdiv, hv]
  generalize x.toModel.unpack = u at hmeans ⊢
  cases hmeans with
  | bottom =>
      show (Exact.ofUnpacked (Float.Model.pack (.infinity .negative)).unpack).value? = _
      rw [(Canonical.infinity .negative).unpack_pack]
      rfl
  | top =>
      show (Exact.ofUnpacked (Float.Model.pack (.infinity .positive)).unpack).value? = _
      rw [(Canonical.infinity .positive).unpack_pack]
      rfl
  | rational h => rcases hp with hp | hp <;> cases hp

theorem value?_neg (hx : (Exact.ofFloat x).value? = some (.ofRat a)) :
    (Exact.ofFloat (-x)).value? = some (.ofRat (-a)) := by
  have hneg : (-x).toModel.unpack = (Float.Model.pack x.toModel.unpack.neg).unpack := rfl
  rw [Exact.ofFloat_eq, hneg, (canonical_unpack x).neg.unpack_pack]
  exact (Means.rational (denotes_unpack hx).neg).value?

theorem ofFloat_abs {negative : Bool} {m : Nat} {e : Int}
    (h : Exact.ofFloat x = .finite negative m e) : Exact.ofFloat x.abs = .finite false m e := by
  have habs : x.abs.toModel.unpack = (Float.Model.pack x.toModel.unpack.abs).unpack := rfl
  have hcanonical := canonical_unpack x
  rw [Exact.ofFloat_eq] at h ⊢
  rw [habs]
  generalize x.toModel.unpack = u at h hcanonical
  cases hcanonical with
  | notANumber => cases h
  | infinity s => cases h
  | zero s =>
      cases h
      rw [UnpackedFloat.abs, (Canonical.zero .positive).unpack_pack]
      rfl
  | finite s hm hfull he =>
      cases h
      rw [UnpackedFloat.abs, (Canonical.finite .positive hm hfull he).unpack_pack]
      rfl

end Packed

/-! ## Whole numbers -/

theorem le_exactLimit_iff {n : Nat} : n ≤ Number.exactLimit ↔ n < 2 ^ 53 := by
  have hlimit : Number.exactLimit = 2 ^ 53 - 1 := rfl
  omega

theorem natAbs_le_exactLimit_iff {z : Int} : z.natAbs ≤ Number.exactLimit ↔ |z| ≤ 2 ^ 53 - 1 := by
  have hlimit : Number.exactLimit = 2 ^ 53 - 1 := rfl
  rw [hlimit, Int.abs_eq_natAbs]
  omega

theorem two_pow_le_greatest : (2 : ℚ) ^ 63 ≤ greatest := by
  have hlarge : (2 : ℚ) ^ 63 ≤ 2 ^ 971 := pow_le_pow_right₀ (by norm_num) (by norm_num)
  rw [greatest]
  generalize (2 : ℚ) ^ 971 = g at hlarge
  linarith

/-- A number that is not too large is not rounded to an infinity. -/
theorem Nearest.faithful {q : ℚ} {p : Extended} (h : Nearest q p) (hq : |q| ≤ greatest) :
    ∃ r, p = .ofRat r ∧ Faithful r q := by
  obtain ⟨hlow, hhigh⟩ := abs_le.mp hq
  cases h with
  | rational h => exact ⟨_, rfl, h⟩
  | top h => exact absurd h hhigh.not_gt
  | bottom h => exact absurd h hlow.not_gt

/-- A whole number that fits a mantissa is not changed. -/
theorem Nearest.eq_intCast {z : Int} {p : Extended} (h : Nearest z p) (hz : |z| < 2 ^ 53) :
    p = .ofRat z := by
  have hsmall : |(z : ℚ)| ≤ 2 ^ 63 := by
    have : |(z : ℚ)| < 2 ^ 53 := by exact_mod_cast hz
    linarith
  obtain ⟨r, rfl, hfaithful⟩ := h.faithful (hsmall.trans two_pow_le_greatest)
  rw [hfaithful.eq (representable_intCast hz)]

theorem value?_one : (Exact.ofFloat (Float.ofBits 0x3FF0000000000000)).value? = some (.ofRat 1) := by
  have hone : Exact.ofFloat (Float.ofBits 0x3FF0000000000000) = .finite false (2 ^ 52) (-52) := by
    decide +kernel
  rw [hone, Exact.value?]
  norm_num

/-- A natural number that fits a mantissa is converted by way of a 64-bit word, and multiplied
by one, the zeroth power of ten. -/
theorem value?_ofNat {n : Nat} (h : n < 2 ^ 53) :
    (Exact.ofFloat (Float.ofNat n)).value? = some (.ofRat n) := by
  have hword : n.toUInt64.toNat = n := UInt64.toNat_ofNat_of_lt' (h.trans (by decide))
  have habs : |(n : Int)| < 2 ^ 53 := by
    rw [Nat.abs_cast]
    exact_mod_cast h
  have hfactor : (Exact.ofFloat n.toUInt64.toFloat).value? = some (.ofRat n) := by
    have hrounded := rounded_normalize n 0 .positive
    rw [zpow_zero, mul_one] at hrounded
    have hunpack : n.toUInt64.toFloat.toModel.unpack = (Float.Model.pack
        (UnpackedFloat.normalize Format.binary64 n.toUInt64.toNat 0 .positive)).unpack := rfl
    rw [hword] at hunpack
    obtain ⟨p, hp, hnearest⟩ := hrounded.nearest hunpack
    rw [hp, hnearest.eq_intCast habs, Int.cast_natCast]
  have hcase : Float.ofNat n = n.toUInt64.toFloat * Float.ofBits 0x3FF0000000000000 :=
    dif_pos ⟨h, by decide⟩
  obtain ⟨p, hp, hnearest⟩ := nearest_mul hfactor value?_one
  rw [mul_one, ← Int.cast_natCast] at hnearest
  rw [hcase, hp, hnearest.eq_intCast habs, Int.cast_natCast]

theorem nearest_ofNat (n : Nat) :
    ∃ p, (Exact.ofFloat (Float.ofNat n)).value? = some p ∧ Nearest n p := by
  by_cases hsmall : n < 2 ^ 53
  · exact ⟨_, value?_ofNat hsmall, .rational (.refl n)⟩
  · have hn : 0 < n := by omega
    have hcase : Float.ofNat n = Float.ofModel (Float.Model.ofScientific n 0) :=
      dif_neg fun h => hsmall h.1
    -- the product with the zeroth power of ten, of a mantissa with zeros to spare
    have hmul : UnpackedFloat.ofScientific Format.binary64 n 0 =
        roundWithAccuracy Format.binary64 .positive (n * 2 ^ 53) (-53) .exact := by
      have hbits : (2 : Int) ^ Format.binary64.exponentBits = 2048 := rfl
      unfold UnpackedFloat.ofScientific
      rw [dif_neg hn.ne', if_neg (by decide), if_neg (by omega), if_pos (le_refl 0)]
      simp only [UnpackedFloat.mul, Int.toNat_zero, pow_zero, mul_one, add_zero, Nat.shiftLeft_eq]
      rfl
    have hplaced : 52 ≤ (n * 2 ^ 53).log2 := by
      rw [log2_mul_pow hn]
      omega
    have hpos : 0 < n * 2 ^ 53 := Nat.mul_pos hn (Nat.two_pow_pos 53)
    have hrounded := rounded_roundWithAccuracy .positive (e := -53) (begins_exact _)
      (by exact_mod_cast hpos) (.inl hplaced)
    have hvalue : signed .positive ((n * 2 ^ 53 : ℕ) * 2 ^ (-53 : ℤ)) = n := by
      have hshift := scaled_shift n 53 0
      rw [zpow_zero, mul_one] at hshift
      exact hshift
    rw [hvalue, ← hmul] at hrounded
    rw [hcase]
    exact hrounded.nearest rfl

/-- **Every integer is converted to a binary64 number, rounded.** -/
theorem faithful_ofInteger (n : Int64) :
    ∃ r, (Exact.ofFloat (Number.ofInteger n)).value? = some (.ofRat r) ∧ Faithful r n.toInt := by
  have hlow : -2 ^ 63 ≤ n.toInt := n.le_toInt
  have hhigh : n.toInt < 2 ^ 63 := n.toInt_lt
  have hnat : ∀ k : Nat, k ≤ 2 ^ 63 →
      ∃ r, (Exact.ofFloat (Float.ofNat k)).value? = some (.ofRat r) ∧ Faithful r k := by
    intro k hk
    have hle : |(k : ℚ)| ≤ 2 ^ 63 := by
      rw [Nat.abs_cast]
      exact_mod_cast hk
    obtain ⟨p, hp, hnearest⟩ := nearest_ofNat k
    obtain ⟨r, rfl, hfaithful⟩ := hnearest.faithful (hle.trans two_pow_le_greatest)
    exact ⟨r, hp, hfaithful⟩
  unfold Number.ofInteger
  generalize n.toInt = z at hlow hhigh ⊢
  cases z with
  | ofNat k =>
      rw [Int.ofNat_eq_natCast] at hhigh
      exact hnat k (by omega)
  | negSucc k =>
      obtain ⟨r, hr, hfaithful⟩ := hnat (k + 1) (by omega)
      refine ⟨-r, value?_neg hr, ?_⟩
      rw [Int.cast_negSucc]
      exact hfaithful.neg

end Binary64

/-- An integer of the exact range stands for itself. -/
theorem Number.value?_ofInteger {n : Int64} (h : n.toInt.natAbs ≤ exactLimit) :
    (Exact.ofFloat (ofInteger n)).value? = some (.ofRat n.toInt) := by
  obtain ⟨r, hr, hfaithful⟩ := Binary64.faithful_ofInteger n
  have hsmall := Binary64.natAbs_le_exactLimit_iff.mp h
  rw [hr, hfaithful.eq (Binary64.representable_intCast (by omega))]

end UnitCalc
