import Mathlib
import UnitCalc.Proofs.Number.Order

/-!
# Rounding to binary64 numbers

An operation on binary64 numbers is computed exactly and then rounded. Rounding keeps the
first bits and two more, which tell on which side of the middle the rest of the number
lies. So it errs by half a unit in the last place at most: by one part in `2 ^ 53`, or by
half of the least positive number where the exponents end. And it passes no number that
needs no rounding: such a number is a whole number of units in the last place, or else it
is less than every mantissa that is full.
-/

namespace UnitCalc.Binary64

open Float.Model (Format UnpackedFloat totalExponent)
open Float.Model.UnpackedFloat (Accuracy ExtendedMantissa Sign accuracyOfFraction decreaseExponent
  divCore roundWithAccuracy shiftToExponent shiftToTargetExponent)
open Exact (Full)

/-! ## Shifting a mantissa -/

/-- A mantissa with nothing behind it. -/
def unrounded (m : Nat) : ExtendedMantissa := ⟨m, false, false⟩

theorem shiftRight_succ (em : ExtendedMantissa) (t : Nat) :
    em >>> (t + 1) = (em >>> t).shiftRightOne := rfl

theorem mantissa_shiftRight (em : ExtendedMantissa) (t : Nat) :
    (em >>> t).mantissa = em.mantissa / 2 ^ t := by
  induction t with
  | zero => exact (Nat.div_one _).symm
  | succ t ih =>
      have hone : (em >>> (t + 1)).mantissa = (em >>> t).mantissa / 2 := rfl
      rw [hone, ih, Nat.div_div_eq_div_mul, pow_succ]

theorem roundedMantissa_bounds (em : ExtendedMantissa) :
    em.mantissa ≤ em.roundedMantissa ∧ em.roundedMantissa ≤ em.mantissa + 1 := by
  rcases em with ⟨m, roundBit, stickyBit⟩
  cases roundBit <;> cases stickyBit <;>
    simp [ExtendedMantissa.roundedMantissa, ExtendedMantissa.accuracy,
      Float.Model.UnpackedFloat.Accuracy.roundToNearestEven]
  omega

/-! ## The bits behind a mantissa -/

/-- What the two bits behind a mantissa say of the part of a number that they stand for. -/
def Describes : Bool → Bool → ℚ → Prop
  | false, false, rest => rest = 0
  | false, true, rest => 0 < rest ∧ rest < 1 / 2
  | true, false, rest => rest = 1 / 2
  | true, true, rest => 1 / 2 < rest ∧ rest < 1

/-- The mantissa is the whole part of `q`, and the bits behind it describe the rest. -/
def Begins (em : ExtendedMantissa) (q : ℚ) : Prop :=
  Describes em.roundBit em.stickyBit (q - em.mantissa)

section Bits

variable {roundBit stickyBit : Bool} {rest q : ℚ} {em : ExtendedMantissa}

theorem Describes.nonneg (h : Describes roundBit stickyBit rest) : 0 ≤ rest := by
  cases roundBit <;> cases stickyBit <;> simp only [Describes] at h <;> linarith

/-- The bit that is shifted out comes first, and the other two become one. -/
theorem Describes.shift (h : Describes roundBit stickyBit rest) (last : Bool) :
    Describes last (roundBit || stickyBit) ((last.toNat + rest) / 2) := by
  cases last <;> cases roundBit <;> cases stickyBit <;>
    simp only [Describes, Bool.toNat_false, Bool.toNat_true, Nat.cast_zero, Nat.cast_one,
      Bool.or_false, Bool.or_true] at h ⊢ <;>
    first | linarith | (constructor <;> linarith)

theorem Begins.le (h : Begins em q) : (em.mantissa : ℚ) ≤ q :=
  sub_nonneg.mp h.nonneg

theorem Begins.shiftRightOne (h : Begins em q) : Begins em.shiftRightOne (q / 2) := by
  have hlast : (em.mantissa % 2 != 0).toNat = em.mantissa % 2 := by
    rcases Nat.mod_two_eq_zero_or_one em.mantissa with hbit | hbit <;> rw [hbit] <;> rfl
  have hmantissa : (em.mantissa : ℚ) = 2 * (em.mantissa / 2 : ℕ) + (em.mantissa % 2 : ℕ) := by
    exact_mod_cast (Nat.div_add_mod em.mantissa 2).symm
  have hshift := Describes.shift h (em.mantissa % 2 != 0)
  have hrest : (((em.mantissa % 2 != 0).toNat : ℚ) + (q - em.mantissa)) / 2 =
      q / 2 - (em.mantissa / 2 : ℕ) := by
    rw [hlast]
    linarith
  rw [hrest] at hshift
  exact hshift

theorem Begins.shiftRight (h : Begins em q) (t : Nat) : Begins (em >>> t) (q / 2 ^ t) := by
  induction t with
  | zero =>
      rw [pow_zero, div_one]
      exact h
  | succ t ih =>
      rw [shiftRight_succ, pow_succ, ← div_div]
      exact ih.shiftRightOne

/-- Rounding takes the nearest whole number. -/
theorem Begins.rounded (h : Begins em q) : |(em.roundedMantissa : ℚ) - q| ≤ 1 / 2 := by
  rcases em with ⟨m, roundBit, stickyBit⟩
  have hparity : ((m % 2 : ℕ) : ℚ) = 0 ∨ ((m % 2 : ℕ) : ℚ) = 1 := by
    rcases Nat.mod_two_eq_zero_or_one m with h | h <;> simp [h]
  rw [abs_le]
  cases roundBit <;> cases stickyBit <;>
    simp only [Begins, Describes, ExtendedMantissa.roundedMantissa, ExtendedMantissa.accuracy,
      Accuracy.roundToNearestEven, Nat.cast_add, Nat.cast_one] at h ⊢
  -- in the middle, the even one of the two neighbours
  case true.false => rcases hparity with hp | hp <;> rw [hp] <;> constructor <;> linarith
  all_goals constructor <;> linarith

theorem begins_exact (m : Nat) : Begins (.ofMantissaAndAccuracy m .exact) m :=
  sub_self _

theorem mantissa_ofMantissaAndAccuracy (m : Nat) (accuracy : Accuracy) :
    (ExtendedMantissa.ofMantissaAndAccuracy m accuracy).mantissa = m := by
  rcases accuracy with _ | o
  · rfl
  · cases o <;> rfl

theorem begins_accuracyOfFraction {m n : Nat} (hn : 0 < n) :
    Begins (.ofMantissaAndAccuracy (m / n) (accuracyOfFraction (m % n) n)) (m / n : ℚ) := by
  have hn' : (0 : ℚ) < n := by exact_mod_cast hn
  have hrest : (m / n : ℚ) - (m / n : ℕ) = (m % n : ℕ) / n := by
    have hdivision : (m : ℚ) = n * (m / n : ℕ) + (m % n : ℕ) := by
      exact_mod_cast (Nat.div_add_mod m n).symm
    rw [sub_eq_iff_eq_add, div_eq_iff hn'.ne', add_mul, div_mul_cancel₀ _ hn'.ne']
    linarith
  have hlt : m % n < n := Nat.mod_lt m hn
  unfold accuracyOfFraction
  generalize m % n = k at hrest hlt
  by_cases hzero : k = 0
  · rw [if_pos hzero]
    show (m / n : ℚ) - (m / n : ℕ) = 0
    rw [hrest, hzero, Nat.cast_zero, zero_div]
  · have hpos : (0 : ℚ) < k / n := div_pos (by exact_mod_cast Nat.pos_of_ne_zero hzero) hn'
    rw [if_neg hzero]
    rcases lt_trichotomy (2 * k) n with hless | heq | hmore
    · rw [compare_lt_iff_lt.mpr hless]
      show 0 < (m / n : ℚ) - (m / n : ℕ) ∧ (m / n : ℚ) - (m / n : ℕ) < 1 / 2
      rw [hrest]
      refine ⟨hpos, (div_lt_iff₀ hn').mpr ?_⟩
      have : (2 * k : ℚ) < n := by exact_mod_cast hless
      linarith
    · rw [compare_eq_iff_eq.mpr heq]
      show (m / n : ℚ) - (m / n : ℕ) = 1 / 2
      rw [hrest, div_eq_iff hn'.ne']
      have : (2 * k : ℚ) = n := by exact_mod_cast heq
      linarith
    · rw [compare_gt_iff_gt.mpr hmore]
      show 1 / 2 < (m / n : ℚ) - (m / n : ℕ) ∧ (m / n : ℚ) - (m / n : ℕ) < 1
      rw [hrest]
      refine ⟨(lt_div_iff₀ hn').mpr ?_, (div_lt_one hn').mpr (by exact_mod_cast hlt)⟩
      have : (n : ℚ) < 2 * k := by exact_mod_cast hmore
      linarith

end Bits

/-! ## Signs -/

/-- A magnitude with a sign. -/
def signed : Sign → ℚ → ℚ
  | .negative, r => -r
  | .positive, r => r

theorem signed_mul (s t : Sign) (a b : ℚ) : signed s a * signed t b = signed (s * t) (a * b) := by
  cases s <;> cases t
  · exact neg_mul_neg a b
  · exact neg_mul a b
  · exact mul_neg a b
  · rfl

theorem signed_div (s t : Sign) (a b : ℚ) : signed s a / signed t b = signed (s / t) (a / b) := by
  cases s <;> cases t
  · exact neg_div_neg_eq a b
  · exact neg_div b a
  · exact div_neg a
  · rfl

/-! ## What rounding does to a number -/

/-- `r` is within half a unit in the last place of `q`, and on the same side of zero. -/
structure Close (r q : ℚ) : Prop where
  error : |r - q| ≤ max (2 ^ (-53 : ℤ) * |q|) (2 ^ (-1075 : ℤ))
  nonneg : 0 ≤ q → 0 ≤ r
  nonpos : q ≤ 0 → r ≤ 0

theorem Close.refl (q : ℚ) : Close q q where
  error := by
    rw [sub_self, abs_zero]
    positivity
  nonneg := id
  nonpos := id

theorem Close.neg {r q : ℚ} (h : Close r q) : Close (-r) (-q) where
  error := by
    rw [← neg_sub', abs_neg, abs_neg]
    exact h.error
  nonneg := fun hq => neg_nonneg.mpr (h.nonpos (neg_nonneg.mp hq))
  nonpos := fun hq => neg_nonpos.mpr (h.nonneg (neg_nonpos.mp hq))

/-- The number needs no rounding: it has a mantissa of at most fifty-three bits, and an
exponent that is not below the least one. -/
def Representable (p : ℚ) : Prop :=
  ∃ z e : ℤ, |z| < 2 ^ 53 ∧ -1074 ≤ e ∧ p = z * 2 ^ e

/-- `r` is close to `q`, and no representable number lies between the two. -/
structure Faithful (r q : ℚ) : Prop extends Close r q where
  above : ∀ p, Representable p → p ≤ q → p ≤ r
  below : ∀ p, Representable p → q ≤ p → r ≤ p

section Faithful

variable {r q p : ℚ}

theorem Representable.neg (h : Representable p) : Representable (-p) := by
  obtain ⟨z, e, hz, he, rfl⟩ := h
  exact ⟨-z, e, by rwa [abs_neg], he, by push_cast; ring⟩

theorem representable_intCast {z : ℤ} (h : |z| < 2 ^ 53) : Representable z :=
  ⟨z, 0, h, by omega, by rw [zpow_zero, mul_one]⟩

/-- The first whole number that does not fit a mantissa is representable still. -/
theorem representable_two_pow : Representable (2 ^ 53) :=
  ⟨2 ^ 52, 1, by norm_num, by omega, by norm_num⟩

theorem Faithful.refl (q : ℚ) : Faithful q q :=
  ⟨.refl q, fun _ _ h => h, fun _ _ h => h⟩

theorem Faithful.neg (h : Faithful r q) : Faithful (-r) (-q) where
  toClose := h.toClose.neg
  above p hp hle := le_neg_of_le_neg (h.below (-p) hp.neg (le_neg_of_le_neg hle))
  below p hp hle := neg_le_of_neg_le (h.above (-p) hp.neg (neg_le_of_neg_le hle))

theorem Faithful.signed (h : Faithful r q) (s : Sign) : Faithful (signed s r) (signed s q) := by
  cases s
  · exact h.neg
  · exact h

/-- A representable number is rounded to itself. -/
theorem Faithful.eq (h : Faithful r q) (hq : Representable q) : r = q :=
  le_antisymm (h.below q hq le_rfl) (h.above q hq le_rfl)

theorem Faithful.two_pow_le_abs (h : Faithful r q) (hq : 2 ^ 53 ≤ |q|) : 2 ^ 53 ≤ |r| := by
  rcases le_abs.mp hq with hpos | hneg
  · exact (h.above _ representable_two_pow hpos).trans (le_abs_self r)
  · have hle := h.below _ representable_two_pow.neg (le_neg_of_le_neg hneg)
    exact (le_neg_of_le_neg hle).trans (neg_le_abs r)

/-- A number that is no multiple of a power of two is less than a mantissa with that exponent
has to be. -/
theorem Representable.multiple_or_lt (h : Representable p) (e : ℤ) :
    (∃ n : ℤ, p = n * 2 ^ e) ∨ -1074 < e ∧ |p| < 2 ^ 52 * 2 ^ e := by
  obtain ⟨z, f, hz, hf, rfl⟩ := h
  by_cases hle : e ≤ f
  · obtain ⟨i, rfl⟩ : ∃ i : ℕ, f = e + i := ⟨(f - e).toNat, by omega⟩
    refine .inl ⟨z * 2 ^ i, ?_⟩
    rw [zpow_add₀ (by norm_num), zpow_natCast]
    push_cast
    ring
  · have hpos : (0 : ℚ) < 2 ^ f := by positivity
    have hmantissa : |(z : ℚ)| < 2 ^ 53 := by exact_mod_cast hz
    refine .inr ⟨by omega, ?_⟩
    calc |(z : ℚ) * 2 ^ f| = |(z : ℚ)| * 2 ^ f := by rw [abs_mul, abs_of_pos hpos]
      _ < 2 ^ 53 * 2 ^ f := by gcongr
      _ = 2 ^ 52 * 2 ^ (f + 1) := by rw [zpow_add_one₀ (by norm_num)]; ring
      _ ≤ 2 ^ 52 * 2 ^ e := by
          gcongr
          · norm_num
          · omega

theorem abs_scaled_sub_le {k : ℕ} {e : ℤ} (hround : |k - q| ≤ 1 / 2)
    (hplaced : 2 ^ 52 ≤ q ∨ e = -1074) :
    |k * 2 ^ e - q * 2 ^ e| ≤ max (2 ^ (-53 : ℤ) * (q * 2 ^ e)) (2 ^ (-1075 : ℤ)) := by
  have hpos : (0 : ℚ) < 2 ^ e := by positivity
  have herror : |k * 2 ^ e - q * 2 ^ e| ≤ 1 / 2 * 2 ^ e := by
    rw [← sub_mul, abs_mul, abs_of_pos hpos]
    exact mul_le_mul_of_nonneg_right hround hpos.le
  refine herror.trans ?_
  rcases hplaced with hlow | rfl
  · refine le_max_of_le_left ?_
    rw [← mul_assoc]
    refine mul_le_mul_of_nonneg_right ?_ hpos.le
    calc (1 / 2 : ℚ) = 2 ^ (-53 : ℤ) * 2 ^ 52 := by norm_num
      _ ≤ 2 ^ (-53 : ℤ) * q := by gcongr
  · have hhalf : (2 : ℚ) ^ (-1075 : ℤ) = 1 / 2 * 2 ^ (-1074 : ℤ) := by
      rw [show (-1075 : ℤ) = -1074 - 1 by rfl, zpow_sub_one₀ (by norm_num), mul_comm, one_div]
    exact le_max_of_le_right hhalf.ge

/-! The nearest whole number passes no other one. -/

theorem intCast_le_of_near {k : ℕ} (h : |k - q| ≤ 1 / 2) {n : ℤ} (hn : n ≤ q) : (n : ℚ) ≤ k := by
  have hless : (n : ℚ) < k + 1 := by linarith [neg_abs_le (k - q)]
  exact_mod_cast Int.lt_add_one_iff.mp (by exact_mod_cast hless)

theorem le_intCast_of_near {k : ℕ} (h : |k - q| ≤ 1 / 2) {n : ℤ} (hn : q ≤ n) : (k : ℚ) ≤ n := by
  have hless : (k : ℚ) < n + 1 := by linarith [le_abs_self (k - q)]
  exact_mod_cast Int.lt_add_one_iff.mp (by exact_mod_cast hless)

/-- A number with the nearest mantissa. Representable numbers that are no multiples of its
unit in the last place lie below both it and the exact number. -/
theorem faithful_nearest {k : ℕ} {e : ℤ} (hq : 0 < q) (hround : |k - q| ≤ 1 / 2)
    (hplaced : 2 ^ 52 ≤ q ∨ e = -1074) : Faithful (k * 2 ^ e) (q * 2 ^ e) := by
  have hpos : (0 : ℚ) < 2 ^ e := by positivity
  have hfilled : ∀ p : ℚ, -1074 < e → |p| < 2 ^ 52 * 2 ^ e → p < k * 2 ^ e ∧ p < q * 2 ^ e := by
    intro p he hp
    have hlarge : (2 : ℚ) ^ 52 ≤ q := hplaced.resolve_right (by omega)
    have hcast : ((4503599627370496 : ℤ) : ℚ) = 2 ^ 52 := by norm_num
    have hkept : (2 : ℚ) ^ 52 ≤ k := hcast ▸ intCast_le_of_near hround (hcast ▸ hlarge)
    have hless := (le_abs_self p).trans_lt hp
    exact ⟨hless.trans_le (by gcongr), hless.trans_le (by gcongr)⟩
  refine ⟨⟨?_, fun _ => by positivity, fun h => absurd (mul_pos hq hpos) h.not_gt⟩, ?_, ?_⟩
  · rw [abs_of_pos (mul_pos hq hpos)]
    exact abs_scaled_sub_le hround hplaced
  · intro p hp hle
    obtain ⟨n, rfl⟩ | ⟨he, hless⟩ := hp.multiple_or_lt e
    · have hn := intCast_le_of_near hround (le_of_mul_le_mul_right hle hpos)
      exact mul_le_mul_of_nonneg_right hn hpos.le
    · exact (hfilled p he hless).1.le
  · intro p hp hle
    obtain ⟨n, rfl⟩ | ⟨he, hless⟩ := hp.multiple_or_lt e
    · have hn := le_intCast_of_near hround (le_of_mul_le_mul_right hle hpos)
      exact mul_le_mul_of_nonneg_right hn hpos.le
    · exact absurd hle (hfilled p he hless).2.not_ge

end Faithful

/-! ## The exponent of a rounded number -/

theorem targetExponent_eq (m : Nat) (e : Int) :
    Format.binary64.targetExponent (totalExponent m e) = max (m.log2 + e - 52) (-1074) := by
  have hbits : Format.binary64.mantissaBits = 53 := rfl
  have hmin : Format.binary64.minExponent = -1074 := rfl
  rw [Format.targetExponent, totalExponent, hbits, hmin]
  omega

theorem shiftToTargetExponent_of_placed {m t : Nat} {e : Int} (accuracy : Accuracy)
    (ht : max (m.log2 + e - 52) (-1074) = e + t) :
    shiftToTargetExponent Format.binary64 m e accuracy =
      (ExtendedMantissa.ofMantissaAndAccuracy m accuracy >>> t, e + t) := by
  have hshift : (max ((m.log2 : Int) + e - 52) (-1074) - e).toNat = t := by omega
  unfold shiftToTargetExponent shiftToExponent
  simp only [targetExponent_eq, hshift]

theorem shiftToTargetExponent_of_full {m : Nat} {e : Int} (h : Full m e) :
    shiftToTargetExponent Format.binary64 m e .exact = (unrounded m, e) := by
  have hlog : m.log2 ≤ 52 := by
    rcases Nat.eq_zero_or_pos m with rfl | hm
    · exact Nat.zero_le _
    · exact Nat.le_of_lt_succ ((Nat.log2_lt hm.ne').mpr h.fits)
  have hleast := h.least
  have hfilled : 52 ≤ m.log2 ∨ e = -1074 := h.filled.imp_left fun hm =>
    (Nat.le_log2 (by omega)).mpr hm
  rw [shiftToTargetExponent_of_placed (t := 0) .exact (by omega)]
  simp only [Nat.cast_zero, add_zero]
  rfl

/-- Rounding up may fill one bit more than there are. -/
theorem shiftToTargetExponent_carry {e : Int} (he : -1074 ≤ e) :
    shiftToTargetExponent Format.binary64 (2 ^ 53) e .exact = (unrounded (2 ^ 52), e + 1) := by
  have hlog : (2 ^ 53 : Nat).log2 = 53 := Nat.log2_two_pow
  rw [shiftToTargetExponent_of_placed (t := 1) .exact (by omega)]
  rfl

theorem roundWithAccuracy_of_shifts (s : Sign) {m m' : Nat} {e e₁ e' : Int}
    {accuracy : Accuracy} {em : ExtendedMantissa} (hm' : 0 < m')
    (hfirst : shiftToTargetExponent Format.binary64 m e accuracy = (em, e₁))
    (hsecond : shiftToTargetExponent Format.binary64 em.roundedMantissa e₁ .exact =
      (unrounded m', e')) :
    roundWithAccuracy Format.binary64 s m e accuracy = .finite s m' e' hm' := by
  unfold roundWithAccuracy
  simp only [hfirst, hsecond]
  exact dif_neg hm'.ne'

theorem denotes_finite (s : Sign) {m : Nat} {e : Int} (hm : 0 < m) (h : Full m e) :
    Denotes (.finite s m e hm) (signed s (m * 2 ^ e)) := by
  cases s
  · exact .negative hm h
  · exact .positive hm h

theorem denotes_zero (s : Sign) : Denotes (.zero s) (signed s 0) := by
  cases s
  · rw [signed, neg_zero]
    exact .zero _
  · exact .zero _

/-- The rounded mantissa is the result, up to one bit more that rounding up may fill. -/
theorem denotes_of_shift (s : Sign) {m : Nat} {e e₁ : Int} {accuracy : Accuracy}
    {em : ExtendedMantissa}
    (hfirst : shiftToTargetExponent Format.binary64 m e accuracy = (em, e₁))
    (hfits : em.roundedMantissa ≤ 2 ^ 53) (hleast : -1074 ≤ e₁)
    (hfilled : 2 ^ 52 ≤ em.roundedMantissa ∨ e₁ = -1074) :
    Denotes (roundWithAccuracy Format.binary64 s m e accuracy)
      (signed s (em.roundedMantissa * 2 ^ e₁)) := by
  rcases Nat.eq_zero_or_pos em.roundedMantissa with hzero | hpos
  · have hfull : Full 0 e₁ := ⟨by omega, hleast, by omega⟩
    have hsecond := shiftToTargetExponent_of_full hfull
    have hround : roundWithAccuracy Format.binary64 s m e accuracy = .zero s := by
      unfold roundWithAccuracy
      simp only [hfirst, hzero, hsecond]
      rfl
    rw [hround, hzero, Nat.cast_zero, zero_mul]
    exact denotes_zero s
  · by_cases hcarry : em.roundedMantissa = 2 ^ 53
    · have hsecond := shiftToTargetExponent_carry hleast
      rw [← hcarry] at hsecond
      have hfull : Full (2 ^ 52) (e₁ + 1) := ⟨by omega, by omega, .inl (le_refl _)⟩
      have hvalue : ((2 ^ 53 : ℕ) : ℚ) * 2 ^ e₁ = (2 ^ 52 : ℕ) * 2 ^ (e₁ + 1) := by
        rw [zpow_add_one₀ (by norm_num)]
        push_cast
        ring
      rw [roundWithAccuracy_of_shifts s (by omega) hfirst hsecond, hcarry, hvalue]
      exact denotes_finite s _ hfull
    · have hfull : Full em.roundedMantissa e₁ := ⟨by omega, hleast, hfilled⟩
      have hsecond := shiftToTargetExponent_of_full hfull
      rw [roundWithAccuracy_of_shifts s hpos hfirst hsecond]
      exact denotes_finite s hpos hfull

/-! ## Rounding -/

/-- The unpacked number denotes `q` rounded. -/
def Rounded (u : UnpackedFloat) (q : ℚ) : Prop :=
  ∃ r, Denotes u r ∧ Faithful r q

/-- The bits that are kept fit a mantissa, and fill it unless the exponents end. -/
theorem kept_bits {m t : Nat} {e : Int} (ht : max ((m.log2 : Int) + e - 52) (-1074) = e + t)
    (hplaced : 52 ≤ m.log2 ∨ e ≤ -1074) :
    m / 2 ^ t < 2 ^ 53 ∧ -1074 ≤ e + t ∧ (2 ^ 52 ≤ m / 2 ^ t ∨ e + t = -1074) := by
  refine ⟨?_, by omega, ?_⟩
  · rw [Nat.div_lt_iff_lt_mul (Nat.two_pow_pos t), ← pow_add]
    calc m < 2 ^ (m.log2 + 1) := Nat.lt_log2_self
      _ ≤ 2 ^ (53 + t) := Nat.pow_le_pow_right Nat.two_pos (by omega)
  · by_cases hleast : e + t = -1074
    · exact .inr hleast
    · have hlog : m.log2 = 52 + t := by omega
      have hm : m ≠ 0 := by
        rintro rfl
        rw [Nat.log2_zero] at hlog
        omega
      left
      rw [Nat.le_div_iff_mul_le (Nat.two_pow_pos t), ← pow_add, ← hlog]
      exact Nat.log2_self_le hm

/-- The mantissa must have enough bits to fill one of fifty-three, unless the exponent is
beyond the least one. -/
theorem rounded_roundWithAccuracy (s : Sign) {m : Nat} {e : Int} {accuracy : Accuracy} {q : ℚ}
    (hq : Begins (.ofMantissaAndAccuracy m accuracy) q) (hpos : 0 < q)
    (hplaced : 52 ≤ m.log2 ∨ e ≤ -1074) :
    Rounded (roundWithAccuracy Format.binary64 s m e accuracy) (signed s (q * 2 ^ e)) := by
  obtain ⟨t, ht⟩ : ∃ t : Nat, max ((m.log2 : Int) + e - 52) (-1074) = e + t :=
    ⟨(max ((m.log2 : Int) + e - 52) (-1074) - e).toNat, by omega⟩
  obtain ⟨hfits, hleast, hfilled⟩ := kept_bits ht hplaced
  have hfirst := shiftToTargetExponent_of_placed accuracy ht
  have hmantissa : (ExtendedMantissa.ofMantissaAndAccuracy m accuracy >>> t).mantissa = m / 2 ^ t := by
    rw [mantissa_shiftRight, mantissa_ofMantissaAndAccuracy]
  have hbegins := hq.shiftRight t
  generalize ExtendedMantissa.ofMantissaAndAccuracy m accuracy >>> t = em at hfirst hmantissa hbegins
  have hbounds := roundedMantissa_bounds em
  have hkept := hbegins.le
  rw [hmantissa] at hbounds hkept
  have hscaled : q * 2 ^ e = q / 2 ^ t * 2 ^ (e + t) := by
    rw [zpow_add₀ (by norm_num), zpow_natCast]
    field_simp
  have hfilled' : (2 : ℚ) ^ 52 ≤ q / 2 ^ t ∨ e + t = -1074 :=
    hfilled.imp_left fun h => le_trans (by exact_mod_cast h) hkept
  rw [hscaled]
  refine ⟨_, ?_, (faithful_nearest (by positivity) hbegins.rounded hfilled').signed s⟩
  exact denotes_of_shift s hfirst (by omega) hleast (hfilled.imp_left fun h => by omega)

/-- Written with more zeros at the end, a number is the same. -/
theorem scaled_shift (m i : Nat) (e : Int) : ((m * 2 ^ i : ℕ) : ℚ) * 2 ^ (e - i) = m * 2 ^ e := by
  rw [zpow_sub₀ (by norm_num), zpow_natCast]
  push_cast
  field_simp

theorem log2_mul_pow {k : Nat} (hk : 0 < k) (j : Nat) : (k * 2 ^ j).log2 = k.log2 + j := by
  obtain ⟨hlow, hhigh⟩ := (Nat.log2_eq_iff hk.ne').mp rfl
  have hpos : 0 < 2 ^ j := Nat.two_pow_pos j
  refine (Nat.log2_eq_iff (Nat.mul_pos hk hpos).ne').mpr ⟨?_, ?_⟩
  · rw [pow_add]
    exact Nat.mul_le_mul_right _ hlow
  · rw [Nat.add_right_comm, pow_add]
    exact Nat.mul_lt_mul_of_pos_right hhigh hpos

theorem rounded_round (s : Sign) {m : Nat} (hm : 0 < m) (e : Int) :
    Rounded (UnpackedFloat.round Format.binary64 s m e) (signed s (m * 2 ^ e)) := by
  -- a short mantissa is first filled up with zeros
  obtain ⟨i, hi⟩ : ∃ i, (e - max ((m.log2 : Int) + e - 52) (-1074)).toNat = i := ⟨_, rfl⟩
  have hlog := log2_mul_pow hm i
  have hpos : 0 < m * 2 ^ i := Nat.mul_pos hm (Nat.two_pow_pos i)
  unfold UnpackedFloat.round decreaseExponent
  simp only [targetExponent_eq, hi, Nat.shiftLeft_eq]
  rw [← scaled_shift m i e]
  exact rounded_roundWithAccuracy s (begins_exact _) (by exact_mod_cast hpos) (by omega)

theorem rounded_zero (s : Sign) : Rounded (.zero s) 0 :=
  ⟨0, .zero s, .refl 0⟩

theorem rounded_normalize (z e : Int) (zeroSign : Sign) :
    Rounded (UnpackedFloat.normalize Format.binary64 z e zeroSign) (z * 2 ^ e) := by
  unfold UnpackedFloat.normalize
  rcases lt_trichotomy z 0 with hneg | rfl | hgt
  · obtain ⟨k, rfl⟩ : ∃ k : Nat, z = -k := ⟨z.natAbs, by omega⟩
    rw [compare_lt_iff_lt.mpr hneg, Int.cast_neg, neg_mul]
    simp only [neg_neg, Int.toNat_natCast, Int.cast_natCast]
    exact rounded_round .negative (by omega) e
  · rw [Int.cast_zero, zero_mul]
    exact rounded_zero zeroSign
  · obtain ⟨k, rfl⟩ : ∃ k : Nat, z = k := ⟨z.natAbs, by omega⟩
    rw [compare_gt_iff_gt.mpr hgt]
    simp only [Int.toNat_natCast, Int.cast_natCast]
    exact rounded_round .positive (by omega) e

/-! ## Operations -/

section Operations

variable {u v : UnpackedFloat} {a b : ℚ}

theorem Denotes.cases_signed (h : Denotes u a) :
    (∃ s, u = .zero s ∧ a = 0) ∨
      ∃ s m e hm, u = .finite s m e hm ∧ Full m e ∧ a = signed s (m * 2 ^ e) := by
  cases h with
  | zero s => exact .inl ⟨s, rfl, rfl⟩
  | positive hm h => exact .inr ⟨.positive, _, _, hm, rfl, h, rfl⟩
  | negative hm h => exact .inr ⟨.negative, _, _, hm, rfl, h, rfl⟩

theorem Denotes.neg (h : Denotes u a) : Denotes u.neg (-a) := by
  cases h with
  | zero s =>
      rw [neg_zero]
      exact .zero (-s)
  | positive hm h => exact .negative hm h
  | negative hm h =>
      rw [neg_neg]
      exact .positive hm h

theorem Denotes.eq_positive (h : Denotes u a) (ha : 0 < a) :
    ∃ m e hm, u = .finite .positive m e hm := by
  cases h with
  | zero s => exact absurd ha (lt_irrefl 0)
  | positive hm h => exact ⟨_, _, hm, rfl⟩
  | negative hm h => exact absurd ha (neg_lt_zero.mpr (scaled_pos hm)).not_gt

theorem Denotes.rounded (h : Denotes u a) : Rounded u a :=
  ⟨a, h, .refl a⟩

theorem apply_decreaseExponent (s : Sign) (m : Nat) {e e₀ : Int} (h : e₀ ≤ e) :
    ((s.apply (decreaseExponent m e e₀).1 : Int) : ℚ) * 2 ^ e₀ = signed s (m * 2 ^ e) := by
  obtain ⟨i, rfl⟩ : ∃ i : Nat, e₀ = e - i := ⟨(e - e₀).toNat, by omega⟩
  have hshift : (e - (e - (i : Int))).toNat = i := by omega
  have hvalue := scaled_shift m i e
  unfold decreaseExponent
  simp only [hshift, Nat.shiftLeft_eq]
  cases s
  · show ((-((m * 2 ^ i : ℕ) : Int) : Int) : ℚ) * 2 ^ (e - i) = -(m * 2 ^ e)
    rw [← hvalue, Int.cast_neg, Int.cast_natCast, neg_mul]
  · exact hvalue

theorem Denotes.add (hu : Denotes u a) (hv : Denotes v b) :
    Rounded (UnpackedFloat.add Format.binary64 u v) (a + b) := by
  obtain ⟨s, rfl, rfl⟩ | ⟨s, m, e, hm, rfl, hfull, rfl⟩ := hu.cases_signed
  · rw [zero_add]
    obtain ⟨t, rfl, rfl⟩ | ⟨t, m', e', hm', rfl, hfull', rfl⟩ := hv.cases_signed
    · cases s <;> cases t <;> exact rounded_zero _
    · exact hv.rounded
  · obtain ⟨t, rfl, rfl⟩ | ⟨t, m', e', hm', rfl, hfull', rfl⟩ := hv.cases_signed
    · rw [add_zero]
      exact hu.rounded
    · -- both are written with the lesser of the two exponents
      have hsum := rounded_normalize (s.apply (decreaseExponent m e (min e e')).1 +
        t.apply (decreaseExponent m' e' (min e e')).1) (min e e') .positive
      rw [Int.cast_add, add_mul, apply_decreaseExponent s m (min_le_left e e'),
        apply_decreaseExponent t m' (min_le_right e e')] at hsum
      exact hsum

theorem apply_neg (s : Sign) (z : Int) : (-s).apply z = -s.apply z := by
  cases s
  · exact (neg_neg z).symm
  · rfl

theorem sub_eq_add (u v : UnpackedFloat) :
    UnpackedFloat.sub Format.binary64 u v = UnpackedFloat.add Format.binary64 u v.neg := by
  cases u <;> cases v
  case finite.finite s m e hm t m' e' hm' =>
    simp only [UnpackedFloat.sub, UnpackedFloat.add, UnpackedFloat.neg, apply_neg,
      ← sub_eq_add_neg]
  all_goals rfl

theorem Denotes.sub (hu : Denotes u a) (hv : Denotes v b) :
    Rounded (UnpackedFloat.sub Format.binary64 u v) (a - b) := by
  rw [sub_eq_add, sub_eq_add_neg]
  exact hu.add hv.neg

theorem Denotes.mul (hu : Denotes u a) (hv : Denotes v b) :
    Rounded (UnpackedFloat.mul Format.binary64 u v) (a * b) := by
  obtain ⟨s, rfl, rfl⟩ | ⟨s, m, e, hm, rfl, hfull, rfl⟩ := hu.cases_signed
  · rw [zero_mul]
    obtain ⟨t, rfl, rfl⟩ | ⟨t, m', e', hm', rfl, hfull', rfl⟩ := hv.cases_signed
    · exact rounded_zero _
    · exact rounded_zero _
  · obtain ⟨t, rfl, rfl⟩ | ⟨t, m', e', hm', rfl, hfull', rfl⟩ := hv.cases_signed
    · rw [mul_zero]
      exact rounded_zero _
    · have hpos : 0 < m * m' := Nat.mul_pos hm hm'
      -- one full mantissa gives the product enough bits
      have hplaced : 52 ≤ (m * m').log2 ∨ e + e' ≤ -1074 := by
        rcases hfull.filled with hfilled | hleast
        · exact .inl ((Nat.le_log2 hpos.ne').mpr (hfilled.trans (Nat.le_mul_of_pos_right m hm')))
        · rcases hfull'.filled with hfilled' | hleast'
          · exact .inl ((Nat.le_log2 hpos.ne').mpr (hfilled'.trans (Nat.le_mul_of_pos_left m' hm)))
          · right
            omega
      have hvalue : (m : ℚ) * 2 ^ e * (m' * 2 ^ e') = (m * m' : ℕ) * 2 ^ (e + e') := by
        rw [zpow_add₀ (by norm_num)]
        push_cast
        ring
      rw [signed_mul, hvalue]
      exact rounded_roundWithAccuracy (s * t) (begins_exact _) (by exact_mod_cast hpos) hplaced

/-- A quotient is computed with as many bits as it takes to fill the mantissa. -/
theorem log2_quotient {m m' i : Nat} {e e' : Int} (hm : 0 < m) (hm' : 0 < m')
    (hi : min (e - e') (Format.binary64.targetExponent
      (totalExponent m e - totalExponent m' e')) = e - e' - i) :
    52 ≤ (m * 2 ^ i / m').log2 ∨ e - e' - i ≤ -1074 := by
  have htarget : Format.binary64.targetExponent (totalExponent m e - totalExponent m' e') =
      max (totalExponent m e - totalExponent m' e' - 53) (-1074) := rfl
  have hexponent : totalExponent m e - totalExponent m' e' = m.log2 + e - (m'.log2 + e') := by
    unfold totalExponent
    omega
  rw [htarget, hexponent] at hi
  by_cases hleast : e - e' - i ≤ -1074
  · exact .inr hleast
  · left
    have hbits : 2 ^ 52 ≤ m * 2 ^ i / m' := by
      rw [Nat.le_div_iff_mul_le hm']
      calc 2 ^ 52 * m' ≤ 2 ^ 52 * 2 ^ (m'.log2 + 1) :=
            Nat.mul_le_mul_left _ Nat.lt_log2_self.le
        _ = 2 ^ (52 + (m'.log2 + 1)) := (pow_add 2 52 _).symm
        _ ≤ 2 ^ (m.log2 + i) := Nat.pow_le_pow_right Nat.two_pos (by omega)
        _ = 2 ^ m.log2 * 2 ^ i := pow_add 2 _ _
        _ ≤ m * 2 ^ i := Nat.mul_le_mul_right _ (Nat.log2_self_le hm.ne')
    exact (Nat.le_log2 (by omega)).mpr hbits

theorem Denotes.div (hu : Denotes u a) (hv : Denotes v b) (hb : b ≠ 0) :
    Rounded (UnpackedFloat.div Format.binary64 u v) (a / b) := by
  obtain ⟨t, rfl, rfl⟩ | ⟨t, m', e', hm', rfl, hfull', rfl⟩ := hv.cases_signed
  · exact absurd rfl hb
  · obtain ⟨s, rfl, rfl⟩ | ⟨s, m, e, hm, rfl, hfull, rfl⟩ := hu.cases_signed
    · rw [zero_div]
      exact rounded_zero _
    · -- the dividend is written with `i` zeros more
      obtain ⟨i, hi⟩ : ∃ i : Nat, min (e - e') (Format.binary64.targetExponent
          (totalExponent m e - totalExponent m' e')) = e - e' - i :=
        ⟨(e - e' - min (e - e') (Format.binary64.targetExponent
          (totalExponent m e - totalExponent m' e'))).toNat, by omega⟩
      have hshift : (e - e' - (e - e' - (i : Int))).toNat = i := by omega
      have hm'' : (0 : ℚ) < m' := by exact_mod_cast hm'
      have hvalue : (m : ℚ) * 2 ^ e / (m' * 2 ^ e') = (m * 2 ^ i : ℕ) / m' * 2 ^ (e - e' - i) := by
        rw [zpow_sub₀ (by norm_num), zpow_sub₀ (by norm_num), zpow_natCast]
        push_cast
        field_simp
      have hpos : (0 : ℚ) < (m * 2 ^ i : ℕ) / m' := by
        have hpower : 0 < m * 2 ^ i := Nat.mul_pos hm (Nat.two_pow_pos i)
        exact div_pos (by exact_mod_cast hpower) hm''
      show Rounded (roundWithAccuracy Format.binary64 (s / t) (divCore Format.binary64 m e m' e').1
        (divCore Format.binary64 m e m' e').2.1 (divCore Format.binary64 m e m' e').2.2) _
      unfold divCore
      simp only [hi, hshift, Nat.shiftLeft_eq]
      rw [signed_div, hvalue]
      exact rounded_roundWithAccuracy (s / t) (begins_accuracyOfFraction hm') hpos
        (log2_quotient hm hm' hi)

end Operations

end UnitCalc.Binary64
