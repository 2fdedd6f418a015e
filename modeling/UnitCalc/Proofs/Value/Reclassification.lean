import Mathlib
import UnitCalc.Proofs.Number.Patterns
import UnitCalc.Proofs.Number.Whole
import UnitCalc.Value

/-!
# Reclassification

A result becomes an integer again if it is one, and stays a real number otherwise. The
passage from the one kind to the other keeps the value of every pattern of bits, and the
passage back, within the exact range, undoes it.
-/

namespace UnitCalc

open Binary64 (exponentField fractionField patternValue?)

variable {bits : UInt64} {n : Int64}

/-- The pattern stands for no integer within the exact range: it is an infinity or no
number, a number that is not whole, as all subnormal ones are, or one that is too large. -/
inductive NotExactInteger (bits : UInt64) : Prop
  | special (h : exponentField bits = 2047)
  | subnormal (hexponent : exponentField bits = 0) (hfraction : fractionField bits ≠ 0)
  | fractional {v : ℚ} (h : patternValue? bits = some (.ofRat v)) (hv : ∀ k : ℤ, v ≠ k)
  | large {v : ℚ} (h : patternValue? bits = some (.ofRat v)) (hv : 2 ^ 53 - 1 < |v|)

theorem NotExactInteger.patternValue?_ne (h : NotExactInteger bits)
    (hn : |n.toInt| ≤ 2 ^ 53 - 1) : patternValue? bits ≠ some (.ofRat n.toInt) := by
  intro hvalue
  have same : ∀ {v : ℚ}, patternValue? bits = some (.ofRat v) → v = n.toInt := by
    intro v hv
    exact Extended.strictMono_ofRat.injective (Option.some.inj (hv.symm.trans hvalue))
  cases h with
  | special h => exact Binary64.exponentField_ne hvalue h
  | subnormal hexponent hfraction =>
      obtain ⟨hpos, hlt⟩ := Binary64.abs_subnormal hexponent hfraction hvalue
      have hbetween : 0 < |n.toInt| ∧ |n.toInt| < 1 := by exact_mod_cast And.intro hpos hlt
      omega
  | fractional h hv => exact hv n.toInt (same h)
  | large h hv =>
      rw [same h] at hv
      have hlarge : 2 ^ 53 - 1 < |n.toInt| := by exact_mod_cast hv
      omega

namespace Number

theorem integer?_ofBits_iff :
    integer? (.ofBits bits) = some n ↔
      patternValue? bits = some (.ofRat n.toInt) ∧ |n.toInt| ≤ 2 ^ 53 - 1 := by
  rw [integer?_eq_some_iff, Binary64.value?_ofFloat_ofBits, Binary64.natAbs_le_exactLimit_iff]

theorem integer?_eq_none_iff : integer? (.ofBits bits) = none ↔ NotExactInteger bits := by
  constructor
  · intro hnone
    by_cases hspecial : exponentField bits = 2047
    · exact .special hspecial
    · obtain ⟨v, hv⟩ := Binary64.exists_patternValue? hspecial
      by_cases hwhole : ∃ k : ℤ, v = k
      · obtain ⟨k, rfl⟩ := hwhole
        refine .large hv ?_
        by_contra! hsmall
        have hk : |k| ≤ 2 ^ 53 - 1 := by exact_mod_cast hsmall
        -- then the integer would have been found
        have hint := toInt_ofInt (Binary64.natAbs_le_exactLimit_iff.mpr hk)
        have hsome : integer? (.ofBits bits) = some (Int64.ofInt k) := by
          rw [integer?_ofBits_iff, hint]
          exact ⟨hv, hk⟩
        rw [hnone] at hsome
        cases hsome
      · exact .fractional hv fun k hk => hwhole ⟨k, hk⟩
  · intro h
    cases hfound : integer? (.ofBits bits) with
    | none => rfl
    | some n =>
        obtain ⟨hvalue, hn⟩ := integer?_ofBits_iff.mp hfound
        exact absurd hvalue (h.patternValue?_ne hn)

/-- Within the exact range an integer comes back from the number it becomes. -/
theorem integer?_ofInteger (h : n.toInt.natAbs ≤ exactLimit) : integer? (ofInteger n) = some n :=
  integer?_eq_some_iff.mpr ⟨value?_ofInteger h, h⟩

theorem exactOfInteger?_eq_some {x : Float} :
    exactOfInteger? n = some x ↔ n.toInt.natAbs ≤ exactLimit ∧ ofInteger n = x := by
  rw [exactOfInteger?]
  split_ifs with h <;> simp [h]

end Number

namespace Value

/-- The number of a reclassified result has the value of the result. -/
theorem value?_number?_ofNumber (x : Float) :
    ∃ y, (ofNumber x).number? = some y ∧
      (Exact.ofFloat y).value? = (Exact.ofFloat x).value? := by
  rw [ofNumber]
  cases h : Number.integer? x with
  | none => exact ⟨x, rfl, rfl⟩
  | some n =>
      obtain ⟨hvalue, hn⟩ := Number.integer?_eq_some_iff.mp h
      exact ⟨Number.ofInteger n, rfl, (Number.value?_ofInteger hn).trans hvalue.symm⟩

/-- **Reclassification is exact on every pattern of bits.** A pattern is taken for an integer
exactly if it stands for that integer and the integer is in the exact range. So a result
has the same value after it, and an integer of the range comes back from the number it
becomes. The conversion with a check gives a number for these integers alone. -/
theorem reclassification_exact :
    (∀ (bits : UInt64) (n : Int64), Number.integer? (.ofBits bits) = some n ↔
        patternValue? bits = some (.ofRat n.toInt) ∧ |n.toInt| ≤ 2 ^ 53 - 1) ∧
      (∀ bits : UInt64, Number.integer? (.ofBits bits) = none ↔ NotExactInteger bits) ∧
      (∀ bits : UInt64, exponentField bits = 0 → fractionField bits = 0 →
        Number.integer? (.ofBits bits) = some 0) ∧
      (∀ (bits : UInt64) (p : Extended), patternValue? bits = some p →
        ∃ y, (ofNumber (.ofBits bits)).number? = some y ∧ patternValue? y.toBits = some p) ∧
      (∀ n : Int64, |n.toInt| ≤ 2 ^ 53 - 1 →
        ∃ x, (integer n).number? = some x ∧ ofNumber x = integer n) ∧
      ∀ n : Int64, ((∃ x, Number.exactOfInteger? n = some x) ↔ |n.toInt| ≤ 2 ^ 53 - 1) ∧
        ∀ x, Number.exactOfInteger? n = some x → Number.integer? x = some n := by
  refine ⟨fun bits n => Number.integer?_ofBits_iff, fun bits => Number.integer?_eq_none_iff,
    fun bits hexponent hfraction => ?_, fun bits p hp => ?_, fun n hn => ?_, fun n => ⟨?_, ?_⟩⟩
  · have hzero := Binary64.patternValue?_zero hexponent hfraction
    rw [Number.integer?_ofBits_iff, hzero]
    exact ⟨by simp, by simp⟩
  · obtain ⟨y, hy, hsame⟩ := value?_number?_ofNumber (.ofBits bits)
    rw [Binary64.value?_ofFloat, Binary64.value?_ofFloat_ofBits, hp] at hsame
    exact ⟨y, hy, hsame⟩
  · rw [← Binary64.natAbs_le_exactLimit_iff] at hn
    refine ⟨Number.ofInteger n, rfl, ?_⟩
    rw [ofNumber, Number.integer?_ofInteger hn]
  · simp only [Number.exactOfInteger?_eq_some, exists_and_left, exists_eq', and_true,
      Binary64.natAbs_le_exactLimit_iff]
  · intro x hx
    obtain ⟨hn, rfl⟩ := Number.exactOfInteger?_eq_some.mp hx
    exact Number.integer?_ofInteger hn

/-- The greatest integer of the exact range and the number after it, the zero with a
sign, the least subnormal number, an infinity, and the least integer of the range. -/
theorem reclassification_exact_at_limit :
    let n : Int64 := -9007199254740991
    patternValue? 0x433fffffffffffff = some (.ofRat (9007199254740991 : Int64).toInt) ∧
      Number.integer? (.ofBits 0x433fffffffffffff) = some 9007199254740991 ∧
      patternValue? 0x4340000000000000 = some (.ofRat (2 ^ 53)) ∧
      Number.integer? (.ofBits 0x4340000000000000) = none ∧
      Number.integer? (.ofBits 0x8000000000000000) = some 0 ∧
      Number.integer? (.ofBits 1) = none ∧
      patternValue? 0xfff0000000000000 = some ⊥ ∧
      (∃ y, (ofNumber (.ofBits 0xfff0000000000000)).number? = some y ∧
        patternValue? y.toBits = some ⊥) ∧
      |n.toInt| ≤ 2 ^ 53 - 1 ∧
      (∃ x, (integer n).number? = some x ∧ ofNumber x = integer n) ∧
      ∃ x, Number.exactOfInteger? n = some x ∧ Number.integer? x = some n := by
  intro n
  obtain ⟨found, notFound, zeros, kept, back, checked⟩ := reclassification_exact
  have greatest : patternValue? 0x433fffffffffffff =
      some (.ofRat (9007199254740991 : Int64).toInt) := by decide +kernel
  have next : patternValue? 0x4340000000000000 = some (.ofRat (2 ^ 53)) := by decide +kernel
  have bottom : patternValue? 0xfff0000000000000 = some ⊥ := by decide +kernel
  have range : |n.toInt| ≤ 2 ^ 53 - 1 := by decide +kernel
  obtain ⟨x, hx⟩ := (checked n).1.mpr range
  refine ⟨greatest, (found _ _).mpr ⟨greatest, by decide +kernel⟩, next,
    (notFound _).mpr (.large next (by norm_num)), ?_, ?_, bottom, kept _ _ bottom, range,
    back n range, x, hx, (checked n).2 x hx⟩
  · exact zeros _ (by decide +kernel) (by decide +kernel)
  · exact (notFound _).mpr (.subnormal (by decide +kernel) (by decide +kernel))

end Value

end UnitCalc
