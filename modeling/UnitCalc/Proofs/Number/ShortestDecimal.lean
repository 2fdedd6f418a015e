import Mathlib
import UnitCalc.Number.Shortest
import UnitCalc.Proofs.Number.Nearest

/-!
# What the shortest decimal says of a number

The decimal that is shown rounds to the number, so it is at most half a unit of the last
place away. A number that is not whole has no whole number that near, and the search for
the decimal goes on to the digits after the point. A whole number ends the search at the
latest when its turn comes.
-/

namespace UnitCalc

open Binary64 (Close)
open Exact (Full)

/-- The number that a decimal stands for. -/
def Decimal.value (d : Decimal) : ℚ := d.digits * 10 ^ d.exponent

namespace Neighbourhood

/-! ## Points of a grid -/

section Grid

variable {h : Neighbourhood} {amount point : Nat} {scale k : Int}

theorem gridUnit_pos (scale k : Int) : (0 : ℚ) < gridUnit scale k := by
  have hpos : 0 < gridUnit scale k := by
    rw [gridUnit, Nat.one_shiftLeft, Nat.pow_eq]
    positivity
  exact_mod_cast hpos

/-- A power of an integer exponent, as two of natural exponents of which one is trivial. -/
theorem zpow_mul_pow_toNat {b : ℚ} (hb : b ≠ 0) (k : Int) :
    b ^ k * b ^ (-k).toNat = b ^ k.toNat := by
  rw [← zpow_natCast, ← zpow_natCast, ← zpow_add₀ hb]
  congr 1
  omega

theorem onGrid_eq (amount : Nat) (scale k : Int) :
    (onGrid amount scale k : ℚ) * 10 ^ k = amount * 2 ^ scale * gridUnit scale k := by
  have htwo := zpow_mul_pow_toNat (b := 2) (by norm_num) scale
  have hten := zpow_mul_pow_toNat (b := 10) (by norm_num) k
  rw [onGrid, gridUnit, Nat.one_shiftLeft, Nat.shiftLeft_eq, Nat.pow_eq, Nat.pow_eq]
  push_cast
  rw [← htwo, ← hten]
  ring

theorem onGrid_le_iff :
    onGrid amount scale k ≤ point * gridUnit scale k ↔ (amount * 2 ^ scale : ℚ) ≤ point * 10 ^ k := by
  have hten : (0 : ℚ) < 10 ^ k := by positivity
  rw [← mul_le_mul_iff_of_pos_right (gridUnit_pos scale k), ← onGrid_eq, mul_right_comm,
    mul_le_mul_iff_of_pos_right hten]
  exact_mod_cast Iff.rfl

theorem le_onGrid_iff :
    point * gridUnit scale k ≤ onGrid amount scale k ↔ (point * 10 ^ k : ℚ) ≤ amount * 2 ^ scale := by
  have hten : (0 : ℚ) < 10 ^ k := by positivity
  rw [← mul_le_mul_iff_of_pos_right (gridUnit_pos scale k), ← onGrid_eq, mul_right_comm,
    mul_le_mul_iff_of_pos_right hten]
  exact_mod_cast Iff.rfl

/-- A point that rounds to the number is between the ends. -/
theorem between_of_contains (hpoint : h.contains k point = true) :
    (h.lower * 2 ^ h.scale : ℚ) ≤ point * 10 ^ k ∧ (point * 10 ^ k : ℚ) ≤ h.upper * 2 ^ h.scale := by
  rw [← onGrid_le_iff, ← le_onGrid_iff]
  unfold contains at hpoint
  split at hpoint
  · exact of_decide_eq_true hpoint
  · obtain ⟨hlow, hhigh⟩ := of_decide_eq_true hpoint
    exact ⟨hlow.le, hhigh.le⟩

theorem contains_of_pointOn? (hpoint : h.pointOn? k = some point) :
    h.contains k point = true := by
  simp only [pointOn?] at hpoint
  split at hpoint
  · next hbelow habove =>
      obtain rfl := Option.some.inj hpoint
      split
      · exact hbelow
      · exact habove
  · next hbelow _ =>
      obtain rfl := Option.some.inj hpoint
      exact hbelow
  · next _ habove =>
      obtain rfl := Option.some.inj hpoint
      exact habove
  · cases hpoint

/-- A number on the grid is its own floor there. -/
theorem floorOn_of_onGrid (hpoint : (h.middle * 2 ^ h.scale : ℚ) = point * 10 ^ k) :
    h.floorOn k = point := by
  have hgrid : onGrid h.middle h.scale k = point * gridUnit h.scale k :=
    le_antisymm (onGrid_le_iff.mpr hpoint.le) (le_onGrid_iff.mpr hpoint.ge)
  have hunit : 0 < gridUnit h.scale k := by exact_mod_cast gridUnit_pos h.scale k
  rw [floorOn, hgrid, Nat.mul_div_cancel point hunit]

/-- The number rounds to itself. -/
theorem pointOn?_ne_none (hpoint : (h.middle * 2 ^ h.scale : ℚ) = point * 10 ^ k)
    (hlower : h.lower < h.middle) (hupper : h.middle < h.upper) : h.pointOn? k ≠ none := by
  have hscale : (0 : ℚ) < 2 ^ h.scale := by positivity
  have hlow : onGrid h.lower h.scale k < point * gridUnit h.scale k := by
    rw [← not_le, le_onGrid_iff, ← hpoint, mul_le_mul_iff_of_pos_right hscale, not_le]
    exact_mod_cast hlower
  have hhigh : point * gridUnit h.scale k < onGrid h.upper h.scale k := by
    rw [← not_le, onGrid_le_iff, ← hpoint, mul_le_mul_iff_of_pos_right hscale, not_le]
    exact_mod_cast hupper
  have hcontains : h.contains k (h.floorOn k) = true := by
    rw [floorOn_of_onGrid hpoint, contains]
    simp [hlow, hhigh, hlow.le, hhigh.le]
  simp only [pointOn?, hcontains]
  cases h.contains k (h.floorOn k + 1) <;> simp

end Grid

/-! ## The search -/

/-- How a search over the grids from `first` down to `last` ends. -/
inductive Ends (h : Neighbourhood) (first last : Int) : Decimal → Prop
  | found {point : Nat} {k : Int} (hpoint : h.pointOn? k = some point) (hlast : last < k)
      (hfirst : k ≤ first) (hcoarser : ∀ j, k < j → j ≤ first → h.pointOn? j = none) :
      Ends h first last ⟨point, k⟩
  | floor (hcoarser : ∀ j, last < j → j ≤ first → h.pointOn? j = none) :
      Ends h first last ⟨h.floorOn last, last⟩

/-- The search does not get past a grid with a point. -/
theorem Ends.le_exponent {h : Neighbourhood} {first last k : Int} {d : Decimal}
    (hends : Ends h first last d) (hk : k ≤ first) (hpoint : h.pointOn? k ≠ none) :
    k ≤ d.exponent := by
  cases hends with
  | found _ _ _ hcoarser =>
      by_contra hbelow
      exact hpoint (hcoarser k (not_le.mp hbelow) hk)
  | floor hcoarser =>
      by_contra hbelow
      exact hpoint (hcoarser k (not_le.mp hbelow) hk)

theorem ends_search (h : Neighbourhood) (steps : Nat) (k : Int) :
    Ends h k (k - steps) (h.search steps k) := by
  induction steps generalizing k with
  | zero =>
      rw [search, Int.natCast_zero, Int.sub_zero]
      exact .floor fun j hlow hhigh => absurd hhigh (not_le.mpr hlow)
  | succ steps ih =>
      rw [search]
      cases hpoint : h.pointOn? k with
      | some point =>
          exact .found hpoint (by omega) (le_refl k) fun j hlow hhigh => absurd hhigh (not_le.mpr hlow)
      | none =>
          have hlast : k - 1 - (steps : Int) = k - (steps + 1 : Nat) := by omega
          have hcoarser : ∀ i, (∀ j, i < j → j ≤ k - 1 → h.pointOn? j = none) →
              ∀ j, i < j → j ≤ k → h.pointOn? j = none := by
            intro i hbelow j hlow hhigh
            rcases Int.lt_or_eq_of_le hhigh with hlt | rfl
            · exact hbelow j hlow (by omega)
            · exact hpoint
          have hends := ih (k - 1)
          rw [hlast] at hends
          show Ends h k (k - (steps + 1 : Nat)) (h.search steps (k - 1))
          generalize h.search steps (k - 1) = d at hends
          cases hends with
          | found hpoint hlast hfirst hbelow =>
              exact .found hpoint hlast (by omega) (hcoarser _ hbelow)
          | floor hbelow => exact .floor (hcoarser _ hbelow)

/-! ## The neighbourhood of a binary64 number -/

section Parts

variable {m point : Nat} {e k : Int}

theorem middle_ofParts (m : Nat) (e : Int) :
    ((ofParts m e).middle * 2 ^ (ofParts m e).scale : ℚ) = m * 2 ^ e := by
  have hscale : (2 : ℚ) ^ e = 2 ^ (e - 2) * 2 ^ 2 := by
    rw [← zpow_natCast, ← zpow_add₀ (by norm_num)]
    congr 1
    omega
  simp only [ofParts]
  rw [hscale]
  push_cast
  ring

theorem lower_ofParts (hm : 0 < m) (e : Int) :
    4 * m ≤ (ofParts m e).lower + 2 ∧ (ofParts m e).lower < (ofParts m e).middle := by
  simp only [ofParts]
  split <;> omega

theorem upper_ofParts (m : Nat) (e : Int) : (ofParts m e).middle < (ofParts m e).upper := by
  simp only [ofParts]
  omega

/-- A point that rounds to a number is half a unit of its last place away at most. -/
theorem abs_sub_le_of_contains (hm : 0 < m) (hpoint : (ofParts m e).contains k point = true) :
    |(point * 10 ^ k : ℚ) - m * 2 ^ e| ≤ 2 ^ (e - 1) := by
  obtain ⟨hlow, hhigh⟩ := between_of_contains hpoint
  have hlower : (4 * m : ℚ) ≤ (ofParts m e).lower + 2 := by exact_mod_cast (lower_ofParts hm e).1
  have hupper : ((ofParts m e).upper : ℚ) = 4 * m + 2 := by
    simp only [ofParts]
    push_cast
    ring
  have hscale : (ofParts m e).scale = e - 2 := rfl
  have hfour : (2 : ℚ) ^ e = 4 * 2 ^ (e - 2) := by
    rw [zpow_sub₀ (by norm_num)]
    norm_num
    ring
  have htwo : (2 : ℚ) ^ (e - 1) = 2 * 2 ^ (e - 2) := by
    rw [zpow_sub₀ (by norm_num), zpow_sub₀ (by norm_num)]
    norm_num
    ring
  have hpos : (0 : ℚ) < 2 ^ (e - 2) := by positivity
  rw [hscale] at hlow hhigh
  rw [hupper] at hhigh
  rw [hfour, htwo, abs_le]
  generalize (2 : ℚ) ^ (e - 2) = unit at hlow hhigh hpos
  have hscaled := mul_le_mul_of_nonneg_right hlower hpos.le
  constructor <;> linarith

/-- Among the multiples of the last place, only the number itself is near enough. -/
theorem eq_of_contains_of_whole (hm : 0 < m) (he : e ≤ 0) (hk : 0 ≤ k)
    (hpoint : (ofParts m e).contains k point = true) : (point * 10 ^ k : ℚ) = m * 2 ^ e := by
  obtain ⟨i, hi⟩ := Int.eq_ofNat_of_zero_le (Int.neg_nonneg.mpr he)
  obtain rfl : e = -(i : Int) := by omega
  obtain ⟨j, rfl⟩ := Int.eq_ofNat_of_zero_le hk
  have herror := abs_sub_le_of_contains hm hpoint
  have hunit : (0 : ℚ) < 2 ^ i := by positivity
  have hhalf : (2 : ℚ) ^ (-(i : Int) - 1) = 1 / 2 / 2 ^ i := by
    rw [zpow_sub₀ (by norm_num), zpow_neg, zpow_natCast, zpow_one]
    field_simp
  rw [zpow_natCast, zpow_neg, zpow_natCast, ← div_eq_mul_inv] at herror ⊢
  rw [hhalf] at herror
  have hscaled : |((point * 10 ^ j * 2 ^ i : ℕ) : ℚ) - m| ≤ 1 / 2 := by
    have hsplit : (point * 10 ^ j : ℚ) - m / 2 ^ i = ((point * 10 ^ j * 2 ^ i : ℕ) - m) / 2 ^ i := by
      push_cast
      field_simp
    rwa [hsplit, abs_div, abs_of_pos hunit, div_le_div_iff_of_pos_right hunit] at herror
  have hequal : (point * 10 ^ j * 2 ^ i : ℕ) = m := by
    have hint : |((point * 10 ^ j * 2 ^ i : ℕ) : ℤ) - m| < 1 := by
      have hlt : |((point * 10 ^ j * 2 ^ i : ℕ) : ℚ) - m| < 1 := by linarith
      exact_mod_cast hlt
    rw [Int.abs_lt_one_iff] at hint
    omega
  rw [eq_div_iff hunit.ne']
  exact_mod_cast hequal

theorem finest_le_coarsest (h : Neighbourhood) : h.finest ≤ h.coarsest := by
  simp only [finest, coarsest]
  split <;> omega

theorem ends_shortest (h : Neighbourhood) : Ends h h.coarsest h.finest h.shortest := by
  have hends := ends_search h (h.coarsest - h.finest).toNat h.coarsest
  have hlast : h.coarsest - ((h.coarsest - h.finest).toNat : Int) = h.finest := by
    have := finest_le_coarsest h
    omega
  rwa [hlast] at hends

/-- The finest grid holds the number. -/
theorem exists_point_finest (h : Neighbourhood) :
    ∃ point : Nat, (h.middle * 2 ^ h.scale : ℚ) = point * 10 ^ h.finest := by
  rcases Int.le_total 0 h.scale with hscale | hscale
  · obtain ⟨i, hi⟩ := Int.eq_ofNat_of_zero_le hscale
    refine ⟨h.middle * 2 ^ i, ?_⟩
    rw [finest, min_eq_right hscale, zpow_zero, hi, zpow_natCast]
    push_cast
    ring
  · obtain ⟨i, hi⟩ := Int.eq_ofNat_of_zero_le (Int.neg_nonneg.mpr hscale)
    have hi' : h.scale = -(i : Int) := by omega
    refine ⟨h.middle * 5 ^ i, ?_⟩
    have hten : (10 : ℚ) ^ i = 5 ^ i * 2 ^ i := by
      rw [← mul_pow]
      norm_num
    rw [finest, min_eq_left hscale, hi', zpow_neg, zpow_neg, zpow_natCast, zpow_natCast, hten]
    push_cast
    field_simp

/-- A grid of whole numbers is tried, if the number is one. -/
theorem coarsest_pos (hone : (1 : ℚ) ≤ m * 2 ^ e) : 0 < (ofParts m e).coarsest := by
  have hbits : 0 ≤ ((ofParts m e).middle.log2 : Int) + 1 + (ofParts m e).scale := by
    by_contra hneg
    have hlt : (((ofParts m e).middle : ℕ) : ℚ) < 2 ^ ((ofParts m e).middle.log2 + 1) := by
      exact_mod_cast Nat.lt_log2_self
    have hsmall : ((ofParts m e).middle * 2 ^ (ofParts m e).scale : ℚ) < 1 := by
      calc ((ofParts m e).middle * 2 ^ (ofParts m e).scale : ℚ)
          < 2 ^ ((ofParts m e).middle.log2 + 1) * 2 ^ (ofParts m e).scale := by gcongr
        _ = 2 ^ (((ofParts m e).middle.log2 : Int) + 1 + (ofParts m e).scale) := by
            rw [← zpow_natCast, ← zpow_add₀ (by norm_num)]
            push_cast
            rfl
        _ ≤ 2 ^ (0 : Int) := zpow_le_zpow_right₀ (by norm_num) (by omega)
        _ = 1 := zpow_zero 2
    rw [middle_ofParts] at hsmall
    linarith
  rw [coarsest, if_pos hbits]
  omega

theorem value_floorOn_finest (h : Neighbourhood) :
    Decimal.value ⟨h.floorOn h.finest, h.finest⟩ = h.middle * 2 ^ h.scale := by
  obtain ⟨point, hpoint⟩ := exists_point_finest h
  rw [Decimal.value, floorOn_of_onGrid hpoint, hpoint]

end Parts

end Neighbourhood

/-! ## The shortest decimal -/

namespace Decimal

open Neighbourhood

variable {m n : Nat} {e : Int}

theorem ends_shortest (hm : 0 < m) (e : Int) :
    Ends (ofParts m e) (ofParts m e).coarsest (ofParts m e).finest (shortest m e) := by
  rw [shortest, if_neg hm.ne']
  exact Neighbourhood.ends_shortest _

theorem shortest_zero (e : Int) : shortest 0 e = ⟨0, 0⟩ := if_pos rfl

theorem abs_value_sub_le (m : Nat) (e : Int) :
    |(shortest m e).value - m * 2 ^ e| ≤ 2 ^ (e - 1) := by
  have hpos : (0 : ℚ) ≤ 2 ^ (e - 1) := by positivity
  rcases Nat.eq_zero_or_pos m with rfl | hm
  · rw [shortest_zero, value]
    simpa using hpos
  · have hends := ends_shortest hm e
    generalize shortest m e = d at hends
    cases hends with
    | found hpoint _ _ _ => exact abs_sub_le_of_contains hm (contains_of_pointOn? hpoint)
    | floor _ =>
        rw [value_floorOn_finest, middle_ofParts, sub_self, abs_zero]
        exact hpos

/-- The shortest decimal is as close to a number as its rounding has to be. -/
theorem close_shortest (hfull : Full m e) : Close (shortest m e).value (m * 2 ^ e) := by
  have hvalue : (0 : ℚ) ≤ m * 2 ^ e := by positivity
  refine ⟨(abs_value_sub_le m e).trans ?_, fun _ => ?_, fun hnonpos => ?_⟩
  · rcases hfull.filled with hnormal | hleast
    · refine le_max_of_le_left ?_
      have hmantissa : (2 : ℚ) ^ 52 ≤ m := by exact_mod_cast hnormal
      calc (2 : ℚ) ^ (e - 1) = 2 ^ (-53 : ℤ) * (2 ^ 52 * 2 ^ e) := by
            rw [zpow_sub₀ (by norm_num)]
            norm_num
            ring
        _ ≤ 2 ^ (-53 : ℤ) * |(m * 2 ^ e : ℚ)| := by
            rw [abs_of_nonneg hvalue]
            gcongr
    · exact le_max_of_le_right (by rw [hleast]; norm_num)
  · rw [value]
    positivity
  · have hpower : (0 : ℚ) < 2 ^ e := by positivity
    have hzero : m = 0 := by
      have hle : (m : ℚ) ≤ 0 := nonpos_of_mul_nonpos_left hnonpos hpower
      exact_mod_cast le_antisymm hle (Nat.cast_nonneg m)
    rw [hzero, shortest_zero, value]
    simp

/-- A number that is not whole is shown with digits after the point. -/
theorem exponent_neg (h : ¬ ∃ n : ℕ, (m * 2 ^ e : ℚ) = n) : (shortest m e).exponent < 0 := by
  have hm : 0 < m := by
    rw [Nat.pos_iff_ne_zero]
    rintro rfl
    exact h ⟨0, by simp⟩
  have he : e < 0 := by
    by_contra hnonneg
    obtain ⟨i, rfl⟩ := Int.eq_ofNat_of_zero_le (not_lt.mp hnonneg)
    refine h ⟨m * 2 ^ i, ?_⟩
    push_cast
    rw [zpow_natCast]
  have hends := ends_shortest hm e
  generalize shortest m e = d at hends
  cases hends with
  | @found point k hpoint _ _ _ =>
      by_contra hk
      obtain ⟨j, rfl⟩ := Int.eq_ofNat_of_zero_le (not_lt.mp hk)
      refine h ⟨point * 10 ^ j, ?_⟩
      rw [← eq_of_contains_of_whole hm he.le (Int.natCast_nonneg j) (contains_of_pointOn? hpoint)]
      push_cast
      rw [zpow_natCast]
  | floor _ =>
      show min (e - 2) 0 < 0
      omega

/-- A whole number is shown without. -/
theorem exponent_nonneg (h : (m * 2 ^ e : ℚ) = n) : 0 ≤ (shortest m e).exponent := by
  rcases Nat.eq_zero_or_pos m with rfl | hm
  · rw [shortest_zero]
  · have hone : (1 : ℚ) ≤ m * 2 ^ e := by
      have hpos : (0 : ℚ) < m * 2 ^ e := by positivity
      rw [h] at hpos ⊢
      exact_mod_cast hpos
    have hcoarsest := coarsest_pos hone
    have hpoint : ((ofParts m e).middle * 2 ^ (ofParts m e).scale : ℚ) = n * 10 ^ (0 : ℤ) := by
      rw [middle_ofParts, h, zpow_zero, mul_one]
    have hstop := pointOn?_ne_none hpoint (lower_ofParts hm e).2 (upper_ofParts m e)
    exact (ends_shortest hm e).le_exponent hcoarsest.le hstop

/-- A whole number with all its bits in the mantissa is shown exactly. -/
theorem value_of_whole (he : e ≤ 0) (h : (m * 2 ^ e : ℚ) = n) : (shortest m e).value = n := by
  have hexponent := exponent_nonneg h
  rcases Nat.eq_zero_or_pos m with rfl | hm
  · rw [shortest_zero, value, ← h]
    simp
  · have hends := ends_shortest hm e
    generalize shortest m e = d at hends hexponent
    cases hends with
    | found hpoint _ _ _ =>
        rw [← h]
        exact eq_of_contains_of_whole hm he hexponent (contains_of_pointOn? hpoint)
    | floor _ => rw [value_floorOn_finest, middle_ofParts, h]

/-- Whole numbers of at most fifty-three bits have no larger exponent. -/
theorem exponent_nonpos (hfull : Full m e) (h : (m * 2 ^ e : ℚ) = n) (hn : n < 2 ^ 53) : e ≤ 0 := by
  by_contra hpos
  have hm : (2 : ℚ) ^ 52 ≤ m := by
    rcases hfull.filled with hnormal | hleast
    · exact_mod_cast hnormal
    · omega
  have htwo : (2 : ℚ) ≤ 2 ^ e := by
    calc (2 : ℚ) = 2 ^ (1 : ℤ) := (zpow_one 2).symm
      _ ≤ 2 ^ e := zpow_le_zpow_right₀ (by norm_num) (by omega)
  have hlarge : (2 : ℚ) ^ 53 ≤ n := by
    rw [← h, pow_succ]
    exact mul_le_mul hm htwo (by norm_num) (by positivity)
  have hlarge' : 2 ^ 53 ≤ n := by exact_mod_cast hlarge
  omega

end Decimal

end UnitCalc
