import Mathlib
import UnitCalc.Proofs.Number.Binary64

/-!
# The order of binary64 numbers

Binary64 numbers are compared by their exponents first and their mantissas second. That
is the order of the rational numbers they stand for, with the infinities at its ends,
because mantissas are full: of two numbers the one with the greater exponent has a
mantissa of fifty-three bits.
-/

namespace UnitCalc

open Float.Model (UnpackedFloat)
open Float.Model.UnpackedFloat (Sign)

/-- The rational numbers between two infinities. -/
abbrev Extended := WithBot (WithTop ℚ)

/-- A rational number as one of the extended numbers. -/
def Extended.ofRat (r : ℚ) : Extended := ((r : WithTop ℚ) : WithBot (WithTop ℚ))

theorem Extended.strictMono_ofRat : StrictMono ofRat := by
  intro a b h
  exact WithBot.coe_lt_coe.mpr (WithTop.coe_lt_coe.mpr h)

namespace Exact

/-- The number that is meant, if it is one. -/
def value? : Exact → Option Extended
  | nan => none
  | infinite true => some ⊥
  | infinite false => some ⊤
  | finite true mantissa exponent => some (.ofRat (-(mantissa * 2 ^ exponent)))
  | finite false mantissa exponent => some (.ofRat (mantissa * 2 ^ exponent))

theorem exists_parts {x : Exact} {r : ℚ} (h : x.value? = some (.ofRat r)) :
    ∃ negative mantissa exponent, x = finite negative mantissa exponent ∧
      r = if negative then -(mantissa * 2 ^ exponent : ℚ) else mantissa * 2 ^ exponent := by
  cases x with
  | nan => cases h
  | infinite negative => cases negative <;> cases h
  | finite negative m e =>
      refine ⟨negative, m, e, rfl, ?_⟩
      cases negative <;> exact (Extended.strictMono_ofRat.injective (Option.some.inj h)).symm

/-- The mantissa has at most fifty-three bits, and only with the least exponent fewer. -/
structure Full (mantissa : Nat) (exponent : Int) : Prop where
  fits : mantissa < 2 ^ 53
  least : -1074 ≤ exponent
  filled : 2 ^ 52 ≤ mantissa ∨ exponent = -1074

theorem full_of_ofBits {bits mantissa : Nat} {exponent : Int} {negative : Bool}
    (h : ofBits bits = finite negative mantissa exponent) : Full mantissa exponent := by
  unfold ofBits at h
  simp only [Nat.one_shiftLeft] at h
  split at h
  · split at h <;> cases h
  · split at h
    · cases h
      exact ⟨by omega, le_refl _, .inr rfl⟩
    · cases h
      exact ⟨by omega, by omega, .inl (Nat.le_add_right _ _)⟩

end Exact

/-! ## Positive numbers -/

namespace Exact.Full

variable {m m' : Nat} {e e' : Int}

theorem scaled_lt (h : Full m e) (h' : Full m' e') (he : e < e') :
    (m : ℚ) * 2 ^ e < m' * 2 ^ e' := by
  have hleast := h.least
  have hfilled : 2 ^ 52 ≤ m' := h'.filled.resolve_right (by omega)
  have hpos : (0 : ℚ) < 2 ^ e := by positivity
  calc (m : ℚ) * 2 ^ e < 2 ^ 53 * 2 ^ e := by
        have := h.fits
        gcongr
        exact_mod_cast this
    _ = 2 ^ 52 * 2 ^ (e + 1) := by rw [zpow_add_one₀ (by norm_num)]; ring
    _ ≤ m' * 2 ^ e' := by
        gcongr
        · exact_mod_cast hfilled
        · norm_num
        · omega

/-- Exponents are compared first, and mantissas if they are the same. -/
theorem compares (h : Full m e) (h' : Full m' e') :
    ((compare e e').then (compare m m')).Compares ((m : ℚ) * 2 ^ e) (m' * 2 ^ e') := by
  rcases lt_trichotomy e e' with he | rfl | he
  · rw [compare_lt_iff_lt.mpr he]
    exact h.scaled_lt h' he
  · have hpos : (0 : ℚ) < 2 ^ e := by positivity
    have hscale : StrictMono fun k : ℕ => (k : ℚ) * 2 ^ e := by
      intro k k' hk
      have hk : (k : ℚ) < k' := by exact_mod_cast hk
      exact mul_lt_mul_of_pos_right hk hpos
    rw [compare_eq_iff_eq.mpr rfl]
    exact hscale.compares.mpr ((compare_iff m m').mp rfl)
  · rw [compare_gt_iff_gt.mpr he]
    exact h'.scaled_lt h he

end Exact.Full

/-! ## All numbers -/

namespace Binary64

open Exact (Full)

/-- The unpacked number is the rational number `r`, with a full mantissa unless it is
zero. -/
inductive Denotes : UnpackedFloat → ℚ → Prop
  | zero (s : Sign) : Denotes (.zero s) 0
  | positive {m : Nat} {e : Int} (hm : 0 < m) (h : Full m e) :
      Denotes (.finite .positive m e hm) (m * 2 ^ e)
  | negative {m : Nat} {e : Int} (hm : 0 < m) (h : Full m e) :
      Denotes (.finite .negative m e hm) (-(m * 2 ^ e))

/-- The unpacked number is the extended number. -/
inductive Means : UnpackedFloat → Extended → Prop
  | bottom : Means (.infinity .negative) ⊥
  | top : Means (.infinity .positive) ⊤
  | rational {u : UnpackedFloat} {r : ℚ} (h : Denotes u r) : Means u (.ofRat r)

variable {u v : UnpackedFloat} {a b : ℚ} {p q : Extended}

theorem scaled_pos {m : Nat} {e : Int} (hm : 0 < m) : (0 : ℚ) < m * 2 ^ e := by
  have : (0 : ℚ) < m := by exact_mod_cast hm
  positivity

theorem compares_neg_neg {o : Ordering} (h : o.Compares a b) : o.Compares (-b) (-a) := by
  cases o with
  | lt => exact neg_lt_neg h
  | eq => exact neg_inj.mpr h.symm
  | gt => exact neg_lt_neg h

theorem Denotes.compares (hu : Denotes u a) (hv : Denotes v b) :
    ∃ o : Ordering, u.compare v = some o ∧ o.Compares a b := by
  cases hu with
  | zero s =>
      cases hv with
      | zero t => exact ⟨.eq, rfl, rfl⟩
      | positive hm' _ => exact ⟨.lt, rfl, scaled_pos hm'⟩
      | negative hm' _ => exact ⟨.gt, rfl, neg_lt_zero.mpr (scaled_pos hm')⟩
  | positive hm h =>
      cases hv with
      | zero t => exact ⟨.gt, rfl, scaled_pos hm⟩
      | positive _ h' => exact ⟨_, rfl, h.compares h'⟩
      | negative hm' _ => exact ⟨.gt, rfl, (neg_lt_zero.mpr (scaled_pos hm')).trans (scaled_pos hm)⟩
  | negative hm h =>
      cases hv with
      | zero t => exact ⟨.lt, rfl, neg_lt_zero.mpr (scaled_pos hm)⟩
      | positive hm' _ => exact ⟨.lt, rfl, (neg_lt_zero.mpr (scaled_pos hm)).trans (scaled_pos hm')⟩
      | negative _ h' =>
          exact ⟨_, rfl, Ordering.compares_swap.mpr (compares_neg_neg (h.compares h'))⟩

theorem Means.compares (hu : Means u p) (hv : Means v q) :
    ∃ o : Ordering, u.compare v = some o ∧ o.Compares p q := by
  cases hu with
  | bottom =>
      cases hv with
      | bottom => exact ⟨.eq, rfl, rfl⟩
      | top => exact ⟨.lt, rfl, bot_lt_top⟩
      | rational h => cases h <;> exact ⟨.lt, rfl, WithBot.bot_lt_coe _⟩
  | top =>
      cases hv with
      | bottom => exact ⟨.gt, rfl, bot_lt_top⟩
      | top => exact ⟨.eq, rfl, rfl⟩
      | rational h =>
          cases h <;> exact ⟨.gt, rfl, WithBot.coe_lt_coe.mpr (WithTop.coe_lt_top _)⟩
  | rational h =>
      cases hv with
      | bottom => cases h <;> exact ⟨.gt, rfl, WithBot.bot_lt_coe _⟩
      | top => cases h <;> exact ⟨.lt, rfl, WithBot.coe_lt_coe.mpr (WithTop.coe_lt_top _)⟩
      | rational h' =>
          obtain ⟨o, hcompare, ho⟩ := h.compares h'
          exact ⟨o, hcompare, Extended.strictMono_ofRat.compares.mpr ho⟩

/-- What the bits of a number say is what it is computed with. -/
theorem means_unpack {x : Float} (h : (Exact.ofFloat x).value? = some p) :
    Means x.toModel.unpack p := by
  have hfull : ∀ {negative m e}, Exact.ofFloat x = .finite negative m e → Full m e :=
    fun hfinite => Exact.full_of_ofBits hfinite
  have hexact := Exact.ofFloat_eq x
  generalize x.toModel.unpack = u at hexact
  rw [hexact] at h hfull
  cases u with
  | notANumber => cases h
  | infinity s =>
      cases s with
      | negative =>
          cases h
          exact .bottom
      | positive =>
          cases h
          exact .top
  | zero s =>
      have hzero : p = .ofRat 0 := by
        cases s <;> simpa [Exact.ofUnpacked, isNegative, Exact.value?] using h.symm
      subst hzero
      exact .rational (.zero s)
  | finite s m e hm =>
      cases s with
      | negative =>
          cases h
          exact .rational (.negative hm (hfull rfl))
      | positive =>
          cases h
          exact .rational (.positive hm (hfull rfl))

end Binary64

namespace Number

variable {x y : Float} {p q : Extended}

theorem abs_of_parts {v : ℚ} {negative : Bool} {m : Nat} {e : Int}
    (hv : v = if negative then -(m * 2 ^ e : ℚ) else m * 2 ^ e) : |v| = m * 2 ^ e := by
  have hnonneg : (0 : ℚ) ≤ m * 2 ^ e := by positivity
  rw [hv]
  cases negative <;> simp [abs_of_nonneg hnonneg]

theorem lt_iff_compare : x < y ↔ x.toModel.unpack.compare y.toModel.unpack = some .lt := by
  show decide ((x.toModel.unpack.compare y.toModel.unpack == some .lt) = true) = true ↔ _
  rw [decide_eq_true_eq, beq_iff_eq]

theorem beq_iff_compare :
    (x == y) = true ↔ x.toModel.unpack.compare y.toModel.unpack = some .eq := by
  show (x.toModel.unpack.compare y.toModel.unpack == some .eq) = true ↔ _
  exact beq_iff_eq

/-- **Binary64 numbers are in the order of what they stand for.** -/
theorem order?_compares (hx : (Exact.ofFloat x).value? = some p)
    (hy : (Exact.ofFloat y).value? = some q) :
    ∃ o : Ordering, order? x y = some o ∧ o.Compares p q := by
  have hp := Binary64.means_unpack hx
  have hq := Binary64.means_unpack hy
  obtain ⟨o, hcompare, ho⟩ := hp.compares hq
  refine ⟨o, ?_, ho⟩
  rw [order?, if_congr lt_iff_compare rfl rfl, if_congr beq_iff_compare rfl rfl, hcompare]
  cases o with
  | lt => rfl
  | eq => rfl
  | gt =>
      -- the last test has the numbers the other way round
      obtain ⟨o', hcompare', ho'⟩ := hq.compares hp
      have hless : o' = .lt := ho'.inj ho
      rw [if_neg (by decide), if_neg (by decide), if_pos (lt_iff_compare.mpr (hless ▸ hcompare'))]

/-- What is no number has no order. -/
theorem order?_of_nan (h : Exact.ofFloat x = .nan ∨ Exact.ofFloat y = .nan) :
    order? x y = none := by
  have hunpack : ∀ z : Float, Exact.ofFloat z = .nan → z.toModel.unpack = .notANumber := by
    intro z hz
    rw [Exact.ofFloat_eq] at hz
    cases hu : z.toModel.unpack with
    | notANumber => rfl
    | _ =>
        rw [hu] at hz
        cases hz
  have hcompare : ∀ u : UnpackedFloat, u.compare .notANumber = none := by
    intro u
    cases u <;> rfl
  have hnone : x.toModel.unpack.compare y.toModel.unpack = none ∧
      y.toModel.unpack.compare x.toModel.unpack = none := by
    rcases h with hx | hy
    · rw [hunpack x hx]
      exact ⟨rfl, hcompare _⟩
    · rw [hunpack y hy]
      exact ⟨hcompare _, rfl⟩
  rw [order?, if_congr lt_iff_compare rfl rfl, if_congr beq_iff_compare rfl rfl,
    if_congr lt_iff_compare rfl rfl, hnone.1, hnone.2]
  rfl

end Number

end UnitCalc
