import Mathlib
import UnitCalc.Proofs.Number.Nearest
import UnitCalc.Proofs.Value.ExactOrder

/-!
# The order of quantities

The right quantity of a comparison is converted to the unit of the left one, in two
rounded steps, so swapping the sides rounds another amount. The order that is found is
that of the exact amounts in the common base wherever rounding cannot close the gap
between them, and then both sides agree. Where it can, they may differ.
-/

namespace UnitCalc

open Binary64 (Close Nearest greatest)

namespace Measure

/-- The factor of a measure, exactly: those of the centimetre and the millimetre are
binary64 numbers, not a hundredth and a thousandth. -/
def ratio : Measure → ℚ
  | metre => 1
  | kilometre => 1000
  | centimetre => 5764607523034235 / 2 ^ 59
  | millimetre => 1152921504606847 / 2 ^ 60
  | kilobyte => 2 ^ 10
  | megabyte => 2 ^ 20
  | gigabyte => 2 ^ 30

theorem value?_factor (u : Measure) : (Exact.ofFloat u.factor).value? = some (.ofRat u.ratio) := by
  have hparts : ∃ m e, Exact.ofFloat u.factor = .finite false m e ∧ (m : ℚ) * 2 ^ e = u.ratio := by
    cases u with
    | metre => exact ⟨2 ^ 52, -52, by decide +kernel, by norm_num [ratio]⟩
    | kilometre => exact ⟨1000 * 2 ^ 43, -43, by decide +kernel, by norm_num [ratio]⟩
    | centimetre => exact ⟨5764607523034235, -59, by decide +kernel, by norm_num [ratio]⟩
    | millimetre => exact ⟨4611686018427388, -62, by decide +kernel, by norm_num [ratio]⟩
    | kilobyte => exact ⟨2 ^ 52, -42, by decide +kernel, by norm_num [ratio]⟩
    | megabyte => exact ⟨2 ^ 52, -32, by decide +kernel, by norm_num [ratio]⟩
    | gigabyte => exact ⟨2 ^ 52, -22, by decide +kernel, by norm_num [ratio]⟩
  obtain ⟨m, e, hfactor, hvalue⟩ := hparts
  rw [hfactor, Exact.value?, hvalue]

theorem ratio_pos (u : Measure) : 0 < u.ratio := by
  cases u <;> norm_num [ratio]

theorem ratio_le (u : Measure) : u.ratio ≤ 2 ^ 30 := by
  cases u <;> norm_num [ratio]

theorem ofSymbol?_symbol (u : Measure) : ofSymbol? u.symbol = some u := by
  cases u <;> decide

end Measure

/-! ## Two roundings -/

/-- Two base amounts that no conversion brings together: they differ by one part in
`2 ^ 52` at least, by more than what is lost where the exponents end, and one of them is
not beyond all numbers. -/
structure Apart (a b : ℚ) : Prop where
  relative : max |a| |b| ≤ 2 ^ 52 * |a - b|
  absolute : 2 ^ (-1044 : ℤ) < |a - b|
  range : min |a| |b| ≤ greatest

section Apart

variable {a b r c : ℚ}

theorem Apart.ne (h : Apart a b) : a ≠ b := by
  rintro rfl
  have habsolute := h.absolute
  rw [sub_self, abs_zero] at habsolute
  exact absurd habsolute (not_lt.mpr (by positivity))

theorem Apart.symm (h : Apart a b) : Apart b a where
  relative := by
    rw [max_comm, abs_sub_comm]
    exact h.relative
  absolute := by
    rw [abs_sub_comm]
    exact h.absolute
  range := by
    rw [min_comm]
    exact h.range

theorem Apart.neg (h : Apart a b) : Apart (-a) (-b) := by
  have hdiff : |-a - -b| = |a - b| := by rw [← neg_sub', abs_neg]
  refine ⟨?_, ?_, ?_⟩
  · rw [abs_neg, abs_neg, hdiff]
    exact h.relative
  · rw [hdiff]
    exact h.absolute
  · rw [abs_neg, abs_neg]
    exact h.range

/-- A number that is rounded twice stays above every number that it is apart from. The
second error may be larger in absolute terms, since it has been scaled. -/
theorem Apart.lt_rounded (h : Apart a b) (hlt : a < b)
    (hr : |r - b| ≤ max (2 ^ (-53 : ℤ) * |b|) (2 ^ (-1075 : ℤ)))
    (hc : |c - r| ≤ max (2 ^ (-53 : ℤ) * |r|) (2 ^ (-1045 : ℤ))) : a < c := by
  have hgap : |a - b| = b - a := by rw [abs_sub_comm, abs_of_pos (sub_pos.mpr hlt)]
  have ha : |a| ≤ 2 ^ 52 * (b - a) := hgap ▸ (le_max_left _ _).trans h.relative
  have hb : |b| ≤ 2 ^ 52 * (b - a) := hgap ▸ (le_max_right _ _).trans h.relative
  have htiny : (2 : ℚ) ^ (-1044 : ℤ) < b - a := hgap ▸ h.absolute
  have hsize : |r| ≤ |b| + |r - b| := by
    linarith [abs_sub_abs_le_abs_sub r b]
  have hlow : b - |r - b| - |c - r| ≤ c := by
    linarith [neg_abs_le (r - b), neg_abs_le (c - r)]
  have hhalf : (2 : ℚ) ^ (-1045 : ℤ) = 2 ^ (-1044 : ℤ) / 2 := by
    rw [eq_div_iff (by norm_num), ← zpow_add_one₀ (by norm_num)]
    norm_num
  have hpart : (2 : ℚ) ^ (-1075 : ℤ) = 2 ^ (-1044 : ℤ) / 2 ^ 31 := by
    rw [eq_div_iff (by norm_num), ← zpow_natCast, ← zpow_add₀ (by norm_num)]
    norm_num
  have hpos : (0 : ℚ) < 2 ^ (-1044 : ℤ) := by positivity
  have hunit : (2 : ℚ) ^ (-53 : ℤ) = 1 / 2 ^ 53 := by norm_num
  rw [hunit, hpart, le_max_iff] at hr
  rw [hunit, hhalf, le_max_iff] at hc
  generalize (2 : ℚ) ^ (-1044 : ℤ) = least at htiny hr hc hpos
  rcases hr with hr | hr
  · rcases hc with hc | hc
    · rcases le_or_gt b 0 with hneg | hpos
      · rw [abs_of_nonpos (hlt.le.trans hneg)] at ha
        rw [abs_of_nonpos hneg] at hr hsize
        linarith
      · -- both roundings may go down, but then the second has less to take from
        rw [abs_of_pos hpos] at hb hr
        have hrpos : 0 < r := by linarith [neg_abs_le (r - b)]
        rw [abs_of_pos hrpos] at hc
        linarith [neg_abs_le (r - b), neg_abs_le (c - r)]
    · linarith
  · rcases hc with hc | hc <;> linarith

theorem Apart.rounded_lt (h : Apart a b) (hlt : b < a)
    (hr : |r - b| ≤ max (2 ^ (-53 : ℤ) * |b|) (2 ^ (-1075 : ℤ)))
    (hc : |c - r| ≤ max (2 ^ (-53 : ℤ) * |r|) (2 ^ (-1045 : ℤ))) : c < a := by
  have hneg : ∀ s t : ℚ, |-s - -t| = |s - t| := by
    intro s t
    rw [← neg_sub', abs_neg]
  refine neg_lt_neg_iff.mp (h.neg.lt_rounded (neg_lt_neg hlt) (r := -r) ?_ ?_)
  · rw [hneg, abs_neg]
    exact hr
  · rw [hneg, abs_neg]
    exact hc

end Apart

/-! ## Conversion -/

/-- What an amount in the common base can become in a measure: it is rounded before it is
divided and once more after. -/
inductive Converted (base ratio : ℚ) : Extended → Prop
  | rational {r : ℚ} {p : Extended} (hproduct : Close r base) (hquotient : Nearest (r / ratio) p) :
      Converted base ratio p
  | top (h : greatest < base) : Converted base ratio ⊤
  | bottom (h : base < -greatest) : Converted base ratio ⊥

section Conversion

variable {x y : Float} {a b base ratio : ℚ} {p : Extended} {u w : Measure}

theorem Measure.converted_convert (hx : (Exact.ofFloat x).value? = some (.ofRat a)) (huw : u ≠ w) :
    ∃ p, (Exact.ofFloat (convert x u w)).value? = some p ∧ Converted (a * u.ratio) w.ratio p := by
  rw [convert, if_neg huw]
  obtain ⟨p, hp, hproduct⟩ := Binary64.nearest_mul hx u.value?_factor
  cases hproduct with
  | rational hfaithful =>
      obtain ⟨p', hp', hquotient⟩ := Binary64.nearest_div hp w.value?_factor w.ratio_pos.ne'
      exact ⟨p', hp', .rational hfaithful.toClose hquotient⟩
  | top h =>
      exact ⟨⊤, Binary64.value?_div_of_infinite (.inl rfl) hp w.value?_factor w.ratio_pos, .top h⟩
  | bottom h =>
      exact ⟨⊥, Binary64.value?_div_of_infinite (.inr rfl) hp w.value?_factor w.ratio_pos, .bottom h⟩

/-- The error of a quotient, scaled back. -/
theorem abs_mul_sub_le {r c : ℚ} (hpos : 0 < ratio) (hle : ratio ≤ 2 ^ 30)
    (h : Close c (r / ratio)) :
    |c * ratio - r| ≤ max (2 ^ (-53 : ℤ) * |r|) (2 ^ (-1045 : ℤ)) := by
  have hscaled : |c * ratio - r| = |c - r / ratio| * ratio := by
    rw [← abs_of_pos hpos, ← abs_mul, abs_of_pos hpos, sub_mul, div_mul_cancel₀ _ hpos.ne']
  have hsize : |r / ratio| * ratio = |r| := by
    rw [abs_div, abs_of_pos hpos, div_mul_cancel₀ _ hpos.ne']
  rw [hscaled]
  rcases le_max_iff.mp h.error with hrelative | habsolute
  · refine le_max_of_le_left ?_
    calc |c - r / ratio| * ratio ≤ 2 ^ (-53 : ℤ) * |r / ratio| * ratio := by gcongr
      _ = 2 ^ (-53 : ℤ) * |r| := by rw [mul_assoc, hsize]
  · refine le_max_of_le_right ?_
    calc |c - r / ratio| * ratio ≤ 2 ^ (-1075 : ℤ) * 2 ^ 30 := by gcongr
      _ = 2 ^ (-1045 : ℤ) := by
        rw [← zpow_natCast, ← zpow_add₀ (by norm_num)]
        norm_num

/-- A base amount that is converted stays on its side of every amount that it is apart
from. -/
theorem Converted.ordered (hpos : 0 < ratio) (hle : ratio ≤ 2 ^ 30) (ha : |a| ≤ greatest)
    (h : Apart (a * ratio) base) (hp : Converted base ratio p) :
    (a * ratio < base → .ofRat a < p) ∧ (base < a * ratio → p < .ofRat a) := by
  have hstill : ∀ r : ℚ, |r - r| ≤ max (2 ^ (-53 : ℤ) * |r|) (2 ^ (-1045 : ℤ)) := by
    intro r
    rw [sub_self, abs_zero]
    positivity
  obtain ⟨hlow, hhigh⟩ := abs_le.mp ha
  cases hp with
  | @rational r _ hproduct hquotient =>
      cases hquotient with
      | rational hfaithful =>
          have herror := abs_mul_sub_le hpos hle hfaithful.toClose
          constructor
          · intro hlt
            have hless := h.lt_rounded hlt hproduct.error herror
            exact Extended.strictMono_ofRat (lt_of_mul_lt_mul_right hless hpos.le)
          · intro hlt
            have hless := h.rounded_lt hlt hproduct.error herror
            exact Extended.strictMono_ofRat (lt_of_mul_lt_mul_right hless hpos.le)
      | top hover =>
          refine ⟨fun _ => WithBot.coe_lt_coe.mpr (WithTop.coe_lt_top _), fun hlt => ?_⟩
          have hless := h.rounded_lt hlt hproduct.error (hstill r)
          rw [lt_div_iff₀ hpos] at hover
          linarith [mul_le_mul_of_nonneg_right hhigh hpos.le]
      | bottom hunder =>
          refine ⟨fun hlt => ?_, fun _ => WithBot.bot_lt_coe _⟩
          have hless := h.lt_rounded hlt hproduct.error (hstill r)
          rw [div_lt_iff₀ hpos] at hunder
          linarith [mul_le_mul_of_nonneg_right hlow hpos.le]
  | top hover =>
      refine ⟨fun _ => WithBot.coe_lt_coe.mpr (WithTop.coe_lt_top _), fun hlt => ?_⟩
      rcases min_le_iff.mp h.range with hrange | hrange
      · linarith [le_abs_self (a * ratio)]
      · linarith [le_abs_self base]
  | bottom hunder =>
      refine ⟨fun hlt => ?_, fun _ => WithBot.bot_lt_coe _⟩
      rcases min_le_iff.mp h.range with hrange | hrange
      · linarith [neg_abs_le (a * ratio)]
      · linarith [neg_abs_le base]

/-- Rounding does not cross zero. -/
theorem Converted.sign (hpos : 0 < ratio) (hp : Converted base ratio p) :
    (0 ≤ base → .ofRat 0 ≤ p) ∧ (base ≤ 0 → p ≤ .ofRat 0) := by
  have hgreatest := Binary64.greatest_pos
  have hmono := Extended.strictMono_ofRat.monotone
  cases hp with
  | rational hproduct hquotient =>
      have hnonneg : 0 ≤ base → 0 ≤ _ / ratio := fun h => div_nonneg (hproduct.nonneg h) hpos.le
      have hnonpos : base ≤ 0 → _ / ratio ≤ 0 :=
        fun h => div_nonpos_of_nonpos_of_nonneg (hproduct.nonpos h) hpos.le
      cases hquotient with
      | rational hfaithful =>
          exact ⟨fun h => hmono (hfaithful.nonneg (hnonneg h)),
            fun h => hmono (hfaithful.nonpos (hnonpos h))⟩
      | top hover =>
          refine ⟨fun _ => le_top, fun h => ?_⟩
          linarith [hnonpos h]
      | bottom hunder =>
          refine ⟨fun h => ?_, fun _ => bot_le⟩
          linarith [hnonneg h]
  | top hover =>
      refine ⟨fun _ => le_top, fun h => ?_⟩
      linarith
  | bottom hunder =>
      refine ⟨fun h => ?_, fun _ => bot_le⟩
      linarith

end Conversion

/-! ## Comparison -/

/-- Rounding does not touch the order of `x`, an amount `a` of `u`, and `y`, an amount `b`
of `w`. -/
inductive Settled (x y : Float) (a b : ℚ) (u w : Measure) : Prop
  | sameMeasure (h : u = w)
  | oppositeSigns (h : a * b < 0)
  | apart (h : Apart (a * u.ratio) (b * w.ratio))
  | exact
      (hx : (Exact.ofFloat (Measure.convert x u w)).value? = some (.ofRat (a * u.ratio / w.ratio)))
      (hy : (Exact.ofFloat (Measure.convert y w u)).value? = some (.ofRat (b * w.ratio / u.ratio)))

section Comparison

variable {x y : Float} {a b : ℚ} {u w : Measure} {op : BinaryOp}

theorem Settled.symm (h : Settled x y a b u w) : Settled y x b a w u := by
  cases h with
  | sameMeasure h => exact .sameMeasure h.symm
  | oppositeSigns h => exact .oppositeSigns (mul_comm a b ▸ h)
  | apart h => exact .apart h.symm
  | exact hx hy => exact .exact hy hx

/-- Of two amounts in one measure and of two base amounts the order is the same. -/
theorem compares_of_ofRat {o : Ordering} {r : ℚ} (hr : 0 < r)
    (h : o.Compares (Extended.ofRat a) (.ofRat b)) : o.Compares (a * r) (b * r) := by
  have hscale : StrictMono fun q : ℚ => q * r := fun _ _ hlt => mul_lt_mul_of_pos_right hlt hr
  exact hscale.compares.mpr (Extended.strictMono_ofRat.compares.mp h)

/-- Two numbers are in the order of two others, if that order implies it either way. -/
theorem order?_of_decided {p : Extended} (hx : (Exact.ofFloat x).value? = some (.ofRat a))
    (hp : (Exact.ofFloat y).value? = some p) {base base' : ℚ} (hne : base ≠ base')
    (hless : base < base' → .ofRat a < p) (hmore : base' < base → p < .ofRat a) :
    ∃ o, Number.order? x y = some o ∧ o.Compares base base' := by
  obtain ⟨o, horder, ho⟩ := Number.order?_compares hx hp
  refine ⟨o, horder, ?_⟩
  rcases lt_or_gt_of_ne hne with hlt | hlt
  · have hlt' : Ordering.lt.Compares (Extended.ofRat a) p := hless hlt
    rw [ho.inj hlt']
    exact hlt
  · have hlt' : Ordering.gt.Compares (Extended.ofRat a) p := hmore hlt
    rw [ho.inj hlt']
    exact hlt

/-- The order that a comparison finds is that of the base amounts. -/
theorem Settled.order (hx : (Exact.ofFloat x).value? = some (.ofRat a))
    (hy : (Exact.ofFloat y).value? = some (.ofRat b)) (h : Settled x y a b u w) :
    ∃ o, Number.order? x (Measure.convert y w u) = some o ∧
      o.Compares (a * u.ratio) (b * w.ratio) := by
  by_cases huw : w = u
  · subst huw
    rw [Measure.convert, if_pos rfl]
    obtain ⟨o, horder, ho⟩ := Number.order?_compares hx hy
    exact ⟨o, horder, compares_of_ofRat w.ratio_pos ho⟩
  · obtain ⟨p, hp, hconverted⟩ := Measure.converted_convert hy huw
    cases h with
    | sameMeasure h => exact absurd h.symm huw
    | oppositeSigns h =>
        obtain ⟨hnonneg, hnonpos⟩ := hconverted.sign u.ratio_pos
        have hu := u.ratio_pos
        have hw := w.ratio_pos
        rcases mul_neg_iff.mp h with ⟨ha, hb⟩ | ⟨ha, hb⟩
        · have hgreater : b * w.ratio < a * u.ratio :=
            (mul_neg_of_neg_of_pos hb hw).trans (mul_pos ha hu)
          refine order?_of_decided hx hp hgreater.ne' (fun hlt => absurd hlt hgreater.not_gt) ?_
          intro _
          exact (hnonpos (mul_neg_of_neg_of_pos hb hw).le).trans_lt (Extended.strictMono_ofRat ha)
        · have hless : a * u.ratio < b * w.ratio :=
            (mul_neg_of_neg_of_pos ha hu).trans (mul_pos hb hw)
          refine order?_of_decided hx hp hless.ne ?_ (fun hlt => absurd hlt hless.not_gt)
          intro _
          exact (Extended.strictMono_ofRat ha).trans_le (hnonneg (mul_pos hb hw).le)
    | apart h =>
        obtain ⟨hless, hmore⟩ :=
          hconverted.ordered u.ratio_pos u.ratio_le (Binary64.abs_le_greatest hx) h
        exact order?_of_decided hx hp h.ne hless hmore
    | exact _ hexact =>
        obtain ⟨o, horder, ho⟩ := Number.order?_compares hx hexact
        have hcompares := compares_of_ofRat u.ratio_pos ho
        rw [div_mul_cancel₀ _ u.ratio_pos.ne'] at hcompares
        exact ⟨o, horder, hcompares⟩

namespace Value

theorem measuredIn_quantity (x : Float) (u w : Measure) :
    (quantity x u.symbol).measuredIn w.symbol = .ok (Measure.convert x u w) := by
  rw [measuredIn, convertAmount, u.ofSymbol?_symbol, w.ofSymbol?_symbol]

theorem comparison_quantities (hop : op.compares = true) (x y : Float) (u w : Measure) :
    (quantity x u.symbol).comparison op (quantity y w.symbol) =
      .ok (.truth (op.holds (Number.order? x (Measure.convert y w u)))) := by
  have hsame : Measure.convert x u u = x := if_pos rfl
  have hstanding : standing (quantity x u.symbol) (quantity y w.symbol) =
      .ok (.comparable (Number.order? x (Measure.convert y w u))) := by
    unfold standing
    simp only [measuredIn_quantity, hsame]
    rfl
  unfold comparison
  rw [hstanding]
  exact if_pos hop

theorem comparison_of_settled (hop : op.compares = true)
    (hx : (Exact.ofFloat x).value? = some (.ofRat a))
    (hy : (Exact.ofFloat y).value? = some (.ofRat b)) (h : Settled x y a b u w) :
    (quantity x u.symbol).comparison op (quantity y w.symbol) =
      .ok (.truth (op.relates (a * u.ratio) (b * w.ratio))) := by
  obtain ⟨o, horder, ho⟩ := h.order hx hy
  rw [comparison_quantities hop, horder, BinaryOp.holds_of_compares ho]

/-- **Comparison does not depend on the side where the order is settled.** A comparison of
quantities says what it says with the sides swapped, and that is what holds of the exact
base amounts. -/
theorem comparison_mirrored (hop : op.compares = true)
    (hx : (Exact.ofFloat x).value? = some (.ofRat a))
    (hy : (Exact.ofFloat y).value? = some (.ofRat b)) (h : Settled x y a b u w) :
    (quantity x u.symbol).comparison op (quantity y w.symbol) =
        (quantity y w.symbol).comparison op.mirrored (quantity x u.symbol) ∧
      (quantity x u.symbol).comparison op (quantity y w.symbol) =
        .ok (.truth (op.relates (a * u.ratio) (b * w.ratio))) := by
  have hright : op.mirrored.compares = true := by rwa [BinaryOp.compares_mirrored]
  rw [comparison_of_settled hop hx hy h, comparison_of_settled hright hy hx h.symm,
    BinaryOp.relates_mirrored]
  exact ⟨rfl, rfl⟩

/-- Three centimetres and thirty-one millimetres. -/
theorem comparison_mirrored_lengths :
    let three : Float := .ofBits 0x4008000000000000
    let thirtyOne : Float := .ofBits 0x403f000000000000
    (Exact.ofFloat three).value? = some (.ofRat 3) ∧
      (Exact.ofFloat thirtyOne).value? = some (.ofRat 31) ∧
      Settled three thirtyOne 3 31 .centimetre .millimetre ∧
      (quantity three "cm").comparison .less (quantity thirtyOne "mm") =
        (quantity thirtyOne "mm").comparison .greater (quantity three "cm") ∧
      (quantity three "cm").comparison .less (quantity thirtyOne "mm") = .ok (.truth true) := by
  intro three thirtyOne
  have hthree : (Exact.ofFloat three).value? = some (.ofRat 3) := by
    have parts : Exact.ofFloat three = .finite false (3 * 2 ^ 51) (-51) := by decide +kernel
    rw [parts, Exact.value?]
    norm_num
  have hthirtyOne : (Exact.ofFloat thirtyOne).value? = some (.ofRat 31) := by
    have parts : Exact.ofFloat thirtyOne = .finite false (31 * 2 ^ 48) (-48) := by decide +kernel
    rw [parts, Exact.value?]
    norm_num
  have hgap : |3 * Measure.centimetre.ratio - 31 * Measure.millimetre.ratio| =
      31 * Measure.millimetre.ratio - 3 * Measure.centimetre.ratio := by
    rw [abs_sub_comm]
    exact abs_of_pos (by norm_num [Measure.ratio])
  have hsettled : Settled three thirtyOne 3 31 .centimetre .millimetre := by
    refine .apart ⟨?_, ?_, ?_⟩
    · rw [hgap]
      norm_num [Measure.ratio]
    · have hsmall : (2 : ℚ) ^ (-1044 : ℤ) ≤ 2 ^ (-10 : ℤ) :=
        zpow_le_zpow_right₀ (by norm_num) (by norm_num)
      rw [hgap]
      exact hsmall.trans_lt (by norm_num [Measure.ratio])
    · have hone : (1 : ℚ) ≤ greatest := by
        rw [greatest]
        exact one_le_mul_of_one_le_of_one_le (by norm_num) (one_le_pow₀ (by norm_num))
      refine min_le_of_left_le (le_trans ?_ hone)
      norm_num [Measure.ratio]
  have hcompares : BinaryOp.less.compares = true := rfl
  obtain ⟨hswapped, hless⟩ := comparison_mirrored hcompares hthree hthirtyOne hsettled
  refine ⟨hthree, hthirtyOne, hsettled, hswapped, hless.trans ?_⟩
  rw [BinaryOp.relates, decide_eq_true (by norm_num [Measure.ratio])]

/-- Seven tenths of a metre and seventy centimetres are not equal from one side, although
they are from the other; of two amounts that overflow, each is the smaller one on the
left; and nothing in metres equals the least amount of millimetres, but not the other
way round. -/
theorem comparison_depends_on_side :
    let tenths : Float := .ofBits 0x3fe6666666666666
    let seventy : Float := .ofBits 0x4051800000000000
    let kilobytes : Float := .ofBits 0x7fd0000000000000
    let gigabytes : Float := .ofBits 0x7e70000000000000
    let least : Float := .ofBits 1
    (∀ amount ∈ [tenths, seventy, kilobytes, gigabytes, least], amount.isFinite = true) ∧
    (quantity tenths "m").comparison .equal (quantity seventy "cm") = .ok (.truth false) ∧
    (quantity seventy "cm").comparison .equal (quantity tenths "m") = .ok (.truth true) ∧
    (quantity kilobytes "kb").comparison .less (quantity gigabytes "gb") = .ok (.truth true) ∧
    (quantity gigabytes "gb").comparison .greater (quantity kilobytes "kb") = .ok (.truth false) ∧
    (quantity 0 "m").comparison .equal (quantity least "mm") = .ok (.truth true) ∧
    (quantity least "mm").comparison .equal (quantity 0 "m") = .ok (.truth false) := by
  decide +kernel

end Value

end Comparison

end UnitCalc
