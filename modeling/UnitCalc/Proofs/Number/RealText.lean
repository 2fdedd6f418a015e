import Mathlib
import UnitCalc.Value
import UnitCalc.Proofs.Number.DigitGroups
import UnitCalc.Proofs.Number.ShortestDecimal

/-!
# Real numbers as text

A real number is shown by the first digits of its shortest decimal: all of those before
the point, in groups, and at most four after it. Nothing is rounded, so the number that
is shown is never farther from zero than the decimal, and closer by less than one in the
fourth place. A number that is whole is shown as the integer that it is.
-/

namespace UnitCalc

open Lexical (Digit)
open Binary64 (Close)

/-! ## The number in a text -/

/-- The value of digits after a point. -/
def fractional (digits : List Char) : ℚ := Nat.ofDigitChars 10 digits 0 / 10 ^ digits.length

/-- The magnitude that a text spells: its digits, divided by a power of ten for those after
the point. Signs and commas do not count. -/
def magnitude (text : List Char) : ℚ :=
  Lexeme.digitValue text / 10 ^ Lexeme.placesAfterPoint text

/-- The number that a text spells. -/
def spelled (text : List Char) : ℚ :=
  if text.head? = some '-' then -magnitude text else magnitude text

section Fractional

variable {digits whole : List Char}

theorem fractional_nil : fractional [] = 0 := by simp [fractional]

theorem fractional_append (a b : List Char) :
    fractional (a ++ b) = fractional a + fractional b / 10 ^ a.length := by
  rw [fractional, fractional, fractional, Nat.ofDigitChars_append,
    Nat.ofDigitChars_eq_ofDigitChars_zero, List.length_append, pow_add]
  push_cast
  field_simp

theorem fractional_nonneg (digits : List Char) : 0 ≤ fractional digits := by
  unfold fractional
  positivity

theorem fractional_lt_one (h : ∀ c ∈ digits, Digit c) : fractional digits < 1 := by
  induction digits with
  | nil => simp [fractional]
  | cons c digits ih =>
      obtain ⟨hc, hdigits⟩ := List.forall_mem_cons.mp h
      have hfirst : fractional [c] ≤ 9 / 10 := by
        have hnine : c.toNat - 48 ≤ 9 := by
          have hle : c.toNat ≤ 57 := hc.2
          omega
        have hnine' : ((c.toNat - 48 : ℕ) : ℚ) ≤ 9 := by exact_mod_cast hnine
        simp only [fractional, Nat.ofDigitChars_cons, Nat.ofDigitChars_nil, List.length_singleton]
        simp
        linarith
      have hrest := ih hdigits
      rw [← List.singleton_append, fractional_append, List.length_singleton, pow_one]
      linarith

/-- Cutting digits loses less than the last place that is kept. -/
theorem fractional_take (h : ∀ c ∈ digits, Digit c) (places : ℕ) :
    fractional (digits.take places) ≤ fractional digits ∧
      fractional digits < fractional (digits.take places) + 1 / 10 ^ places := by
  have hunit : (0 : ℚ) < 10 ^ places := by positivity
  have hsplit := fractional_append (digits.take places) (digits.drop places)
  rw [List.take_append_drop] at hsplit
  rcases Nat.le_total digits.length places with hlong | hshort
  · rw [List.take_of_length_le hlong]
    refine ⟨le_refl _, ?_⟩
    linarith [one_div_pos.mpr hunit]
  · have hnonneg := fractional_nonneg (digits.drop places)
    have hlt : fractional (digits.drop places) < 1 :=
      fractional_lt_one fun c hc => h c (List.mem_of_mem_drop hc)
    rw [List.length_take_of_le hshort] at hsplit
    rw [hsplit]
    constructor
    · linarith [div_nonneg hnonneg hunit.le]
    · linarith [div_lt_div_of_pos_right hlt hunit]

end Fractional

namespace Number

variable {whole fraction : List Char}

theorem toList_fractionText (fraction : List Char) :
    (fractionText fraction).toList = if fraction = [] then [] else '.' :: fraction := by
  cases fraction with
  | nil => rfl
  | cons c fraction => simp [fractionText]

theorem not_digit_point : ¬ Digit '.' := by
  intro h
  exact absurd h.1 (by decide)

theorem filter_digits (h : ∀ c ∈ fraction, Digit c) : fraction.filter Char.isDigit = fraction :=
  List.filter_eq_self.mpr fun c hc => Lexical.isDigit_iff.mpr (h c hc)

theorem placesAfterPoint_append (hwhole : '.' ∉ whole) (h : ∀ c ∈ fraction, Digit c) :
    Lexeme.placesAfterPoint (whole ++ (fractionText fraction).toList) = fraction.length := by
  have hbefore : ∀ c ∈ whole, (c != '.') = true := by
    intro c hc
    rw [bne_iff_ne]
    rintro rfl
    exact hwhole hc
  rw [Lexeme.placesAfterPoint, toList_fractionText, List.dropWhile_append_of_pos hbefore]
  split
  · next hnil => simp [hnil]
  · rw [List.dropWhile_cons_of_neg (by simp), List.filter_cons_of_neg (by decide), filter_digits h]

theorem magnitude_append (hwhole : '.' ∉ whole) (h : ∀ c ∈ fraction, Digit c) :
    magnitude (whole ++ (fractionText fraction).toList) =
      Nat.ofDigitChars 10 (whole.filter Char.isDigit) 0 + fractional fraction := by
  have hdigits : (fractionText fraction).toList.filter Char.isDigit = fraction := by
    rw [toList_fractionText]
    split
    · next hnil => rw [hnil, List.filter_nil]
    · rw [List.filter_cons_of_neg (by decide), filter_digits h]
  rw [magnitude, placesAfterPoint_append hwhole h, Lexeme.digitValue, List.filter_append, hdigits,
    Nat.ofDigitChars_append, Nat.ofDigitChars_eq_ofDigitChars_zero, fractional]
  push_cast
  field_simp

end Number

/-! ## The digits of a decimal -/

namespace Decimal

variable {d : Decimal}

theorem fraction_of_nonneg (h : 0 ≤ d.exponent) : d.fraction = [] := by
  rw [fraction, if_pos]
  rw [places]
  omega

theorem length_fraction (d : Decimal) : d.fraction.length = d.places := by
  rw [fraction]
  split
  · next hplaces => rw [hplaces, List.length_nil]
  · next hplaces =>
      have hlength : (Nat.toDigits 10 (d.digits % Nat.pow 10 d.places)).length ≤ d.places :=
        (Nat.length_toDigits_le_iff (by decide) (Nat.pos_of_ne_zero hplaces)).mpr
          (Nat.mod_lt _ (Nat.pow_pos (by decide)))
      rw [List.length_leftpad, max_eq_left hlength]

theorem digit_of_mem_fraction {c : Char} (h : c ∈ d.fraction) : Digit c := by
  rw [fraction] at h
  split at h
  · cases h
  · rw [List.leftpad, List.mem_append] at h
    rcases h with hzero | hdigit
    · rw [List.eq_of_mem_replicate hzero]
      exact Lexical.isDigit_iff.mp (by decide)
    · exact (spells_toDigits _).digit c hdigit

/-- The digits before and after the point spell the decimal. -/
theorem whole_add_fractional (d : Decimal) : (d.whole : ℚ) + fractional d.fraction = d.value := by
  rcases le_or_gt 0 d.exponent with h | h
  · obtain ⟨i, hi⟩ := Int.eq_ofNat_of_zero_le h
    have hplaces : d.places = 0 := by
      rw [places]
      omega
    rw [fraction_of_nonneg h, fractional_nil, add_zero, whole, hplaces, value, hi, Nat.pow_eq]
    simp
  · have hup : d.exponent.toNat = 0 := by omega
    have hdown : d.exponent = -(d.places : Int) := by
      rw [places]
      omega
    have hplaces : ¬ d.places = 0 := by omega
    have hvalue : Nat.ofDigitChars 10 d.fraction 0 = d.digits % 10 ^ d.places := by
      rw [fraction, if_neg hplaces, List.leftpad, Nat.ofDigitChars_append,
        Nat.ofDigitChars_replicate_zero, Nat.mul_zero, Nat.ofDigitChars_ten_toDigits, Nat.pow_eq]
    have hdivided : (d.digits : ℚ) =
        10 ^ d.places * (d.digits / 10 ^ d.places : ℕ) + (d.digits % 10 ^ d.places : ℕ) := by
      exact_mod_cast (Nat.div_add_mod d.digits (10 ^ d.places)).symm
    rw [fractional, hvalue, length_fraction, whole, hup, value, hdown, zpow_neg, zpow_natCast,
      Nat.pow_eq, pow_zero, mul_one, Nat.pow_eq, ← div_eq_mul_inv, eq_div_iff (by positivity), add_mul,
      div_mul_cancel₀ _ (by positivity)]
    linarith

end Decimal

/-! ## Whole texts -/

/-- What stands before the point: the digits of `n`, with or without commas. -/
structure IntegerPart (text : List Char) (n : ℕ) : Prop where
  front : ∃ c ∈ text.head?, Digit c
  digitOrComma : ∀ c ∈ text, Digit c ∨ c = ','
  digits : text.filter Char.isDigit = Nat.toDigits 10 n

theorem integerPart_toDigits (n : ℕ) : IntegerPart (Nat.toDigits 10 n) n where
  front := by
    obtain ⟨c, cs, hcs⟩ := List.exists_cons_of_ne_nil (Nat.toDigits_ne_nil (b := 10) (n := n))
    refine ⟨c, by rw [hcs]; rfl, (spells_toDigits n).digit c ?_⟩
    rw [hcs]
    exact List.mem_cons_self
  digitOrComma c hc := .inl ((spells_toDigits n).digit c hc)
  digits := Number.filter_digits (spells_toDigits n).digit

theorem integerPart_grouped (n : ℕ) : IntegerPart (Number.grouped (Nat.toDigits 10 n)) n := by
  have hgroups := inGroups_grouped (Nat.toDigits_ne_nil (b := 10) (n := n))
  have hplain := integerPart_toDigits n
  refine ⟨?_, ?_, ?_⟩
  · rw [hgroups.head?.1]
    exact hplain.front
  · intro c hc
    rcases hgroups.mem hc with hcomma | hdigit
    · exact .inr hcomma
    · exact hplain.digitOrComma c hdigit
  · rw [hgroups.filter (by decide), hplain.digits]

section Signed

variable {part fraction : List Char} {n : ℕ} {negative : Bool}

/-- A sign, the digits before the point, and the digits after it. -/
def signedText (negative : Bool) (part fraction : List Char) : List Char :=
  (if negative then ['-'] else []) ++ part ++ (Number.fractionText fraction).toList

theorem not_mem_signed (negative : Bool) (h : IntegerPart part n) :
    '.' ∉ (if negative then ['-'] else []) ++ part := by
  intro hmem
  rcases List.mem_append.mp hmem with hsign | hpart
  · cases negative <;> simp at hsign
  · rcases h.digitOrComma _ hpart with hdigit | hcomma
    · exact Number.not_digit_point hdigit
    · exact absurd hcomma (by decide)

theorem placesAfterPoint_signedText (h : IntegerPart part n) (hfraction : ∀ c ∈ fraction, Digit c) :
    Lexeme.placesAfterPoint (signedText negative part fraction) = fraction.length :=
  Number.placesAfterPoint_append (not_mem_signed negative h) hfraction

theorem mem_signedText_iff (h : IntegerPart part n) :
    '.' ∈ signedText negative part fraction ↔ fraction ≠ [] := by
  have hbefore := not_mem_signed negative h
  rw [signedText, List.mem_append, or_iff_right hbefore, Number.toList_fractionText]
  by_cases hnil : fraction = [] <;> simp [hnil]

theorem head?_signedText (h : IntegerPart part n) :
    (signedText negative part fraction).head? = some '-' ↔ negative = true := by
  obtain ⟨c, hc, hdigit⟩ := h.front
  cases part with
  | nil => cases hc
  | cons c' part =>
      cases hc
      have hne : c ≠ '-' := by
        rintro rfl
        exact absurd hdigit.1 (by decide)
      cases negative <;> simp [signedText, hne]

theorem spelled_signedText (h : IntegerPart part n) (hfraction : ∀ c ∈ fraction, Digit c) :
    spelled (signedText negative part fraction) =
      if negative then -((n : ℚ) + fractional fraction) else n + fractional fraction := by
  have hmagnitude : magnitude (signedText negative part fraction) = n + fractional fraction := by
    have hsign : (if negative then ['-'] else []).filter Char.isDigit = [] := by
      cases negative <;> decide
    rw [signedText, Number.magnitude_append (not_mem_signed negative h) hfraction, List.filter_append, hsign,
      List.nil_append, h.digits, Nat.ofDigitChars_ten_toDigits]
  rw [spelled, hmagnitude]
  by_cases hneg : negative = true
  · rw [if_pos ((head?_signedText h).mpr hneg), if_pos hneg]
  · rw [if_neg (mt (head?_signedText h).mp hneg), if_neg hneg]

theorem spelled_plain (h : IntegerPart part n) (hfraction : ∀ c ∈ fraction, Digit c) :
    spelled (signedText false part fraction) = n + fractional fraction :=
  spelled_signedText h hfraction

theorem abs_spelled_signedText (h : IntegerPart part n) (hfraction : ∀ c ∈ fraction, Digit c) :
    |spelled (signedText negative part fraction)| = n + fractional fraction := by
  have hnonneg : 0 ≤ (n : ℚ) + fractional fraction :=
    add_nonneg n.cast_nonneg (fractional_nonneg fraction)
  rw [spelled_signedText h hfraction]
  cases negative with
  | false => exact abs_of_nonneg hnonneg
  | true => exact (abs_neg _).trans (abs_of_nonneg hnonneg)

theorem spelled_eq_sign_mul {v : ℚ} (h : IntegerPart part n) (hfraction : ∀ c ∈ fraction, Digit c)
    (hneg : negative = true ↔ v < 0) (hzero : v = 0 → (n : ℚ) + fractional fraction = 0) :
    spelled (signedText negative part fraction) =
      SignType.sign v * |spelled (signedText negative part fraction)| := by
  rw [abs_spelled_signedText h hfraction, spelled_signedText h hfraction]
  rcases lt_trichotomy v 0 with hv | hv | hv
  · rw [if_pos (hneg.mpr hv), sign_neg hv]
    simp
  · rw [hzero hv, neg_zero, ite_self, mul_zero]
  · rw [if_neg (mt hneg.mp hv.not_gt), sign_pos hv]
    simp

end Signed

namespace Number

variable {x : Float} {negative : Bool} {m : Nat} {e : Int}

theorem toList_realText (h : Exact.ofFloat x = .finite negative m e) :
    (realText x).toList =
      signedText (negative && m ≠ 0) (grouped (Nat.toDigits 10 (Decimal.shortest m e).whole))
        ((Decimal.shortest m e).fraction.take 4) := by
  simp only [realText, h, String.toList_append, toList_signText, String.toList_ofList, signedText,
    shownPlaces]

theorem toList_realDigits (h : Exact.ofFloat x = .finite negative m e) :
    (realDigits x.abs).toList =
      signedText false (Nat.toDigits 10 (Decimal.shortest m e).whole)
        (Decimal.shortest m e).fraction := by
  simp only [realDigits, Binary64.ofFloat_abs h, String.toList_append, toList_signText,
    String.toList_ofList, signedText]

end Number

namespace Decimal

variable {m n : Nat} {e : Int}

theorem fraction_eq_nil_iff (m : Nat) (e : Int) :
    (shortest m e).fraction = [] ↔ ∃ n : ℕ, (m * 2 ^ e : ℚ) = n := by
  constructor
  · intro hnil
    by_contra hwhole
    have hneg := exponent_neg hwhole
    have hlength := length_fraction (shortest m e)
    rw [hnil, List.length_nil, places] at hlength
    omega
  · rintro ⟨n, h⟩
    exact fraction_of_nonneg (exponent_nonneg h)

theorem whole_of_whole (hfull : Exact.Full m e) (h : (m * 2 ^ e : ℚ) = n) (hn : n < 2 ^ 53) :
    (shortest m e).whole = n := by
  have hvalue := value_of_whole (exponent_nonpos hfull h hn) h
  rw [← whole_add_fractional, (fraction_eq_nil_iff m e).mpr ⟨n, h⟩, fractional_nil, add_zero] at hvalue
  exact_mod_cast hvalue

end Decimal

/-! ## What is shown -/

theorem integer_iff_natural_abs (v : ℚ) : (∃ k : ℤ, v = k) ↔ ∃ n : ℕ, |v| = n := by
  constructor
  · rintro ⟨k, rfl⟩
    exact ⟨k.natAbs, by rw [Nat.cast_natAbs, Int.cast_abs]⟩
  · rintro ⟨n, hn⟩
    rcases (abs_eq n.cast_nonneg).mp hn with rfl | rfl
    · exact ⟨n, by simp⟩
    · exact ⟨-n, by simp⟩

/-- Nothing, or a point and digits. -/
def IsFraction (text : List Char) : Prop :=
  text = [] ∨ ∃ digits, digits ≠ [] ∧ text = '.' :: digits ∧ ∀ c ∈ digits, Digit c

theorem isFraction_fractionText {fraction : List Char} (h : ∀ c ∈ fraction, Digit c) :
    IsFraction (Number.fractionText fraction).toList := by
  rw [Number.toList_fractionText]
  split
  · exact .inl rfl
  · next hne => exact .inr ⟨fraction, hne, rfl, h⟩

/-- The plain digits of a number that is not negative: a decimal close to it, with a point
exactly if the number is not whole, and exact for whole numbers of fifty-three bits. -/
structure Displays (text : List Char) (v : ℚ) : Prop where
  form : ∃ n part fraction, text = part ++ fraction ∧ part ≠ [] ∧ Spells part n ∧ IsFraction fraction
  near : Close (spelled text) v
  point : '.' ∈ text ↔ ¬ ∃ k : ℤ, v = k
  whole : ∀ n : ℕ, v = n → n < 2 ^ 53 → Spells text n

/-- What is shown of a number `v` whose magnitude has the plain digits `plain`: these cut
after four places, with the sign of the number and commas before the point only. -/
structure Truncates (plain text : List Char) (v : ℚ) : Prop where
  sign : spelled text = SignType.sign v * |spelled text|
  below : |spelled text| ≤ spelled plain
  near : spelled plain < |spelled text| + 1 / 10000
  exact : Lexeme.placesAfterPoint plain ≤ 4 → |spelled text| = spelled plain
  point : '.' ∈ text ↔ ¬ ∃ k : ℤ, v = k
  places : Lexeme.placesAfterPoint text ≤ 4
  form : ∃ n digits groups fraction, text = (if v < 0 then ['-'] else []) ++ groups ++ fraction ∧
    InGroups ',' digits groups ∧ Spells digits n ∧ IsFraction fraction

namespace Number

variable {x : Float} {v : ℚ} {negative : Bool} {m : Nat} {e : Int}

theorem neg_iff_of_parts (hv : v = if negative then -(m * 2 ^ e : ℚ) else m * 2 ^ e) :
    (negative && m ≠ 0) = true ↔ v < 0 := by
  rw [hv]
  rcases Nat.eq_zero_or_pos m with rfl | hm
  · cases negative <;> simp
  · have hpos : (0 : ℚ) < m * 2 ^ e := by positivity
    cases negative with
    | false => simp [hpos.le]
    | true => simp [hpos, hm.ne']

/-- The plain digits say what they should of a magnitude. -/
theorem displays_realDigits (h : Exact.ofFloat x = .finite negative m e) (hv : |v| = m * 2 ^ e) :
    Displays (realDigits x.abs).toList |v| := by
  have hfull : Exact.Full m e := Exact.full_of_ofBits h
  have hpart := integerPart_toDigits (Decimal.shortest m e).whole
  have hfraction : ∀ c ∈ (Decimal.shortest m e).fraction, Digit c :=
    fun c hc => Decimal.digit_of_mem_fraction hc
  rw [toList_realDigits h]
  refine ⟨⟨_, _, _, rfl, Nat.toDigits_ne_nil, spells_toDigits _, isFraction_fractionText hfraction⟩,
    ?_, ?_, ?_⟩
  · rw [spelled_plain hpart hfraction, Decimal.whole_add_fractional, hv]
    exact Decimal.close_shortest hfull
  · rw [mem_signedText_iff hpart, ne_eq, Decimal.fraction_eq_nil_iff, integer_iff_natural_abs,
      abs_abs, hv]
  · intro n hn hsmall
    rw [hv] at hn
    rw [Decimal.whole_of_whole hfull hn hsmall, (Decimal.fraction_eq_nil_iff m e).mpr ⟨n, hn⟩]
    simpa [signedText, fractionText] using spells_toDigits n

theorem truncates_realText (h : Exact.ofFloat x = .finite negative m e)
    (hv : v = if negative then -(m * 2 ^ e : ℚ) else m * 2 ^ e) :
    Truncates (realDigits x.abs).toList (realText x).toList v := by
  have hdisplays := displays_realDigits h (abs_of_parts hv)
  have hplain := integerPart_toDigits (Decimal.shortest m e).whole
  have hgrouped := integerPart_grouped (Decimal.shortest m e).whole
  have hfraction : ∀ c ∈ (Decimal.shortest m e).fraction, Digit c :=
    fun c hc => Decimal.digit_of_mem_fraction hc
  have htaken : ∀ c ∈ (Decimal.shortest m e).fraction.take 4, Digit c :=
    fun c hc => hfraction c (List.mem_of_mem_take hc)
  have hsign := neg_iff_of_parts hv
  obtain ⟨hbelow, hnear⟩ := fractional_take hfraction 4
  rw [toList_realDigits h] at hdisplays ⊢
  rw [toList_realText h]
  refine ⟨spelled_eq_sign_mul hgrouped htaken hsign ?_, ?_, ?_, ?_, ?_, ?_, ?_⟩
  · -- what is close to zero is zero
    intro hv
    have hnone := hdisplays.near.nonpos (abs_nonpos_iff.mpr hv)
    have hnonneg := fractional_nonneg ((Decimal.shortest m e).fraction.take 4)
    have hwhole : (0 : ℚ) ≤ (Decimal.shortest m e).whole := Nat.cast_nonneg _
    rw [spelled_plain hplain hfraction] at hnone
    linarith
  · rw [abs_spelled_signedText hgrouped htaken, spelled_plain hplain hfraction]
    linarith
  · rw [abs_spelled_signedText hgrouped htaken, spelled_plain hplain hfraction]
    norm_num at hnear ⊢
    linarith
  · intro hshort
    rw [placesAfterPoint_signedText hplain hfraction] at hshort
    rw [List.take_of_length_le hshort, abs_spelled_signedText hgrouped hfraction,
      spelled_plain hplain hfraction]
  · rw [mem_signedText_iff hgrouped, ne_eq, List.take_eq_nil_iff, or_iff_right (by decide),
      Decimal.fraction_eq_nil_iff, integer_iff_natural_abs, abs_of_parts hv]
  · rw [placesAfterPoint_signedText hgrouped htaken]
    exact List.length_take_le 4 _
  · refine ⟨(Decimal.shortest m e).whole, _, _, _, ?_, inGroups_grouped Nat.toDigits_ne_nil,
      spells_toDigits _, isFraction_fractionText htaken⟩
    rw [signedText]
    simp only [hsign]

/-- A whole number within the exact range is shown as the integer. -/
theorem realText_eq_integerText {n : Int64} (hn : n.toInt.natAbs ≤ 2 ^ 53 - 1)
    (hx : (Exact.ofFloat x).value? = some (.ofRat n.toInt)) : realText x = integerText n := by
  obtain ⟨negative, m, e, hparts, hv⟩ := Exact.exists_parts hx
  have hfull : Exact.Full m e := Exact.full_of_ofBits hparts
  have hwhole : (m * 2 ^ e : ℚ) = n.toInt.natAbs := by
    rw [← abs_of_parts hv, Nat.cast_natAbs, Int.cast_abs]
  have hsign : (negative && m ≠ 0) = true ↔ n < 0 := by
    rw [neg_iff_of_parts hv, Int64.lt_iff_toInt_lt]
    exact_mod_cast Iff.rfl
  rw [← String.toList_inj, toList_realText hparts, toList_integerText, signedText,
    Decimal.whole_of_whole hfull hwhole (by omega),
    (Decimal.fraction_eq_nil_iff m e).mpr ⟨_, hwhole⟩]
  simp only [hsign, List.take_nil, toList_fractionText, if_true, List.append_nil]

/-- **Real numbers are cut, never rounded, and whole ones are shown as integers.** The plain
digits of the magnitude are a decimal close to it, and the text shows them up to the
fourth place. Within the exact range, an integer and any real of the same value have the
same text. -/
theorem realText_truncates :
    (∀ (x : Float) (v : ℚ), (Exact.ofFloat x).value? = some (.ofRat v) →
        Displays (realDigits x.abs).toList |v| ∧
          Truncates (realDigits x.abs).toList (realText x).toList v) ∧
      ∀ n : Int64, n.toInt.natAbs ≤ 2 ^ 53 - 1 →
        realText (ofInteger n) = integerText n ∧
          ∀ x : Float, (Exact.ofFloat x).value? = some (.ofRat n.toInt) →
            (Value.real x).render = (Value.integer n).render := by
  refine ⟨fun x v hx => ?_, fun n hn => ⟨?_, fun x hx => ?_⟩⟩
  · obtain ⟨negative, m, e, hparts, hv⟩ := Exact.exists_parts hx
    exact ⟨displays_realDigits hparts (abs_of_parts hv), truncates_realText hparts hv⟩
  · exact realText_eq_integerText hn (value?_ofInteger hn)
  · exact realText_eq_integerText hn hx

/-- A negative number with more digits than are shown, the least integer of the exact
range, and the zero with a sign. -/
theorem realText_truncates_negative :
    let x : Float := .ofBits 0xc0934a4584f4c6e7
    let v : ℚ := -(5429687001335527 / 2 ^ 42)
    let zero : Float := .ofBits 0x8000000000000000
    let n : Int64 := -9007199254740991
    (Exact.ofFloat x).value? = some (.ofRat v) ∧
      Displays "1234.56789".toList |v| ∧ Truncates "1234.56789".toList "-1,234.5678".toList v ∧
      n.toInt.natAbs ≤ 2 ^ 53 - 1 ∧ realText (ofInteger n) = "-9,007,199,254,740,991" ∧
      (Exact.ofFloat zero).value? = some (.ofRat (0 : Int64).toInt) ∧
      (Value.real zero).render = "0" := by
  intro x v zero n
  have hx : (Exact.ofFloat x).value? = some (.ofRat v) := by
    have parts : Exact.ofFloat x = .finite true 5429687001335527 (-42) := by decide +kernel
    rw [parts, Exact.value?]
    norm_num [v]
  have hzero : (Exact.ofFloat zero).value? = some (.ofRat (0 : Int64).toInt) := by
    have parts : Exact.ofFloat zero = .finite true 0 (-1074) := by decide +kernel
    rw [parts, Exact.value?]
    simp
  have hn : n.toInt.natAbs ≤ 2 ^ 53 - 1 := by decide +kernel
  have hdigits : realDigits x.abs = "1234.56789" := by decide +kernel
  have htext : realText x = "-1,234.5678" := by decide +kernel
  have hshown := realText_truncates.1 x v hx
  rw [hdigits, htext] at hshown
  refine ⟨hx, hshown.1, hshown.2, hn, ?_, hzero, ?_⟩
  · exact (realText_truncates.2 n hn).1.trans (by decide +kernel)
  · exact ((realText_truncates.2 0 (by decide)).2 zero hzero).trans (by decide +kernel)

end Number

end UnitCalc
