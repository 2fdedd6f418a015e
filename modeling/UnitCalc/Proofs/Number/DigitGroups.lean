import Mathlib
import UnitCalc.Number.Text
import UnitCalc.Proofs.Token.Numerals

/-!
# Integers in digit groups

An integer is shown as its decimal digits in groups of three. The commas between the
groups are counted from the right, while the text is built from the left: a comma
follows a digit if the number of digits after it is divisible by three. With underscores
for the commas, the text is what the scanner reads as the same integer.
-/

namespace UnitCalc

open Lexical (Digit Numeral IsNumeral WellPlaced decimal)

/-- The digits of a number in the decimal system, with no zero in front. -/
structure Spells (digits : List Char) (n : ℕ) : Prop where
  digit : ∀ c ∈ digits, Digit c
  value : decimal digits = n
  front : digits.head? = some '0' → digits = ['0']

/-- Digits in groups, with a mark between them: the first group has one to three digits, and every
other has three. -/
def InGroups (mark : Char) (digits text : List Char) : Prop :=
  ∃ first rest, (1 ≤ first.length ∧ first.length ≤ 3) ∧ (∀ group ∈ rest, group.length = 3) ∧
    digits = (first :: rest).flatten ∧ text = [mark].intercalate (first :: rest)

/-! ## Marks between groups -/

section Groups

variable {mark mark' : Char} {digits text : List Char} {groups : List (List Char)}

theorem filter_intercalate {p : Char → Bool} (h : p mark = false) :
    ([mark].intercalate groups).filter p = groups.flatten.filter p := by
  induction groups with
  | nil => rfl
  | cons group groups ih =>
      cases groups with
      | nil => simp
      | cons group' groups =>
          rw [List.intercalate_cons_cons, List.filter_append, ih]
          simp [h]

theorem map_intercalate (f : Char → Char) :
    ([mark].intercalate groups).map f = [f mark].intercalate (groups.map (List.map f)) := by
  induction groups with
  | nil => rfl
  | cons group groups ih =>
      cases groups with
      | nil => simp
      | cons group' groups =>
          rw [List.intercalate_cons_cons, List.map_append, ih]
          simp

theorem mem_intercalate {c : Char} (h : c ∈ [mark].intercalate groups) :
    c = mark ∨ c ∈ groups.flatten := by
  by_cases hc : c = mark
  · exact .inl hc
  · have hkept : c ∈ ([mark].intercalate groups).filter (· ≠ mark) :=
      List.mem_filter.mpr ⟨h, decide_eq_true hc⟩
    rw [filter_intercalate (by simp)] at hkept
    exact .inr (List.mem_of_mem_filter hkept)

/-- The digits that are left are whole groups, after a first one that may be short. -/
theorem inGroups_grouped (h : digits ≠ []) : InGroups ',' digits (Number.grouped digits) := by
  induction digits with
  | nil => exact absurd rfl h
  | cons d ds ih =>
      by_cases hds : ds = []
      · subst hds
        exact ⟨[d], [], by simp, by simp, rfl, rfl⟩
      · obtain ⟨first, rest, hfirst, hrest, hflat, htext⟩ := ih hds
        have hlength : ds.length = first.length + rest.length * 3 := by
          rw [hflat, List.flatten_cons, List.length_append, List.length_flatten,
            List.map_congr_left hrest, List.map_const', List.sum_replicate, smul_eq_mul]
        rw [Number.grouped]
        by_cases hthree : ds.length % 3 = 0
        · -- the group that begins with `ds` is full
          rw [if_pos ⟨hds, hthree⟩, htext]
          refine ⟨[d], first :: rest, by simp, ?_, by rw [hflat]; rfl, rfl⟩
          intro group hgroup
          rcases List.mem_cons.mp hgroup with rfl | hgroup
          · omega
          · exact hrest group hgroup
        · rw [if_neg fun hboth => hthree hboth.2, htext]
          refine ⟨d :: first, rest, ?_, hrest, by rw [hflat]; rfl, ?_⟩
          · rw [List.length_cons]
            omega
          · cases rest <;> rfl

/-- Another mark between the same groups. -/
theorem InGroups.replace (h : InGroups mark digits text) (f : Char → Char)
    (hf : ∀ c ∈ digits, f c = c) : InGroups (f mark) digits (text.map f) := by
  obtain ⟨first, rest, hfirst, hrest, rfl, rfl⟩ := h
  refine ⟨first, rest, hfirst, hrest, rfl, ?_⟩
  have hgroups : (first :: rest).map (List.map f) = first :: rest := by
    refine (List.map_congr_left fun group hgroup => ?_).trans (List.map_id _)
    exact (List.map_congr_left fun c hc => hf c (List.mem_flatten_of_mem hgroup hc)).trans
      (List.map_id _)
  rw [map_intercalate, hgroups]

theorem InGroups.mem (h : InGroups mark digits text) {c : Char} (hc : c ∈ text) :
    c = mark ∨ c ∈ digits := by
  obtain ⟨first, rest, -, -, rfl, rfl⟩ := h
  exact mem_intercalate hc

theorem InGroups.filter (h : InGroups mark digits text) {p : Char → Bool} (hp : p mark = false) :
    text.filter p = digits.filter p := by
  obtain ⟨first, rest, -, -, rfl, rfl⟩ := h
  exact filter_intercalate hp

theorem InGroups.head? (h : InGroups mark digits text) : text.head? = digits.head? ∧ digits ≠ [] := by
  obtain ⟨first, rest, ⟨hpos, -⟩, -, rfl, rfl⟩ := h
  cases first with
  | nil => simp at hpos
  | cons c first => cases rest <;> simp [List.intercalate_cons_cons]

/-! ## Groups in a source text -/

theorem digit_ne_underscore {c : Char} (h : Digit c) : c ≠ '_' := by
  rintro rfl
  exact absurd h.2 (by decide)

/-- Only what comes right before an underscore matters. -/
theorem separated_digits {afterDigit : Bool} {group rest : List Char} (hne : group ≠ [])
    (hgroup : ∀ c ∈ group, Digit c) :
    Lexeme.separated afterDigit (group ++ rest) = Lexeme.separated true rest := by
  induction group generalizing afterDigit with
  | nil => exact absurd rfl hne
  | cons c group ih =>
      obtain ⟨hc, hgroup⟩ := List.forall_mem_cons.mp hgroup
      rw [List.cons_append, Lexeme.separated, if_neg (digit_ne_underscore hc),
        Lexical.isDigit_iff.mpr hc]
      by_cases hnil : group = []
      · rw [hnil, List.nil_append]
      · exact ih hnil hgroup

theorem separated_intercalate {afterDigit : Bool} (hne : ∀ group ∈ groups, group ≠ [])
    (hgroups : ∀ group ∈ groups, ∀ c ∈ group, Digit c) :
    Lexeme.separated afterDigit (['_'].intercalate groups) = true := by
  induction groups generalizing afterDigit with
  | nil => rfl
  | cons group groups ih =>
      obtain ⟨hfirst, hne⟩ := List.forall_mem_cons.mp hne
      obtain ⟨hdigits, hgroups⟩ := List.forall_mem_cons.mp hgroups
      cases groups with
      | nil =>
          rw [List.intercalate_singleton, ← List.append_nil group, separated_digits hfirst hdigits]
          rfl
      | cons group' groups =>
          have hhead : (['_'].intercalate (group' :: groups)).head?.any Char.isDigit = true := by
            obtain ⟨c, cs, rfl⟩ := List.exists_cons_of_ne_nil (hne group' List.mem_cons_self)
            have hc := Lexical.isDigit_iff.mpr (hgroups _ List.mem_cons_self c List.mem_cons_self)
            cases groups <;> simp [List.intercalate_cons_cons, hc]
          rw [List.intercalate_cons_cons, List.append_assoc, separated_digits hfirst hdigits,
            List.singleton_append, Lexeme.separated, if_pos rfl, hhead, ih hne hgroups]
          rfl

/-- Groups with underscores between them are read as the number that their digits spell. -/
theorem readNumber_inGroups {n : ℕ} (h : InGroups '_' digits text) (hdigits : Spells digits n)
    (hn : n ≤ Number.exactLimit) :
    IsNumeral text ∧ Lexeme.readNumber text [] = .ok (.integer (Int64.ofNat n)) := by
  have hmem : ∀ c ∈ text, Digit c ∨ c = '_' := by
    intro c hc
    rcases h.mem hc with hmark | hdigit
    · exact .inr hmark
    · exact .inl (hdigits.digit c hdigit)
  have hnumeral : ∀ c ∈ text, Numeral c := fun c hc => (hmem c hc).imp_right .inl
  have hpoint : '.' ∉ text := by
    intro hc
    rcases hmem _ hc with hdigit | hmark
    · exact absurd hdigit.1 (by decide)
    · exact absurd hmark (by decide)
  have hvalue : Lexeme.digitValue text = n := by
    rw [Lexical.digitValue_eq_decimal hnumeral hpoint, ← hdigits.value, decimal, decimal,
      h.filter (by decide)]
  have hplaced : WellPlaced text := by
    rw [← Lexical.wellFormed_iff, Lexeme.wellFormed, List.count_eq_zero_of_not_mem hpoint]
    obtain ⟨first, rest, ⟨hpos, -⟩, hrest, rfl, rfl⟩ := h
    refine separated_intercalate ?_ fun group hgroup c hc =>
      hdigits.digit c (List.mem_flatten_of_mem hgroup hc)
    intro group hgroup hnil
    rcases List.mem_cons.mp hgroup with rfl | hgroup
    · rw [hnil] at hpos
      exact absurd hpos (by decide)
    · have hthree := hrest group hgroup
      rw [hnil] at hthree
      exact absurd hthree (by decide)
  refine ⟨⟨?_, hnumeral⟩, ?_⟩
  · obtain ⟨hhead, hne⟩ := h.head?
    obtain ⟨c, cs, rfl⟩ := List.exists_cons_of_ne_nil hne
    exact ⟨c, hhead, hdigits.digit c List.mem_cons_self⟩
  · rw [Lexical.readNumber_of_digits hplaced hpoint, hvalue, if_pos hn]

end Groups

/-! ## Integers -/

/-- A sign in front is a token of its own. -/
theorem Lexical.scan_minus {cs : List Char} {ts : List Token}
    (h : Token.scan (String.ofList cs) = .ok ts) :
    Token.scan (String.ofList ('-' :: cs)) = .ok (.sign .minus :: ts) := by
  have htake : Lexeme.take '-' cs = (.mark (.sign .minus) ['-'], cs) := by
    cases cs <;> rfl
  rw [Token.scan, String.toList_ofList] at h ⊢
  rw [cut_cons, htake, readAll_cons_of_ok rfl, readAll_add, h]
  rfl

/-- The digits of a number are those that are shown. -/
theorem spells_toDigits (n : ℕ) : Spells (Nat.toDigits 10 n) n where
  digit c hc := Lexical.isDigit_iff.mp (Nat.isDigit_of_mem_toDigits (by decide) (by decide) hc)
  value := by
    have hkept : (Nat.toDigits 10 n).filter (· ≠ '_') = Nat.toDigits 10 n := by
      refine List.filter_eq_self.mpr fun c hc => decide_eq_true ?_
      rintro rfl
      exact Nat.underscore_not_in_toDigits hc
    rw [decimal, hkept, ← Lexical.ofDigitChars_eq_ofDigits, Nat.ofDigitChars_ten_toDigits]
  front := by
    induction n using Nat.strong_induction_on with
    | _ n ih =>
        intro hzero
        rcases Nat.lt_or_ge n 10 with hn | hn
        · rw [Nat.toDigits_of_lt_base hn] at hzero ⊢
          rw [← Option.some.inj hzero]
        · -- a zero in front would be the only digit before the last one
          rw [Nat.toDigits_of_base_le (by decide) hn,
            List.head?_append_of_ne_nil _ Nat.toDigits_ne_nil] at hzero
          have hvalue := congrArg (Nat.ofDigitChars 10 · 0) (ih (n / 10) (by omega) hzero)
          simp only [Nat.ofDigitChars_ten_toDigits] at hvalue
          have hnone : n / 10 = 0 := hvalue
          omega

namespace Number

theorem toList_signText (negative : Bool) :
    (signText negative).toList = if negative then ['-'] else [] := by
  cases negative <;> rfl

theorem toList_integerText (n : Int64) :
    (integerText n).toList =
      (if n < 0 then ['-'] else []) ++ grouped (Nat.toDigits 10 n.toInt.natAbs) := by
  rw [integerText, String.toList_append, toList_signText, String.toList_ofList]
  simp

/-- **An integer is shown canonically and reads back.** Its text is a sign if it is
negative, and the digits of its magnitude in groups, with no zero in front. Within the
exact range the groups are read as one integer token when underscores separate them. -/
theorem integerText_canonical (n : Int64) :
    (∃ digits text, (integerText n).toList = (if n < 0 then ['-'] else []) ++ text ∧
        InGroups ',' digits text ∧ Spells digits n.toInt.natAbs) ∧
      (n.toInt.natAbs ≤ 2 ^ 53 - 1 → ∃ m : Int64, m.toInt = n.toInt.natAbs ∧
        Token.scan ((integerText n).map fun c => if c = ',' then '_' else c) =
          .ok (if n < 0 then [.sign .minus, .integer m, .endOfInput]
            else [.integer n, .endOfInput])) := by
  have hspells := spells_toDigits n.toInt.natAbs
  have hgroups := inGroups_grouped (Nat.toDigits_ne_nil (b := 10) (n := n.toInt.natAbs))
  refine ⟨⟨_, _, toList_integerText n, hgroups, hspells⟩, fun hrange => ?_⟩
  have hkept : ∀ c ∈ Nat.toDigits 10 n.toInt.natAbs, (if c = ',' then '_' else c) = c := by
    intro c hc
    refine if_neg ?_
    rintro rfl
    exact absurd (hspells.digit _ hc).1 (by decide)
  obtain ⟨hnumeral, hread⟩ := readNumber_inGroups (hgroups.replace _ hkept) hspells hrange
  have hscan := Lexical.scan_of_readNumber hnumeral (u := []) (fun c hc => by cases hc)
  rw [List.append_nil, hread] at hscan
  have hm : (Int64.ofNat n.toInt.natAbs).toInt = n.toInt.natAbs :=
    Int64.toInt_ofNat_of_lt (by omega)
  refine ⟨Int64.ofNat n.toInt.natAbs, hm, ?_⟩
  rw [← String.ofList_toList (s := (integerText n).map _), String.toList_map, toList_integerText]
  by_cases hn : n < 0
  · rw [if_pos hn, if_pos hn]
    exact Lexical.scan_minus hscan
  · have hn' : Int64.ofNat n.toInt.natAbs = n := by
      rw [← Int64.toInt_inj, hm]
      have hnonneg : 0 ≤ n.toInt := by
        rw [Int64.lt_iff_toInt_lt] at hn
        exact not_lt.mp hn
      omega
    rw [if_neg hn, if_neg hn, List.nil_append]
    rw [hn'] at hscan
    exact hscan

/-- The least integer, and one with three groups. -/
theorem integerText_canonical_negative :
    let n : Int64 := -1234567
    (∃ digits text, (integerText Int64.minValue).toList = '-' :: text ∧
        InGroups ',' digits text ∧ Spells digits (2 ^ 63)) ∧
      integerText n = "-1,234,567" ∧ n.toInt.natAbs ≤ 2 ^ 53 - 1 ∧
      ∃ m : Int64, m.toInt = 1234567 ∧
        Token.scan "-1_234_567" = .ok [.sign .minus, .integer m, .endOfInput] := by
  intro n
  have htext : integerText n = "-1,234,567" := by decide +kernel
  have hrange : n.toInt.natAbs ≤ 2 ^ 53 - 1 := by decide +kernel
  have hreplaced : String.map (fun c => if c = ',' then '_' else c) "-1,234,567" = "-1_234_567" := by
    rw [← String.toList_inj, String.toList_map]
    decide
  obtain ⟨m, hm, hscan⟩ := (integerText_canonical n).2 hrange
  rw [htext, hreplaced, if_pos (by decide)] at hscan
  exact ⟨(integerText_canonical Int64.minValue).1, htext, hrange, m, hm, hscan⟩

end Number

end UnitCalc
