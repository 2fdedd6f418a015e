import Mathlib
import UnitCalc.Proofs.Token.Separation

/-!
# Numbers as whole texts

A text of digits, underscores and points with letters after it is one lexeme. What it
is read as depends first on where its points and underscores stand, then on the
letters, and only without letters and point on its size.
-/

namespace UnitCalc

theorem Measure.isSymbol_iff {s : String} : isSymbol s = true ↔ ∃ m : Measure, m.symbol = s := by
  rw [isSymbol, ofSymbol?, List.find?_isSome]
  constructor
  · rintro ⟨m, -, hm⟩
    exact ⟨m, of_decide_eq_true hm⟩
  · rintro ⟨m, rfl⟩
    exact ⟨m, by cases m <;> decide, decide_eq_true rfl⟩

namespace Lexical

open Lexeme

/-- Digits, underscores and points, with a digit in front. -/
structure IsNumeral (d : List Char) : Prop where
  front : ∃ c ∈ d.head?, Digit c
  numeral : ∀ c ∈ d, Numeral c

/-- At most one point, and every underscore between two digits. -/
structure WellPlaced (d : List Char) : Prop where
  point : d.count '.' ≤ 1
  underscore : ∀ before after, d = before ++ '_' :: after →
    (∃ c ∈ before.getLast?, Digit c) ∧ ∃ c ∈ after.head?, Digit c

/-- The value of digits in the decimal system, without the underscores among them. -/
def decimal (d : List Char) : Nat :=
  Nat.ofDigits 10 ((d.filter (· ≠ '_')).reverse.map fun c => c.toNat - '0'.toNat)

variable {d u : List Char}

/-! ## Points and underscores -/

/-- The scan for underscores looks at their neighbours; before the first character it
takes `afterDigit` for one. -/
theorem separated_iff {afterDigit : Bool} :
    separated afterDigit d = true ↔ ∀ before after, d = before ++ '_' :: after →
      before.getLast?.elim afterDigit Char.isDigit = true ∧ after.head?.any Char.isDigit = true := by
  induction d generalizing afterDigit with
  | nil => simp [separated]
  | cons c d ih =>
      -- what stands before an underscore further on is `c` or comes after it
      have hlast : ∀ before : List Char, (c :: before).getLast?.elim afterDigit Char.isDigit =
          before.getLast?.elim c.isDigit Char.isDigit := by
        intro before
        rw [List.getLast?_cons]
        cases before.getLast? <;> rfl
      have hfurther : separated c.isDigit d = true ↔
          ∀ before after, c :: d = (c :: before) ++ '_' :: after →
            (c :: before).getLast?.elim afterDigit Char.isDigit = true ∧
              after.head?.any Char.isDigit = true := by
        rw [ih]
        simp only [hlast, List.cons_append, List.cons.injEq, true_and]
      by_cases hc : c = '_'
      · subst hc
        rw [separated, if_pos rfl, Bool.and_eq_true, Bool.and_eq_true]
        constructor
        · rintro ⟨⟨hbefore, hafter⟩, hrest⟩ before after hsplit
          cases before with
          | nil =>
              cases hsplit
              exact ⟨hbefore, hafter⟩
          | cons c' before =>
              obtain ⟨rfl, -⟩ := List.cons_eq_cons.mp hsplit
              exact hfurther.mp hrest before after hsplit
        · intro h
          exact ⟨h [] d rfl, hfurther.mpr fun before after => h ('_' :: before) after⟩
      · rw [separated, if_neg hc, hfurther]
        constructor
        · intro h before after hsplit
          cases before with
          | nil => exact absurd (List.cons_eq_cons.mp hsplit).1 hc
          | cons c' before =>
              obtain ⟨rfl, -⟩ := List.cons_eq_cons.mp hsplit
              exact h before after hsplit
        · exact fun h before after => h (c :: before) after

theorem wellFormed_iff : wellFormed d = true ↔ WellPlaced d := by
  have hany : ∀ o : Option Char, o.any Char.isDigit = true ↔ ∃ c ∈ o, Digit c := by
    intro o
    simp only [Option.any_eq_true, isDigit_iff, Option.mem_def]
  have helim : ∀ o : Option Char, o.elim false Char.isDigit = o.any Char.isDigit := by
    intro o
    cases o <;> rfl
  rw [wellFormed, Bool.and_eq_true, decide_eq_true_eq, separated_iff]
  simp only [helim, hany]
  constructor
  · rintro ⟨hpoint, hunderscore⟩
    exact ⟨hpoint, hunderscore⟩
  · intro h
    exact ⟨h.point, h.underscore⟩

/-! ## The value of digits -/

theorem ofDigitChars_eq_ofDigits (cs : List Char) :
    Nat.ofDigitChars 10 cs 0 = Nat.ofDigits 10 (cs.reverse.map fun c => c.toNat - '0'.toNat) := by
  rw [Nat.ofDigitChars_eq_foldl, Nat.ofDigits_eq_foldr, List.foldr_map, List.foldr_reverse]
  congr 1
  funext sofar c
  exact Nat.add_comm _ _

theorem digitValue_eq_decimal (hd : ∀ c ∈ d, Numeral c) (hpoint : '.' ∉ d) :
    digitValue d = decimal d := by
  have hunderscore : ¬ Digit '_' := by
    unfold Digit
    decide
  have hfilter : d.filter Char.isDigit = d.filter (· ≠ '_') := by
    refine List.filter_congr fun c hc => ?_
    rw [Bool.eq_iff_iff, isDigit_iff, decide_eq_true_eq]
    rcases hd c hc with hdigit | rfl | rfl
    · exact ⟨fun _ heq => hunderscore (heq ▸ hdigit), fun _ => hdigit⟩
    · exact ⟨fun h => absurd h hunderscore, fun h => absurd rfl h⟩
    · exact absurd hc hpoint
  rw [digitValue, hfilter, ofDigitChars_eq_ofDigits, decimal]

/-! ## The whole text -/

/-- Digits and the letters after them are one lexeme. -/
theorem cut_numeral (hd : IsNumeral d) (hu : ∀ c ∈ u, Letter c) :
    cut (d ++ u) = [.number d u] := by
  obtain ⟨⟨c, hc, hdigit⟩, hnumeral⟩ := hd
  cases d with
  | nil => cases hc
  | cons c' d =>
      cases hc
      have hnumeric : ∀ c ∈ d, isNumeric c = true := fun c hc =>
        isNumeric_iff.mpr (hnumeral c (List.mem_cons_of_mem _ hc))
      have halpha : ∀ c ∈ u, c.isAlpha = true := fun c hc => isAlpha_iff.mpr (hu c hc)
      have hstop : ∀ c ∈ u.head?, isNumeric c = false := fun c hc =>
        Bool.eq_false_iff.mpr (mt isNumeric_iff.mp (hu c (List.mem_of_mem_head? hc)).not_numeral)
      rw [List.cons_append, cut_cons, take_of_digit hdigit, takeWhile_append_of_stop hstop,
        dropWhile_append_of_stop hstop, List.takeWhile_eq_self_iff.mpr hnumeric,
        List.dropWhile_eq_nil_iff.mpr hnumeric, List.nil_append,
        List.takeWhile_eq_self_iff.mpr halpha, List.dropWhile_eq_nil_iff.mpr halpha, cut]

theorem scan_of_readNumber (hd : IsNumeral d) (hu : ∀ c ∈ u, Letter c) :
    Token.scan (String.ofList (d ++ u)) =
      ((readNumber d u).map fun t => [t, .endOfInput]).mapError fun fault => ⟨fault, 0⟩ := by
  rw [Token.scan, String.toList_ofList, cut_numeral hd hu]
  cases hnumber : readNumber d u with
  | error fault => exact readAll_cons_of_error (by rw [Lexeme.read, hnumber]; rfl)
  | ok t =>
      have hread : (Lexeme.number d u).read = .ok (some t) := by
        rw [Lexeme.read, hnumber]
        rfl
      exact readAll_cons_of_ok hread

theorem readNumber_of_not_wellPlaced (h : ¬ WellPlaced d) (u : List Char) :
    readNumber d u = .error .malformedNumber := by
  rw [readNumber, Bool.eq_false_iff.mpr (mt wellFormed_iff.mp h)]
  rfl

theorem readNumber_of_suffix (h : WellPlaced d) (hu : u ≠ []) :
    readNumber d u =
      if Measure.isSymbol (String.ofList u) then
        .ok (.quantity (decimalValue d) (String.ofList u))
      else .error (.unregisteredUnit (String.ofList u)) := by
  rw [readNumber, wellFormed_iff.mpr h, if_neg (by decide), if_pos hu]

theorem readNumber_of_point (h : WellPlaced d) (hpoint : '.' ∈ d) :
    readNumber d [] = .ok (.real (decimalValue d)) := by
  rw [readNumber, wellFormed_iff.mpr h, if_neg (by decide), if_neg (by simp),
    if_pos (List.contains_iff_mem.mpr hpoint)]

theorem readNumber_of_digits (h : WellPlaced d) (hpoint : '.' ∉ d) :
    readNumber d [] =
      if digitValue d ≤ Number.exactLimit then .ok (.integer (Int64.ofNat (digitValue d)))
      else .error .literalTooLarge := by
  rw [readNumber, wellFormed_iff.mpr h, if_neg (by decide), if_neg (by simp),
    if_neg (mt List.contains_iff_mem.mp hpoint), readInteger_eq]

/-- **Numbers are classified by their form, their letters and their size, in this order.**
Misplaced points and underscores are found whatever the letters are. With letters the
number is a quantity if they are a unit, of any size; without letters a point makes it
real, and digits alone are the integer they spell, if it is in the exact range. -/
theorem scan_numeral (hd : IsNumeral d) (hu : ∀ c ∈ u, Letter c) :
    (¬ WellPlaced d → Token.scan (String.ofList (d ++ u)) = .error ⟨.malformedNumber, 0⟩) ∧
    (WellPlaced d → u ≠ [] → (∃ m : Measure, m.symbol = String.ofList u) →
      Token.scan (String.ofList (d ++ u)) =
        .ok [.quantity (decimalValue d) (String.ofList u), .endOfInput]) ∧
    (WellPlaced d → u ≠ [] → (¬ ∃ m : Measure, m.symbol = String.ofList u) →
      Token.scan (String.ofList (d ++ u)) = .error ⟨.unregisteredUnit (String.ofList u), 0⟩) ∧
    (WellPlaced d → u = [] → '.' ∈ d →
      Token.scan (String.ofList (d ++ u)) = .ok [.real (decimalValue d), .endOfInput]) ∧
    (WellPlaced d → u = [] → '.' ∉ d → decimal d ≤ 2 ^ 53 - 1 →
      ∃ n : Int64, n.toInt = decimal d ∧
        Token.scan (String.ofList (d ++ u)) = .ok [.integer n, .endOfInput]) ∧
    (WellPlaced d → u = [] → '.' ∉ d → 2 ^ 53 - 1 < decimal d →
      Token.scan (String.ofList (d ++ u)) = .error ⟨.literalTooLarge, 0⟩) := by
  have hlimit : Number.exactLimit = 2 ^ 53 - 1 := rfl
  rw [scan_of_readNumber hd hu]
  refine ⟨fun h => ?_, fun h hletters hunit => ?_, fun h hletters hunit => ?_, ?_, ?_, ?_⟩
  · rw [readNumber_of_not_wellPlaced h]
    rfl
  · rw [readNumber_of_suffix h hletters, if_pos (Measure.isSymbol_iff.mpr hunit)]
    rfl
  · rw [readNumber_of_suffix h hletters, if_neg (mt Measure.isSymbol_iff.mp hunit)]
    rfl
  · rintro h rfl hpoint
    rw [readNumber_of_point h hpoint]
    rfl
  · rintro h rfl hpoint hsmall
    have hvalue := digitValue_eq_decimal hd.numeral hpoint
    refine ⟨Int64.ofNat (decimal d), Int64.toInt_ofNat_of_lt (by omega), ?_⟩
    rw [readNumber_of_digits h hpoint, hvalue, if_pos (hlimit ▸ hsmall)]
    rfl
  · rintro h rfl hpoint hlarge
    have hvalue := digitValue_eq_decimal hd.numeral hpoint
    rw [readNumber_of_digits h hpoint, hvalue, if_neg (by omega)]
    rfl

/-- One number alone and before letters, and one whose underscore stands at its end. -/
theorem scan_numeral_thousand :
    let d := ['0', '1', '_', '0', '0', '0']
    let e := ['1', '_']
    let u := ['k', 'b']
    IsNumeral d ∧ IsNumeral e ∧ (∀ c ∈ u, Letter c) ∧ WellPlaced d ∧ ¬ WellPlaced e ∧
      (∃ n : Int64, n.toInt = 1000 ∧
        Token.scan (String.ofList d) = .ok [.integer n, .endOfInput]) ∧
      Token.scan (String.ofList (d ++ u)) =
        .ok [.quantity (decimalValue d) (String.ofList u), .endOfInput] ∧
      Token.scan (String.ofList (e ++ u)) = .error ⟨.malformedNumber, 0⟩ := by
  intro d e u
  have numerals : ∀ c ∈ d ++ e, Numeral c := fun c hc =>
    isNumeric_iff.mp (List.all_eq_true.mp (by decide : (d ++ e).all isNumeric = true) c hc)
  have letters : ∀ c ∈ u, Letter c := fun c hc =>
    isAlpha_iff.mp (List.all_eq_true.mp (by decide : u.all Char.isAlpha = true) c hc)
  have hd : IsNumeral d :=
    ⟨⟨'0', rfl, isDigit_iff.mp rfl⟩, fun c hc => numerals c (List.mem_append_left _ hc)⟩
  have he : IsNumeral e :=
    ⟨⟨'1', rfl, isDigit_iff.mp rfl⟩, fun c hc => numerals c (List.mem_append_right _ hc)⟩
  have placed : WellPlaced d := wellFormed_iff.mp (by decide)
  have misplaced : ¬ WellPlaced e := mt wellFormed_iff.mpr (by decide)
  have value : decimal d = 1000 := by decide
  refine ⟨hd, he, letters, placed, misplaced, ?_, ?_, ?_⟩
  · obtain ⟨n, hn, hscan⟩ := (scan_numeral hd (u := []) (fun c hc => by cases hc)).2.2.2.2.1
      placed rfl (by decide) (by rw [value]; decide)
    rw [value] at hn
    rw [List.append_nil] at hscan
    exact ⟨n, hn, hscan⟩
  · exact (scan_numeral hd letters).2.1 placed (List.cons_ne_nil _ _) ⟨.kilobyte, rfl⟩
  · exact (scan_numeral he letters).1 misplaced

end Lexical

end UnitCalc
