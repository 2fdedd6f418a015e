import Mathlib
import UnitCalc.Proofs.Token.Pieces

/-!
# The scan cuts off longest pieces

The first character of a lexeme tells which kind it is of, and within a kind the
scan goes on for as long as it can. So what it takes from the front of a text is
the first of its longest pieces (`leads_take`), and the cut of a text is its one
segmentation.
-/

namespace UnitCalc.Lexical

open Lexeme

variable {c d : Char} {cs w : List Char} {r : Reading} {t : Token}

/-! ## Classes of characters -/

theorem le_iff_toNat_le : c ≤ d ↔ c.toNat ≤ d.toNat := by
  rw [Char.le_def, UInt32.le_iff_toNat_le]
  rfl

theorem isSpace_iff : isSpace c = true ↔ Blank c := by
  simp [isSpace, Blank, or_assoc]

theorem isDigit_iff : c.isDigit = true ↔ Digit c := by
  simp only [Char.isDigit, Bool.and_eq_true, decide_eq_true_eq, Digit, Char.le_def, ge_iff_le]

theorem isAlpha_iff : c.isAlpha = true ↔ Letter c := by
  delta Char.isAlpha Char.isUpper Char.isLower
  simp only [Bool.or_eq_true, Bool.and_eq_true, decide_eq_true_eq, Letter, Char.le_def, ge_iff_le]
  exact or_comm

theorem isHangul_iff : isHangul c = true ↔ Syllable c := by
  simp only [isHangul, Bool.and_eq_true, decide_eq_true_eq, Syllable, le_iff_toNat_le]
  rfl

theorem isNumeric_iff : isNumeric c = true ↔ Numeral c := by
  simp only [isNumeric, Numeral, Bool.or_eq_true, isDigit_iff, decide_eq_true_eq, or_assoc]

theorem isWordStart_iff : isWordStart c = true ↔ Initial c := by
  simp only [isWordStart, Initial, Bool.or_eq_true, isAlpha_iff, isHangul_iff,
    decide_eq_true_eq, or_assoc]

theorem isWordPart_iff : isWordPart c = true ↔ Initial c ∨ Digit c := by
  rw [isWordPart, Bool.or_eq_true, isWordStart_iff, isDigit_iff]

theorem isQuote_iff : isQuote c = true ↔ Quote c := by
  simp only [isQuote, Quote, Bool.or_eq_true, decide_eq_true_eq]

theorem Letter.not_numeral (h : Letter c) : ¬ Numeral c := by
  simp only [Letter, Numeral, Digit, le_iff_toNat_le, ← Char.toNat_inj,
    Char.reduceToNat] at *
  omega

theorem Digit.not_blank (h : Digit c) : ¬ Blank c := by
  simp only [Digit, Blank, List.mem_cons, List.not_mem_nil, or_false, le_iff_toNat_le,
    ← Char.toNat_inj, Char.reduceToNat] at *
  omega

theorem Initial.not_blank (h : Initial c) : ¬ Blank c := by
  simp only [Initial, Letter, Syllable, Blank, List.mem_cons, List.not_mem_nil, or_false,
    le_iff_toNat_le, ← Char.toNat_inj, Char.reduceToNat] at *
  omega

theorem Initial.not_digit (h : Initial c) : ¬ Digit c := by
  simp only [Initial, Letter, Syllable, Digit, le_iff_toNat_le, ← Char.toNat_inj,
    Char.reduceToNat] at *
  omega

/-- The character is of no class that tells the kind of a lexeme, so it can only
start a mark. -/
structure Unclassed (c : Char) : Prop where
  blank : isSpace c = false
  digit : c.isDigit = false
  initial : isWordStart c = false
  quote : isQuote c = false

theorem unclassed_of_not (hblank : ¬ Blank c) (hdigit : ¬ Digit c) (hinitial : ¬ Initial c)
    (hquote : ¬ Quote c) : Unclassed c := by
  refine ⟨?_, ?_, ?_, ?_⟩ <;> rw [Bool.eq_false_iff]
  · exact mt isSpace_iff.mp hblank
  · exact mt isDigit_iff.mp hdigit
  · exact mt isWordStart_iff.mp hinitial
  · exact mt isQuote_iff.mp hquote

theorem unclassed_of_singleMark (h : singleMark? c = some t) : Unclassed c := by
  unfold singleMark? at h
  split at h <;> cases h <;> exact ⟨rfl, rfl, rfl, rfl⟩

theorem unclassed_of_pairMark (h : pairMark? c d = some t) : Unclassed c := by
  unfold pairMark? at h
  split at h <;> cases h <;> exact ⟨rfl, rfl, rfl, rfl⟩

/-! ## Marks -/

theorem spelling_of_singleMark (h : singleMark? c = some t) :
    t.spelling? = some (String.ofList [c]) := by
  unfold singleMark? at h
  split at h <;> cases h <;> rfl

theorem spelling_of_pairMark (h : pairMark? c d = some t) :
    t.spelling? = some (String.ofList [c, d]) := by
  unfold pairMark? at h
  split at h <;> cases h <;> rfl

/-- A mark has one character or two, and is listed so. -/
theorem mark_of_spelling (h : t.spelling? = some (String.ofList (c :: w))) :
    w = [] ∧ singleMark? c = some t ∨ ∃ d, w = [d] ∧ pairMark? c d = some t := by
  have hchars : t.spelling?.map String.toList = some (c :: w) := by
    rw [h, Option.map_some, String.toList_ofList]
  cases t with
  | sign s =>
      cases s with
      | greaterEqual | lessEqual | equalEqual | bangEqual =>
          cases hchars
          exact .inr ⟨_, rfl, rfl⟩
      | _ =>
          cases hchars
          exact .inl ⟨rfl, rfl⟩
  | assign | leftParen | rightParen | comma =>
      cases hchars
      exact .inl ⟨rfl, rfl⟩
  | _ => cases h

/-- What a mark of two characters begins with is a mark too. -/
theorem singleMark_ne_none_of_pairMark (h : pairMark? c d = some t) :
    singleMark? c ≠ none := by
  unfold pairMark? at h
  split at h <;> cases h <;> exact Option.some_ne_none _

theorem takeMark_of_pairMark (h : pairMark? c d = some t) (cs : List Char) :
    takeMark c (d :: cs) = (.mark t [c, d], cs) := by
  rw [takeMark, h]

theorem takeMark_cases (c : Char) (cs : List Char) :
    (∃ t d rest, cs = d :: rest ∧ pairMark? c d = some t ∧
        takeMark c cs = (.mark t [c, d], rest)) ∨
      (∃ t, singleMark? c = some t ∧ takeMark c cs = (.mark t [c], cs)) ∨
      singleMark? c = none ∧ takeMark c cs = (.unknown c, cs) := by
  have alone (h : takeMark c cs = takeMark.alone c cs) :
      (∃ t, singleMark? c = some t ∧ takeMark c cs = (.mark t [c], cs)) ∨
        singleMark? c = none ∧ takeMark c cs = (.unknown c, cs) := by
    rw [h, takeMark.alone]
    cases singleMark? c with
    | none => exact .inr ⟨rfl, rfl⟩
    | some t => exact .inl ⟨t, rfl, rfl⟩
  cases cs with
  | nil => exact .inr (alone rfl)
  | cons d rest =>
      cases hpair : pairMark? c d with
      | none => exact .inr (alone (by rw [takeMark, hpair]))
      | some t => exact .inl ⟨t, d, rest, rfl, hpair, takeMark_of_pairMark hpair rest⟩

/-! ## What is taken, by the first character -/

theorem take_of_blank (h : Blank c) (cs : List Char) :
    take c cs = (.space (c :: cs.takeWhile isSpace), cs.dropWhile isSpace) := by
  rw [take, if_pos (isSpace_iff.mpr h)]

theorem take_of_digit (h : Digit c) (cs : List Char) :
    take c cs =
      (.number (c :: cs.takeWhile isNumeric) ((cs.dropWhile isNumeric).takeWhile Char.isAlpha),
        (cs.dropWhile isNumeric).dropWhile Char.isAlpha) := by
  have hblank := mt isSpace_iff.mp h.not_blank
  rw [take, if_neg hblank, if_pos (isDigit_iff.mpr h)]

theorem take_of_initial (h : Initial c) (cs : List Char) :
    take c cs = (.word (c :: cs.takeWhile isWordPart), cs.dropWhile isWordPart) := by
  have hblank := mt isSpace_iff.mp h.not_blank
  have hdigit := mt isDigit_iff.mp h.not_digit
  rw [take, if_neg hblank, if_neg hdigit, if_pos (isWordStart_iff.mpr h)]

theorem take_of_quote (h : Quote c) (cs : List Char) : take c cs = takeQuoted c cs := by
  rcases h with rfl | rfl <;> rfl

theorem take_of_unclassed (h : Unclassed c) (cs : List Char) :
    take c cs = takeMark c cs := by
  simp only [take, h.blank, h.digit, h.initial, h.quote, Bool.false_eq_true, if_false]

/-! ## The front piece -/

/-- A lexeme as a piece of the text. -/
def pieceOf (l : Lexeme) : Piece := ⟨l.chars, l.read⟩

theorem matches_takeQuoted (h : Quote c) (cs : List Char) :
    Matches (takeQuoted c cs).1.chars (takeQuoted c cs).1.read := by
  have hcontent : c ∉ cs.takeWhile (· != c) := by
    intro hmem
    simpa using List.mem_takeWhile_imp hmem
  unfold takeQuoted
  split
  · simpa [chars, Lexeme.read] using Matches.unclosed h hcontent
  · simpa [chars, Lexeme.read] using Matches.closed h hcontent

/-- A character of no class, that is no mark, starts no lexeme. -/
theorem not_matches_of_unclassed (h : Unclassed c) (hmark : singleMark? c = none) :
    ¬ Matches (c :: w) r := by
  intro hmatches
  cases hmatches with
  | space hrun =>
      have hblank := isSpace_iff.mpr (hrun c List.mem_cons_self)
      rw [h.blank] at hblank
      cases hblank
  | number hdigit =>
      rw [← isDigit_iff, h.digit] at hdigit
      cases hdigit
  | word hinitial =>
      rw [← isWordStart_iff, h.initial] at hinitial
      cases hinitial
  | closed hquote | unclosed hquote =>
      rw [← isQuote_iff, h.quote] at hquote
      cases hquote
  | mark hspelling =>
      rcases mark_of_spelling hspelling with ⟨-, hsingle⟩ | ⟨d, -, hpair⟩
      · rw [hmark] at hsingle
        cases hsingle
      · exact singleMark_ne_none_of_pairMark hpair hmark

/-- What is taken is a lexeme, unless no lexeme is at the front. -/
theorem matches_take (c : Char) (cs : List Char) :
    Matches (take c cs).1.chars (take c cs).1.read ∨
      (take c cs).1 = .unknown c ∧ ∀ w r, ¬ Matches (c :: w) r := by
  by_cases hblank : Blank c
  · rw [take_of_blank hblank]
    refine .inl (.space fun d hd => ?_)
    rcases List.mem_cons.mp hd with rfl | hd
    · exact hblank
    · exact isSpace_iff.mp (List.mem_takeWhile_imp hd)
  by_cases hdigit : Digit c
  · rw [take_of_digit hdigit]
    refine .inl (.number hdigit (fun d hd => ?_) fun d hd => ?_)
    · exact isNumeric_iff.mp (List.mem_takeWhile_imp hd)
    · exact isAlpha_iff.mp (List.mem_takeWhile_imp hd)
  by_cases hinitial : Initial c
  · rw [take_of_initial hinitial]
    refine .inl (.word hinitial fun d hd => ?_)
    exact isWordPart_iff.mp (List.mem_takeWhile_imp hd)
  by_cases hquote : Quote c
  · rw [take_of_quote hquote]
    exact .inl (matches_takeQuoted hquote cs)
  have hunclassed := unclassed_of_not hblank hdigit hinitial hquote
  rw [take_of_unclassed hunclassed]
  rcases takeMark_cases c cs with ⟨t, d, rest, -, hpair, htake⟩ | ⟨t, hsingle, htake⟩ |
    ⟨hnone, htake⟩
  · rw [htake]
    exact .inl (.mark (spelling_of_pairMark hpair))
  · rw [htake]
    exact .inl (.mark (spelling_of_singleMark hsingle))
  · rw [htake]
    exact .inr ⟨rfl, fun w r => not_matches_of_unclassed hunclassed hnone⟩

theorem take_number {digits suffix : List Char} (hc : Digit c)
    (hdigits : ∀ d ∈ digits, Numeral d) (hsuffix : ∀ d ∈ suffix, Letter d)
    (rest : List Char) :
    ∃ digits' suffix' rest', take c (digits ++ suffix ++ rest) =
        (.number (c :: (digits ++ digits')) (suffix ++ suffix'), rest') ∧
      (suffix ≠ [] → digits' = []) := by
  have hnumeric : ∀ d ∈ digits, isNumeric d = true := fun d hd =>
    isNumeric_iff.mpr (hdigits d hd)
  have halpha : ∀ d ∈ suffix, d.isAlpha = true := fun d hd =>
    isAlpha_iff.mpr (hsuffix d hd)
  rw [take_of_digit hc, List.append_assoc, List.takeWhile_append_of_pos hnumeric,
    List.dropWhile_append_of_pos hnumeric]
  cases suffix with
  | nil => exact ⟨_, _, _, rfl, fun h => absurd rfl h⟩
  | cons a suffix =>
      -- the first letter ends the digits
      have hstop : ¬ isNumeric a = true :=
        mt isNumeric_iff.mp (hsuffix a List.mem_cons_self).not_numeral
      have hnone : (a :: suffix ++ rest).takeWhile isNumeric = [] :=
        List.takeWhile_cons_of_neg hstop
      have hall : (a :: suffix ++ rest).dropWhile isNumeric = a :: suffix ++ rest :=
        List.dropWhile_cons_of_neg hstop
      rw [hnone, hall, List.takeWhile_append_of_pos halpha]
      exact ⟨[], _, _, rfl, fun _ => rfl⟩

theorem takeQuoted_closed (h : c ∉ w) (rest : List Char) :
    takeQuoted c (w ++ c :: rest) = (.quoted c w true, rest) := by
  have hcontent : ∀ d ∈ w, (d != c) = true := fun d hd => by
    simpa using ne_of_mem_of_not_mem hd h
  have hnone : (c :: rest).takeWhile (· != c) = [] :=
    List.takeWhile_cons_of_neg (by simp)
  have hall : (c :: rest).dropWhile (· != c) = c :: rest :=
    List.dropWhile_cons_of_neg (by simp)
  rw [takeQuoted, List.takeWhile_append_of_pos hcontent,
    List.dropWhile_append_of_pos hcontent, hnone, hall, List.append_nil]

theorem takeQuoted_unclosed (h : c ∉ w) (rest : List Char) :
    ∃ content closed rest',
      takeQuoted c (w ++ rest) = (.quoted c (w ++ content) closed, rest') := by
  have hcontent : ∀ d ∈ w, (d != c) = true := fun d hd => by
    simpa using ne_of_mem_of_not_mem hd h
  rw [takeQuoted, List.takeWhile_append_of_pos hcontent]
  split
  · exact ⟨_, _, _, rfl⟩
  · exact ⟨_, _, _, rfl⟩

/-- A lexeme at the front is taken, or something longer is; if nothing longer is
taken, it is read as the lexeme is. -/
theorem Matches.taken (h : Matches (c :: w) r) (rest : List Char) :
    ∃ more, (take c (w ++ rest)).1.chars = c :: (w ++ more) ∧
      (more = [] → (take c (w ++ rest)).1.read = r) := by
  cases h with
  | space h =>
      have hrun : ∀ d ∈ w, isSpace d = true := fun d hd =>
        isSpace_iff.mpr (h d (List.mem_cons_of_mem _ hd))
      rw [take_of_blank (h c List.mem_cons_self), List.takeWhile_append_of_pos hrun]
      exact ⟨_, rfl, fun _ => rfl⟩
  | @number _ digits suffix hc hdigits hsuffix =>
      obtain ⟨digits', suffix', rest', htake, hsplit⟩ :=
        take_number hc hdigits hsuffix rest
      rw [htake]
      refine ⟨digits' ++ suffix', ?_, fun hmore => ?_⟩
      · -- with a suffix the digits are all there, without one they may go on
        by_cases hnone : suffix = []
        · simp [chars, hnone]
        · simp [chars, hsplit hnone]
      · obtain ⟨rfl, rfl⟩ := List.append_eq_nil_iff.mp hmore
        rw [List.append_nil, List.append_nil, Lexeme.read]
  | word hc hletters =>
      have hparts : ∀ d ∈ w, isWordPart d = true := fun d hd =>
        isWordPart_iff.mpr (hletters d hd)
      rw [take_of_initial hc, List.takeWhile_append_of_pos hparts]
      refine ⟨_, rfl, fun hmore => ?_⟩
      rw [hmore, List.append_nil, Lexeme.read]
  | @closed _ content hq h =>
      rw [take_of_quote hq, List.append_assoc, List.singleton_append,
        takeQuoted_closed h rest]
      exact ⟨[], by simp [chars], fun _ => rfl⟩
  | unclosed hq h =>
      obtain ⟨content, closed, rest', htake⟩ := takeQuoted_unclosed h rest
      rw [take_of_quote hq, htake]
      cases closed with
      | false => exact ⟨content, by simp [chars], fun _ => rfl⟩
      | true => exact ⟨content ++ [c], by simp [chars], fun hmore => by simp at hmore⟩
  | mark h =>
      rcases mark_of_spelling h with ⟨rfl, hsingle⟩ | ⟨d, rfl, hpair⟩
      · rw [take_of_unclassed (unclassed_of_singleMark hsingle), List.nil_append]
        rcases takeMark_cases c rest with ⟨t', d, rest, -, -, htake⟩ | ⟨t', hsame, htake⟩ |
          ⟨hnone, -⟩
        · rw [htake]
          exact ⟨[d], rfl, fun hmore => absurd hmore (List.cons_ne_nil _ _)⟩
        · rw [hsingle] at hsame
          cases hsame
          rw [htake]
          exact ⟨[], rfl, fun _ => rfl⟩
        · rw [hsingle] at hnone
          cases hnone
      · rw [take_of_unclassed (unclassed_of_pairMark hpair), List.singleton_append,
          takeMark_of_pairMark hpair]
        exact ⟨[], rfl, fun _ => rfl⟩

theorem Matches.exists_cons (h : Matches w r) : ∃ c v, w = c :: v := by
  cases h <;> exact ⟨_, _, rfl⟩

theorem length_le_of_matches {v : List Char} (h : Matches v r) (hv : v <+: c :: cs) :
    v.length ≤ (take c cs).1.chars.length := by
  obtain ⟨d, w, rfl⟩ := h.exists_cons
  obtain ⟨rfl, rest, rfl⟩ := List.cons_prefix_cons.mp hv
  obtain ⟨more, hchars, -⟩ := h.taken rest
  rw [hchars]
  simp

/-- **The scan takes the first piece of a text.** -/
theorem leads_take (c : Char) (cs : List Char) : Leads (pieceOf (take c cs).1) (c :: cs) := by
  rcases matches_take c cs with hmatches | ⟨htake, hnone⟩
  · refine .longest hmatches ⟨_, take_append c cs⟩ fun v s hv hfront => ?_
    exact length_le_of_matches hv hfront
  · rw [htake]
    refine .unmatched fun v s hv hfront => ?_
    obtain ⟨d, w, rfl⟩ := hv.exists_cons
    obtain ⟨rfl, -⟩ := List.cons_prefix_cons.mp hfront
    exact hnone w s hv

/-- A text has no other first piece. -/
theorem Leads.eq_take {p : Piece} (h : Leads p (c :: cs)) : p = pieceOf (take c cs).1 := by
  have htaken : (take c cs).1.chars <+: c :: cs := ⟨_, take_append c cs⟩
  cases h with
  | @longest w _ r h hw hmax =>
      obtain ⟨d, w, rfl⟩ := h.exists_cons
      obtain ⟨rfl, rest, rfl⟩ := List.cons_prefix_cons.mp hw
      obtain ⟨more, hchars, hread⟩ := h.taken rest
      rcases matches_take d (w ++ rest) with hmatches | ⟨-, hnone⟩
      · have hlength := hmax _ _ hmatches htaken
        have hmore : more = [] := by
          rw [hchars, List.length_cons, List.length_cons, List.length_append] at hlength
          exact List.length_eq_zero_iff.mp (by omega)
        rw [pieceOf, hread hmore, hchars, hmore, List.append_nil]
      · exact absurd h (hnone w r)
  | unmatched h =>
      rcases matches_take c cs with hmatches | ⟨htake, -⟩
      · exact absurd htaken (h _ _ hmatches)
      · rw [htake]
        rfl

/-! ## The segmentation of a text -/

theorem segmented_cut (source : List Char) :
    Segmented source ((cut source).map pieceOf) := by
  fun_induction cut source with
  | case1 => exact .nil
  | case2 c cs ih =>
      have hwhole : (pieceOf (take c cs).1).chars ++ (take c cs).2 = c :: cs :=
        take_append c cs
      have hnext := Segmented.cons (by rw [hwhole]; exact leads_take c cs) ih
      rwa [hwhole] at hnext

/-- The cut of a text is its only segmentation. -/
theorem Segmented.eq_cut {source : List Char} {ps : List Piece}
    (h : Segmented source ps) : ps = (cut source).map pieceOf := by
  induction h with
  | nil =>
      rw [cut]
      rfl
  | @cons p rest ps hp _ ih =>
      cases hsource : p.chars ++ rest with
      | nil => exact absurd (List.append_eq_nil_iff.mp hsource).1 hp.chars_ne_nil
      | cons c cs =>
          rw [hsource] at hp
          obtain rfl := hp.eq_take
          have hrest : rest = (take c cs).2 :=
            List.append_cancel_left (hsource.trans (take_append c cs).symm)
          rw [cut, List.map_cons, ← hrest, ih]

end UnitCalc.Lexical
