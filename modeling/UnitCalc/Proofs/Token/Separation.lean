import Mathlib
import UnitCalc.Proofs.Token.Scanned

/-!
# White space separates lexemes

No lexeme but a run of white space goes on across a white space character, unless
it is a quoted text that is still open. So what stands before white space is scanned
as if the text ended there, with the tokens of the rest after its own; and a fault
that is found there is found at the same place.
-/

namespace UnitCalc.Lexical

open Lexeme

variable {c d : Char} {cs rest : List Char}

/-- The text is empty or begins with white space. -/
def Separate (rest : List Char) : Prop := ∀ d ∈ rest.head?, Blank d

/-! ## Where lexemes stop -/

section

variable {p : Char → Bool}

theorem takeWhile_append_of_stop (hstop : ∀ d ∈ rest.head?, p d = false) (cs : List Char) :
    (cs ++ rest).takeWhile p = cs.takeWhile p := by
  induction cs with
  | nil =>
      cases rest with
      | nil => rfl
      | cons d rest => exact List.takeWhile_cons_of_neg (by simp [hstop d rfl])
  | cons c cs ih => rw [List.cons_append, List.takeWhile_cons, List.takeWhile_cons, ih]

theorem dropWhile_append_of_stop (hstop : ∀ d ∈ rest.head?, p d = false) (cs : List Char) :
    (cs ++ rest).dropWhile p = cs.dropWhile p ++ rest := by
  induction cs with
  | nil =>
      cases rest with
      | nil => rfl
      | cons d rest => exact List.dropWhile_cons_of_neg (by simp [hstop d rfl])
  | cons c cs ih =>
      rw [List.cons_append, List.dropWhile_cons, List.dropWhile_cons, ih]
      split <;> rfl

end

theorem Blank.stops (h : Blank d) :
    isNumeric d = false ∧ d.isAlpha = false ∧ isWordPart d = false := by
  simp only [Blank, List.mem_cons, List.not_mem_nil, or_false] at h
  rcases h with rfl | rfl | rfl | rfl | rfl <;> exact ⟨rfl, rfl, rfl⟩

theorem pairMark?_of_blank (h : Blank d) (c : Char) : pairMark? c d = none := by
  cases hpair : pairMark? c d with
  | none => rfl
  | some t =>
      unfold pairMark? at hpair
      split at hpair
      case h_5 => cases hpair
      all_goals exact absurd h (by simp [Blank])

theorem Blank.not_quote (h : Blank d) : ¬ Quote d := by
  simp only [Blank, List.mem_cons, List.not_mem_nil, or_false] at h
  rcases h with rfl | rfl | rfl | rfl | rfl <;> simp [Quote]

/-- A quoted text that is closed does not look at what follows. -/
theorem takeQuoted_append_of_mem (h : c ∈ cs) (rest : List Char) :
    takeQuoted c (cs ++ rest) = ((takeQuoted c cs).1, (takeQuoted c cs).2 ++ rest) := by
  obtain ⟨content, after, rfl, hcontent⟩ := List.eq_append_cons_of_mem h
  rw [List.append_assoc, List.cons_append, takeQuoted_closed hcontent, takeQuoted_closed hcontent]

theorem takeQuoted_of_not_mem (h : c ∉ cs) : takeQuoted c cs = (.quoted c cs false, []) := by
  have hcontent : ∀ d ∈ cs, (d != c) = true := fun d hd => by
    simpa using ne_of_mem_of_not_mem hd h
  rw [takeQuoted, List.dropWhile_eq_nil_iff.mpr hcontent, List.takeWhile_eq_self_iff.mpr hcontent]

theorem takeMark_append_of_separate (hrest : Separate rest) (c : Char) (cs : List Char) :
    takeMark c (cs ++ rest) = ((takeMark c cs).1, (takeMark c cs).2 ++ rest) := by
  have alone : ∀ cs, takeMark.alone c (cs ++ rest) =
      ((takeMark.alone c cs).1, (takeMark.alone c cs).2 ++ rest) := by
    intro cs
    unfold takeMark.alone
    split <;> rfl
  cases cs with
  | nil =>
      cases rest with
      | nil => rw [List.append_nil, List.append_nil]
      | cons d rest =>
          rw [List.nil_append, takeMark, pairMark?_of_blank (hrest d rfl)]
          exact alone []
  | cons d cs =>
      rw [List.cons_append, takeMark, takeMark]
      cases pairMark? c d with
      | some t => rfl
      | none => exact alone (d :: cs)

theorem takeWhile_append_of_ne_nil {p : Char → Bool} (h : cs.dropWhile p ≠ [])
    (rest : List Char) :
    (cs ++ rest).takeWhile p = cs.takeWhile p ∧
      (cs ++ rest).dropWhile p = cs.dropWhile p ++ rest := by
  have hlength := congrArg List.length (List.takeWhile_append_dropWhile (p := p) (l := cs))
  have hpos := List.length_pos_iff.mpr h
  rw [List.length_append] at hlength
  rw [List.takeWhile_append, if_neg (by omega), List.dropWhile_append,
    if_neg (by rwa [List.isEmpty_iff])]
  exact ⟨rfl, rfl⟩

/-- What is taken is taken also when separate text follows, unless it is a run of
white space that goes on there or a quoted text that is still open. -/
theorem take_append_of_separate (hrest : Separate rest)
    (hrun : Blank c → (take c cs).2 ≠ []) (hquote : Quote c → c ∈ cs) :
    take c (cs ++ rest) = ((take c cs).1, (take c cs).2 ++ rest) := by
  have hnumeric : ∀ d ∈ rest.head?, isNumeric d = false := fun d hd => (hrest d hd).stops.1
  have halpha : ∀ d ∈ rest.head?, d.isAlpha = false := fun d hd => (hrest d hd).stops.2.1
  have hpart : ∀ d ∈ rest.head?, isWordPart d = false := fun d hd => (hrest d hd).stops.2.2
  by_cases hblank : Blank c
  · have hleft := hrun hblank
    rw [take_of_blank hblank] at hleft ⊢
    obtain ⟨htake, hdrop⟩ := takeWhile_append_of_ne_nil hleft rest
    rw [take_of_blank hblank, htake, hdrop]
  by_cases hdigit : Digit c
  · rw [take_of_digit hdigit, take_of_digit hdigit, takeWhile_append_of_stop hnumeric,
      dropWhile_append_of_stop hnumeric, takeWhile_append_of_stop halpha,
      dropWhile_append_of_stop halpha]
  by_cases hinitial : Initial c
  · rw [take_of_initial hinitial, take_of_initial hinitial, takeWhile_append_of_stop hpart,
      dropWhile_append_of_stop hpart]
  by_cases hq : Quote c
  · rw [take_of_quote hq, take_of_quote hq, takeQuoted_append_of_mem (hquote hq)]
  have hunclassed := unclassed_of_not hblank hdigit hinitial hq
  rw [take_of_unclassed hunclassed, take_of_unclassed hunclassed,
    takeMark_append_of_separate hrest]

/-! ## Scanning on -/

section

variable {a : List Char} {ts : List Token} {e : LexError} {position : Nat}

theorem cut_cons (c : Char) (cs : List Char) : cut (c :: cs) = (take c cs).1 :: cut (take c cs).2 := by
  rw [cut]

theorem length_take (c : Char) (cs : List Char) :
    (take c cs).1.chars.length + (take c cs).2.length = cs.length + 1 := by
  rw [← List.length_append, take_append, List.length_cons]

/-- White space in front only moves the rest. -/
theorem readAll_cut_blanks (position : Nat) (cs : List Char) :
    readAll position (cut cs) =
      readAll (position + (cs.takeWhile isSpace).length) (cut (cs.dropWhile isSpace)) := by
  cases cs with
  | nil => rfl
  | cons c cs =>
      by_cases hc : isSpace c = true
      · rw [cut_cons, take_of_blank (isSpace_iff.mp hc), List.takeWhile_cons_of_pos hc,
          List.dropWhile_cons_of_pos hc, readAll]
        rfl
      · rw [List.takeWhile_cons_of_neg hc, List.dropWhile_cons_of_neg hc]
        rfl

/-- What follows a run of white space that reaches the end. -/
theorem readAll_cut_run (hc : Blank c) (hcs : (take c cs).2 = []) (position : Nat) :
    readAll position (cut (c :: (cs ++ rest))) =
      readAll (position + (cs.length + 1)) (cut rest) := by
  rw [take_of_blank hc] at hcs
  have hblank : ∀ d ∈ cs, isSpace d = true := List.dropWhile_eq_nil_iff.mp hcs
  rw [readAll_cut_blanks, List.takeWhile_cons_of_pos (isSpace_iff.mpr hc),
    List.dropWhile_cons_of_pos (isSpace_iff.mpr hc), List.takeWhile_append_of_pos hblank,
    List.dropWhile_append_of_pos hblank, readAll_cut_blanks (position + (cs.length + 1)) rest]
  congr 1
  simp only [List.length_cons, List.length_append]
  omega

theorem readNumber_ne_unclosedQuote (digits suffix : List Char) :
    readNumber digits suffix ≠ .error .unclosedQuote := by
  dsimp only [readNumber]
  intro h
  split at h
  · cases h
  · split at h
    · split at h <;> cases h
    · split at h
      · cases h
      · rw [readInteger_eq] at h
        split at h <;> cases h

/-- Only a quoted text whose quote does not come again is open. -/
theorem read_take_eq_unclosedQuote :
    (take c cs).1.read = .error .unclosedQuote ↔ Quote c ∧ c ∉ cs := by
  constructor
  · intro h
    by_cases hblank : Blank c
    · rw [take_of_blank hblank] at h
      cases h
    by_cases hdigit : Digit c
    · rw [take_of_digit hdigit, Lexeme.read] at h
      cases hnumber : readNumber (c :: cs.takeWhile isNumeric)
          ((cs.dropWhile isNumeric).takeWhile Char.isAlpha) with
      | ok t =>
          rw [hnumber] at h
          cases h
      | error fault =>
          rw [hnumber] at h
          cases h
          exact absurd hnumber (readNumber_ne_unclosedQuote _ _)
    by_cases hinitial : Initial c
    · rw [take_of_initial hinitial] at h
      cases h
    by_cases hq : Quote c
    · refine ⟨hq, fun hmem => ?_⟩
      obtain ⟨content, after, rfl, hcontent⟩ := List.eq_append_cons_of_mem hmem
      rw [take_of_quote hq, takeQuoted_closed hcontent] at h
      cases h
    rw [take_of_unclassed (unclassed_of_not hblank hdigit hinitial hq)] at h
    rcases takeMark_cases c cs with ⟨t, d, tail, -, -, htake⟩ | ⟨t, -, htake⟩ | ⟨-, htake⟩ <;>
      · rw [htake] at h
        cases h
  · rintro ⟨hq, hmem⟩
    rw [take_of_quote hq, takeQuoted_of_not_mem hmem]
    rfl

theorem read_ne_error {l : Lexeme} {token : Option Token} (h : l.read = .ok token)
    (fault : LexFault) : l.read ≠ .error fault := by
  intro herror
  cases herror.symm.trans h

/-- One lexeme of a text that separate text follows. -/
theorem cut_cons_append (hrest : Separate rest) (hrun : ¬ (Blank c ∧ (take c cs).2 = []))
    (hquote : (take c cs).1.read ≠ .error .unclosedQuote) :
    cut (c :: cs ++ rest) = (take c cs).1 :: cut ((take c cs).2 ++ rest) := by
  have htake : take c (cs ++ rest) = ((take c cs).1, (take c cs).2 ++ rest) :=
    take_append_of_separate hrest (fun hc hnil => hrun ⟨hc, hnil⟩) fun hq =>
      by_contra fun hmem => hquote (read_take_eq_unclosedQuote.mpr ⟨hq, hmem⟩)
  rw [List.cons_append, cut_cons, htake]

/-- Separate text after valid text is scanned on its own, and its tokens follow. -/
theorem readAll_cut_append_of_valid (hrest : Separate rest)
    (h : ∀ p ∈ (cut a).map pieceOf, p.Valid) :
    readAll position (cut (a ++ rest)) =
      (readAll (position + a.length) (cut rest)).map
        (((cut a).map pieceOf).filterMap Piece.token? ++ ·) := by
  fun_induction cut a generalizing position with
  | case1 =>
      rw [List.nil_append]
      cases readAll position (cut rest) <;> rfl
  | case2 c cs ih =>
      rw [List.map_cons, List.forall_mem_cons] at h
      obtain ⟨⟨token, hread⟩, hvalid⟩ := h
      have htoken : (pieceOf (take c cs).1).token? = token := by rw [Piece.token?, hread]
      by_cases hrun : Blank c ∧ (take c cs).2 = []
      · -- the run may go on, and makes no token however long it is
        have hnone : token = none := by
          rw [← htoken, take_of_blank hrun.1]
          rfl
        rw [List.cons_append, readAll_cut_run hrun.1 hrun.2, hrun.2, List.length_cons, List.map_cons,
          List.filterMap_cons_none (htoken.trans hnone), cut]
        cases readAll (position + (cs.length + 1)) (cut rest) <;> rfl
      · have hlength := length_take c cs
        rw [cut_cons_append hrest hrun (read_ne_error hread _), readAll_cons_of_ok hread, ih hvalid,
          List.length_cons, ← hlength, Nat.add_assoc, List.map_cons, List.filterMap_cons, htoken]
        cases readAll (position + ((take c cs).1.chars.length + (take c cs).2.length)) (cut rest) with
        | error e => rfl
        | ok ts => cases token <;> rfl

/-- A fault before separate text is found as if the text ended there. An open quoted
text is one if no quote follows. -/
theorem readAll_cut_append_of_error (hrest : Separate rest)
    (h : readAll position (cut a) = .error e)
    (hquote : e.fault = .unclosedQuote → ∀ d ∈ rest, ¬ Quote d) :
    readAll position (cut (a ++ rest)) = .error e := by
  fun_induction cut a generalizing position with
  | case1 => cases h
  | case2 c cs ih =>
      cases hread : (take c cs).1.read with
      | error fault =>
          rw [readAll_cons_of_error hread] at h
          cases h
          by_cases hopen : fault = .unclosedQuote
          · subst hopen
            obtain ⟨hq, hmem⟩ := read_take_eq_unclosedQuote.mp hread
            have hnone : c ∉ cs ++ rest := by
              rw [List.mem_append, not_or]
              exact ⟨hmem, fun hc => hquote rfl c hc hq⟩
            rw [List.cons_append, cut_cons]
            exact readAll_cons_of_error (read_take_eq_unclosedQuote.mpr ⟨hq, hnone⟩)
          · have hrun : ¬ (Blank c ∧ (take c cs).2 = []) := by
              rintro ⟨hblank, -⟩
              rw [take_of_blank hblank] at hread
              cases hread
            rw [cut_cons_append hrest hrun (by rw [hread]; simpa using hopen)]
            exact readAll_cons_of_error hread
      | ok token =>
          rw [readAll_cons_of_ok hread] at h
          cases htail : readAll (position + (take c cs).1.chars.length) (cut (take c cs).2) with
          | ok ts =>
              rw [htail] at h
              cases h
          | error e' =>
              rw [htail] at h
              cases h
              have hrun : ¬ (Blank c ∧ (take c cs).2 = []) := by
                rintro ⟨-, hnil⟩
                rw [hnil, cut] at htail
                cases htail
              rw [cut_cons_append hrest hrun (read_ne_error hread _), readAll_cons_of_ok hread,
                ih htail]
              rfl

theorem readAll_cut_of_blanks (hrest : ∀ d ∈ rest, Blank d) :
    readAll position (cut rest) = .ok [.endOfInput] := by
  have hspace : ∀ d ∈ rest, isSpace d = true := fun d hd => isSpace_iff.mpr (hrest d hd)
  rw [readAll_cut_blanks, List.dropWhile_eq_nil_iff.mpr hspace, cut, readAll]

/-- **White space at the end of a text changes nothing**, neither its tokens nor its
fault and where that is found. -/
theorem readAll_cut_append_blanks (hrest : ∀ d ∈ rest, Blank d) :
    readAll position (cut (a ++ rest)) = readAll position (cut a) := by
  have hseparate : Separate rest := fun d hd => hrest d (List.mem_of_mem_head? hd)
  rcases valid_or_first_invalid ((cut a).map pieceOf) with
    hvalid | ⟨before, p, after, fault, hsplit, hbefore, hp⟩
  · rw [readAll_cut_append_of_valid hseparate hvalid, readAll_cut_of_blanks hrest,
      readAll_of_valid hvalid]
    rfl
  · have herror : readAll position (cut a) =
        .error ⟨fault, position + (Piece.joined before).length⟩ :=
      readAll_of_invalid hsplit hbefore hp
    rw [herror]
    exact readAll_cut_append_of_error hseparate herror fun _ d hd => (hrest d hd).not_quote

/-! ## Texts joined by white space -/

/-- The error of a text that stands `n` characters further on. -/
def later (n : Nat) (e : LexError) : LexError := { e with position := e.position + n }

/-- A scan that starts further on finds the same, further on. -/
theorem readAll_add (position n : Nat) (ls : List Lexeme) :
    readAll (position + n) ls = (readAll position ls).mapError (later n) := by
  induction ls generalizing position with
  | nil => rfl
  | cons l ls ih =>
      cases hread : l.read with
      | error fault =>
          rw [readAll_cons_of_error hread, readAll_cons_of_error hread]
          rfl
      | ok token =>
          rw [readAll_cons_of_ok hread, readAll_cons_of_ok hread, Nat.add_right_comm, ih]
          cases readAll (position + l.chars.length) ls <;> rfl

/-- What stands after white space is scanned as if it stood alone. -/
theorem readAll_cut_blanks_append {w b : List Char} (hw : ∀ d ∈ w, Blank d) (position : Nat) :
    readAll position (cut (w ++ b)) = (readAll 0 (cut b)).mapError (later (position + w.length)) := by
  have hspace : ∀ d ∈ w, isSpace d = true := fun d hd => isSpace_iff.mpr (hw d hd)
  rw [readAll_cut_blanks, List.takeWhile_append_of_pos hspace, List.dropWhile_append_of_pos hspace,
    List.length_append, ← Nat.add_assoc, ← readAll_cut_blanks, ← readAll_add, Nat.zero_add]

/-- **Scanning is compositional at white space.** When white space stands between two
texts, the tokens of the first are followed by those of the second; a fault of the
second is found where it then stands, and a fault of the first as if the text ended
there, unless it is that a quoted text is still open. -/
theorem scan_append_blanks_append {a w b : String} (hw : w ≠ "")
    (hblank : ∀ d ∈ w.toList, Blank d) :
    (∀ ta, Token.scan a = .ok (ta ++ [.endOfInput]) →
      (∀ tb, Token.scan b = .ok tb → Token.scan (a ++ w ++ b) = .ok (ta ++ tb)) ∧
      ∀ e, Token.scan b = .error e →
        Token.scan (a ++ w ++ b) = .error ⟨e.fault, e.position + (a ++ w).length⟩) ∧
    ∀ e, Token.scan a = .error e → e.fault ≠ .unclosedQuote →
      Token.scan (a ++ w ++ b) = .error e := by
  have hseparate : Separate (w.toList ++ b.toList) := by
    intro d hd
    cases hchars : w.toList with
    | nil => exact absurd (String.toList_eq_nil_iff.mp hchars) hw
    | cons c cs =>
        rw [hchars] at hd hblank
        cases hd
        exact hblank d List.mem_cons_self
  have hsource : (a ++ w ++ b).toList = a.toList ++ (w.toList ++ b.toList) := by
    rw [String.toList_append, String.toList_append, List.append_assoc]
  have hlength : (a ++ w).length = a.toList.length + w.toList.length := by
    rw [String.length_append, String.length_toList, String.length_toList]
  constructor
  · intro ta ha
    obtain ⟨hvalid, htokens⟩ := (segmented_cut a.toList).of_scan_ok ha
    obtain rfl := List.append_cancel_right htokens
    have hscan : Token.scan (a ++ w ++ b) = ((Token.scan b).mapError (later (a ++ w).length)).map
        (((cut a.toList).map pieceOf).filterMap Piece.token? ++ ·) := by
      rw [Token.scan, hsource, readAll_cut_append_of_valid hseparate hvalid,
        readAll_cut_blanks_append hblank, hlength, Nat.zero_add]
      rfl
    constructor
    · intro tb hb
      rw [hscan, hb]
      rfl
    · intro e hb
      rw [hscan, hb]
      rfl
  · intro e ha hfault
    rw [Token.scan, hsource]
    exact readAll_cut_append_of_error hseparate ha fun hopen => absurd hopen hfault

/-- A number keeps off the word after the white space, and faults on both sides are
found where they stand. -/
theorem scan_append_blanks_append_quantity :
    let w := " \n"
    w ≠ "" ∧ (∀ d ∈ w.toList, Blank d) ∧
      Token.scan ("5" ++ w ++ "km") = .ok [.integer 5, .unit "km", .endOfInput] ∧
      Token.scan ("5" ++ w ++ "km 'to") = .error ⟨.unclosedQuote, 6⟩ ∧
      Token.scan ("x 5_" ++ w ++ "'to") = .error ⟨.malformedNumber, 2⟩ := by
  intro w
  have hw : w ≠ "" := by decide
  have hblank : ∀ d ∈ w.toList, Blank d := by simp [w, Blank]
  have five : Token.scan "5" = .ok ([.integer 5] ++ [.endOfInput]) := by cbv
  have unit : Token.scan "km" = .ok [.unit "km", .endOfInput] := by cbv
  have unclosed : Token.scan "km 'to" = .error ⟨.unclosedQuote, 3⟩ := by cbv
  have malformed : Token.scan "x 5_" = .error ⟨.malformedNumber, 2⟩ := by cbv
  refine ⟨hw, hblank, ?_, ?_, ?_⟩
  · exact ((scan_append_blanks_append hw hblank).1 _ five).1 _ unit
  · have moved := ((scan_append_blanks_append hw hblank).1 _ five).2 _ unclosed
    have characters : ("5" ++ w).length = 3 := by decide
    rw [characters] at moved
    exact moved
  · exact (scan_append_blanks_append hw hblank).2 _ malformed (by decide)

end

end UnitCalc.Lexical
