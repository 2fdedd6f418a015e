import UnitCalc.Proofs.Token.LongestMatch
import UnitCalc.Text.Blank

/-!
# Tokens of the pieces of a text

The pieces of a text are read one after the other. That gives the tokens of the
text, or stops at the first piece that makes none.
-/

namespace UnitCalc.Lexical

open Lexeme

/-! ## Reading the pieces -/

variable {c : Char} {w source : List Char} {r : Reading} {p : Piece} {ps : List Piece}
  {position : Nat} {l : Lexeme} {ls : List Lexeme}

/-- The tokens that pieces make, with the end of input after them. -/
def tokensOf (ps : List Piece) : List Token := ps.filterMap Piece.token? ++ [.endOfInput]

theorem readAll_cons_of_error {fault : LexFault} (h : l.read = .error fault) :
    readAll position (l :: ls) = .error ⟨fault, position⟩ := by
  rw [readAll, h]

theorem readAll_cons_of_ok {token : Option Token} (h : l.read = .ok token) :
    readAll position (l :: ls) =
      (readAll (position + l.chars.length) ls).map (token.toList ++ ·) := by
  rw [readAll, h]
  cases token with
  | none => cases readAll (position + l.chars.length) ls <;> rfl
  | some t => rfl

/-- Valid pieces are read as their tokens. -/
theorem readAll_of_valid (h : ∀ p ∈ ls.map pieceOf, p.Valid) :
    readAll position ls = .ok (tokensOf (ls.map pieceOf)) := by
  induction ls generalizing position with
  | nil => rfl
  | cons l ls ih =>
      rw [List.map_cons, List.forall_mem_cons] at h
      obtain ⟨⟨token, hread⟩, hrest⟩ := h
      have htoken : (pieceOf l).token? = token := by
        rw [Piece.token?, hread]
      rw [readAll_cons_of_ok hread, ih hrest, Except.map, tokensOf, tokensOf,
        List.map_cons]
      cases token with
      | none => rw [List.filterMap_cons_none htoken]; rfl
      | some t => rw [List.filterMap_cons_some htoken]; rfl

/-- The first piece that is not valid is reported. -/
theorem readAll_of_invalid {before after : List Piece} {fault : LexFault}
    (hsplit : ls.map pieceOf = before ++ p :: after) (hbefore : ∀ q ∈ before, q.Valid)
    (hp : p.reading = .error fault) :
    readAll position ls = .error ⟨fault, position + (Piece.joined before).length⟩ := by
  induction before generalizing position ls with
  | nil =>
      obtain ⟨l, ls, rfl, rfl, -⟩ := List.map_eq_cons_iff.mp hsplit
      exact readAll_cons_of_error hp
  | cons q before ih =>
      obtain ⟨l, ls, rfl, rfl, hrest⟩ := List.map_eq_cons_iff.mp hsplit
      rw [List.forall_mem_cons] at hbefore
      obtain ⟨⟨token, hread⟩, hbefore⟩ := hbefore
      rw [readAll_cons_of_ok hread, ih hrest hbefore, Except.map, Piece.joined_cons,
        List.length_append, ← Nat.add_assoc]
      rfl

theorem valid_or_first_invalid (ps : List Piece) :
    (∀ p ∈ ps, p.Valid) ∨ ∃ before p after fault,
      ps = before ++ p :: after ∧ (∀ q ∈ before, q.Valid) ∧ p.reading = .error fault := by
  induction ps with
  | nil => exact .inl fun p hp => absurd hp List.not_mem_nil
  | cons p ps ih =>
      cases hread : p.reading with
      | error fault =>
          exact .inr ⟨[], p, ps, fault, rfl, fun q hq => absurd hq List.not_mem_nil, hread⟩
      | ok token =>
          rcases ih with hall | ⟨before, q, after, fault, rfl, hbefore, hq⟩
          · exact .inl (List.forall_mem_cons.mpr ⟨⟨token, hread⟩, hall⟩)
          · exact .inr ⟨p :: before, q, after, fault, rfl,
              List.forall_mem_cons.mpr ⟨⟨token, hread⟩, hbefore⟩, hq⟩

/-! ## Where tokens come from -/

/-- A token that some piece is read as. -/
inductive Origin : Token → Prop
  | number {digits suffix : List Char} {t : Token} (h : readNumber digits suffix = .ok t) :
      Origin t
  | word (letters : List Char) : Origin (readWord letters)
  | text (s : String) : Origin (.text s)
  | mark {t : Token} {s : String} (h : t.spelling? = some s) : Origin t

theorem Matches.origin {t : Token} (h : Matches w (.ok (some t))) : Origin t := by
  generalize hr : (.ok (some t) : Reading) = r at h
  cases h with
  | space | unclosed => cases hr
  | @number c digits suffix =>
      cases hnumber : readNumber (c :: digits) suffix with
      | error fault =>
          rw [hnumber] at hr
          cases hr
      | ok token =>
          rw [hnumber] at hr
          cases hr
          exact .number hnumber
  | word =>
      cases hr
      exact .word _
  | closed =>
      cases hr
      exact .text _
  | mark h =>
      cases hr
      exact .mark h

theorem Leads.origin (h : Leads p source) {t : Token} (ht : p.token? = some t) : Origin t := by
  cases h with
  | @longest w _ r h =>
      cases r with
      | error fault => cases ht
      | ok token =>
          cases ht
          exact h.origin
  | unmatched => cases ht

theorem Segmented.origin (h : Segmented source ps) :
    ∀ t ∈ ps.filterMap Piece.token?, Origin t := by
  induction h with
  | nil => exact fun t ht => absurd ht List.not_mem_nil
  | cons hp _ ih =>
      intro t ht
      obtain ⟨q, hq, htoken⟩ := List.mem_filterMap.mp ht
      rcases List.mem_cons.mp hq with rfl | hq
      · exact hp.origin htoken
      · exact ih t (List.mem_filterMap.mpr ⟨q, hq, htoken⟩)

/-- The two limits on digits meet without a gap: what is no 64-bit integer is not in the exact
range, and what is one has the size that the digits spell. -/
theorem readInteger_eq (digits : List Char) :
    readInteger digits =
      if digitValue digits ≤ Number.exactLimit then .ok (.integer (Int64.ofNat (digitValue digits)))
      else .error .literalTooLarge := by
  have hlimit : Number.exactLimit = 9007199254740991 := rfl
  have hword : 1 <<< 63 = 9223372036854775808 := rfl
  unfold readInteger Number.word?
  generalize digitValue digits = n
  by_cases hn : n < 1 <<< 63
  · have hvalue : (Int64.ofNat n).toInt = n := Int64.toInt_ofNat_of_lt (by omega)
    simp only [if_pos hn, hvalue, Int.natAbs_natCast]
  · rw [if_neg hn, if_neg (by omega)]

/-- What a number is read as, and what has been checked of it. -/
theorem readNumber_cases {digits suffix : List Char} {t : Token}
    (h : readNumber digits suffix = .ok t) :
    (∃ x unit, t = .quantity x unit ∧ Measure.isSymbol unit = true) ∨ (∃ x, t = .real x) ∨
      ∃ n ≤ Number.exactLimit, t = .integer (Int64.ofNat n) := by
  dsimp only [readNumber] at h
  split at h
  · cases h
  · split at h
    · split at h
      · next hunit =>
          cases h
          exact .inl ⟨_, _, rfl, hunit⟩
      · cases h
    · split at h
      · cases h
        exact .inr (.inl ⟨_, rfl⟩)
      · rw [readInteger_eq] at h
        split at h
        · next hlimit =>
            cases h
            exact .inr (.inr ⟨_, hlimit, rfl⟩)
        · cases h

/-- The token is a word, and carries the word if it is no keyword. -/
def IsWord : Token → Prop
  | .keywordFn | .keywordTo | .keywordTimes | .unit _ | .identifier _ => True
  | _ => False

theorem isWord_readWord (letters : List Char) : IsWord (readWord letters) := by
  dsimp only [readWord]
  split
  · trivial
  · split
    · trivial
    · split
      · trivial
      · split <;> trivial

/-- No piece of a text makes the token that marks its end. -/
theorem Segmented.endOfInput_not_mem (h : Segmented source ps) :
    .endOfInput ∉ ps.filterMap Piece.token? := by
  intro hmem
  generalize ht : Token.endOfInput = t at hmem
  cases h.origin t hmem with
  | number h =>
      subst ht
      rcases readNumber_cases h with ⟨_, _, ht, -⟩ | ⟨_, ht⟩ | ⟨_, -, ht⟩ <;> cases ht
  | word letters =>
      have hword := isWord_readWord letters
      rw [← ht] at hword
      exact hword
  | text s => cases ht
  | mark h =>
      subst ht
      cases h

/-! ## White text -/

theorem not_white_of_singleMark {t : Token} (h : singleMark? c = some t) :
    Text.isWhite c = false := by
  unfold singleMark? at h
  split at h <;> cases h <;> rfl

theorem not_classed_of_white (h : Text.isWhite c = true) :
    ¬ Digit c ∧ ¬ Initial c ∧ ¬ Quote c := by
  simp only [Text.isWhite, Bool.or_eq_true, Bool.and_eq_true, decide_eq_true_eq,
    beq_iff_eq] at h
  simp only [Digit, Initial, Letter, Syllable, Quote, le_iff_toNat_le, ← Char.toNat_inj,
    Char.reduceToNat]
  omega

/-- Of the lexemes only a run of white space starts with a white character. -/
theorem Matches.reading_of_white (h : Matches (c :: w) r) (hc : Text.isWhite c = true) :
    r = .ok none := by
  obtain ⟨hdigit, hinitial, hquote⟩ := not_classed_of_white hc
  have hmark : singleMark? c = none := by
    cases hmark : singleMark? c with
    | none => rfl
    | some t =>
        rw [not_white_of_singleMark hmark] at hc
        cases hc
  cases h with
  | space => rfl
  | number h => exact absurd h hdigit
  | word h => exact absurd h hinitial
  | closed h | unclosed h => exact absurd h hquote
  | mark h =>
      rcases mark_of_spelling h with ⟨-, hsingle⟩ | ⟨d, -, hpair⟩
      · rw [hmark] at hsingle
        cases hsingle
      · exact absurd hmark (singleMark_ne_none_of_pairMark hpair)

theorem Leads.token_of_white (h : Leads p source) (hwhite : ∀ c ∈ source, Text.isWhite c = true) :
    p.token? = none := by
  cases h with
  | longest h hw =>
      obtain ⟨c, w, rfl⟩ := h.exists_cons
      rw [h.reading_of_white (hwhite c (hw.subset List.mem_cons_self))]
      rfl
  | unmatched => rfl

theorem Segmented.tokensOf_of_white (h : Segmented source ps)
    (hwhite : ∀ c ∈ source, Text.isWhite c = true) : tokensOf ps = [.endOfInput] := by
  induction h with
  | nil => rfl
  | cons hp _ ih =>
      have hrest := ih fun c hc => hwhite c (List.mem_append_right _ hc)
      rw [tokensOf, List.filterMap_cons_none (hp.token_of_white hwhite)]
      exact hrest

/-! ## The tokens of a text -/

theorem scan_of_valid {source : String}
    (h : Segmented source.toList ps) (hvalid : ∀ p ∈ ps, p.Valid) :
    Token.scan source = .ok (tokensOf ps) := by
  rw [h.eq_cut] at hvalid ⊢
  exact readAll_of_valid hvalid

theorem scan_of_invalid {source : String} {before after : List Piece}
    {fault : LexFault} (h : Segmented source.toList (before ++ p :: after))
    (hbefore : ∀ q ∈ before, q.Valid) (hp : p.reading = .error fault) :
    Token.scan source = .error ⟨fault, (Piece.joined before).length⟩ := by
  rw [Token.scan, readAll_of_invalid h.eq_cut.symm hbefore hp, Nat.zero_add]

/-- The text before some point can be scanned if the pieces before it are valid. -/
theorem scan_of_valid_before {source : String} {before after : List Piece}
    (h : Segmented source.toList (before ++ after)) (hbefore : ∀ q ∈ before, q.Valid) :
    Token.scan (String.ofList (source.toList.take (Piece.joined before).length)) =
      .ok (tokensOf before) := by
  have htext : source.toList.take (Piece.joined before).length = Piece.joined before := by
    rw [← h.joined, Piece.joined_append, List.take_left]
  rw [htext]
  refine scan_of_valid ?_ hbefore
  rw [String.toList_ofList]
  exact h.of_append

theorem Segmented.of_scan_ok {source : String} {ts : List Token}
    (h : Segmented source.toList ps) (hscan : Token.scan source = .ok ts) :
    (∀ p ∈ ps, p.Valid) ∧ ts = tokensOf ps := by
  rcases valid_or_first_invalid ps with hvalid | ⟨before, p, after, fault, rfl, hbefore, hp⟩
  · rw [scan_of_valid h hvalid] at hscan
    cases hscan
    exact ⟨hvalid, rfl⟩
  · rw [scan_of_invalid h hbefore hp] at hscan
    cases hscan

theorem Segmented.of_scan_error {source : String} {e : LexError}
    (h : Segmented source.toList ps) (hscan : Token.scan source = .error e) :
    ∃ before p after, ps = before ++ p :: after ∧ (∀ q ∈ before, q.Valid) ∧
      p.reading = .error e.fault ∧ e.position = (Piece.joined before).length := by
  rcases valid_or_first_invalid ps with hvalid | ⟨before, p, after, fault, rfl, hbefore, hp⟩
  · rw [scan_of_valid h hvalid] at hscan
    cases hscan
  · rw [scan_of_invalid h hbefore hp] at hscan
    cases hscan
    exact ⟨before, p, after, rfl, hbefore, hp, rfl⟩

theorem origin_of_scan {source : String} {ts : List Token} (h : Token.scan source = .ok ts) :
    ∀ t ∈ ts, t = .endOfInput ∨ Origin t := by
  have hcut := segmented_cut source.toList
  obtain ⟨-, rfl⟩ := hcut.of_scan_ok h
  intro t ht
  rcases List.mem_append.mp ht with ht | ht
  · exact .inr (hcut.origin t ht)
  · exact .inl (List.mem_singleton.mp ht)

theorem scan_of_isBlank {source : String} {ts : List Token}
    (h : Text.isBlank source = true) (hscan : Token.scan source = .ok ts) :
    ts = [.endOfInput] := by
  have hcut := segmented_cut source.toList
  rw [(hcut.of_scan_ok hscan).2]
  exact hcut.tokensOf_of_white (List.all_eq_true.mp h)

/-- **The tokens of a text are those of its longest pieces.** There is one way to
cut a text into longest pieces, and it loses nothing. If all pieces are valid, the
scan gives their tokens and then, once, the end of input. Otherwise it reports the
first piece that is not, at the number of characters before it; and the text up to
there can be scanned. -/
theorem scan_longest_pieces (source : String) :
    ∃ pieces, Segmented source.toList pieces ∧
      (∀ other, Segmented source.toList other → other = pieces) ∧
      Piece.joined pieces = source.toList ∧
      (∀ ts, Token.scan source = .ok ts ↔ (∀ p ∈ pieces, p.Valid) ∧ ts = tokensOf pieces) ∧
      .endOfInput ∉ pieces.filterMap Piece.token? ∧
      ∀ e, Token.scan source = .error e ↔
        ∃ before p after, pieces = before ++ p :: after ∧ (∀ q ∈ before, q.Valid) ∧
          p.reading = .error e.fault ∧ e.position = (Piece.joined before).length ∧
          ∃ ts, Token.scan (String.ofList (source.toList.take e.position)) = .ok ts := by
  have hcut := segmented_cut source.toList
  refine ⟨_, hcut, fun other hother => hother.eq_cut, hcut.joined, fun ts => ⟨?_, ?_⟩,
    hcut.endOfInput_not_mem, fun e => ⟨fun hscan => ?_, ?_⟩⟩
  · exact hcut.of_scan_ok
  · rintro ⟨hvalid, rfl⟩
    exact scan_of_valid hcut hvalid
  · obtain ⟨before, p, after, hsplit, hbefore, hp, hposition⟩ := hcut.of_scan_error hscan
    refine ⟨before, p, after, hsplit, hbefore, hp, hposition, tokensOf before, ?_⟩
    rw [hsplit] at hcut
    rw [hposition]
    exact scan_of_valid_before hcut hbefore
  · rintro ⟨before, p, after, hsplit, hbefore, hp, hposition, -⟩
    rw [hsplit] at hcut
    rw [scan_of_invalid hcut hbefore hp, ← hposition]

end UnitCalc.Lexical
