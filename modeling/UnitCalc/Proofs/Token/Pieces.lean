import UnitCalc.Token.Scan

/-!
# Texts as sequences of longest pieces

What a text is cut into, said without the scan that does it. The lexemes are
given by the characters they are made of: runs of white space, numbers with a
suffix of letters, words, quoted texts and marks. A text is cut by splitting off
its longest prefix that is a lexeme, or its first character if no prefix is one,
and going on with the rest.

A cut that has been made stays when the text is ended after it: nothing longer
becomes possible in a shorter text (`Segmented.of_append`).
-/

namespace UnitCalc

/-- How a mark is written. -/
def Token.spelling? : Token → Option String
  | .sign s => some s.symbol
  | .assign => some "="
  | .leftParen => some "("
  | .rightParen => some ")"
  | .comma => some ","
  | _ => none

namespace Lexical

/-! ## Lexemes -/

def Blank (c : Char) : Prop := c ∈ [' ', '\t', '\r', '\n', '\x0c']

def Digit (c : Char) : Prop := '0' ≤ c ∧ c ≤ '9'

def Letter (c : Char) : Prop := 'a' ≤ c ∧ c ≤ 'z' ∨ 'A' ≤ c ∧ c ≤ 'Z'

def Syllable (c : Char) : Prop := '가' ≤ c ∧ c ≤ '힣'

/-- A character of a number after its first digit. -/
def Numeral (c : Char) : Prop := Digit c ∨ c = '_' ∨ c = '.'

/-- The first character of a word. -/
def Initial (c : Char) : Prop := Letter c ∨ c = '_' ∨ Syllable c

def Quote (c : Char) : Prop := c = '\x22' ∨ c = '\x27'

/-- What a piece of a text is read as: a token, nothing, or a fault. -/
abbrev Reading := Except LexFault (Option Token)

/-- `Matches w r`: the characters `w` are a lexeme, and are read as `r`. -/
inductive Matches : List Char → Reading → Prop
  | space {c : Char} {run : List Char} (h : ∀ d ∈ c :: run, Blank d) :
      Matches (c :: run) (.ok none)
  | number {c : Char} {digits suffix : List Char} (hc : Digit c)
      (hdigits : ∀ d ∈ digits, Numeral d) (hsuffix : ∀ d ∈ suffix, Letter d) :
      Matches (c :: (digits ++ suffix)) ((Lexeme.readNumber (c :: digits) suffix).map some)
  | word {c : Char} {letters : List Char} (hc : Initial c)
      (hletters : ∀ d ∈ letters, Initial d ∨ Digit d) :
      Matches (c :: letters) (.ok (some (Lexeme.readWord (c :: letters))))
  | closed {q : Char} {content : List Char} (hq : Quote q) (h : q ∉ content) :
      Matches (q :: (content ++ [q])) (.ok (some (.text (String.ofList content))))
  | unclosed {q : Char} {content : List Char} (hq : Quote q) (h : q ∉ content) :
      Matches (q :: content) (.error .unclosedQuote)
  | mark {t : Token} {c : Char} {rest : List Char}
      (h : t.spelling? = some (String.ofList (c :: rest))) :
      Matches (c :: rest) (.ok (some t))

/-! ## Pieces -/

structure Piece where
  chars : List Char
  reading : Reading

namespace Piece

/-- The piece makes a token or is white space. -/
def Valid (p : Piece) : Prop := ∃ t, p.reading = .ok t

/-- The token of a piece, if it makes one. -/
def token? (p : Piece) : Option Token :=
  match p.reading with
  | .ok t => t
  | .error _ => none

/-- The text that pieces make up. -/
def joined (ps : List Piece) : List Char := ps.flatMap chars

@[simp] theorem joined_nil : joined [] = [] := rfl

@[simp] theorem joined_cons (p : Piece) (ps : List Piece) :
    joined (p :: ps) = p.chars ++ joined ps := rfl

@[simp] theorem joined_append (ps qs : List Piece) :
    joined (ps ++ qs) = joined ps ++ joined qs := List.flatMap_append

end Piece

/-- `Leads p source`: the first piece of `source` is `p`. -/
inductive Leads : Piece → List Char → Prop
  | longest {w source : List Char} {r : Reading} (h : Matches w r)
      (hw : w <+: source)
      (hmax : ∀ v s, Matches v s → v <+: source → v.length ≤ w.length) :
      Leads ⟨w, r⟩ source
  | unmatched {c : Char} {rest : List Char}
      (h : ∀ v s, Matches v s → ¬ v <+: c :: rest) :
      Leads ⟨[c], .error (.unknownCharacter c)⟩ (c :: rest)

/-- `Segmented source ps`: cut into longest pieces, `source` is `ps`. -/
inductive Segmented : List Char → List Piece → Prop
  | nil : Segmented [] []
  | cons {p : Piece} {rest : List Char} {ps : List Piece}
      (hp : Leads p (p.chars ++ rest)) (hrest : Segmented rest ps) :
      Segmented (p.chars ++ rest) (p :: ps)

variable {p : Piece} {source rest : List Char} {ps qs : List Piece}

theorem Leads.chars_ne_nil (h : Leads p source) : p.chars ≠ [] := by
  cases h with
  | longest h _ _ => cases h <;> exact List.cons_ne_nil _ _
  | unmatched _ => exact List.cons_ne_nil _ _

/-- A first piece stays the first piece of what is left when the text is ended
somewhere after it. -/
theorem Leads.of_shorter {short : List Char} (h : Leads p source)
    (hshort : short <+: source) (hp : p.chars <+: short) : Leads p short := by
  cases h with
  | longest h _ hmax =>
      exact .longest h hp fun v s hv hvs => hmax v s hv (hvs.trans hshort)
  | @unmatched c rest h =>
      obtain ⟨rest, rfl⟩ := hp
      exact .unmatched fun v s hv hvs => h v s hv (hvs.trans hshort)

theorem Segmented.joined (h : Segmented source ps) : Piece.joined ps = source := by
  induction h with
  | nil => rfl
  | cons _ _ ih => rw [Piece.joined_cons, ih]

/-- The pieces before some point are those of the text before it. -/
theorem Segmented.of_append (h : Segmented source (ps ++ qs)) :
    Segmented (Piece.joined ps) ps := by
  induction ps generalizing source with
  | nil => exact .nil
  | cons p ps ih =>
      cases h with
      | @cons _ rest _ hp hrest =>
          refine .cons (hp.of_shorter ?_ (List.prefix_append _ _)) (ih hrest)
          have hjoined : Piece.joined (ps ++ qs) = rest := hrest.joined
          rw [Piece.joined_append] at hjoined
          exact (List.prefix_append_right_inj _).mpr ⟨_, hjoined⟩

end Lexical

end UnitCalc
