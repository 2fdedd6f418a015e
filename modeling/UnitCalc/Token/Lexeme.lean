import UnitCalc.Token

/-!
# Lexemes

A source text is cut, from the left, into its longest lexemes: runs of white space, numbers with the
letters that follow them, words, quoted texts, operator signs and punctuation. A character that starts
none of these is a lexeme of its own. The cut loses nothing, whether or not every lexeme makes a token.
-/

namespace UnitCalc

inductive Lexeme where
  | space (run : List Char)
  | number (digits suffix : List Char)
  | word (letters : List Char)
  /-- A text from its opening quote to the next such quote, or to the end of the source when there is
  none. -/
  | quoted (quote : Char) (content : List Char) (closed : Bool)
  | mark (token : Token) (spelling : List Char)
  | unknown (c : Char)
deriving DecidableEq

namespace Lexeme

/-- The characters of a lexeme. -/
def chars : Lexeme → List Char
  | space run => run
  | number digits suffix => digits ++ suffix
  | word letters => letters
  | quoted quote content closed => quote :: content ++ if closed then [quote] else []
  | mark _ spelling => spelling
  | unknown c => [c]

def isSpace (c : Char) : Bool :=
  c = ' ' || c = '\t' || c = '\r' || c = '\n' || c = '\x0c'

/-- The characters of a number after its first digit. -/
def isNumeric (c : Char) : Bool := c.isDigit || c = '_' || c = '.'

/-- A composed Korean syllable. -/
def isHangul (c : Char) : Bool := 0xac00 ≤ c.toNat && c.toNat ≤ 0xd7a3

def isWordStart (c : Char) : Bool := c.isAlpha || c = '_' || isHangul c

def isWordPart (c : Char) : Bool := isWordStart c || c.isDigit

def isQuote (c : Char) : Bool := c = '\x22' || c = '\x27'

/-- The marks of two characters. -/
def pairMark? : Char → Char → Option Token
  | '>', '=' => some (.sign .greaterEqual)
  | '<', '=' => some (.sign .lessEqual)
  | '=', '=' => some (.sign .equalEqual)
  | '!', '=' => some (.sign .bangEqual)
  | _, _ => none

/-- The marks of one character. -/
def singleMark? : Char → Option Token
  | '+' => some (.sign .plus)
  | '-' => some (.sign .minus)
  | '*' => some (.sign .star)
  | '/' => some (.sign .slash)
  | '>' => some (.sign .greater)
  | '<' => some (.sign .less)
  | '!' => some (.sign .bang)
  | '?' => some (.sign .question)
  | ':' => some (.sign .colon)
  | '=' => some .assign
  | '(' => some .leftParen
  | ')' => some .rightParen
  | ',' => some .comma
  | _ => none

/-- The quoted text after an opening quote. -/
def takeQuoted (quote : Char) (cs : List Char) : Lexeme × List Char :=
  match cs.dropWhile (· != quote) with
  | [] => (quoted quote (cs.takeWhile (· != quote)) false, [])
  | _ :: rest => (quoted quote (cs.takeWhile (· != quote)) true, rest)

/-- The mark that starts with `c`, two characters long if it can be. -/
def takeMark (c : Char) (cs : List Char) : Lexeme × List Char :=
  match cs with
  | d :: rest =>
    match pairMark? c d with
    | some t => (mark t [c, d], rest)
    | none => alone
  | [] => alone
where
  alone : Lexeme × List Char :=
    match singleMark? c with
    | some t => (mark t [c], cs)
    | none => (unknown c, cs)

/-- The lexeme at the front of `c :: cs`, and what follows it. -/
def take (c : Char) (cs : List Char) : Lexeme × List Char :=
  if isSpace c then
    (space (c :: cs.takeWhile isSpace), cs.dropWhile isSpace)
  else if c.isDigit then
    let rest := cs.dropWhile isNumeric
    (number (c :: cs.takeWhile isNumeric) (rest.takeWhile Char.isAlpha), rest.dropWhile Char.isAlpha)
  else if isWordStart c then
    (word (c :: cs.takeWhile isWordPart), cs.dropWhile isWordPart)
  else if isQuote c then takeQuoted c cs
  else takeMark c cs

theorem takeQuoted_append (quote : Char) (cs : List Char) :
    (takeQuoted quote cs).1.chars ++ (takeQuoted quote cs).2 = quote :: cs := by
  have halves : cs.takeWhile (· != quote) ++ cs.dropWhile (· != quote) = cs :=
    List.takeWhile_append_dropWhile
  unfold takeQuoted
  split
  next h =>
    rw [h, List.append_nil] at halves
    simp only [chars, halves]
    simp
  next d rest h =>
    have closes : d = quote := by
      have stop := List.head_dropWhile_not (· != quote) (l := cs) (by simp [h])
      simpa [h] using stop
    rw [h, closes] at halves
    simpa [chars] using halves

theorem takeMark_append (c : Char) (cs : List Char) :
    (takeMark c cs).1.chars ++ (takeMark c cs).2 = c :: cs := by
  have alone : (takeMark.alone c cs).1.chars ++ (takeMark.alone c cs).2 = c :: cs := by
    unfold takeMark.alone
    split <;> simp [chars]
  unfold takeMark
  split
  · split
    · simp [chars]
    · exact alone
  · exact alone

/-- The front lexeme and the rest make up the source. -/
theorem take_append (c : Char) (cs : List Char) :
    (take c cs).1.chars ++ (take c cs).2 = c :: cs := by
  unfold take
  split
  · simp [chars]
  · split
    · simp [chars]
    · split
      · simp [chars]
      · split
        · exact takeQuoted_append c cs
        · exact takeMark_append c cs

theorem chars_take_ne_nil (c : Char) (cs : List Char) : (take c cs).1.chars ≠ [] := by
  unfold take takeQuoted takeMark takeMark.alone
  repeat' split
  all_goals simp [chars]

/-- Something is always taken. -/
theorem length_take_lt (c : Char) (cs : List Char) : (take c cs).2.length < (c :: cs).length := by
  have whole := congrArg List.length (take_append c cs)
  have some_taken := List.length_pos_iff.mpr (chars_take_ne_nil c cs)
  rw [List.length_append] at whole
  omega

/-- The lexemes of a source text. -/
def cut (source : List Char) : List Lexeme :=
  match source with
  | [] => []
  | c :: cs => (take c cs).1 :: cut (take c cs).2
termination_by source.length
decreasing_by exact length_take_lt c cs

end Lexeme

end UnitCalc
