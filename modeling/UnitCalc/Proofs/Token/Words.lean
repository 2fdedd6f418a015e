import UnitCalc.Environment
import UnitCalc.Proofs.Token.Scanned

/-!
# The words of a scanned text

Keywords and unit symbols never come out of a scan as identifiers, and the units
that do come out are registered.
-/

namespace UnitCalc

def keywords : List String := ["fn", "to", "times"]

/-- A word that the lexer reads as an identifier. -/
structure IsIdentifier (name : String) : Prop where
  keyword : name ∉ keywords
  unit : Measure.isSymbol name = false

/-- A name that a session may give to a variable or a function. -/
structure IsFree (name : String) : Prop extends IsIdentifier name where
  constant : isConstant name = false

/-- The words in a token are what the token takes them for. -/
def Token.Proper : Token → Prop
  | .identifier name => IsIdentifier name
  | .unit symbol => Measure.isSymbol symbol = true
  | .quantity _ symbol => Measure.isSymbol symbol = true
  | _ => True

namespace Lexeme

theorem proper_readWord (letters : List Char) : (readWord letters).Proper := by
  dsimp only [readWord]
  split
  · trivial
  · split
    · trivial
    · split
      · trivial
      · split
        · next h => exact h
        · next hfn hto htimes hunit =>
            refine ⟨?_, Bool.eq_false_iff.mpr hunit⟩
            simp [keywords, hfn, hto, htimes]

end Lexeme

/-- Marks and quoted texts carry no words. -/
theorem Token.proper_of_scan {source : String} {ts : List Token}
    (h : Token.scan source = .ok ts) : ∀ t ∈ ts, t.Proper := by
  intro t ht
  rcases Lexical.origin_of_scan h t ht with rfl | horigin
  · trivial
  · cases horigin with
    | number h =>
        rcases Lexical.readNumber_cases h with ⟨_, _, rfl, hunit⟩ | ⟨_, rfl⟩ | ⟨_, -, rfl⟩
        · exact hunit
        · trivial
        · trivial
    | word letters => exact Lexeme.proper_readWord letters
    | text s => trivial
    | mark h =>
        cases t with
        | identifier | unit | quantity => cases h
        | _ => trivial

end UnitCalc
