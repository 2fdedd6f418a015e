/-!
# Text as bytes

A text and the bytes of its UTF-8 form. Reading bytes as text fails on every other sequence: broken or
overlong forms, surrogates, and what lies past the last code point.
-/

namespace UnitCalc.Text

def bytes (s : String) : List UInt8 := s.toByteArray.data.toList

def ofBytes? (bs : List UInt8) : Option String := String.fromUTF8? ⟨bs.toArray⟩

theorem ofBytes?_bytes (s : String) : ofBytes? (bytes s) = some s := by
  simp [ofBytes?, bytes, String.fromUTF8?, s.isValidUTF8, String.fromUTF8]

theorem bytes_of_ofBytes? {bs : List UInt8} {s : String} (h : ofBytes? bs = some s) :
    bytes s = bs := by
  simp only [ofBytes?, String.fromUTF8?] at h
  split at h
  · cases h; simp [bytes, String.fromUTF8]
  · cases h

end UnitCalc.Text
