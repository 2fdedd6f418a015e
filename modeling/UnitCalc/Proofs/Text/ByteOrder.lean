import Mathlib
import UnitCalc.Text.Bytes

/-!
# The order of texts

Texts are compared by the bytes of their UTF-8 form. That is the lexicographic order of
their code points: of two characters the one with the greater code point has the greater
byte where their forms first differ, and neither form begins the other.
-/

namespace UnitCalc.Text

open String (utf8EncodeChar)

/-- The code points of a text. -/
def codePoints (s : String) : List ℕ := s.toList.map Char.toNat

theorem bytes_eq_flatMap (s : String) : bytes s = s.toList.flatMap utf8EncodeChar := by
  rw [bytes, ← String.utf8Encode_toList, List.utf8Encode]
  simp

/-! ## Lexicographic comparison -/

theorem compare_append_left (front s t : List UInt8) :
    compare (front ++ s) (front ++ t) = compare s t := by
  induction front with
  | nil => rfl
  | cons b front ih =>
      rw [List.cons_append, List.cons_append, List.compare_cons_cons, ih,
        Std.ReflOrd.compare_self, Ordering.then]

theorem compares_cons {o o' : Ordering} {m n : ℕ} {ms ns : List ℕ} (h : o.Compares m n)
    (h' : o'.Compares ms ns) : (o.then o').Compares (m :: ms) (n :: ns) := by
  cases o with
  | lt => exact List.cons_lt_cons_iff.mpr (.inl h)
  | gt => exact List.cons_lt_cons_iff.mpr (.inl h)
  | eq =>
      cases h
      cases o' with
      | lt => exact List.cons_lt_cons_iff.mpr (.inr ⟨rfl, h'⟩)
      | eq => exact congrArg (m :: ·) h'
      | gt => exact List.cons_lt_cons_iff.mpr (.inr ⟨rfl, h'⟩)

/-! ## Characters -/

theorem compare_cons_eq_lt {m n : ℕ} (hm : m < 256) (hn : n < 256) (s t : List UInt8) :
    compare (UInt8.ofNat m :: s) (UInt8.ofNat n :: t) = .lt ↔ m < n ∨ m = n ∧ compare s t = .lt := by
  rw [List.compare_cons_cons, Ordering.then_eq_lt, Std.compare_eq_lt, Std.compare_eq_iff_eq,
    UInt8.lt_iff_toNat_lt, ← UInt8.toNat_inj, UInt8.toNat_ofNat_of_lt' hm,
    UInt8.toNat_ofNat_of_lt' hn]

/-- The character with the greater code point is encoded by the greater bytes, whatever
follows. -/
theorem compare_encode_of_lt {c d : Char} (h : c.toNat < d.toNat) (s t : List UInt8) :
    compare (utf8EncodeChar c ++ s) (utf8EncodeChar d ++ t) = .lt := by
  have hvalid : d.toNat < 0x110000 := by
    have hd := d.valid
    simp only [UInt32.isValidChar, Nat.isValidChar] at hd
    show d.val.toNat < _
    omega
  -- a code point is cut into groups of six bits, one after the other
  have hsecond : ∀ n : ℕ, n / 4096 = n / 64 / 64 := fun n => by rw [Nat.div_div_eq_div_mul]
  have hthird : ∀ n : ℕ, n / 262144 = n / 64 / 64 / 64 := fun n => by
    rw [Nat.div_div_eq_div_mul, Nat.div_div_eq_div_mul]
  have hval : ∀ c : Char, c.val.toNat = c.toNat := fun _ => rfl
  simp only [utf8EncodeChar, hval, hsecond, hthird]
  split_ifs
  all_goals
    simp (disch := omega) only [List.cons_append, List.nil_append, compare_cons_eq_lt]
    omega

/-- Bytes are compared character by character. -/
theorem compare_encode (c d : Char) (s t : List UInt8) :
    compare (utf8EncodeChar c ++ s) (utf8EncodeChar d ++ t) =
      (compare c.toNat d.toNat).then (compare s t) := by
  rcases lt_trichotomy c.toNat d.toNat with hlt | heq | hgt
  · rw [compare_encode_of_lt hlt, compare_lt_iff_lt.mpr hlt]
    rfl
  · obtain rfl := Char.toNat_inj.mp heq
    rw [compare_append_left, compare_eq_iff_eq.mpr rfl]
    rfl
  · rw [Std.OrientedOrd.eq_swap, compare_encode_of_lt hgt, compare_gt_iff_gt.mpr hgt]
    rfl

/-! ## Texts -/

theorem compares_flatMap (cs ds : List Char) :
    (compare (cs.flatMap utf8EncodeChar) (ds.flatMap utf8EncodeChar)).Compares
      (cs.map Char.toNat) (ds.map Char.toNat) := by
  have hsome : ∀ c s, ∃ b bs, utf8EncodeChar c ++ s = b :: bs := by
    intro c s
    exact List.exists_cons_of_ne_nil (List.append_ne_nil_of_left_ne_nil String.utf8EncodeChar_ne_nil s)
  induction cs generalizing ds with
  | nil =>
      cases ds with
      | nil => rfl
      | cons d ds =>
          obtain ⟨b, bs, hbytes⟩ := hsome d (ds.flatMap utf8EncodeChar)
          rw [List.flatMap_cons, hbytes]
          exact List.nil_lt_cons _ _
  | cons c cs ih =>
      cases ds with
      | nil =>
          obtain ⟨b, bs, hbytes⟩ := hsome c (cs.flatMap utf8EncodeChar)
          rw [List.flatMap_cons, hbytes]
          exact List.nil_lt_cons _ _
      | cons d ds =>
          rw [List.flatMap_cons, List.flatMap_cons, compare_encode]
          exact compares_cons ((compare_iff _ _).mp rfl) (ih ds)

/-- **The order of the bytes of texts is that of their code points.** -/
theorem compares_bytes (s t : String) :
    (compare (bytes s) (bytes t)).Compares (codePoints s) (codePoints t) := by
  rw [bytes_eq_flatMap, bytes_eq_flatMap]
  exact compares_flatMap s.toList t.toList

end UnitCalc.Text
