import Mathlib
import UnitCalc.Proofs.Number.Nearest
import UnitCalc.Proofs.Number.Whole
import UnitCalc.Value.Arithmetic

/-!
# Repetition of texts

A text is repeated as often as a number says. The count goes through three steps that
lose something: an integer is rounded to a binary64 number, a count beyond 64 bits is cut
to the greatest one, and the length is a product of 64 bits or none. None of them is
seen: counts that they confuse are both too large for every text, but for the empty one,
which stays as it is.
-/

namespace UnitCalc

/-! ## Counts -/

namespace Exact

/-- How many copies a number asks for, with no greatest count: its whole part, and none if it
is negative. -/
def copies : Exact → ℕ
  | finite true mantissa exponent => ⌊(-(mantissa * 2 ^ exponent) : ℚ)⌋.toNat
  | finite false mantissa exponent => ⌊(mantissa * 2 ^ exponent : ℚ)⌋.toNat
  | nan | infinite _ => 0

theorem copies_of_value? {x : Exact} {r : ℚ} (h : x.value? = some (.ofRat r)) :
    x.copies = ⌊r⌋.toNat := by
  obtain ⟨negative, m, e, rfl, rfl⟩ := exists_parts h
  cases negative <;> rfl

end Exact

theorem Number.repetitions_eq_min (x : Float) :
    repetitions x = min (Exact.ofFloat x).copies countLimit := by
  rw [repetitions]
  cases Exact.ofFloat x with
  | nan => rfl
  | infinite _ => rfl
  | finite negative m e =>
      cases negative with
      | false =>
          show min (Exact.wholePart m e) countLimit = min (Exact.copies _) countLimit
          rw [Exact.wholePart_eq_floor, Exact.copies]
      | true =>
          have hneg : ⌊(-(m * 2 ^ e) : ℚ)⌋ ≤ 0 :=
            Int.floor_nonpos (neg_nonpos.mpr (by positivity))
          show 0 = min (Exact.copies _) countLimit
          rw [Exact.copies, Int.toNat_of_nonpos hneg, Nat.zero_min]

/-- A product that is no count is beyond every limit. -/
theorem Number.filter_countProduct? {limit : Nat} (h : limit ≤ countLimit) (a b : Nat) :
    (countProduct? a b).filter (· ≤ limit) = if a * b ≤ limit then some (a * b) else none := by
  rw [countProduct?]
  by_cases hlimit : a * b ≤ limit
  · simp [hlimit, hlimit.trans h]
  · by_cases hcount : a * b ≤ countLimit <;> simp [hlimit, hcount, not_le.mp hlimit]

namespace Value

/-- How many copies a number without unit asks for. -/
def copies? : Value → Option ℕ
  | integer n => some n.toInt.toNat
  | real x => some (Exact.ofFloat x).copies
  | _ => none

/-! ## Counts that no text tells apart -/

/-- Two counts that are the same, or both beyond what any text but the empty one allows. -/
def Alike (k k' : ℕ) : Prop :=
  k = k' ∨ repetitionLimit < k ∧ repetitionLimit < k'

theorem Alike.trans {k k' k'' : ℕ} (h : Alike k k') (h' : Alike k' k'') : Alike k k'' := by
  rcases h with rfl | ⟨hk, hk'⟩
  · exact h'
  · rcases h' with rfl | ⟨_, hk''⟩
    · exact .inr ⟨hk, hk'⟩
    · exact .inr ⟨hk, hk''⟩

theorem repetitionLimit_eq : repetitionLimit = 2 ^ 28 := rfl

theorem alike_min (k : ℕ) : Alike k (min k Number.countLimit) := by
  have hlimits : repetitionLimit < Number.countLimit := by decide
  rcases Nat.le_total k Number.countLimit with h | h
  · exact .inl (Nat.min_eq_left h).symm
  · refine .inr ⟨hlimits.trans_le h, ?_⟩
    rwa [Nat.min_eq_right h]

/-- A large integer is rounded, but never to a count that can be made. -/
theorem alike_ofInteger (n : Int64) :
    Alike n.toInt.toNat (Exact.ofFloat (Number.ofInteger n)).copies := by
  by_cases hexact : n.toInt.natAbs ≤ Number.exactLimit
  · rw [Exact.copies_of_value? (Number.value?_ofInteger hexact), Int.floor_intCast]
    exact .inl rfl
  · have hlarge : 2 ^ 53 ≤ n.toInt.natAbs := by
      rw [Binary64.le_exactLimit_iff] at hexact
      exact not_lt.mp hexact
    obtain ⟨r, hr, hfaithful⟩ := Binary64.faithful_ofInteger n
    rw [Exact.copies_of_value? hr]
    rcases Int.le_total 0 n.toInt with hsign | hsign
    · have hn : (2 ^ 53 : ℚ) ≤ n.toInt := by
        have : (2 ^ 53 : Int) ≤ n.toInt := by omega
        exact_mod_cast this
      have hfloor : (2 ^ 53 : Int) ≤ ⌊r⌋ := by
        rw [Int.le_floor]
        push_cast
        exact hfaithful.above _ Binary64.representable_two_pow hn
      refine .inr ⟨?_, ?_⟩ <;> rw [repetitionLimit_eq] <;> omega
    · have hr : r ≤ 0 := hfaithful.nonpos (by exact_mod_cast hsign)
      refine .inl ?_
      rw [Int.toNat_of_nonpos hsign, Int.toNat_of_nonpos (Int.floor_nonpos hr)]

/-! ## Joined copies -/

theorem join_replicate_succ (s : String) (k : ℕ) :
    String.join (List.replicate (k + 1) s) = String.join (List.replicate k s) ++ s := by
  rw [List.replicate_succ', String.join_append, String.join_cons, String.join_nil, String.append_empty]

theorem utf8ByteSize_copies (s : String) (k : ℕ) :
    (String.join (List.replicate k s)).utf8ByteSize = s.utf8ByteSize * k := by
  induction k with
  | zero => rfl
  | succ k ih => rw [join_replicate_succ, String.utf8ByteSize_append, ih, Nat.mul_succ]

theorem join_replicate_empty (k : ℕ) : String.join (List.replicate k "") = "" := by
  rw [← String.utf8ByteSize_eq_zero_iff, utf8ByteSize_copies]
  exact Nat.zero_mul k

theorem repeated_eq_join (s : String) (k : ℕ) :
    repeated s k = String.join (List.replicate k s) := by
  rw [repeated]
  split
  · next hempty => rw [hempty, join_replicate_empty]
  · induction k with
    | zero => rfl
    | succ k ih => rw [Nat.repeat, ih, join_replicate_succ]

/-! ## Repetition -/

variable {op : BinaryOp} {left right : Value} {s : String} {k k' : ℕ}

theorem repeating_eq_ite (s : String) (k : ℕ) :
    textual.repeating op left right s k =
      if s.utf8ByteSize * k ≤ repetitionLimit then .ok (text (String.join (List.replicate k s)))
      else .error (.binaryOperands op left right) := by
  rw [textual.repeating, Number.filter_countProduct? (by decide), ← repeated_eq_join]
  split_ifs <;> rfl

theorem repeating_of_alike (h : Alike k k') :
    textual.repeating op left right s k' = textual.repeating op left right s k := by
  rcases h with rfl | ⟨hk, hk'⟩
  · rfl
  · rw [repeating_eq_ite, repeating_eq_ite]
    by_cases hempty : s = ""
    · -- the empty text is not made longer by any count
      rw [hempty, join_replicate_empty, join_replicate_empty]
      simp
    · have hsize : 0 < s.utf8ByteSize := by
        rwa [Nat.pos_iff_ne_zero, ne_eq, String.utf8ByteSize_eq_zero_iff]
      rw [if_neg (not_le.mpr (hk'.trans_le (Nat.le_mul_of_pos_left k' hsize))),
        if_neg (not_le.mpr (hk.trans_le (Nat.le_mul_of_pos_left k hsize)))]

/-- **Texts are repeated exactly.** A text is repeated as often as the number says, if the
result is not too long, and the length is that of the exact product. -/
theorem textual_repetition {v : Value} (h : v.copies? = some k) :
    textual .mul (text s) v =
        (if s.utf8ByteSize * k ≤ 2 ^ 28 then .ok (text (String.join (List.replicate k s)))
        else .error (.binaryOperands .mul (text s) v)) ∧
      (String.join (List.replicate k s)).utf8ByteSize = s.utf8ByteSize * k := by
  refine ⟨?_, utf8ByteSize_copies s k⟩
  rw [← repetitionLimit_eq, ← repeating_eq_ite]
  cases v with
  | integer n =>
      obtain rfl := Option.some.inj h
      show textual.repeating .mul _ _ s (Number.repetitions (Number.ofInteger n)) = _
      rw [Number.repetitions_eq_min]
      exact repeating_of_alike ((alike_ofInteger n).trans (alike_min _))
  | real x =>
      obtain rfl := Option.some.inj h
      show textual.repeating .mul _ _ s (Number.repetitions x) = _
      rw [Number.repetitions_eq_min]
      exact repeating_of_alike (alike_min _)
  | quantity _ _ => cases h
  | text _ => cases h
  | truth _ => cases h
  | function => cases h

/-- Two copies for `2.7`, and the greatest integer with a text of no bytes and one of two. -/
theorem textual_repetition_limits :
    let fraction : Value := real (.ofBits 0x400599999999999a)
    fraction.copies? = some 2 ∧
      textual .mul (text "ab") fraction = .ok (text "abab") ∧
      (integer Int64.maxValue).copies? = some (2 ^ 63 - 1) ∧
      textual .mul (text "") (integer Int64.maxValue) = .ok (text "") ∧
      textual .mul (text "ab") (integer Int64.maxValue) =
        .error (.binaryOperands .mul (text "ab") (integer Int64.maxValue)) := by
  intro fraction
  have hfraction : fraction.copies? = some 2 := by
    have parts : Exact.ofFloat (.ofBits 0x400599999999999a) = .finite false 0x1599999999999a (-51) := by
      decide +kernel
    show some (Exact.copies (Exact.ofFloat _)) = some 2
    rw [parts, Exact.copies, ← Exact.wholePart_eq_floor]
    decide +kernel
  have hgreatest : (integer Int64.maxValue).copies? = some (2 ^ 63 - 1) := by decide +kernel
  refine ⟨hfraction, (textual_repetition hfraction).1.trans (by decide +kernel), hgreatest, ?_, ?_⟩
  · rw [(textual_repetition hgreatest).1, join_replicate_empty]
    decide +kernel
  · rw [(textual_repetition hgreatest).1, if_neg (by decide +kernel)]

end Value

end UnitCalc
