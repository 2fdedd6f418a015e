import Mathlib
import UnitCalc.Text.Base64

/-!
# The canonical Base64 form of bytes

The form is said on bits. The bits of the bytes, the most significant of each
first, are followed by the fewest zero bits that make their number a multiple of
six; every six of them are a symbol of the alphabet; and padding signs make the
number of symbols a multiple of four. Bytes have one such form and no other, and
it is the one that `encode` writes.
-/

namespace UnitCalc.Base64

/-! ## Bits -/

/-- The lowest `width` bits of a number, the most significant first. -/
def bits : (width : Nat) → Nat → List Bool
  | 0, _ => []
  | width + 1, n => bits width (n / 2) ++ [decide (n % 2 = 1)]

def bitsOfBytes (bs : List UInt8) : List Bool := bs.flatMap fun b => bits 8 b.toNat

def bitsOfSextets (vs : List Nat) : List Bool := vs.flatMap (bits 6)

@[simp] theorem length_bits (width n : Nat) : (bits width n).length = width := by
  induction width generalizing n with
  | zero => rfl
  | succ width ih => simp [bits, ih]

/-- The bits of a number are those of its upper part, then those of its lower one. -/
theorem bits_add (upper lower n : Nat) :
    bits (upper + lower) n = bits upper (n / 2 ^ lower) ++ bits lower (n % 2 ^ lower) := by
  induction lower generalizing n with
  | zero => simp [bits]
  | succ lower ih =>
      have hhalf : n % 2 ^ (lower + 1) / 2 = n / 2 % 2 ^ lower := by
        rw [pow_succ', Nat.mod_mul_right_div_self]
      have hlast : n % 2 ^ (lower + 1) % 2 = n % 2 :=
        Nat.mod_mod_of_dvd n (dvd_pow_self 2 lower.succ_ne_zero)
      rw [← Nat.add_assoc, bits, bits, ih, hhalf, hlast, Nat.div_div_eq_div_mul, ← pow_succ',
        List.append_assoc]

theorem bits_mul_add {n : Nat} (upper lower m : Nat) (hn : n < 2 ^ lower) :
    bits (upper + lower) (m * 2 ^ lower + n) = bits upper m ++ bits lower n := by
  have hpos := Nat.two_pow_pos lower
  rw [bits_add, Nat.add_comm, Nat.add_mul_div_right n m hpos, Nat.add_mul_mod_self_right,
    Nat.div_eq_of_lt hn, Nat.mod_eq_of_lt hn, Nat.zero_add]

theorem bits_inj {width m n : Nat} (hm : m < 2 ^ width) (hn : n < 2 ^ width)
    (h : bits width m = bits width n) : m = n := by
  induction width generalizing m n with
  | zero => omega
  | succ width ih =>
      rw [pow_succ] at hm hn
      obtain ⟨hupper, hlast⟩ := List.append_inj' h rfl
      have hhalf : m / 2 = n / 2 := ih (by omega) (by omega) hupper
      have hbit : m % 2 = 1 ↔ n % 2 = 1 := by simpa using hlast
      omega

theorem bits_zero (width : Nat) : bits width 0 = List.replicate width false := by
  induction width with
  | zero => rfl
  | succ width ih => rw [bits, Nat.zero_div, ih, List.replicate_succ']; rfl

theorem eq_zero_of_bits {width n fill : Nat} (hn : n < 2 ^ width)
    (h : bits width n = List.replicate fill false) : n = 0 := by
  obtain rfl : width = fill := by simpa using congrArg List.length h
  exact bits_inj hn (Nat.two_pow_pos width) (h.trans (bits_zero width).symm)

/-- Blocks of one length, and a rest too short to be one, can be told from what they
make up. -/
theorem flatMap_append_inj {α : Type} {f : α → List Bool} {size : Nat}
    (hsize : ∀ a, (f a).length = size) {xs ys : List α} {r s : List Bool}
    (hinj : ∀ a ∈ xs, ∀ b ∈ ys, f a = f b → a = b) (hr : r.length < size)
    (hs : s.length < size) (h : xs.flatMap f ++ r = ys.flatMap f ++ s) :
    xs = ys ∧ r = s := by
  induction xs generalizing ys with
  | nil =>
      cases ys with
      | nil => exact ⟨rfl, h⟩
      | cons b ys =>
          have hlength := congrArg List.length h
          simp [hsize] at hlength
          omega
  | cons a xs ih =>
      cases ys with
      | nil =>
          have hlength := congrArg List.length h
          simp [hsize] at hlength
          omega
      | cons b ys =>
          rw [List.flatMap_cons, List.flatMap_cons, List.append_assoc, List.append_assoc] at h
          obtain ⟨hhead, htail⟩ := List.append_inj h (by rw [hsize, hsize])
          have hab : a = b := hinj a List.mem_cons_self b List.mem_cons_self hhead
          obtain ⟨rfl, rfl⟩ := ih (fun a ha b hb => hinj a (List.mem_cons_of_mem _ ha) b
            (List.mem_cons_of_mem _ hb)) htail
          exact ⟨by rw [hab], rfl⟩

@[simp] theorem bitsOfBytes_cons (b : UInt8) (bs : List UInt8) :
    bitsOfBytes (b :: bs) = bits 8 b.toNat ++ bitsOfBytes bs := rfl

@[simp] theorem bitsOfSextets_cons (v : Nat) (vs : List Nat) :
    bitsOfSextets (v :: vs) = bits 6 v ++ bitsOfSextets vs := rfl

@[simp] theorem length_bitsOfBytes (bs : List UInt8) :
    (bitsOfBytes bs).length = 8 * bs.length := by
  simp [bitsOfBytes, List.length_flatMap, List.map_const', Nat.mul_comm]

@[simp] theorem length_bitsOfSextets (vs : List Nat) :
    (bitsOfSextets vs).length = 6 * vs.length := by
  simp [bitsOfSextets, List.length_flatMap, List.map_const', Nat.mul_comm]

theorem bitsOfSextets_map {α : Type} (f : α → Nat) (xs : List α) :
    bitsOfSextets (xs.map f) = xs.flatMap fun x => bits 6 (f x) :=
  List.flatMap_map f (bits 6) xs

/-! ## Sextets that spell bytes -/

/-- `Spells bs vs padding`: the sextets `vs` are the bits of the bytes `bs`, filled
up with zeros to whole sextets, and `padding` signs complete the last group. -/
structure Spells (bs : List UInt8) (vs : List Nat) (padding : Nat) : Prop where
  small : ∀ v ∈ vs, v < 64
  spelled : ∃ fill < 6, bitsOfSextets vs = bitsOfBytes bs ++ List.replicate fill false
  complete : (vs.length + padding) % 4 = 0
  padded : padding < 4

namespace Spells

variable {bs cs : List UInt8} {vs ws : List Nat} {padding other : Nat}

theorem length_of_spelled {fill : Nat}
    (h : bitsOfSextets vs = bitsOfBytes bs ++ List.replicate fill false) :
    6 * vs.length = 8 * bs.length + fill := by
  simpa using congrArg List.length h

/-- A group with a single symbol would hold no byte. -/
theorem padding_le_two (h : Spells bs vs padding) : padding ≤ 2 := by
  obtain ⟨fill, hfill, hbits⟩ := h.spelled
  have hlength := length_of_spelled hbits
  have hcomplete := h.complete
  have hpadded := h.padded
  omega

/-- Bytes are spelled in one way only. -/
theorem unique (h : Spells bs vs padding) (h' : Spells bs ws other) :
    vs = ws ∧ padding = other := by
  obtain ⟨fill, hfill, hbits⟩ := h.spelled
  obtain ⟨fill', hfill', hbits'⟩ := h'.spelled
  have hlength := length_of_spelled hbits
  have hlength' := length_of_spelled hbits'
  obtain rfl : fill = fill' := by omega
  have hvs : vs = ws := by
    refine (flatMap_append_inj (length_bits 6) (fun v hv w hw hsame => ?_) (r := [])
      (s := []) (by simp) (by simp) ?_).1
    · exact bits_inj (h.small v hv) (h'.small w hw) hsame
    · rw [List.append_nil, List.append_nil]
      exact hbits.trans hbits'.symm
  subst hvs
  have hcomplete := h.complete
  have hcomplete' := h'.complete
  have hpadded := h.padded
  have hpadded' := h'.padded
  exact ⟨rfl, by omega⟩

end Spells

/-! ## The form -/

def alphabet : List Char :=
  "ABCDEFGHIJKLMNOPQRSTUVWXYZabcdefghijklmnopqrstuvwxyz0123456789+/".toList

/-- `Canonical bs text`: the text is the standard form of the bytes. -/
inductive Canonical (bs : List UInt8) : List Char → Prop
  | intro {symbols : List Char} {fill padding : Nat} (hsymbols : ∀ c ∈ symbols, c ∈ alphabet)
      (hbits : (symbols.flatMap fun c => bits 6 (alphabet.idxOf c)) =
        bitsOfBytes bs ++ List.replicate fill false)
      (hfill : fill < 6) (hpadding : padding < 4)
      (hlength : (symbols.length + padding) % 4 = 0) :
      Canonical bs (symbols ++ List.replicate padding '=')

theorem alphabet_eq : alphabet = (List.range 64).map symbol := by
  decide +kernel

theorem mem_alphabet {c : Char} : c ∈ alphabet ↔ ∃ v < 64, symbol v = c := by
  simp [alphabet_eq]

theorem idxOf_symbol : ∀ v < 64, alphabet.idxOf (symbol v) = v := by
  decide +kernel

/-- Sextets that spell the bytes, written as symbols, are their standard form. -/
theorem canonical_iff {bs : List UInt8} {text : List Char} :
    Canonical bs text ↔ ∃ vs padding, Spells bs vs padding ∧
      text = vs.map symbol ++ List.replicate padding '=' := by
  constructor
  · rintro ⟨hsymbols, hbits, hfill, hpadding, hlength⟩
    rename_i symbols fill padding
    have hsymbol : ∀ c ∈ symbols, alphabet.idxOf c < 64 ∧ symbol (alphabet.idxOf c) = c := by
      intro c hc
      obtain ⟨v, hv, rfl⟩ := mem_alphabet.mp (hsymbols c hc)
      rw [idxOf_symbol v hv]
      exact ⟨hv, rfl⟩
    refine ⟨symbols.map alphabet.idxOf, padding, ⟨?_, ⟨fill, hfill, ?_⟩, ?_, hpadding⟩, ?_⟩
    · intro v hv
      obtain ⟨c, hc, rfl⟩ := List.mem_map.mp hv
      exact (hsymbol c hc).1
    · rw [bitsOfSextets_map, hbits]
    · rw [List.length_map, hlength]
    · have hsame : (symbols.map alphabet.idxOf).map symbol = symbols := by
        rw [List.map_map]
        exact (List.map_congr_left fun c hc => (hsymbol c hc).2).trans (List.map_id symbols)
      rw [hsame]
  · rintro ⟨vs, padding, h, rfl⟩
    obtain ⟨fill, hfill, hbits⟩ := h.spelled
    have hindex : (vs.map symbol).map alphabet.idxOf = vs := by
      rw [List.map_map]
      exact (List.map_congr_left fun v hv => idxOf_symbol v (h.small v hv)).trans (List.map_id vs)
    rw [← hindex, bitsOfSextets_map] at hbits
    refine .intro (fun c hc => ?_) hbits hfill h.padded ?_
    · obtain ⟨v, hv, rfl⟩ := List.mem_map.mp hc
      exact mem_alphabet.mpr ⟨v, h.small v hv, rfl⟩
    · rw [List.length_map, h.complete]

/-! ## What is encoded -/

section

variable {n : Nat}

/-- The bits of a byte, cut where sextets end in it. -/
theorem bits_byte (n : Nat) :
    bits 8 n = bits 6 (n / 4) ++ bits 2 (n % 4) ∧ bits 8 n = bits 4 (n / 16) ++ bits 4 (n % 16) ∧
      bits 8 n = bits 2 (n / 64) ++ bits 6 (n % 64) :=
  ⟨bits_add 6 2 n, bits_add 4 4 n, bits_add 2 6 n⟩

theorem bits_two_four (m : Nat) (hn : n < 16) : bits 6 (m * 16 + n) = bits 2 m ++ bits 4 n :=
  bits_mul_add 2 4 m hn

theorem bits_four_two (m : Nat) (hn : n < 4) : bits 6 (m * 4 + n) = bits 4 m ++ bits 2 n :=
  bits_mul_add 4 2 m hn

end

theorem spells_nil : Spells [] [] 0 := ⟨nofun, ⟨0, by decide, rfl⟩, rfl, by decide⟩

theorem spells_one (a : UInt8) : Spells [a] [a.toNat / 4, a.toNat % 4 * 16] 2 where
  small := by
    have ha := a.toNat_lt
    simp only [List.mem_cons, List.not_mem_nil, or_false]
    omega
  spelled := by
    have hlast := bits_two_four (n := 0) (a.toNat % 4) (by decide)
    rw [Nat.add_zero] at hlast
    refine ⟨4, by decide, ?_⟩
    rw [bitsOfSextets_cons, bitsOfSextets_cons, hlast, bitsOfBytes_cons, (bits_byte _).1]
    simp [bitsOfSextets, bitsOfBytes, bits]
  complete := by simp
  padded := by decide

theorem spells_two (a b : UInt8) :
    Spells [a, b] [a.toNat / 4, a.toNat % 4 * 16 + b.toNat / 16, b.toNat % 16 * 4] 1 where
  small := by
    have ha := a.toNat_lt
    have hb := b.toNat_lt
    simp only [List.mem_cons, List.not_mem_nil, or_false]
    omega
  spelled := by
    have hb := b.toNat_lt
    have hmiddle := bits_two_four (a.toNat % 4) (n := b.toNat / 16) (by omega)
    have hlast := bits_four_two (n := 0) (b.toNat % 16) (by decide)
    rw [Nat.add_zero] at hlast
    refine ⟨2, by decide, ?_⟩
    rw [bitsOfSextets_cons, bitsOfSextets_cons, bitsOfSextets_cons, hmiddle, hlast,
      bitsOfBytes_cons, bitsOfBytes_cons, (bits_byte a.toNat).1, (bits_byte b.toNat).2.1]
    simp [bitsOfSextets, bitsOfBytes, bits]
  complete := by simp
  padded := by decide

theorem Spells.cons_three {bs : List UInt8} {vs : List Nat} {padding : Nat}
    (h : Spells bs vs padding) (a b c : UInt8) :
    Spells (a :: b :: c :: bs)
      (a.toNat / 4 :: (a.toNat % 4 * 16 + b.toNat / 16) :: (b.toNat % 16 * 4 + c.toNat / 64)
        :: c.toNat % 64 :: vs) padding where
  small := by
    have ha := a.toNat_lt
    have hb := b.toNat_lt
    have hc := c.toNat_lt
    simp only [List.forall_mem_cons]
    exact ⟨by omega, by omega, by omega, by omega, h.small⟩
  spelled := by
    have hb := b.toNat_lt
    have hc := c.toNat_lt
    have hsecond := bits_two_four (a.toNat % 4) (n := b.toNat / 16) (by omega)
    have hthird := bits_four_two (b.toNat % 16) (n := c.toNat / 64) (by omega)
    obtain ⟨fill, hfill, hbits⟩ := h.spelled
    refine ⟨fill, hfill, ?_⟩
    rw [bitsOfSextets_cons, bitsOfSextets_cons, bitsOfSextets_cons, bitsOfSextets_cons, hsecond,
      hthird, hbits, bitsOfBytes_cons, bitsOfBytes_cons, bitsOfBytes_cons, (bits_byte a.toNat).1,
      (bits_byte b.toNat).2.1, (bits_byte c.toNat).2.2]
    simp only [List.append_assoc]
  complete := by
    have hcomplete := h.complete
    simp only [List.length_cons]
    omega
  padded := h.padded

/-- The symbols that are written spell the bytes. -/
theorem exists_spells_encode (bs : List UInt8) :
    ∃ vs padding, Spells bs vs padding ∧
      encode bs = vs.map symbol ++ List.replicate padding '=' := by
  fun_induction encode bs with
  | case1 => exact ⟨[], 0, spells_nil, rfl⟩
  | case2 a => exact ⟨_, 2, spells_one a, rfl⟩
  | case3 a b => exact ⟨_, 1, spells_two a b, rfl⟩
  | case4 a b c rest ih =>
      obtain ⟨vs, padding, h, hencode⟩ := ih
      exact ⟨_, padding, h.cons_three a b c, by rw [hencode]; rfl⟩

theorem Spells.encode_eq {bs : List UInt8} {vs : List Nat} {padding : Nat}
    (h : Spells bs vs padding) : encode bs = vs.map symbol ++ List.replicate padding '=' := by
  obtain ⟨ws, other, hencoded, hencode⟩ := exists_spells_encode bs
  obtain ⟨rfl, rfl⟩ := h.unique hencoded
  exact hencode

/-- **The standard form of bytes is their encoding.** -/
theorem canonical_iff_eq_encode {bs : List UInt8} {text : List Char} :
    Canonical bs text ↔ text = encode bs := by
  rw [canonical_iff]
  constructor
  · rintro ⟨vs, padding, h, rfl⟩
    exact h.encode_eq.symm
  · rintro rfl
    exact exists_spells_encode bs

end UnitCalc.Base64
