import UnitCalc.Builtin
import UnitCalc.Proofs.Base64.Canonical

/-!
# Decoding accepts the canonical form alone

The decoder reads a text symbol by symbol and looks at its last group on its own.
What it accepts are the symbols of sextets that spell the bytes it gives back, with
the padding that completes them (`decode_eq_ok_iff`): nothing but what encoding
those bytes writes. On top of that lie texts and their UTF-8 bytes, which determine
each other, so the two builtin functions are inverse to each other.
-/

namespace UnitCalc.Base64

variable {bs out : List UInt8} {vs : List Nat} {g : LastGroup} {start index : Nat}

/-! ## Computations that end with a result -/

section

variable {ε α β : Type} {r : Except ε α} {b : β}

theorem map_eq_ok {f : α → β} : r.map f = .ok b ↔ ∃ a, r = .ok a ∧ f a = b := by
  cases r <;> simp [Except.map]

theorem bind_eq_ok {f : α → Except ε β} : (r >>= f) = .ok b ↔ ∃ a, r = .ok a ∧ f a = .ok b := by
  cases r <;> simp [bind, Except.bind]

/-- A check that failed would have ended the computation. -/
theorem check_eq_ok {p : Prop} [Decidable p] {e : ε} {k : Unit → Except ε β} :
    (if p then throw e >>= k else k ()) = .ok b ↔ ¬ p ∧ k () = .ok b := by
  split
  · next h => exact ⟨nofun, fun hb => absurd h hb.1⟩
  · next h => exact ⟨fun hb => ⟨h, hb⟩, And.right⟩

end

/-! ## Symbols -/

/-- The byte of a symbol. -/
def symbolByte (v : Nat) : UInt8 := UInt8.ofNat (symbol v).toNat

theorem sextet?_symbolByte : ∀ v < 64, sextet? (symbolByte v) = some v := by
  decide +kernel

theorem symbolByte_ne_padByte : ∀ v < 64, symbolByte v ≠ padByte := by
  decide +kernel

theorem symbolByte_of_sextet? {b : UInt8} {v : Nat} (h : sextet? b = some v) :
    v < 64 ∧ symbolByte v = b := by
  have hall : ∀ n < 256, ∀ v ∈ sextet? (UInt8.ofNat n), v < 64 ∧ symbolByte v = UInt8.ofNat n := by
    decide +kernel
  rw [← UInt8.ofNat_toNat (x := b)] at h ⊢
  exact hall b.toNat b.toNat_lt v h

theorem readSymbols_eq_ok {offset : Nat} :
    readSymbols offset bs = .ok vs ↔ (∀ v ∈ vs, v < 64) ∧ bs = vs.map symbolByte := by
  induction bs generalizing offset vs with
  | nil =>
      rw [readSymbols]
      constructor
      · rintro ⟨⟩
        exact ⟨nofun, rfl⟩
      · rintro ⟨-, h⟩
        rw [List.map_eq_nil_iff.mp h.symm]
  | cons b bs ih =>
      rw [readSymbols]
      constructor
      · intro h
        split at h
        · cases h
        · next v hv =>
            obtain ⟨vs, hread, rfl⟩ := map_eq_ok.mp h
            obtain ⟨hsmall, rfl⟩ := symbolByte_of_sextet? hv
            obtain ⟨hrest, rfl⟩ := ih.mp hread
            exact ⟨List.forall_mem_cons.mpr ⟨hsmall, hrest⟩, rfl⟩
      · rintro ⟨hsmall, h⟩
        obtain ⟨v, vs, rfl, rfl, rfl⟩ := List.map_eq_cons_iff.mp h.symm
        obtain ⟨hv, hrest⟩ := List.forall_mem_cons.mp hsmall
        rw [sextet?_symbolByte v hv]
        exact map_eq_ok.mpr ⟨vs, ih.mpr ⟨hrest, rfl⟩, rfl⟩

/-! ## The last group -/

theorem of_readLast (h : readLast start index bs = .ok g) :
    (∀ v ∈ g.sextets, v < 64) ∧
      bs = g.sextets.map symbolByte ++ List.replicate g.padding padByte := by
  induction bs generalizing index g with
  | nil =>
      cases h
      exact ⟨nofun, rfl⟩
  | cons b bs ih =>
      rw [readLast] at h
      split at h
      · next hb =>
          split at h
          · next hpads =>
              cases h
              have hbs : bs = List.replicate bs.length padByte := by
                refine List.eq_replicate_iff.mpr ⟨rfl, fun c hc => ?_⟩
                simpa using List.all_eq_true.mp hpads.2 c hc
              refine ⟨nofun, ?_⟩
              rw [hb, List.map_nil, List.nil_append, List.replicate_succ, ← hbs]
          · cases h
      · split at h
        · cases h
        · next v hv =>
            obtain ⟨g, hread, rfl⟩ := map_eq_ok.mp h
            obtain ⟨hsmall, rfl⟩ := symbolByte_of_sextet? hv
            obtain ⟨hrest, hbs⟩ := ih hread
            refine ⟨List.forall_mem_cons.mpr ⟨hsmall, hrest⟩, ?_⟩
            rw [hbs]
            rfl

theorem readLast_symbols {padding : Nat} (hsmall : ∀ v ∈ vs, v < 64)
    (h : 2 ≤ index + vs.length) :
    readLast start index (vs.map symbolByte ++ List.replicate padding padByte) =
      .ok ⟨vs, padding⟩ := by
  induction vs generalizing index with
  | nil =>
      cases padding with
      | zero => rfl
      | succ padding =>
          have hpads : 2 ≤ index ∧
              (List.replicate padding padByte).all (fun b => decide (b = padByte)) = true := by
            simpa using h
          rw [List.map_nil, List.nil_append, List.replicate_succ, readLast, if_pos rfl,
            if_pos hpads, List.length_replicate]
  | cons v vs ih =>
      obtain ⟨hv, hrest⟩ := List.forall_mem_cons.mp hsmall
      rw [List.length_cons] at h
      rw [List.map_cons, List.cons_append, readLast, if_neg (symbolByte_ne_padByte v hv),
        sextet?_symbolByte v hv, ih hrest (by omega)]
      rfl

/-! ## The bytes of sextets -/

section

variable {a b c d : Nat}

theorem toNat_ofNat_byte {n : Nat} (hn : n < 256) : (UInt8.ofNat n).toNat = n := by
  rw [UInt8.toNat_ofNat', Nat.mod_eq_of_lt hn]

/-- The bits of a sextet, cut where bytes end in it. -/
theorem bits_sextet (n : Nat) :
    bits 6 n = bits 2 (n / 16) ++ bits 4 (n % 16) ∧ bits 6 n = bits 4 (n / 4) ++ bits 2 (n % 4) :=
  ⟨bits_add 2 4 n, bits_add 4 2 n⟩

theorem bits_first_byte (ha : a < 64) (hb : b < 64) :
    bits 8 (UInt8.ofNat (a * 4 + b / 16)).toNat = bits 6 a ++ bits 2 (b / 16) := by
  rw [toNat_ofNat_byte (by omega)]
  exact bits_mul_add 6 2 a (by omega)

theorem bits_second_byte (b : Nat) (hc : c < 64) :
    bits 8 (UInt8.ofNat (b % 16 * 16 + c / 4)).toNat = bits 4 (b % 16) ++ bits 4 (c / 4) := by
  rw [toNat_ofNat_byte (by omega)]
  exact bits_mul_add 4 4 (b % 16) (by omega)

theorem bits_third_byte (c : Nat) (hd : d < 64) :
    bits 8 (UInt8.ofNat (c % 4 * 64 + d)).toNat = bits 2 (c % 4) ++ bits 6 d := by
  rw [toNat_ofNat_byte (by omega)]
  exact bits_mul_add 2 6 (c % 4) (by omega)

/-- Four sextets in front are three bytes in front. -/
theorem bitsOfSextets_four {tail : List Bool} (ha : a < 64) (hb : b < 64) (hc : c < 64)
    (hd : d < 64) (h : bitsOfSextets vs = bitsOfBytes (packed vs) ++ tail) :
    bitsOfSextets (a :: b :: c :: d :: vs) =
      bitsOfBytes (packed (a :: b :: c :: d :: vs)) ++ tail := by
  rw [packed, bitsOfBytes_cons, bitsOfBytes_cons, bitsOfBytes_cons, bits_first_byte ha hb,
    bits_second_byte b hc, bits_third_byte c hd, bitsOfSextets_cons, bitsOfSextets_cons,
    bitsOfSextets_cons, bitsOfSextets_cons, h, (bits_sextet b).1, (bits_sextet c).2]
  simp only [List.append_assoc]

end

/-- Whole groups in front of sextets are whole bytes in front of theirs. -/
theorem bitsOfSextets_append {first last : List Nat} {tail : List Bool}
    (hsmall : ∀ v ∈ first, v < 64) (hgroups : first.length % 4 = 0)
    (h : bitsOfSextets last = bitsOfBytes (packed last) ++ tail) :
    bitsOfSextets (first ++ last) = bitsOfBytes (packed (first ++ last)) ++ tail := by
  fun_induction packed first with
  | case1 a b c d rest ih =>
      simp only [List.forall_mem_cons] at hsmall
      obtain ⟨ha, hb, hc, hd, hrest⟩ := hsmall
      exact bitsOfSextets_four ha hb hc hd (ih hrest (by simp at hgroups; omega))
  | case2 => simp at hgroups
  | case3 => simp at hgroups
  | case4 first hfour hthree htwo =>
      rcases first with _ | ⟨a, _ | ⟨b, _ | ⟨c, _ | ⟨d, rest⟩⟩⟩⟩
      · exact h
      · simp at hgroups
      · exact absurd rfl (htwo a b)
      · exact absurd rfl (hthree a b c)
      · exact absurd rfl (hfour a b c d rest)

/-- The bits of the last group that make no whole byte are spare. -/
theorem bitsOfSextets_last (hsmall : ∀ v ∈ vs, v < 64) (htwo : 2 ≤ vs.length)
    (hfour : vs.length ≤ 4) :
    bitsOfSextets vs = bitsOfBytes (packed vs) ++ bits (2 * (4 - vs.length)) (spareBits vs) := by
  rcases vs with _ | ⟨a, _ | ⟨b, _ | ⟨c, _ | ⟨d, _ | ⟨e, vs⟩⟩⟩⟩⟩
  · cases htwo
  · simp at htwo
  · simp only [List.forall_mem_cons] at hsmall
    obtain ⟨ha, hb, -⟩ := hsmall
    rw [packed, spareBits, bitsOfBytes_cons, bits_first_byte ha hb]
    simp [bitsOfSextets, bitsOfBytes, (bits_sextet b).1]
  · simp only [List.forall_mem_cons] at hsmall
    obtain ⟨ha, hb, hc, -⟩ := hsmall
    rw [packed, spareBits, bitsOfBytes_cons, bitsOfBytes_cons, bits_first_byte ha hb,
      bits_second_byte b hc]
    simp [bitsOfSextets, bitsOfBytes, (bits_sextet b).1, (bits_sextet c).2]
  · simp only [List.forall_mem_cons] at hsmall
    obtain ⟨ha, hb, hc, hd, -⟩ := hsmall
    exact bitsOfSextets_four ha hb hc hd rfl
  · simp only [List.length_cons] at hfour
    omega

theorem spareBits_lt (vs : List Nat) : spareBits vs < 2 ^ (2 * (4 - vs.length)) := by
  unfold spareBits
  split
  · simp; omega
  · simp; omega
  · exact Nat.two_pow_pos _

/-- Sextets spell the bytes they are packed into exactly if nothing is spare. -/
theorem spells_iff {first last : List Nat} {padding : Nat}
    (hfirst : ∀ v ∈ first, v < 64) (hlast : ∀ v ∈ last, v < 64)
    (hgroups : first.length % 4 = 0) (htwo : 2 ≤ last.length)
    (hpadding : last.length + padding = 4) :
    Spells out (first ++ last) padding ↔ spareBits last = 0 ∧ packed (first ++ last) = out := by
  have hbits := bitsOfSextets_append hfirst hgroups
    (bitsOfSextets_last hlast htwo (by omega))
  constructor
  · intro h
    obtain ⟨fill, hfill, hspelled⟩ := h.spelled
    obtain ⟨hbytes, hspare⟩ := flatMap_append_inj (fun b : UInt8 => length_bits 8 b.toNat)
      (fun a _ b _ hsame => UInt8.toNat_inj.mp (bits_inj a.toNat_lt b.toNat_lt hsame))
      (by simp; omega) (by simp; omega) (hbits.symm.trans hspelled)
    exact ⟨eq_zero_of_bits (spareBits_lt last) hspare, hbytes⟩
  · rintro ⟨hspare, rfl⟩
    refine ⟨?_, ⟨2 * (4 - last.length), by omega, ?_⟩, ?_, by omega⟩
    · exact List.forall_mem_append.mpr ⟨hfirst, hlast⟩
    · rw [hbits, hspare, bits_zero]
    · rw [List.length_append]
      omega

/-! ## The decoder -/

/-- What the decoder asks for, one check after the other. -/
theorem decode_eq_ok : decode bs = .ok out ↔
    strayByte? bs = none ∧ ∃ vs g,
      readSymbols 0 (bs.take (bs.length - lastLength bs.length)) = .ok vs ∧
      readLast (bs.length - lastLength bs.length) 0
        (bs.drop (bs.length - lastLength bs.length)) = .ok g ∧
      ¬ (bs ≠ [] ∧ g.sextets.length < 2) ∧ (g.sextets.length + g.padding) % 4 = 0 ∧
      spareBits g.sextets = 0 ∧ packed (vs ++ g.sextets) = out := by
  unfold decode
  cases strayByte? bs with
  | some b => exact ⟨nofun, nofun⟩
  | none =>
      simp only [bind_eq_ok, check_eq_ok, ne_eq, not_not, pure, Except.pure, Except.ok.injEq,
        true_and, exists_and_left]

theorem lastLength_le (n : Nat) : lastLength n ≤ n := by
  unfold lastLength
  split
  · exact Nat.min_le_left n 4
  · exact Nat.mod_le n 4

theorem lastLength_eq_four {n : Nat} (hn : n % 4 = 0) (hpos : n ≠ 0) : lastLength n = 4 := by
  rw [lastLength, if_pos hn]
  omega

theorem mod_four_of_lastLength {n : Nat} (h : lastLength n % 4 = 0) : n % 4 = 0 := by
  unfold lastLength at h
  split at h <;> omega

theorem spells_of_decode (h : decode bs = .ok out) :
    ∃ vs padding, Spells out vs padding ∧
      bs = vs.map symbolByte ++ List.replicate padding padByte := by
  by_cases hbs : bs = []
  · subst hbs
    cases h
    exact ⟨[], 0, spells_nil, rfl⟩
  obtain ⟨-, vs, g, hsymbols, hlast, hcount, hcomplete, hspare, hout⟩ := decode_eq_ok.mp h
  obtain ⟨hvs, htake⟩ := readSymbols_eq_ok.mp hsymbols
  obtain ⟨hg, hdrop⟩ := of_readLast hlast
  have htaken := congrArg List.length htake
  have hdropped := congrArg List.length hdrop
  simp only [List.length_take, List.length_drop, List.length_map, List.length_append,
    List.length_replicate] at htaken hdropped
  -- the last group is complete, so the text is made of whole groups
  have hle := lastLength_le bs.length
  have hwhole : bs.length % 4 = 0 := mod_four_of_lastLength (by omega)
  have hfour := lastLength_eq_four hwhole (List.length_eq_zero_iff.not.mpr hbs)
  have htwo : 2 ≤ g.sextets.length := Nat.not_lt.mp fun hlt => hcount ⟨hbs, hlt⟩
  refine ⟨vs ++ g.sextets, g.padding, ?_, ?_⟩
  · exact (spells_iff hvs hg (by omega) htwo (by omega)).mpr ⟨hspare, hout⟩
  · rw [List.map_append, List.append_assoc, ← htake, ← hdrop, List.take_append_drop]

theorem decode_of_spells {padding : Nat} (h : Spells out vs padding) :
    decode (vs.map symbolByte ++ List.replicate padding padByte) = .ok out := by
  have hpadding := h.padding_le_two
  have hcomplete := h.complete
  by_cases hvs : vs = []
  · subst hvs
    obtain rfl : padding = 0 := by simp at hcomplete; omega
    obtain ⟨fill, hfill, hbits⟩ := h.spelled
    have hlength := Spells.length_of_spelled hbits
    rw [List.length_nil] at hlength
    obtain rfl : out = [] := List.length_eq_zero_iff.mp (by omega)
    rfl
  -- all symbols but those of the last group
  obtain ⟨first, last, rfl, hlast⟩ : ∃ first last, vs = first ++ last ∧ last.length + padding = 4 := by
    have hpos := List.length_eq_zero_iff.not.mpr hvs
    refine ⟨vs.take (vs.length + padding - 4), vs.drop (vs.length + padding - 4),
      (List.take_append_drop _ vs).symm, ?_⟩
    rw [List.length_drop]
    omega
  obtain ⟨hfirstSmall, hlastSmall⟩ := List.forall_mem_append.mp h.small
  rw [List.length_append] at hcomplete
  obtain ⟨hspare, hout⟩ :=
    (spells_iff hfirstSmall hlastSmall (by omega) (by omega) hlast).mp h
  rw [List.map_append, List.append_assoc]
  have hlength : (first.map symbolByte ++ (last.map symbolByte ++
      List.replicate padding padByte)).length = first.length + 4 := by
    simp [hlast]
  have hstart : first.length + 4 - lastLength (first.length + 4) = (first.map symbolByte).length := by
    rw [lastLength_eq_four (by omega) (by omega), List.length_map, Nat.add_sub_cancel]
  refine decode_eq_ok.mpr ⟨?_, first, ⟨last, padding⟩, ?_, ?_, ?_, ?_, hspare, hout⟩
  · rw [strayByte?, if_neg (by omega)]
  · rw [hlength, hstart, List.take_left]
    exact readSymbols_eq_ok.mpr ⟨hfirstSmall, rfl⟩
  · rw [hlength, hstart, List.drop_left]
    exact readLast_symbols hlastSmall (by omega)
  · rintro ⟨-, hfew⟩
    dsimp only at hfew
    omega
  · exact congrArg (· % 4) hlast

/-- **The decoder accepts the sextets that spell its result, and no other text.** -/
theorem decode_eq_ok_iff : decode bs = .ok out ↔
    ∃ vs padding, Spells out vs padding ∧
      bs = vs.map symbolByte ++ List.replicate padding padByte := by
  constructor
  · exact spells_of_decode
  · rintro ⟨vs, padding, h, rfl⟩
    exact decode_of_spells h

end UnitCalc.Base64

namespace UnitCalc

/-! ## Texts -/

namespace Text

theorem bytes_inj {s t : String} (h : bytes s = bytes t) : s = t := by
  have hread := ofBytes?_bytes s
  rw [h, ofBytes?_bytes] at hread
  exact (Option.some.inj hread).symm

theorem ofBytes?_eq_some {bs : List UInt8} {s : String} : ofBytes? bs = some s ↔ bytes s = bs := by
  constructor
  · exact bytes_of_ofBytes?
  · rintro rfl
    exact ofBytes?_bytes s

/-- A character of one byte is that byte. -/
theorem bytes_ofList_ascii {cs : List Char} (h : ∀ c ∈ cs, c.toNat < 128) :
    bytes (String.ofList cs) = cs.map fun c => UInt8.ofNat c.toNat := by
  have hflat : bytes (String.ofList cs) = cs.flatMap String.utf8EncodeChar := by
    simp [bytes, List.utf8Encode]
  have hchar : ∀ c ∈ cs, String.utf8EncodeChar c = [UInt8.ofNat c.toNat] := by
    intro c hc
    exact if_pos (Nat.le_of_lt_succ (h c hc))
  rw [hflat, List.map_eq_flatMap, List.flatMap_def, List.map_congr_left hchar, ← List.flatMap_def]

end Text

namespace Base64

theorem toNat_symbol_lt : ∀ v < 64, (symbol v).toNat < 128 := by
  decide +kernel

theorem bytes_eq_symbols {vs : List Nat} {padding : Nat} (hsmall : ∀ v ∈ vs, v < 64)
    (t : String) :
    Text.bytes t = vs.map symbolByte ++ List.replicate padding padByte ↔
      t.toList = vs.map symbol ++ List.replicate padding '=' := by
  have hascii : ∀ c ∈ vs.map symbol ++ List.replicate padding '=', c.toNat < 128 := by
    intro c hc
    rcases List.mem_append.mp hc with hc | hc
    · obtain ⟨v, hv, rfl⟩ := List.mem_map.mp hc
      exact toNat_symbol_lt v (hsmall v hv)
    · rw [List.eq_of_mem_replicate hc]
      decide
  have hbytes : Text.bytes (String.ofList (vs.map symbol ++ List.replicate padding '=')) =
      vs.map symbolByte ++ List.replicate padding padByte := by
    rw [Text.bytes_ofList_ascii hascii, List.map_append, List.map_map, List.map_replicate]
    rfl
  rw [← hbytes]
  constructor
  · intro h
    rw [Text.bytes_inj h, String.toList_ofList]
  · intro h
    rw [← h, String.ofList_toList]

end Base64

namespace Builtin

open Base64 (Canonical)

theorem decodeText_eq_ok {s t : String} :
    decodeText t = .ok s ↔ Canonical (Text.bytes s) t.toList := by
  have hdecode : decodeText t = .ok s ↔ Base64.decode (Text.bytes t) = .ok (Text.bytes s) := by
    unfold decodeText
    cases Base64.decode (Text.bytes t) with
    | error fault => exact ⟨nofun, nofun⟩
    | ok bs =>
        rw [Except.ok.injEq, eq_comm (a := bs), ← Text.ofBytes?_eq_some]
        cases hread : Text.ofBytes? bs <;> simp [hread]
  rw [hdecode, Base64.decode_eq_ok_iff, Base64.canonical_iff]
  constructor
  · rintro ⟨vs, padding, h, hbytes⟩
    exact ⟨vs, padding, h, (Base64.bytes_eq_symbols h.small t).mp hbytes⟩
  · rintro ⟨vs, padding, h, htext⟩
    exact ⟨vs, padding, h, (Base64.bytes_eq_symbols h.small t).mpr htext⟩

theorem decodeText_eq_error {t : String} {e : EvalError} (h : decodeText t = .error e) :
    ∃ fault, e = .argument "b64Decode" fault := by
  unfold decodeText at h
  split at h
  · cases h
    exact ⟨_, rfl⟩
  · split at h
    · cases h
    · cases h
      exact ⟨_, rfl⟩

theorem apply_decodeBase64 (t : String) :
    decodeBase64.apply [.text t] = (decodeText t).map .text := by
  show (decodeText t >>= fun s => pure (Value.text s)) = _
  cases decodeText t <;> rfl

theorem apply_encodeBase64_eq_ok {s t : String} :
    encodeBase64.apply [.text s] = .ok (.text t) ↔ Canonical (Text.bytes s) t.toList := by
  have hencode : encodeBase64.apply [.text s] =
      .ok (.text (String.ofList (Base64.encode (Text.bytes s)))) := rfl
  rw [hencode, Base64.canonical_iff_eq_encode]
  constructor
  · intro h
    cases h
    rw [String.toList_ofList]
  · intro h
    rw [← h, String.ofList_toList]

theorem apply_decodeBase64_eq_ok {s t : String} :
    decodeBase64.apply [.text t] = .ok (.text s) ↔ Canonical (Text.bytes s) t.toList := by
  rw [apply_decodeBase64, Base64.map_eq_ok, ← decodeText_eq_ok]
  constructor
  · rintro ⟨other, h, hsame⟩
    cases hsame
    exact h
  · exact fun h => ⟨s, h, rfl⟩

/-- **Encoding and decoding texts are inverse to each other.** A text decodes to
another exactly if that one's encoding is the text, which is its standard form; every
text has an encoding, and what is no encoding is refused as an argument. -/
theorem decodeBase64_inverse_encodeBase64 (s t : String) :
    (decodeBase64.apply [.text t] = .ok (.text s) ↔
        encodeBase64.apply [.text s] = .ok (.text t)) ∧
      (encodeBase64.apply [.text s] = .ok (.text t) ↔ Canonical (Text.bytes s) t.toList) ∧
      (∃ code, encodeBase64.apply [.text s] = .ok (.text code) ∧
        decodeBase64.apply [.text code] = .ok (.text s)) ∧
      ((∃ fault, decodeBase64.apply [.text t] = .error (.argument "b64Decode" fault)) ↔
        ∀ other, encodeBase64.apply [.text other] ≠ .ok (.text t)) := by
  have hinverse : ∀ s t, decodeBase64.apply [.text t] = .ok (.text s) ↔
      encodeBase64.apply [.text s] = .ok (.text t) := by
    intro s t
    rw [apply_decodeBase64_eq_ok, apply_encodeBase64_eq_ok]
  refine ⟨hinverse s t, apply_encodeBase64_eq_ok, ⟨_, rfl, (hinverse s _).mpr rfl⟩, ?_⟩
  constructor
  · rintro ⟨fault, hfault⟩ other hother
    rw [(hinverse other t).mpr hother] at hfault
    cases hfault
  · intro hnone
    cases hdecode : decodeText t with
    | ok other =>
        refine absurd ((hinverse other t).mp ?_) (hnone other)
        rw [apply_decodeBase64, hdecode]
        rfl
    | error e =>
        obtain ⟨fault, rfl⟩ := decodeText_eq_error hdecode
        refine ⟨fault, ?_⟩
        rw [apply_decodeBase64, hdecode]
        rfl

end Builtin

end UnitCalc
