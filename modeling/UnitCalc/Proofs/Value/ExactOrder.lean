import Mathlib
import UnitCalc.Proofs.Number.Nearest
import UnitCalc.Proofs.Text.ByteOrder
import UnitCalc.Value.Comparison

/-!
# Comparisons follow one order

Two integers are compared as integers, but an integer and a real as binary64 numbers.
Whichever way is taken, the comparison is that of the exact numbers, so the operators
agree with each other over all numbers without unit. Over texts they do as well, in the
order of the code points.
-/

namespace UnitCalc

/-! ## Operators over a linear order -/

namespace BinaryOp

variable {α : Type} [LinearOrder α] {p q r : α} {op : BinaryOp}

/-- What a comparison says of two members of a linear order. -/
def relates : BinaryOp → α → α → Bool
  | less, p, q => p < q
  | lessEqual, p, q => p ≤ q
  | greater, p, q => q < p
  | greaterEqual, p, q => q ≤ p
  | equal, p, q => p = q
  | notEqual, p, q => p ≠ q
  | add, _, _ | sub, _, _ | mul, _, _ | div, _, _ => false

/-- The comparison that asks whether two members stand in a given order. -/
def ofOrdering : Ordering → BinaryOp
  | .lt => less
  | .eq => equal
  | .gt => greater

/-- The comparison that says the same with its operands swapped. -/
def mirrored : BinaryOp → BinaryOp
  | less => greater
  | lessEqual => greaterEqual
  | greater => less
  | greaterEqual => lessEqual
  | op => op

/-- The comparison that says the opposite. -/
def negated : BinaryOp → BinaryOp
  | less => greaterEqual
  | lessEqual => greater
  | greater => lessEqual
  | greaterEqual => less
  | equal => notEqual
  | notEqual => equal
  | op => op

theorem compares_mirrored (op : BinaryOp) : op.mirrored.compares = op.compares := by
  cases op <;> rfl

theorem compares_negated (op : BinaryOp) : op.negated.compares = op.compares := by
  cases op <;> rfl

theorem holds_of_compares {o : Ordering} (h : o.Compares p q) (op : BinaryOp) :
    op.holds (some o) = op.relates p q := by
  cases o with
  | lt =>
      have hlt : p < q := h
      cases op <;> simp [holds, relates, hlt, hlt.le, hlt.ne, hlt.not_ge, hlt.not_gt]
  | eq =>
      have heq : p = q := h
      cases op <;> simp [holds, relates, heq]
  | gt =>
      have hgt : q < p := h
      cases op <;> simp [holds, relates, hgt, hgt.le, hgt.ne', hgt.not_ge, hgt.not_gt]

theorem relates_mirrored (op : BinaryOp) (p q : α) : op.mirrored.relates q p = op.relates p q := by
  cases op <;> simp [mirrored, relates, eq_comm]

theorem relates_negated (hop : op.compares = true) (p q : α) :
    op.negated.relates p q = !op.relates p q := by
  cases op with
  | add | sub | mul | div => cases hop
  | _ => simp only [negated, relates, ← decide_not, not_lt, not_le, ne_eq, not_not]

theorem relates_trans (hop : op ≠ .notEqual) (hpq : op.relates p q = true)
    (hqr : op.relates q r = true) : op.relates p r = true := by
  cases op with
  | add | sub | mul | div => cases hpq
  | notEqual => exact absurd rfl hop
  | less | lessEqual | equal =>
      exact decide_eq_true ((of_decide_eq_true hpq).trans (of_decide_eq_true hqr))
  | greater | greaterEqual =>
      exact decide_eq_true ((of_decide_eq_true hqr).trans (of_decide_eq_true hpq))

theorem relates_ofOrdering {o : Ordering} : (ofOrdering o).relates p q = true ↔ o.Compares p q := by
  cases o <;> exact decide_eq_true_iff

theorem existsUnique_relates (p q : α) : ∃! o, (ofOrdering o).relates p q = true := by
  have hcompare : (compare p q).Compares p q := (compare_iff p q).mp rfl
  refine ⟨compare p q, relates_ofOrdering.mpr hcompare, fun o ho => ?_⟩
  exact (relates_ofOrdering.mp ho).inj hcompare

end BinaryOp

namespace Value

/-- On the values in `K` the comparisons are those of one total preorder: they always
have an answer, they are transitive, exactly one of `<`, `==` and `>` holds, and the
others follow from these. -/
structure TotallyOrdered (K : Value → Prop) : Prop where
  decided : ∀ {op a b}, op.compares = true → K a → K b → ∃ t, a.binary op b = .ok (.truth t)
  transitive : ∀ {op a b c}, op.compares = true → op ≠ .notEqual → K a → K b → K c →
    a.binary op b = .ok (.truth true) → b.binary op c = .ok (.truth true) →
      a.binary op c = .ok (.truth true)
  trichotomy : ∀ {a b}, K a → K b → ∃! o, a.binary (.ofOrdering o) b = .ok (.truth true)
  mirrored : ∀ {op a b}, op.compares = true → K a → K b → b.binary op.mirrored a = a.binary op b
  negated : ∀ {op a b t}, op.compares = true → K a → K b → a.binary op b = .ok (.truth t) →
    a.binary op.negated b = .ok (.truth !t)

/-- Values that are compared by what they stand for in a linear order are totally
ordered. -/
theorem totallyOrdered_of_relates {α : Type} [LinearOrder α] {standsFor : Value → α → Prop}
    {K : Value → Prop} (hK : ∀ {v}, K v → ∃ p, standsFor v p)
    (h : ∀ {op a b p q}, op.compares = true → standsFor a p → standsFor b q →
      a.binary op b = .ok (.truth (op.relates p q))) : TotallyOrdered K where
  decided := by
    intro op a b hop ha hb
    obtain ⟨p, hp⟩ := hK ha
    obtain ⟨q, hq⟩ := hK hb
    exact ⟨_, h hop hp hq⟩
  transitive := by
    intro op a b c hop hne ha hb hc hab hbc
    obtain ⟨p, hp⟩ := hK ha
    obtain ⟨q, hq⟩ := hK hb
    obtain ⟨r, hr⟩ := hK hc
    rw [h hop hp hq] at hab
    rw [h hop hq hr] at hbc
    rw [h hop hp hr, BinaryOp.relates_trans hne (by simpa using hab) (by simpa using hbc)]
  trichotomy := by
    intro a b ha hb
    obtain ⟨p, hp⟩ := hK ha
    obtain ⟨q, hq⟩ := hK hb
    have hrelates : ∀ o, a.binary (.ofOrdering o) b =
        .ok (.truth ((BinaryOp.ofOrdering o).relates p q)) := by
      intro o
      exact h (by cases o <;> rfl) hp hq
    simpa [hrelates] using BinaryOp.existsUnique_relates p q
  mirrored := by
    intro op a b hop ha hb
    obtain ⟨p, hp⟩ := hK ha
    obtain ⟨q, hq⟩ := hK hb
    rw [h (by rwa [BinaryOp.compares_mirrored]) hq hp, h hop hp hq, BinaryOp.relates_mirrored]
  negated := by
    intro op a b t hop ha hb hab
    obtain ⟨p, hp⟩ := hK ha
    obtain ⟨q, hq⟩ := hK hb
    rw [h hop hp hq] at hab
    cases hab
    rw [h (by rwa [BinaryOp.compares_negated]) hp hq, BinaryOp.relates_negated hop]

/-! ## Numbers and texts -/

variable {op : BinaryOp} {a b : Value} {p q : Extended}

/-- A number without unit and its exact value: an integer of the exact range, or a real
that is a number. -/
inductive StandsFor : Value → Extended → Prop
  | integer {n : Int64} (h : |n.toInt| ≤ 2 ^ 53 - 1) : StandsFor (.integer n) (.ofRat n.toInt)
  | real {x : Float} {p : Extended} (h : (Exact.ofFloat x).value? = some p) :
      StandsFor (.real x) p

theorem binary_of_standing {order : Option Ordering} (hop : op.compares = true)
    (h : standing a b = .ok (.comparable order)) :
    a.binary op b = .ok (.truth (op.holds order)) := by
  rw [binary, if_pos hop]
  unfold comparison
  rw [h]
  exact if_pos hop

theorem StandsFor.standing (ha : StandsFor a p) (hb : StandsFor b q) :
    ∃ o : Ordering, standing a b = .ok (.comparable (some o)) ∧ o.Compares p q := by
  have hfloats : ∀ {x y : Float}, (Exact.ofFloat x).value? = some p →
      (Exact.ofFloat y).value? = some q →
      ∃ o : Ordering, Except.ok (Standing.comparable (Number.order? x y)) =
        (.ok (.comparable (some o)) : Except EvalError Standing) ∧ o.Compares p q := by
    intro x y hx hy
    obtain ⟨o, horder, ho⟩ := Number.order?_compares hx hy
    exact ⟨o, by rw [horder], ho⟩
  cases ha with
  | integer hm =>
      have hx := Number.value?_ofInteger (Binary64.natAbs_le_exactLimit_iff.mpr hm)
      cases hb with
      | integer hn =>
          have hmono : StrictMono fun z : Int => Extended.ofRat z :=
            Extended.strictMono_ofRat.comp Int.cast_strictMono
          exact ⟨_, rfl, hmono.compares.mpr ((compare_iff _ _).mp rfl)⟩
      | real hy => exact hfloats hx hy
  | real hx =>
      cases hb with
      | integer hn =>
          exact hfloats hx (Number.value?_ofInteger (Binary64.natAbs_le_exactLimit_iff.mpr hn))
      | real hy => exact hfloats hx hy

theorem StandsFor.binary (hop : op.compares = true) (ha : StandsFor a p) (hb : StandsFor b q) :
    a.binary op b = .ok (.truth (op.relates p q)) := by
  obtain ⟨o, hstanding, ho⟩ := ha.standing hb
  rw [binary_of_standing hop hstanding, BinaryOp.holds_of_compares ho]

theorem binary_texts (hop : op.compares = true) (s t : String) :
    (text s).binary op (text t) =
      .ok (.truth (op.relates (Text.codePoints s) (Text.codePoints t))) := by
  rw [binary_of_standing hop rfl, BinaryOp.holds_of_compares (Text.compares_bytes s t)]

theorem standing_of_nan {x : Float} (hx : Exact.ofFloat x = .nan) (hab : a = .real x ∨ b = .real x)
    (ha : a.plainNumber?.isSome = true) (hb : b.plainNumber?.isSome = true) :
    standing a b = .ok (.comparable none) := by
  have hnone : ∀ {y z : Float}, Exact.ofFloat y = .nan ∨ Exact.ofFloat z = .nan →
      (.ok (.comparable (Number.order? y z)) : Except EvalError Standing) =
        .ok (.comparable none) := by
    intro y z h
    rw [Number.order?_of_nan h]
  rcases hab with rfl | rfl
  · cases b with
    | integer | real => exact hnone (.inl hx)
    | _ => cases hb
  · cases a with
    | integer | real => exact hnone (.inr hx)
    | _ => cases ha

theorem holds_none (hop : op.compares = true) : op.holds none = decide (op = .notEqual) := by
  cases op with
  | add | sub | mul | div => cases hop
  | _ => rfl

/-- **Comparisons follow the exact order.** Numbers without unit are compared by their
exact values, whether as integers or as binary64 numbers, unless one of them is no number
and all but `!=` fail; texts are compared by their code points. On either class the
operators are those of one total preorder. -/
theorem comparison_follows_order :
    (∀ {op : BinaryOp} {a b : Value} {p q : Extended}, op.compares = true → StandsFor a p →
      StandsFor b q → a.binary op b = .ok (.truth (op.relates p q))) ∧
    (∀ {op : BinaryOp} {a b : Value} {x : Float}, op.compares = true → a.plainNumber?.isSome = true →
      b.plainNumber?.isSome = true → Exact.ofFloat x = .nan → (a = .real x ∨ b = .real x) →
      a.binary op b = .ok (.truth (op = .notEqual))) ∧
    (∀ {op : BinaryOp} (s t : String), op.compares = true → (text s).binary op (text t) =
      .ok (.truth (op.relates (Text.codePoints s) (Text.codePoints t)))) ∧
    TotallyOrdered (fun v => ∃ p, StandsFor v p) ∧ TotallyOrdered (fun v => ∃ s, v = text s) := by
  refine ⟨StandsFor.binary, ?_, fun s t hop => binary_texts hop s t,
    totallyOrdered_of_relates id StandsFor.binary, ?_⟩
  · intro op a b x hop ha hb hx hab
    rw [binary_of_standing hop (standing_of_nan hx hab ha hb), holds_none hop]
  · have hpoints : ∀ {v}, (∃ s, v = text s) → ∃ points, ∃ s, v = text s ∧
        Text.codePoints s = points := by
      rintro v ⟨s, rfl⟩
      exact ⟨_, s, rfl, rfl⟩
    refine totallyOrdered_of_relates hpoints ?_
    rintro op _ _ _ _ hop ⟨s, rfl, rfl⟩ ⟨t, rfl, rfl⟩
    exact binary_texts hop s t

/-- The greatest integer of the exact range and the real number after it, a real that is
no number, and two texts whose first characters have three and four bytes. -/
theorem comparison_follows_order_past_limit :
    let n : Int64 := 9007199254740991
    let x : Float := .ofBits 0x4340000000000000
    let y : Float := .ofBits 0x7ff8000000000000
    |n.toInt| ≤ 2 ^ 53 - 1 ∧ (Exact.ofFloat x).value? = some (.ofRat (2 ^ 53)) ∧
      Exact.ofFloat y = .nan ∧ (integer n).binary .less (real x) = .ok (.truth true) ∧
      (real y).binary .lessEqual (integer n) = .ok (.truth false) ∧
      (text "\uffe6").binary .less (text "𐀀") = .ok (.truth true) := by
  intro n x y
  have value : n.toInt = 9007199254740991 := rfl
  have range : |n.toInt| ≤ 2 ^ 53 - 1 := by norm_num [value]
  have next : (Exact.ofFloat x).value? = some (.ofRat (2 ^ 53)) := by
    have parts : Exact.ofFloat x = .finite false (2 ^ 52) 1 := by decide +kernel
    rw [parts, Exact.value?]
    norm_num
  have none : Exact.ofFloat y = .nan := by decide +kernel
  refine ⟨range, next, none, ?_, ?_, ?_⟩
  · rw [comparison_follows_order.1 rfl (.integer range) (.real next)]
    have less : (n.toInt : ℚ) < 2 ^ 53 := by norm_num [value]
    rw [BinaryOp.relates, decide_eq_true (Extended.strictMono_ofRat less)]
  · exact comparison_follows_order.2.1 rfl rfl rfl none (.inl rfl)
  · rw [comparison_follows_order.2.2.1 _ _ rfl]
    decide

end Value

end UnitCalc
