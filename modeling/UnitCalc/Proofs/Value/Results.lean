import UnitCalc.Proofs.Evaluation.Discipline

/-!
# Results of operators and builtin functions

To show that all results of operators are of some kind it is enough to look at
numbers without unit, texts and truth values, and at the quantities that are made.
-/

namespace UnitCalc

/-- Results without a unit are as asked for, and so are all errors but that a unit
is unknown. -/
structure AdmitsPlain (value : Value → Prop) (error : EvalError → Prop) : Prop where
  number : ∀ x, value (.ofNumber x)
  real : ∀ x, value (.real x)
  text : ∀ s, value (.text s)
  truth : ∀ b, value (.truth b)
  raised : ∀ {e : EvalError}, e.UnitsKnown → error e

variable {value : Value → Prop} {error : EvalError → Prop}

theorem fits_bind {α : Type} {r : Except EvalError α} {f : α → Except EvalError Value}
    (hr : ∀ e, r = .error e → error e) (hf : ∀ a, Fits value error (f a)) :
    Fits value error (r >>= f) := by
  cases r with
  | ok a => exact hf a
  | error e => exact hr e rfl

theorem fits_map {α : Type} {r : Except EvalError α} {f : α → Value}
    (hr : ∀ e, r = .error e → error e) (hf : ∀ a, value (f a)) :
    Fits value error (r.map f) := by
  cases r with
  | ok a => exact hf a
  | error e => exact hr e rfl

namespace AdmitsPlain

variable (h : AdmitsPlain value error) (op : BinaryOp) {left right : Value}
include h

/-! ## Operators -/

theorem scalar (left right : Value) : Fits value error (Value.scalar op left right) := by
  unfold Value.scalar
  split
  · split
    · exact h.number _
    · exact h.number _
    · exact h.number _
    · split
      · exact h.raised trivial
      · exact h.real _
    · exact h.raised trivial
  · exact h.raised trivial

theorem measured
    (hquantity : ∀ {unit}, left.unit?.or right.unit? = some unit → ∀ x, value (.quantity x unit))
    (hleft : ∀ {unit}, left.unit?.or right.unit? = some unit →
      ∀ e, left.measuredIn unit = .error e → error e)
    (hright : ∀ {unit}, left.unit?.or right.unit? = some unit →
      ∀ e, right.measuredIn unit = .error e → error e) :
    Fits value error (Value.measured op left right) := by
  unfold Value.measured
  split
  · exact h.scalar op left right
  · next unit hunit =>
      -- the result is in the unit that both sides were measured in
      refine fits_bind (hleft hunit) fun a => fits_bind (hright hunit) fun b => ?_
      cases op with
      | add | sub | mul => exact hquantity hunit _
      | div =>
          show Fits value error
            (if b == 0 then .error .divisionByZero else .ok (.quantity (a / b) unit))
          split
          · exact h.raised trivial
          · exact hquantity hunit _
      | _ => exact h.raised trivial

theorem textual (left right : Value) : Fits value error (Value.textual op left right) := by
  have repeating : ∀ s count, Fits value error (Value.textual.repeating op left right s count) := by
    intro s count
    unfold Value.textual.repeating
    split
    · exact h.text _
    · exact h.raised trivial
  unfold Value.textual
  split
  case h_8 | h_9 => exact repeating _ _
  case h_10 => exact h.raised trivial
  all_goals exact h.text _

theorem arithmetic (hmeasured : Fits value error (Value.measured op left right)) :
    Fits value error (Value.arithmetic op left right) := by
  unfold Value.arithmetic
  split
  · exact h.raised trivial
  · split
    case h_1 | h_2 | h_3 | h_4 => exact h.scalar op left right
    case h_5 | h_6 | h_7 | h_8 | h_9 => exact hmeasured
    case h_10 | h_11 => exact h.textual op left right
    case h_12 => exact h.raised trivial

theorem binary (hstanding : ∀ e, Value.standing left right = .error e → error e)
    (hmeasured : Fits value error (Value.measured op left right)) :
    Fits value error (left.binary op right) := by
  unfold Value.binary
  split
  · next hop =>
      refine fits_bind hstanding fun s => ?_
      cases s with
      | comparable order =>
          show Fits value error (if op.compares then _ else _)
          rw [if_pos hop]
          exact h.truth _
      | incomparable =>
          cases op with
          | equal | notEqual => exact h.truth _
          | _ => exact h.raised trivial
  · exact h.arithmetic op hmeasured

/-! ## Builtin functions -/

/-- Of the builtin functions only `length` makes integers. -/
theorem apply {b : Builtin} (hlength : b = .length → ∀ n, value (.integer n))
    (vs : List Value) : Fits value error (b.apply vs) := by
  have hnumber : ∀ v e, b.numberArgument v = .error e → error e := by
    intro v e he
    unfold Builtin.numberArgument at he
    split at he
    · cases he
    · cases he
      exact h.raised trivial
  have htext : ∀ v e, b.textArgument v = .error e → error e := by
    intro v e he
    cases v with
    | text s => cases he
    | _ =>
        cases he
        exact h.raised trivial
  unfold Builtin.apply
  split
  · next v =>
      cases b with
      | sin | cos => exact fits_map (hnumber v) fun x => h.real _
      | length => exact fits_map (htext v) fun s => hlength rfl _
      | encodeBase64 => exact fits_map (htext v) fun s => h.text _
      | decodeBase64 =>
          refine fits_bind (htext v) fun s => fits_bind (fun e he => ?_) fun t => h.text t
          unfold Builtin.decodeText at he
          split at he
          · cases he
            exact h.raised trivial
          · split at he
            · cases he
            · cases he
              exact h.raised trivial
      | type => exact h.text _
  · exact h.raised trivial

end AdmitsPlain

end UnitCalc
