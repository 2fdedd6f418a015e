import UnitCalc.Proofs.Value.Results

/-!
# Registered units

Operators, conversions and builtin functions make quantities in registered units
from values whose units are registered, and never find a unit unknown.
-/

namespace UnitCalc

/-- If the value is a quantity, its unit is registered. -/
def Value.Registered : Value → Prop
  | .quantity _ symbol => Measure.isSymbol symbol = true
  | _ => True

/-- A result in which all units are registered. -/
abbrev InUnits (r : Except EvalError Value) : Prop :=
  Fits Value.Registered EvalError.UnitsKnown r

/-- The computation does not fail because a unit is unknown. -/
def UnitsFound {α : Type} (r : Except EvalError α) : Prop :=
  ∀ e, r = .error e → e.UnitsKnown

section

variable {α β : Type} {r : Except EvalError α}

theorem unitsFound_ok (a : α) : UnitsFound (.ok a : Except EvalError α) := by
  intro e he
  cases he

theorem UnitsFound.bind (hr : UnitsFound r) {f : α → Except EvalError β}
    (hf : ∀ a, UnitsFound (f a)) : UnitsFound (r >>= f) := by
  cases r with
  | ok a => exact hf a
  | error e =>
      intro e' he'
      cases he'
      exact hr e rfl

end

theorem convertAmount_of_isSymbol {source target : String}
    (hsource : Measure.isSymbol source = true) (htarget : Measure.isSymbol target = true)
    (amount : Float) : ∃ x, convertAmount amount source target = .ok x := by
  obtain ⟨s, hs⟩ := Option.isSome_iff_exists.mp hsource
  obtain ⟨t, ht⟩ := Option.isSome_iff_exists.mp htarget
  exact ⟨Measure.convert amount s t, by simp only [convertAmount, hs, ht]⟩

theorem isSymbol_standard : Measure.isSymbol Measure.standard.symbol = true := by
  decide

namespace Value

variable {v left right : Value} {unit : String}

theorem unitsFound_measuredIn (hv : v.Registered)
    (hunit : Measure.isSymbol unit = true) : UnitsFound (v.measuredIn unit) := by
  cases v with
  | integer n => exact unitsFound_ok _
  | real x => exact unitsFound_ok _
  | quantity x source =>
      obtain ⟨amount, hamount⟩ := convertAmount_of_isSymbol hv hunit x
      rw [measuredIn, hamount]
      exact unitsFound_ok amount
  | _ =>
      intro e he
      cases he
      trivial

theorem inUnits_convertTo (hv : v.Registered) (hunit : Measure.isSymbol unit = true) :
    InUnits (v.convertTo unit) := by
  have converted : ∀ {amount source}, Measure.isSymbol source = true →
      InUnits ((convertAmount amount source unit).map (quantity · unit)) := by
    intro amount source hsource
    obtain ⟨x, hx⟩ := convertAmount_of_isSymbol hsource hunit amount
    rw [hx]
    exact hunit
  cases v with
  | integer n => exact converted isSymbol_standard
  | real x => exact converted isSymbol_standard
  | quantity x source => exact converted hv
  | _ => trivial

theorem inUnits_unary (op : UnaryOp) (hv : v.Registered) : InUnits (v.unary op) := by
  unfold unary
  split
  · split <;> trivial
  · trivial
  · exact hv
  · trivial
  · trivial

theorem registered_ofNumber (x : Float) : (ofNumber x).Registered := by
  unfold ofNumber
  split <;> trivial

theorem admitsPlain_registered : AdmitsPlain Registered EvalError.UnitsKnown where
  number := registered_ofNumber
  real _ := trivial
  text _ := trivial
  truth _ := trivial
  raised h := h

theorem isSymbol_of_unit? (hv : v.Registered) (h : v.unit? = some unit) :
    Measure.isSymbol unit = true := by
  cases v with
  | quantity x symbol =>
      cases h
      exact hv
  | _ => cases h

/-- The unit in which two values are combined is registered. -/
theorem isSymbol_of_or_unit? (hl : left.Registered) (hr : right.Registered)
    (h : left.unit?.or right.unit? = some unit) : Measure.isSymbol unit = true := by
  rcases Option.or_eq_some_iff.mp h with h | ⟨-, h⟩
  · exact isSymbol_of_unit? hl h
  · exact isSymbol_of_unit? hr h

theorem inUnits_measured (op : BinaryOp) (hl : left.Registered) (hr : right.Registered) :
    InUnits (measured op left right) :=
  admitsPlain_registered.measured op (fun hunit _ => isSymbol_of_or_unit? hl hr hunit)
    (fun hunit => unitsFound_measuredIn hl (isSymbol_of_or_unit? hl hr hunit))
    fun hunit => unitsFound_measuredIn hr (isSymbol_of_or_unit? hl hr hunit)

theorem unitsFound_standing (hl : left.Registered) (hr : right.Registered) :
    UnitsFound (standing left right) := by
  have measured : ∀ {unit}, Measure.isSymbol unit = true →
      UnitsFound (do
        let a ← left.measuredIn unit
        let b ← right.measuredIn unit
        return Standing.comparable (Number.order? a b)) := by
    intro unit hunit
    refine (unitsFound_measuredIn hl hunit).bind fun a => ?_
    exact (unitsFound_measuredIn hr hunit).bind fun b => unitsFound_ok _
  cases left with
  | quantity =>
      cases right with
      | integer | real | quantity => exact measured hl
      | _ => exact unitsFound_ok _
  | integer | real =>
      cases right with
      | quantity => exact measured hr
      | _ => exact unitsFound_ok _
  | _ => cases right <;> exact unitsFound_ok _

theorem inUnits_binary (op : BinaryOp) (hl : left.Registered) (hr : right.Registered) :
    InUnits (left.binary op right) :=
  admitsPlain_registered.binary op (unitsFound_standing hl hr) (inUnits_measured op hl hr)

end Value

theorem Builtin.inUnits_apply (b : Builtin) (vs : List Value) : InUnits (b.apply vs) :=
  Value.admitsPlain_registered.apply (fun _ _ => trivial) vs

end UnitCalc
