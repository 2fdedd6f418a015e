import UnitCalc.EvalError
import UnitCalc.Measure

/-!
# Conversion between units
-/

namespace UnitCalc

/-- An amount given in one unit, in another. Both must be registered. -/
def convertAmount (amount : Float) (source target : String) : Except EvalError Float :=
  match Measure.ofSymbol? source with
  | none => .error (.unknownUnit source)
  | some s =>
    match Measure.ofSymbol? target with
    | none => .error (.unknownUnit target)
    | some t => .ok (Measure.convert amount s t)

namespace Value

/-- The amount of a value in a unit. A number without unit counts as given in it already. -/
def measuredIn (unit : String) (v : Value) : Except EvalError Float :=
  match v with
  | integer n => .ok (Number.ofInteger n)
  | real x => .ok x
  | quantity x source => convertAmount x source unit
  | text _ | truth _ | function => .error .notConvertible

/-- A value converted to a unit. A number without unit counts as given in the standard measure. -/
def convertTo (unit : String) (v : Value) : Except EvalError Value :=
  match v with
  | integer n => (convertAmount (Number.ofInteger n) Measure.standard.symbol unit).map (quantity · unit)
  | real x => (convertAmount x Measure.standard.symbol unit).map (quantity · unit)
  | quantity x source => (convertAmount x source unit).map (quantity · unit)
  | text _ | truth _ | function => .error .notConvertible

end Value

end UnitCalc
