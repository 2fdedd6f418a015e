import UnitCalc.Number.Exact

/-!
# The shortest decimal that reads back

Among the decimals that round to a binary64 number, the one on the coarsest decimal grid is chosen; of
two on that grid the nearer, and of two equally near the upper. The search walks the grids from coarse
to fine and ends at the latest on the grid that holds the number itself.
-/

namespace UnitCalc

/-- The number `digits · 10 ^ exponent`. -/
structure Decimal where
  digits : Nat
  exponent : Int
deriving DecidableEq

namespace Decimal

/-- How many digits stand after the point. -/
def places (d : Decimal) : Nat := (-d.exponent).toNat

/-- The digits before the point, as a number. -/
def whole (d : Decimal) : Nat := d.digits * Nat.pow 10 d.exponent.toNat / Nat.pow 10 d.places

/-- The digits after the point; none when the decimal is on a grid of whole numbers. -/
def fraction (d : Decimal) : List Char :=
  if d.places = 0 then []
  else (Nat.toDigits 10 (d.digits % Nat.pow 10 d.places)).leftpad d.places '0'

end Decimal

/-- The reals that round to one positive binary64 number `middle · 2 ^ scale`: those between `lower` and
`upper`, measured in the same unit, with the ends when `closed`. -/
structure Neighbourhood where
  lower : Nat
  middle : Nat
  upper : Nat
  closed : Bool
  scale : Int

namespace Neighbourhood

/-- The ends lie halfway to the next numbers. The next number below a power of two is half as far away
as the one above, unless the power is the least with a full mantissa. Numbers with an even mantissa win
the ties at both ends. -/
def ofParts (mantissa : Nat) (exponent : Int) : Neighbourhood where
  lower := if mantissa = 1 <<< 52 ∧ -1074 < exponent then 4 * mantissa - 1 else 4 * mantissa - 2
  middle := 4 * mantissa
  upper := 4 * mantissa + 2
  closed := mantissa % 2 = 0
  scale := exponent - 2

/-- `amount · 2 ^ scale` counted in grid steps `10 ^ k`, times `gridUnit`. -/
def onGrid (amount : Nat) (scale k : Int) : Nat :=
  (amount <<< scale.toNat) * Nat.pow 10 (-k).toNat

/-- The common denominator under which `onGrid` is a natural number. -/
def gridUnit (scale k : Int) : Nat :=
  (1 <<< (-scale).toNat) * Nat.pow 10 k.toNat

/-- Whether `point · 10 ^ k` rounds to the number. -/
def contains (h : Neighbourhood) (k : Int) (point : Nat) : Bool :=
  let p := point * gridUnit h.scale k
  let lower := onGrid h.lower h.scale k
  let upper := onGrid h.upper h.scale k
  if h.closed then decide (lower ≤ p ∧ p ≤ upper) else decide (lower < p ∧ p < upper)

/-- The point at or below the number on the grid `10 ^ k`. -/
def floorOn (h : Neighbourhood) (k : Int) : Nat :=
  onGrid h.middle h.scale k / gridUnit h.scale k

/-- The number lies closer to `point` than to `point + 1` on the grid `10 ^ k`. -/
def nearerBelow (h : Neighbourhood) (k : Int) (point : Nat) : Bool :=
  decide (2 * onGrid h.middle h.scale k < (2 * point + 1) * gridUnit h.scale k)

/-- The point of the grid `10 ^ k` that stands for the number, if one rounds to it. Only the two points
around the number need to be tried. -/
def pointOn? (h : Neighbourhood) (k : Int) : Option Nat :=
  let below := h.floorOn k
  match h.contains k below, h.contains k (below + 1) with
  | true, true => some (if h.nearerBelow k below then below else below + 1)
  | true, false => some below
  | false, true => some (below + 1)
  | false, false => none

/-- A grid coarser than the number: its step is greater, because `2 ^ 3 < 10 < 2 ^ 4`. -/
def coarsest (h : Neighbourhood) : Int :=
  let bits : Int := h.middle.log2 + 1 + h.scale
  if 0 ≤ bits then bits / 3 + 1 else -(-bits / 4)

/-- A grid that holds the number itself. -/
def finest (h : Neighbourhood) : Int := min h.scale 0

/-- Tries `steps` grids from `10 ^ k` on, then takes the number's floor on the next. -/
def search (h : Neighbourhood) : (steps : Nat) → (k : Int) → Decimal
  | 0, k => ⟨h.floorOn k, k⟩
  | steps + 1, k =>
    match h.pointOn? k with
    | some point => ⟨point, k⟩
    | none => search h steps (k - 1)

def shortest (h : Neighbourhood) : Decimal :=
  h.search (h.coarsest - h.finest).toNat h.coarsest

end Neighbourhood

/-- The shortest decimal that reads back as `mantissa · 2 ^ exponent`. -/
def Decimal.shortest (mantissa : Nat) (exponent : Int) : Decimal :=
  if mantissa = 0 then ⟨0, 0⟩ else (Neighbourhood.ofParts mantissa exponent).shortest

end UnitCalc
