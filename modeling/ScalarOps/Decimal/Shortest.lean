import ScalarOps.Decimal.Basic

/-! `Magnitude.shortest` is the decimal with the fewest digits that reads back as the magnitude; among those the
    nearest one, and of two equally near the larger. The search tries the decimals next to the magnitude on ever finer
    grids, and ends at the latest with the exact value. -/

namespace ScalarOps
namespace Magnitude

/-- The magnitude as a multiple of `10^-1074`. -/
def decimalUnits (m : Magnitude) : Nat := m.quanta * Nat.pow 5 1074

/-- Whether a decimal reads back as the magnitude. -/
def reads (m : Magnitude) (d : Decimal) : Bool := d.nearest false == .finite false m

/-- The better of the two multiples of `10^(place - 1074)` around the magnitude that read back as it. -/
def pick? (m : Magnitude) (place : Nat) : Option Decimal :=
  let step := Nat.pow 10 place
  let below : Decimal := ⟨m.decimalUnits / step, place - 1074⟩
  let above : Decimal := ⟨m.decimalUnits / step + 1, place - 1074⟩
  if m.reads below then
    if m.reads above && decide (step ≤ 2 * (m.decimalUnits % step)) then some above else some below
  else if m.reads above then some above
  else none

/-- The first pick on the grids from `10^(place - 1074)` downward. -/
def pickFrom (m : Magnitude) : (place : Nat) → Decimal
  | 0 => ⟨m.decimalUnits, -1074⟩
  | place + 1 => (m.pick? (place + 1)).getD (m.pickFrom place)

/-- The shortest decimal that reads back as the magnitude, the nearest of those, and the larger of two. -/
def shortest (m : Magnitude) : Decimal :=
  if m.code = 0 then ⟨0, 0⟩ else m.pickFrom ((Nat.toDigits 10 m.decimalUnits).length - 1)

end Magnitude
end ScalarOps
