import ScalarOps.Binary64.Round

/-! An `Enclosure` holds a real number between two multiples of one power of two. Products, roots and reciprocals
    round the lower end down and the upper end up, so the number stays inside. When both ends round to one double,
    that double is the number's. -/

namespace ScalarOps

/-- The integer square root, rounded down. -/
def floorSqrt (n : Nat) : Nat :=
  if n = 0 then 0
  else
    let root := 2 * floorSqrt (n / 4)
    if (root + 1) * (root + 1) ≤ n then root + 1 else root
termination_by n
decreasing_by omega

/-- The integer part of the square root of the square root and so on, `depth` times. -/
def floorRoot (n : Nat) : (depth : Nat) → Nat
  | 0 => n
  | depth + 1 => floorRoot (floorSqrt n) depth

/-- Bounds `lower * 2 ^ exponent` and `upper * 2 ^ exponent` of a real number. -/
structure Enclosure where
  lower : Nat
  upper : Nat
  exponent : Int

namespace Enclosure

/-- The enclosure that holds `n * 2 ^ exponent` alone. -/
def exactly (n : Nat) (exponent : Int) : Enclosure := ⟨n, n, exponent⟩

/-- The enclosure widened until its upper end has about `bits` bits. -/
def widen (bits : Nat) (x : Enclosure) : Enclosure :=
  let drop := x.upper.log2 + 1 - bits
  if drop = 0 then x else ⟨x.lower >>> drop, (x.upper >>> drop) + 1, x.exponent + drop⟩

/-- An enclosure of a product. -/
def mul (bits : Nat) (x y : Enclosure) : Enclosure :=
  widen bits ⟨x.lower * y.lower, x.upper * y.upper, x.exponent + y.exponent⟩

/-- An enclosure of a power, by repeated squaring. -/
def pow (bits : Nat) (x : Enclosure) (n : Nat) : Enclosure :=
  if n = 0 then exactly 1 0
  else
    let half := pow bits (mul bits x x) (n / 2)
    if n % 2 = 0 then half else mul bits x half
termination_by n
decreasing_by omega

/-- An enclosure of the square root: the bounds are scaled up by a power of two that makes the exponent even
    and keeps `bits` bits of the root. -/
def sqrt (bits : Nat) (x : Enclosure) : Enclosure :=
  let scale := bits + ((x.exponent - bits) % 2).toNat
  ⟨floorSqrt (x.lower <<< scale), floorSqrt (x.upper <<< scale) + 1, (x.exponent - scale) / 2⟩

/-- An enclosure of the square root of the square root and so on, `depth` times. -/
def root (bits : Nat) (x : Enclosure) : (depth : Nat) → Enclosure
  | 0 => x
  | depth + 1 => root bits (sqrt bits x) depth

/-- An enclosure of the reciprocal of `n * 2 ^ exponent`. -/
def reciprocal (bits : Nat) (n : Nat) (exponent : Int) : Enclosure :=
  let scale := bits + n.log2 + 1
  ⟨(1 <<< scale) / n, (1 <<< scale) / n + 1, -exponent - scale⟩

/-- The double nearest to `n * 2 ^ exponent`; the powers of two far outside the range of doubles are not
    computed. -/
def roundEnd (neg : Bool) (n : Nat) (exponent : Int) : Binary64 :=
  let size := n.log2 + exponent
  if n = 0 then .finite neg .zero
  else if 1024 ≤ size then .inf neg
  else if size < -1075 then .finite neg .zero
  else .roundScaled neg n 1 (1074 + exponent)

/-- The double that both ends round to, if they agree. -/
def round? (neg : Bool) (x : Enclosure) : Option Binary64 :=
  let low := roundEnd neg x.lower x.exponent
  if low = roundEnd neg x.upper x.exponent then some low else none

end Enclosure

end ScalarOps
