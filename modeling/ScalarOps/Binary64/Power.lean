import ScalarOps.Binary64.Arithmetic
import ScalarOps.Binary64.Enclosure

/-! `Binary64.pow` rounds the exact power once, after the special cases of IEEE 754. For a positive base other than 1
    the power is a dyadic number to a dyadic exponent. A small integral power is rounded from the exact quotient, any
    other one from an enclosure that is narrow enough, or from the root of an exact integer if none was. -/

namespace ScalarOps

/-- The number `(sig * 2 ^ exponent) ^ (num / 2 ^ depth)`. -/
structure DyadicPower where
  sig : Nat
  exponent : Int
  num : Nat
  depth : Nat

namespace DyadicPower

/-- The factors of two of a number: how many there are, and the number without them. -/
def splitTwos (n : Nat) : Nat × Nat :=
  if n % 2 = 0 ∧ n ≠ 0 then
    let (count, odd) := splitTwos (n / 2)
    (count + 1, odd)
  else (0, n)
termination_by n
decreasing_by omega

/-- The same number with fewer binary places in the exponent: an even numerator is halved, and the root of an
    odd one is taken in the base where it is exact. -/
def reduce (sig : Nat) (exponent : Int) (num : Nat) : (depth : Nat) → DyadicPower
  | 0 => ⟨sig, exponent, num, 0⟩
  | depth + 1 =>
    if num % 2 = 0 then reduce sig exponent (num / 2) depth
    else
      let root := floorSqrt sig
      if exponent % 2 = 0 ∧ root * root = sig then reduce root (exponent / 2) num depth
      else ⟨sig, exponent, num, depth + 1⟩

/-- The power of a magnitude with a magnitude as its exponent, reduced. -/
def ofMagnitudes (base y : Magnitude) : DyadicPower :=
  let (twos, odd) := splitTwos base.significand
  reduce odd (base.shift + twos - 1074) y.quanta 1074

/-- An enclosure of the power, or of its reciprocal. -/
def enclose (reciprocal : Bool) (p : DyadicPower) (bits : Nat) : Enclosure :=
  let base : Enclosure := if reciprocal then .reciprocal bits p.sig p.exponent else .exactly p.sig p.exponent
  (Enclosure.pow bits base p.num).root bits p.depth

/-- The base to the numerator of the exponent, or the reciprocal of that, as a quotient. -/
def radicand (reciprocal : Bool) (p : DyadicPower) : Nat × Nat :=
  let shift := p.exponent * p.num
  let power := (p.sig.pow p.num <<< shift.toNat, 1 <<< (-shift).toNat)
  if reciprocal then power.swap else power

/-- The rounding of the power, or of its reciprocal, from the root of an integer. Rounding changes only at whole
    halves of `2^-1074`, so it is enough to know between which of them the number lies, or at which. The integer grows
    with `2 ^ depth`: this is for what no enclosure has decided. -/
def roundRoot (neg reciprocal : Bool) (p : DyadicPower) : Binary64 :=
  let power := p.radicand reciprocal
  let scaled := power.1 <<< (1075 <<< p.depth)
  let halves := floorRoot (scaled / power.2) p.depth
  .round neg (2 * halves + if halves.pow (1 <<< p.depth) * power.2 = scaled then 0 else 1) 4

/-- The rounding of the power, or of its reciprocal, from enclosures of ever more bits until one decides. -/
def refine (neg reciprocal : Bool) (p : DyadicPower) (bits : Nat) : (attempts : Nat) → Binary64
  | 0 => p.roundRoot neg reciprocal
  | attempts + 1 =>
    match (p.enclose reciprocal bits).round? neg with
    | some x => x
    | none => refine neg reciprocal p (2 * bits) attempts

/-- The rounding of an integral power, or of its reciprocal, from the exact quotient. -/
def roundExactly (neg reciprocal : Bool) (p : DyadicPower) : Binary64 :=
  if reciprocal then .roundScaled neg 1 (p.sig.pow p.num) (1074 - p.exponent * p.num)
  else .roundScaled neg (p.sig.pow p.num) 1 (1074 + p.exponent * p.num)

/-- The exponent 1 in units of the exponent's last place. -/
def unit (p : DyadicPower) : Nat := 1 <<< p.depth

/-- A power of two next below the base, or its reciprocal: that lies from `2 ^ leading` to `2 ^ (leading + 1)`. -/
def leading (reciprocal : Bool) (p : DyadicPower) : Int :=
  if reciprocal then -(p.sig.log2 + p.exponent) - 1 else p.sig.log2 + p.exponent

/-- Whether the leading bit alone shows that the power, or its reciprocal, is at least `2^1024`. -/
def overflows (reciprocal : Bool) (p : DyadicPower) : Bool := 1024 * p.unit ≤ p.num * p.leading reciprocal

/-- Whether the leading bit alone shows that the power, or its reciprocal, is at most `2^-1075`, half of the least
    positive double. -/
def vanishes (reciprocal : Bool) (p : DyadicPower) : Bool := p.num * (p.leading reciprocal + 1) ≤ -1075 * p.unit

/-- The power, or its reciprocal, rounded. An exponent of `2^64` or more takes every base other than 1 out of
    the range of doubles, and one of `2^-66` or less takes every base next to 1. -/
def round (neg reciprocal : Bool) (p : DyadicPower) : Binary64 :=
  if p.overflows reciprocal then .inf neg
  else if p.vanishes reciprocal then .finite neg .zero
  else if p.unit <<< 64 ≤ p.num then
    if 0 ≤ p.leading reciprocal then .inf neg else .finite neg .zero
  else if p.num <<< 66 ≤ p.unit then .finite neg .one
  else if p.depth = 0 ∧ p.num ≤ 2048 then p.roundExactly neg reciprocal
  else p.refine neg reciprocal 192 12

end DyadicPower

namespace Binary64

/-- The rounded power. -/
def pow (x y : Binary64) : Binary64 :=
  if x.isSignaling || y.isSignaling then quietNaN
  else if y.isZero || x = one then one
  else
    match x, y with
    | nan _, _ | _, nan _ => quietNaN
    | inf s, y => if y.isBelowZero then finite (s && y.isOdd) .zero else inf (s && y.isOdd)
    | finite _ a, inf t =>
      if a = .one then one
      else if decide (Magnitude.one.code < a.code) = t then zero
      else inf false
    | finite s a, finite t b =>
      let neg := s && isOdd (finite t b)
      if a.code = 0 then if t then inf neg else finite neg .zero
      else if s && !isIntegral (finite t b) then quietNaN
      else if a = .one then finite neg .one
      else (DyadicPower.ofMagnitudes a b).round neg t

instance : Pow Binary64 Binary64 := ⟨pow⟩

end Binary64

end ScalarOps
