import ScalarOps.Binary64.Round

/-! A `Decimal` is a whole number of some power of ten. Its significant digits are those of the coefficient up to the
    last one that is not 0, and its exponent is the place of the first of them: `1200 * 10^-3` has the digits 12 and
    the exponent 0. -/

namespace ScalarOps

/-- The number `coeff * 10 ^ scale`. -/
structure Decimal where
  coeff : Nat
  /-- The place of the coefficient's last digit. -/
  scale : Int
deriving DecidableEq

namespace Decimal

/-- The double that a decimal reads as, with the given sign. -/
def nearest (neg : Bool) (d : Decimal) : Binary64 :=
  .round neg (d.coeff * Nat.pow 10 d.scale.toNat * Binary64.unit) (Nat.pow 10 (-d.scale).toNat)

/-- The digits of the coefficient. -/
def coeffDigits (d : Decimal) : List Char := Nat.toDigits 10 d.coeff

/-- The digits from the first to the last that is not 0; the number 0 has none. -/
def digits (d : Decimal) : List Char := (d.coeffDigits.reverse.dropWhile (· == '0')).reverse

/-- The place of the first digit: 0 for the ones, 1 for the tens, -1 for the tenths. -/
def exponent (d : Decimal) : Int := d.scale + d.coeffDigits.length - 1

end Decimal

end ScalarOps
