import ScalarOps.Decimal.Basic
import ScalarOps.Decimal.Integer

/-! The significant digits of a decimal number are set out in positional form, with a point behind the ones, or in
    scientific form, with a point behind the first digit and the exponent behind its mark. A `Layout` decides which
    exponents take which form, and how an exponent is written. -/

namespace ScalarOps
namespace Decimal

/-- The first `n` digits, with zeros in place of those that are missing. -/
def padded (n : Nat) (digits : List Char) : List Char :=
  digits.take n ++ List.replicate (n - digits.length) '0'

/-- Digits on both sides of a point, and no point if there are none behind it. -/
def pointed (whole fraction : List Char) : List Char :=
  if fraction.isEmpty then whole else whole ++ '.' :: fraction

/-- The positional form: a point behind the ones. -/
def positional (d : Decimal) : List Char :=
  if d.exponent < 0 then pointed ['0'] (List.replicate (d.exponent.natAbs - 1) '0' ++ d.digits)
  else
    let ones := d.exponent.toNat + 1
    pointed (padded ones d.digits) (d.digits.drop ones)

/-- The digits with a point behind the first one. -/
def mantissa (d : Decimal) : List Char := pointed (padded 1 d.digits) (d.digits.drop 1)

/-- The scientific form: the mantissa, and the exponent behind its mark. -/
def scientific (d : Decimal) : List Char := d.mantissa ++ 'e' :: integerChars d.exponent

end Decimal

/-- The choices between the ways to write a decimal number. -/
structure Layout where
  /-- The least exponent in positional form. -/
  positionalFrom : Int
  /-- The first exponent above positional form. -/
  positionalBelow : Int
  /-- The least number of exponent digits. -/
  exponentWidth : Nat

namespace Layout

/-- Whether numbers of an exponent are written in positional form. -/
def isPositional (l : Layout) (exponent : Int) : Bool :=
  decide (l.positionalFrom ≤ exponent ∧ exponent < l.positionalBelow)

/-- The exponent behind its mark, with a sign and the least number of digits at least. -/
def exponentPart (l : Layout) (exponent : Int) : List Char :=
  let digits := Nat.toDigits 10 exponent.natAbs
  'e' :: (if exponent < 0 then '-' else '+')
    :: (List.replicate (l.exponentWidth - digits.length) '0' ++ digits)

end Layout

end ScalarOps
