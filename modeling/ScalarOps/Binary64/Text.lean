import ScalarOps.Decimal.Layout
import ScalarOps.Decimal.Shortest
import ScalarOps.Word

/-! The text of a double. The exponent is read off the scientific form of the shortest digits, and from `10^-4` up to
    `10^16` the positional form is taken instead, of the exact value with one place if the double is integral. There
    is always a point, so no double is written like an integer. -/

namespace ScalarOps

/-- The parts of a text before and behind the first occurrence of a character. -/
def splitOnce? (c : Char) (cs : List Char) : Option (List Char × List Char) :=
  match cs.dropWhile (· != c) with
  | [] => none
  | _ :: rest => some (cs.takeWhile (· != c), rest)

/-- The magnitude with one decimal place: the tenths are rounded to the nearest, a half to the even one. -/
def Magnitude.tenths (m : Magnitude) : List Char :=
  let count := divRoundEven (10 * m.quanta) Binary64.unit
  Nat.toDigits 10 (count / 10) ++ '.' :: Nat.toDigits 10 (count % 10)

namespace Binary64

/-- Positional form for the exponents from -4 to 15, and two exponent digits at least. -/
def layout : Layout := ⟨-4, 16, 2⟩

/-- A minus sign for a sign bit that is set. -/
def signChars (neg : Bool) : List Char := if neg then ['-'] else []

/-- The shortest digits in scientific form, behind the sign. -/
def scientific (neg : Bool) (m : Magnitude) : List Char := signChars neg ++ m.shortest.scientific

/-- The shortest digits in positional form, behind the sign. -/
def positional (neg : Bool) (m : Magnitude) : List Char := signChars neg ++ m.shortest.positional

/-- A scientific form whose exponent is set out anew and whose digits have a point. -/
def completed (mantissa : List Char) (exponent : Int) : List Char :=
  mantissa ++ (if mantissa.contains '.' then [] else ['.', '0']) ++ layout.exponentPart exponent

/-- The text of a finite double. The scientific form always has an exponent, so neither default is taken. -/
def finiteChars (neg : Bool) (m : Magnitude) : List Char :=
  match splitOnce? 'e' (scientific neg m) with
  | none => positional neg m
  | some (mantissa, tail) =>
    let exponent := ((Word.read? tail).getD .zero).toInt
    if layout.isPositional exponent then
      if (finite neg m).isIntegral then signChars neg ++ m.tenths else positional neg m
    else completed mantissa exponent

/-- The text of a double. -/
def toChars : Binary64 → List Char
  | nan _ => "NaN".toList
  | inf neg => signChars neg ++ "Infinity".toList
  | finite neg m => finiteChars neg m

end Binary64
end ScalarOps
