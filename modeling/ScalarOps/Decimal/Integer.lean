/-! Integers in decimal digits, behind a minus sign if negative. A reader takes leading zeros and a plus sign as well,
    and refuses every other text. -/

namespace ScalarOps
namespace Decimal

/-- The decimal digits of an integer, behind a minus sign if it is negative. -/
def integerChars (n : Int) : List Char :=
  if n < 0 then '-' :: Nat.toDigits 10 n.natAbs else Nat.toDigits 10 n.natAbs

/-- The number that digits stand for; there has to be one. -/
def readNat? (cs : List Char) : Option Nat :=
  if cs.isEmpty || !cs.all Char.isDigit then none else some (Nat.ofDigitChars 10 cs 0)

/-- The integer that digits behind an optional sign stand for. -/
def readInteger? : List Char → Option Int
  | '-' :: cs => (readNat? cs).map fun n : Nat => -(n : Int)
  | '+' :: cs => (readNat? cs).map Int.ofNat
  | cs => (readNat? cs).map Int.ofNat

end Decimal
end ScalarOps
