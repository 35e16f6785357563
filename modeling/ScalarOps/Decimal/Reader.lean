import ScalarOps.Decimal.Basic
import ScalarOps.Decimal.Integer

/-! A decimal number is written with digits on both sides of a point, and may end in an exponent behind its mark.
    `Decimal.read?` gives the number that is written and refuses every other text. -/

namespace ScalarOps
namespace Decimal

/-- The exponent that ends a decimal number, 0 if nothing is left. -/
def readTail? : List Char → Option Int
  | [] => some 0
  | 'e' :: cs => readInteger? cs
  | _ => none

/-- The decimal number that is written, without a sign. -/
def read? (cs : List Char) : Option Decimal :=
  let whole := cs.takeWhile Char.isDigit
  match cs.dropWhile Char.isDigit with
  | '.' :: rest =>
    let frac := rest.takeWhile Char.isDigit
    if whole.isEmpty || frac.isEmpty then none
    else
      (readTail? (rest.dropWhile Char.isDigit)).map fun exponent =>
        ⟨Nat.ofDigitChars 10 (whole ++ frac) 0, exponent - frac.length⟩
  | _ => none

end Decimal
end ScalarOps
