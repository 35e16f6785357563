import ScalarOps.Binary64.Basic

/-! An exact result is a quotient of natural numbers in quanta; its double is the nearest one, a tie to the even
    significand. If the last bit kept has place `e` and the quotient rounds to `s` of these bits, the code is `e *
    2^52 + s`: a subnormal number and a significand that carries into the exponent need no case of their own. -/

namespace ScalarOps

/-- The quotient rounded to the nearest integer, a half to the even one. -/
def divRoundEven (num den : Nat) : Nat :=
  let floor := num / den
  match compare (2 * (num % den)) den with
  | .lt => floor
  | .gt => floor + 1
  | .eq => floor + floor % 2

namespace Binary64

/-- The place of the last bit that a significand of 53 bits keeps of a quotient. -/
def lastPlace (num den : Nat) : Nat := (num / den).log2 - 52

/-- The code of the magnitude nearest to a quotient of quanta. -/
def roundCode (num den : Nat) : Nat :=
  let place := lastPlace num den
  place * 0x10000000000000 + divRoundEven num (den <<< place)

/-- The double nearest to a quotient of quanta, with the given sign. -/
def round (neg : Bool) (num den : Nat) : Binary64 := ofCode neg (roundCode num den)

/-- The double nearest to a quotient of quanta times `2 ^ exponent`, with the given sign. -/
def roundScaled (neg : Bool) (num den : Nat) (exponent : Int) : Binary64 :=
  round neg (num <<< exponent.toNat) (den <<< (-exponent).toNat)

end Binary64

end ScalarOps
