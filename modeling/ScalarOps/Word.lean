import ScalarOps.Decimal.Integer

/-! `Word` is the integer of the language: 32 bits, read as a signed number by `toInt`. Arithmetic keeps the low 32
    bits of the exact result; division and remainder go toward minus infinity; a shift moves the whole word out once
    its count reaches the width. -/

namespace ScalarOps

/-- A signed 32-bit integer in two's complement. -/
structure Word where
  bits : BitVec 32
deriving DecidableEq

namespace Word

/-- The number of bits. -/
def width : Nat := 32

/-- The integer that a word stands for, between `-2^31` and `2^31 - 1`. -/
def toInt (x : Word) : Int := x.bits.toInt

/-- The word that keeps the low 32 bits of an integer. -/
def ofInt (n : Int) : Word := ⟨BitVec.ofInt 32 n⟩

/-- The integer between `-2^31` and `2^31 - 1` that agrees with `n` modulo `2^32`. -/
def wrap (n : Int) : Int := n.bmod 0x100000000

/-- The word of 0. -/
def zero : Word := ofInt 0

/-- The word of 1. -/
def one : Word := ofInt 1

/-- The word of `-2^31`. -/
def least : Word := ofInt (-2147483648)

/-- The word of `2^31 - 1`. -/
def greatest : Word := ofInt 2147483647

instance : Inhabited Word := ⟨zero⟩

/-- Whether no bit is set. -/
def isZero (x : Word) : Bool := x.bits == 0#32

/-! ### Wrapping arithmetic -/

instance : Add Word := ⟨fun x y => ⟨x.bits + y.bits⟩⟩
instance : Sub Word := ⟨fun x y => ⟨x.bits - y.bits⟩⟩
instance : Mul Word := ⟨fun x y => ⟨x.bits * y.bits⟩⟩
instance : Neg Word := ⟨fun x => ⟨-x.bits⟩⟩

/-- The power `x ^ n` by repeated squaring, wrapped after every product. -/
def pow (x : Word) (n : Nat) : Word :=
  if n = 0 then one
  else
    let half := (x * x).pow (n / 2)
    if n % 2 = 0 then half else x * half
termination_by n
decreasing_by omega

/-! ### Floored division -/

/-- Whether a truncated remainder lies on the other side of zero from its divisor, so that rounding toward
    zero and rounding down give different quotients. -/
def straddles (rem divisor : Word) : Bool :=
  !rem.isZero && decide (rem.toInt < 0) != decide (divisor.toInt < 0)

/-- The quotient rounded down, wrapped; a zero divisor has none. -/
def floorDiv? (x y : Word) : Option Word :=
  if y.isZero then none
  else
    let quot : Word := ⟨x.bits.sdiv y.bits⟩
    let rem : Word := ⟨x.bits.srem y.bits⟩
    some (if rem.straddles y then quot - one else quot)

/-- The remainder of the quotient rounded down, which has the divisor's sign; a zero divisor has none. -/
def floorMod? (x y : Word) : Option Word :=
  if y.isZero then none
  else
    let rem : Word := ⟨x.bits.srem y.bits⟩
    some (if rem.straddles y then rem + y else rem)

/-! ### Bits and shifts -/

instance : AndOp Word := ⟨fun x y => ⟨x.bits &&& y.bits⟩⟩
instance : OrOp Word := ⟨fun x y => ⟨x.bits ||| y.bits⟩⟩
instance : XorOp Word := ⟨fun x y => ⟨x.bits ^^^ y.bits⟩⟩
instance : Complement Word := ⟨fun x => ⟨~~~x.bits⟩⟩

/-- The word moved to the left, by a count that is taken modulo the width. -/
def maskedShiftLeft (x : Word) (n : Nat) : Word := ⟨x.bits <<< (n % width)⟩

/-- The word moved to the right under copies of its sign, by a count that is taken modulo the width. -/
def maskedShiftRight (x : Word) (n : Nat) : Word := ⟨x.bits.sshiftRight (n % width)⟩

/-- The word moved `n` places to the left; from 32 places on nothing is left of it. -/
def shiftLeftBy (x : Word) (n : Nat) : Word :=
  if n < width then x.maskedShiftLeft n else zero

/-- The word moved `n` places to the right under copies of its sign; from 32 places on the result is 0,
    for a negative word too. -/
def shiftRightBy (x : Word) (n : Nat) : Word :=
  if n < width then x.maskedShiftRight n else zero

/-- Shift to the left by a signed count: a negative count shifts to the right. -/
def shiftLeft (x count : Word) : Word :=
  if count.toInt < 0 then x.shiftRightBy count.toInt.natAbs else x.shiftLeftBy count.toInt.natAbs

/-- Shift to the right by a signed count: a negative count shifts to the left. -/
def shiftRight (x count : Word) : Word :=
  if count.toInt < 0 then x.shiftLeftBy count.toInt.natAbs else x.shiftRightBy count.toInt.natAbs

theorem shiftLeftBy_of_lt_width {x : Word} {n : Nat} (h : n < width) : x.shiftLeftBy n = ⟨x.bits <<< n⟩ := by
  rw [shiftLeftBy, if_pos h, maskedShiftLeft, Nat.mod_eq_of_lt h]

theorem shiftRightBy_of_lt_width {x : Word} {n : Nat} (h : n < width) :
    x.shiftRightBy n = ⟨x.bits.sshiftRight n⟩ := by
  rw [shiftRightBy, if_pos h, maskedShiftRight, Nat.mod_eq_of_lt h]

/-- The width as a count moves nothing by itself; only the guard in front makes it clear the word. -/
theorem maskedShift_width (x : Word) : x.maskedShiftLeft width = x ∧ x.maskedShiftRight width = x :=
  ⟨congrArg mk (BitVec.shiftLeft_zero x.bits), congrArg mk (BitVec.sshiftRight_zero)⟩

/-! ### Order and text -/

instance : Ord Word := ⟨fun x y => compare x.toInt y.toInt⟩

/-- The word of an integer, unless the integer does not fit. -/
def ofInt? (n : Int) : Option Word := if (ofInt n).toInt = n then some (ofInt n) else none

/-- The decimal digits of a word, behind a minus sign if it is negative. -/
def toChars (x : Word) : List Char := Decimal.integerChars x.toInt

/-- The text of a word. -/
def text (x : Word) : String := String.ofList x.toChars

/-- The word that a decimal text stands for. -/
def read? (cs : List Char) : Option Word := (Decimal.readInteger? cs).bind ofInt?

/-! ### Words and integers -/

@[simp] theorem ofInt_toInt (x : Word) : ofInt x.toInt = x := by
  simp [ofInt, toInt]

theorem toInt_inj {x y : Word} : x.toInt = y.toInt ↔ x = y :=
  ⟨fun h => by rw [← ofInt_toInt x, h, ofInt_toInt], fun h => h ▸ rfl⟩

theorem toInt_ofInt (n : Int) : (ofInt n).toInt = wrap n :=
  BitVec.toInt_ofInt n

theorem toInt_bounds (x : Word) : -2147483648 ≤ x.toInt ∧ x.toInt < 2147483648 :=
  ⟨BitVec.le_toInt x.bits, BitVec.toInt_lt⟩

theorem isZero_iff {x : Word} : x.isZero = true ↔ x = zero := by
  cases x; simp [isZero, zero, ofInt]

theorem toInt_add (x y : Word) : (x + y).toInt = wrap (x.toInt + y.toInt) :=
  BitVec.toInt_add x.bits y.bits

theorem toInt_sub (x y : Word) : (x - y).toInt = wrap (x.toInt - y.toInt) :=
  BitVec.toInt_sub

theorem toInt_mul (x y : Word) : (x * y).toInt = wrap (x.toInt * y.toInt) :=
  BitVec.toInt_mul x.bits y.bits

theorem toInt_neg (x : Word) : (-x).toInt = wrap (-x.toInt) :=
  BitVec.toInt_neg

end Word

end ScalarOps
