/-! `Binary64` is the IEEE 754 double, with a member for each of the `2^64` bit patterns. A finite one is a sign and a
    `Magnitude`, which is kept by its *code*: the 11-bit exponent field followed by the 52-bit fraction, read as one
    number. Codes are in the order of their numbers, and `0x7FF0000000000000` is the code of infinity. Exact results
    are computed on `Magnitude.quanta`, the number as a multiple of `2^-1074`. -/

namespace ScalarOps

/-- The magnitude of a finite double, by its place in the ascending list of all of them. -/
structure Magnitude where
  code : Nat
  code_lt : code < 0x7FF0000000000000
deriving DecidableEq

namespace Magnitude

/-- The magnitude 0. -/
def zero : Magnitude := ⟨0, by decide⟩

/-- The magnitude 1. -/
def one : Magnitude := ⟨0x3FF0000000000000, by decide⟩

/-- The exponent field of the interchange format. -/
def exponentField (m : Magnitude) : Nat := m.code / 0x10000000000000

/-- The significand as an integer: the fraction, with the hidden bit unless the number is subnormal. -/
def significand (m : Magnitude) : Nat :=
  if m.exponentField = 0 then m.code else m.code % 0x10000000000000 + 0x10000000000000

/-- The place of the significand's last bit, counted from `2^-1074` upward. -/
def shift (m : Magnitude) : Nat := m.exponentField - 1

/-- The magnitude as a multiple of `2^-1074`. -/
def quanta (m : Magnitude) : Nat := m.significand <<< m.shift

end Magnitude

/-- A NaN, by its sign and a code above the code of infinity. -/
structure NaN where
  neg : Bool
  code : Nat
  lt_code : 0x7FF0000000000000 < code
  code_lt : code < 0x8000000000000000
deriving DecidableEq

namespace NaN

/-- The NaN that operations give: positive, with the first bit of the fraction set and no other one. -/
def quiet : NaN := ⟨false, 0x7FF8000000000000, by decide, by decide⟩

/-- Whether the NaN is signaling: the first bit of its fraction is clear. -/
def isSignaling (n : NaN) : Bool := decide (n.code < 0x7FF8000000000000)

end NaN

/-- A 64-bit floating-point number. -/
inductive Binary64
  | nan (n : NaN)
  | inf (neg : Bool)
  /-- A finite number, negative if `neg`; zero has both signs. -/
  | finite (neg : Bool) (mag : Magnitude)
deriving DecidableEq

namespace Binary64

/-- The number of quanta in 1. -/
def unit : Nat := 1 <<< 1074

/-- The NaN that operations give. -/
def quietNaN : Binary64 := nan .quiet

/-- Positive zero. -/
def zero : Binary64 := finite false .zero

/-- The double of 1. -/
def one : Binary64 := finite false .one

instance : Inhabited Binary64 := ⟨zero⟩

/-- Whether the number is a zero of either sign. -/
def isZero : Binary64 → Bool
  | finite _ m => m.code == 0
  | _ => false

/-- Whether the number is below zero; negative zero and NaN are not. -/
def isBelowZero : Binary64 → Bool
  | nan _ => false
  | inf neg => neg
  | finite neg m => neg && m.code != 0

/-- Whether the number is a signaling NaN. -/
def isSignaling : Binary64 → Bool
  | nan n => n.isSignaling
  | _ => false

/-- Whether the number is a finite integer. -/
def isIntegral : Binary64 → Bool
  | finite _ m => m.quanta % unit == 0
  | _ => false

/-- Whether the number is an odd integer. -/
def isOdd : Binary64 → Bool
  | finite _ m => m.quanta % (2 * unit) == unit
  | _ => false

/-- The integer `n`, negated if `neg`. -/
def signed (neg : Bool) (n : Nat) : Int := if neg then -(n : Int) else n

/-! ### Interchange format -/

/-- The number with a given sign and code: from the code of infinity on it is infinite. -/
def ofCode (neg : Bool) (code : Nat) : Binary64 :=
  if h : code < 0x7FF0000000000000 then finite neg ⟨code, h⟩ else inf neg

/-- A sign bit in front of the 63 bits of a code. -/
def signedBits (neg : Bool) (code : Nat) : BitVec 64 :=
  .ofNat 64 (neg.toNat * 0x8000000000000000 + code)

/-- The number with given bits: a sign bit and a code, which is a NaN's above the code of infinity. -/
def ofBits (bits : BitVec 64) : Binary64 :=
  if h : 0x7FF0000000000000 < bits.toNat % 0x8000000000000000 then
    nan ⟨bits.msb, bits.toNat % 0x8000000000000000, h, Nat.mod_lt _ (by decide)⟩
  else ofCode bits.msb (bits.toNat % 0x8000000000000000)

/-- The bits of a number. -/
def toBits : Binary64 → BitVec 64
  | nan n => signedBits n.neg n.code
  | inf neg => signedBits neg 0x7FF0000000000000
  | finite neg m => signedBits neg m.code

/-! ### Order -/

/-- How two numbers compare. A NaN compares with nothing and the two zeros are equal; signed codes are in
    the order of the numbers. -/
def order : Binary64 → Binary64 → Option Ordering
  | nan _, _ | _, nan _ => none
  | inf s, inf t => some (compare t s)
  | inf s, finite .. => some (if s then .lt else .gt)
  | finite .., inf t => some (if t then .gt else .lt)
  | finite s a, finite t b => some (compare (signed s a.code) (signed t b.code))

/-- Whether two numbers are equal in their order: a NaN is not equal to itself, and the two zeros are equal. -/
def equals (x y : Binary64) : Bool := x.order y == some .eq

/-! ### Numbers and bits -/

@[simp] theorem ofCode_code (neg : Bool) (m : Magnitude) : ofCode neg m.code = finite neg m :=
  dif_pos m.code_lt

theorem toNat_signedBits (neg : Bool) {code : Nat} (h : code < 0x8000000000000000) :
    (signedBits neg code).toNat = neg.toNat * 0x8000000000000000 + code := by
  rw [signedBits, BitVec.toNat_ofNat]
  cases neg <;> simp only [Bool.toNat_true, Bool.toNat_false] <;> omega

theorem msb_signedBits (neg : Bool) {code : Nat} (h : code < 0x8000000000000000) :
    (signedBits neg code).msb = neg := by
  rw [BitVec.msb_eq_decide, toNat_signedBits neg h]
  cases neg
  · exact decide_eq_false (by simp only [Bool.toNat_false]; omega)
  · exact decide_eq_true (by simp only [Bool.toNat_true]; omega)

theorem code_signedBits (neg : Bool) {code : Nat} (h : code < 0x8000000000000000) :
    (signedBits neg code).toNat % 0x8000000000000000 = code := by
  rw [toNat_signedBits neg h, Nat.mul_add_mod_self_right, Nat.mod_eq_of_lt h]

theorem signedBits_msb_mod (bits : BitVec 64) :
    signedBits bits.msb (bits.toNat % 0x8000000000000000) = bits := by
  have hlt := bits.isLt
  apply BitVec.eq_of_toNat_eq
  rw [toNat_signedBits _ (Nat.mod_lt _ (by decide)), BitVec.msb_eq_decide]
  by_cases hhigh : 2 ^ (64 - 1) ≤ bits.toNat
  · rw [decide_eq_true hhigh, Bool.toNat_true]
    omega
  · rw [decide_eq_false hhigh, Bool.toNat_false]
    omega

theorem ofBits_toBits (x : Binary64) : ofBits x.toBits = x := by
  cases x with
  | nan n =>
    unfold toBits ofBits
    simp only [code_signedBits n.neg n.code_lt, msb_signedBits n.neg n.code_lt, n.lt_code, dite_true]
  | inf neg => cases neg <;> decide
  | finite neg m =>
    have hm := m.code_lt
    have hlt : m.code < 0x8000000000000000 := by omega
    have hnan : ¬0x7FF0000000000000 < m.code := by omega
    unfold toBits ofBits
    simp only [code_signedBits neg hlt, msb_signedBits neg hlt, hnan, dite_false, ofCode_code]

theorem msb_toBits_finite (neg : Bool) (m : Magnitude) : (finite neg m).toBits.msb = neg :=
  msb_signedBits neg (Nat.lt_trans m.code_lt (by decide))

theorem toBits_ofBits (bits : BitVec 64) : (ofBits bits).toBits = bits := by
  have hbits := signedBits_msb_mod bits
  unfold ofBits
  split
  · exact hbits
  · unfold ofCode
    split
    · exact hbits
    · have hcode : bits.toNat % 0x8000000000000000 = 0x7FF0000000000000 := by omega
      rw [hcode] at hbits
      exact hbits

theorem toBits_inj {x y : Binary64} : x.toBits = y.toBits ↔ x = y :=
  ⟨fun h => by rw [← ofBits_toBits x, h, ofBits_toBits], fun h => h ▸ rfl⟩

end Binary64

end ScalarOps
