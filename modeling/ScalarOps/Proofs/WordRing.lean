import Mathlib.Algebra.Order.Ring.Int
import Mathlib.Tactic.Ring
import ScalarOps.Word

/-! `Word.ofInt` keeps the low 32 bits of an integer. It carries sums, differences, products, negations, complements,
    powers and left shifts of integers to those of words, whatever bits were dropped from the operands before. -/

namespace ScalarOps
namespace Word

theorem ofInt_add (a b : Int) : ofInt (a + b) = ofInt a + ofInt b :=
  congrArg mk (BitVec.ofInt_add a b)

theorem ofInt_mul (a b : Int) : ofInt (a * b) = ofInt a * ofInt b :=
  congrArg mk (BitVec.ofInt_mul a b)

theorem ofInt_neg (a : Int) : ofInt (-a) = -ofInt a :=
  congrArg mk BitVec.ofInt_neg

theorem ofInt_sub (a b : Int) : ofInt (a - b) = ofInt a - ofInt b := by
  have h : BitVec.ofInt 32 (a - b) = BitVec.ofInt 32 a - BitVec.ofInt 32 b := by
    rw [Int.sub_eq_add_neg, BitVec.ofInt_add, BitVec.ofInt_neg, BitVec.sub_eq_add_neg]
  exact congrArg mk h

theorem ofInt_complement (a : Int) : ofInt (-a - 1) = ~~~ofInt a := by
  have h : BitVec.ofInt 32 (-a - 1) = ~~~BitVec.ofInt 32 a := by
    rw [BitVec.not_eq_neg_add, Int.sub_eq_add_neg, BitVec.ofInt_add, BitVec.ofInt_neg, BitVec.sub_eq_add_neg]
    rfl
  exact congrArg mk h

/-! ### Powers -/

/-- Repeated squaring gives the power: the square is raised to half the exponent, and an odd exponent takes one
    more factor. -/
theorem ofInt_pow (a : Int) (n : Nat) : ofInt (a ^ n) = (ofInt a).pow n := by
  induction n using Nat.strong_induction_on generalizing a with
  | _ n ih =>
    rw [Word.pow]
    by_cases h0 : n = 0
    · rw [if_pos h0, h0, pow_zero]
      rfl
    · have hhalf : (ofInt a * ofInt a).pow (n / 2) = ofInt ((a * a) ^ (n / 2)) := by
        rw [← ofInt_mul, ih (n / 2) (by omega)]
      rw [if_neg h0]
      dsimp only
      rw [hhalf]
      by_cases h2 : n % 2 = 0
      · rw [if_pos h2, ← pow_two, ← pow_mul, show 2 * (n / 2) = n by omega]
      · rw [if_neg h2, ← ofInt_mul, ← pow_two, ← pow_mul, ← pow_succ', show 2 * (n / 2) + 1 = n by omega]

theorem toInt_pow (x : Word) (n : Nat) : (x.pow n).toInt = wrap (x.toInt ^ n) := by
  rw [← toInt_ofInt, ofInt_pow, ofInt_toInt]

theorem pow_exponent_zero (x : Word) : x.pow 0 = one := by
  rw [Word.pow, if_pos rfl]

theorem pow_mul_pow (x : Word) (m n : Nat) : x.pow m * x.pow n = x.pow (m + n) := by
  rw [← ofInt_toInt x, ← ofInt_pow, ← ofInt_pow, ← ofInt_pow, ← ofInt_mul, ← pow_add]

theorem pow_pow (x : Word) (m n : Nat) : (x.pow m).pow n = x.pow (m * n) := by
  rw [← ofInt_toInt x, ← ofInt_pow, ← ofInt_pow, ← ofInt_pow, ← pow_mul]

/-- The power of a word by any exponent is the exact one without its high bits, and obeys the laws of exponents
    whatever bits the powers have lost on the way. -/
theorem pow_exact_with_exponent_laws (b : Word) :
    (∀ e, (b.pow e).toInt = wrap (b.toInt ^ e)) ∧
    b.pow 0 = one ∧
    (∀ m n, b.pow m * b.pow n = b.pow (m + n)) ∧
    ∀ m n, (b.pow m).pow n = b.pow (m * n) :=
  ⟨toInt_pow b, pow_exponent_zero b, pow_mul_pow b, pow_pow b⟩

/-! ### Left shifts -/

theorem ofInt_eq_zero_of_dvd {a : Int} (h : (2 : Int) ^ 32 ∣ a) : ofInt a = zero := by
  obtain ⟨b, rfl⟩ := h
  rw [ofInt_mul]
  have h32 : ofInt (2 ^ 32) = zero := by decide
  rw [h32]
  exact congrArg mk BitVec.zero_mul

theorem ofInt_two_pow (n : Nat) : BitVec.ofInt 32 (2 ^ n) = BitVec.twoPow 32 n := by
  apply BitVec.eq_of_toNat_eq
  rw [BitVec.toNat_twoPow, BitVec.toNat_ofInt]
  norm_cast

/-- A left shift multiplies by a power of two; from the width on, the power has no low bits left. -/
theorem ofInt_shiftLeftBy (a : Int) (n : Nat) : ofInt (a * 2 ^ n) = (ofInt a).shiftLeftBy n := by
  by_cases h : n < width
  · rw [shiftLeftBy_of_lt_width h]
    have hbits : BitVec.ofInt 32 (a * 2 ^ n) = BitVec.ofInt 32 a <<< n := by
      rw [BitVec.shiftLeft_eq_mul_twoPow, BitVec.ofInt_mul, ofInt_two_pow]
    exact congrArg mk hbits
  · rw [shiftLeftBy, if_neg h]
    exact ofInt_eq_zero_of_dvd (Dvd.dvd.mul_left (pow_dvd_pow 2 (Nat.le_of_not_lt h)) a)

end Word
end ScalarOps
