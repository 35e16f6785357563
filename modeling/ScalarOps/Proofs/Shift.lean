import Mathlib.Data.Rat.Floor
import ScalarOps.Proofs.FloorDivision

/-! What a shift does to the integer of a word. A left shift multiplies by a power of two and keeps the low 32 bits; a
    right shift divides by it and rounds down. From 32 places on both leave 0, which is not what the division gives
    for a negative word. A negative count shifts the other way. -/

namespace ScalarOps
namespace Word

variable {x n : Word} {k : Nat}

/-! ### Counts -/

theorem shiftLeft_of_nonneg (h : 0 ≤ n.toInt) : x.shiftLeft n = x.shiftLeftBy n.toInt.toNat := by
  have hcount : n.toInt.natAbs = n.toInt.toNat := by omega
  rw [shiftLeft, if_neg (Int.not_lt.mpr h), hcount]

theorem shiftRight_of_nonneg (h : 0 ≤ n.toInt) : x.shiftRight n = x.shiftRightBy n.toInt.toNat := by
  have hcount : n.toInt.natAbs = n.toInt.toNat := by omega
  rw [shiftRight, if_neg (Int.not_lt.mpr h), hcount]

theorem shiftLeft_of_neg (h : n.toInt < 0) : x.shiftLeft n = x.shiftRightBy (-n.toInt).toNat := by
  have hcount : n.toInt.natAbs = (-n.toInt).toNat := by omega
  rw [shiftLeft, if_pos h, hcount]

theorem shiftRight_of_neg (h : n.toInt < 0) : x.shiftRight n = x.shiftLeftBy (-n.toInt).toNat := by
  have hcount : n.toInt.natAbs = (-n.toInt).toNat := by omega
  rw [shiftRight, if_pos h, hcount]

/-! ### Places -/

theorem shiftLeftBy_eq_ofInt (x : Word) (k : Nat) : x.shiftLeftBy k = ofInt (x.toInt * 2 ^ k) := by
  rw [ofInt_shiftLeftBy, ofInt_toInt]

theorem toInt_shiftLeftBy (x : Word) (k : Nat) : (x.shiftLeftBy k).toInt = wrap (x.toInt * 2 ^ k) := by
  rw [shiftLeftBy_eq_ofInt, toInt_ofInt]

theorem shiftLeftBy_of_width_le (h : 32 ≤ k) : x.shiftLeftBy k = zero :=
  if_neg (Nat.not_lt.mpr h)

theorem shiftRightBy_of_width_le (h : 32 ≤ k) : x.shiftRightBy k = zero :=
  if_neg (Nat.not_lt.mpr h)

theorem toInt_shiftRightBy (h : k < 32) : (x.shiftRightBy k).toInt = x.toInt / 2 ^ k := by
  rw [shiftRightBy_of_lt_width h, toInt, BitVec.toInt_sshiftRight, Int.shiftRight_eq_div_pow]
  rfl

theorem floor_div_two_pow (a : Int) (k : Nat) : ⌊(a : ℚ) / 2 ^ k⌋ = a / 2 ^ k := by
  have h := Rat.floor_intCast_div_natCast a (2 ^ k)
  push_cast at h
  exact h

theorem shiftLeftBy_zero (x : Word) : x.shiftLeftBy 0 = x := by
  rw [shiftLeftBy_eq_ofInt, pow_zero, mul_one, ofInt_toInt]

theorem shiftRightBy_zero (x : Word) : x.shiftRightBy 0 = x := by
  rw [← toInt_inj, toInt_shiftRightBy (by omega), pow_zero, Int.ediv_one]

/-! ### The other way -/

theorem toInt_neg_least : (-least).toInt = least.toInt := by decide

theorem toInt_neg_of_ne_least (h : n ≠ least) : (-n).toInt = -n.toInt := by
  obtain ⟨hlo, hhi⟩ := n.toInt_bounds
  have hne : n.toInt ≠ -2147483648 := fun h' => h (toInt_inj.mp h')
  rw [toInt_neg, ← toInt_ofInt, toInt_ofInt_of_fits (by omega) (by omega)]

theorem shiftLeft_eq_shiftRight_neg (x n : Word) : x.shiftLeft n = x.shiftRight (-n) := by
  by_cases hn : n = least
  · -- The negation wraps, so the two sides shift in opposite directions; neither leaves a bit.
    subst hn
    rw [shiftLeft_of_neg (by decide), shiftRight_of_neg (by decide), toInt_neg_least]
    rw [shiftRightBy_of_width_le (by decide), shiftLeftBy_of_width_le (by decide)]
  · have hneg := toInt_neg_of_ne_least hn
    rcases Int.lt_trichotomy n.toInt 0 with h | h | h
    · rw [shiftLeft_of_neg h, shiftRight_of_nonneg (by omega), hneg]
    · rw [shiftLeft_of_nonneg (by omega), shiftRight_of_nonneg (by omega), hneg, h]
      exact (shiftLeftBy_zero x).trans (shiftRightBy_zero x).symm
    · rw [shiftLeft_of_nonneg (by omega), shiftRight_of_neg (by omega), hneg, Int.neg_neg]

/-- The exact meaning of shifts by any signed count: 0 from 32 places on, a product with a power of two without its high
    bits one way, and the floor of a quotient by it the other way. -/
theorem shift_by_signed_count (x n : Word) :
    (32 ≤ n.toInt ∨ n.toInt ≤ -32 → x.shiftLeft n = zero ∧ x.shiftRight n = zero) ∧
    (0 ≤ n.toInt → n.toInt < 32 →
      (x.shiftLeft n).toInt = wrap (x.toInt * 2 ^ n.toInt.toNat) ∧
      (x.shiftRight n).toInt = ⌊(x.toInt : ℚ) / 2 ^ n.toInt.toNat⌋) ∧
    (-32 < n.toInt → n.toInt < 0 →
      (x.shiftLeft n).toInt = ⌊(x.toInt : ℚ) / 2 ^ (-n.toInt).toNat⌋ ∧
      (x.shiftRight n).toInt = wrap (x.toInt * 2 ^ (-n.toInt).toNat)) ∧
    x.shiftLeft n = x.shiftRight (-n) := by
  refine ⟨?_, ?_, ?_, shiftLeft_eq_shiftRight_neg x n⟩
  · rintro (h | h)
    · rw [shiftLeft_of_nonneg (by omega), shiftRight_of_nonneg (by omega)]
      exact ⟨shiftLeftBy_of_width_le (by omega), shiftRightBy_of_width_le (by omega)⟩
    · rw [shiftLeft_of_neg (by omega), shiftRight_of_neg (by omega)]
      exact ⟨shiftRightBy_of_width_le (by omega), shiftLeftBy_of_width_le (by omega)⟩
  · intro hlo hhi
    rw [shiftLeft_of_nonneg hlo, shiftRight_of_nonneg hlo, floor_div_two_pow]
    exact ⟨toInt_shiftLeftBy x _, toInt_shiftRightBy (by omega)⟩
  · intro hlo hhi
    rw [shiftLeft_of_neg hhi, shiftRight_of_neg hhi, floor_div_two_pow]
    exact ⟨toInt_shiftRightBy (by omega), toInt_shiftLeftBy x _⟩

/-- Shifts of -3 by the least count, which leave 0, and by 31 and -31, which leave the sign and the last bit. -/
theorem shift_of_minus_three :
    (least.toInt ≤ -32 ∧ (ofInt (-3)).shiftLeft least = zero ∧ (ofInt (-3)).shiftRight least = zero) ∧
    (0 ≤ (ofInt 31).toInt ∧ (ofInt 31).toInt < 32 ∧
      ((ofInt (-3)).shiftLeft (ofInt 31)).toInt = wrap (-3 * 2 ^ 31) ∧
      ((ofInt (-3)).shiftRight (ofInt 31)).toInt = ⌊(-3 : ℚ) / 2 ^ 31⌋) ∧
    (-32 < (ofInt (-31)).toInt ∧ (ofInt (-31)).toInt < 0 ∧
      ((ofInt (-3)).shiftLeft (ofInt (-31))).toInt = ⌊(-3 : ℚ) / 2 ^ 31⌋ ∧
      ((ofInt (-3)).shiftRight (ofInt (-31))).toInt = wrap (-3 * 2 ^ 31)) := by
  have hthree : (((ofInt (-3)).toInt : Int) : ℚ) = -3 := by
    rw [toInt_ofInt_of_fits (by decide) (by decide)]
    norm_num
  obtain ⟨hout, -, -, -⟩ := shift_by_signed_count (ofInt (-3)) least
  obtain ⟨-, hforward, -, -⟩ := shift_by_signed_count (ofInt (-3)) (ofInt 31)
  obtain ⟨-, -, hback, -⟩ := shift_by_signed_count (ofInt (-3)) (ofInt (-31))
  rw [hthree] at hforward hback
  exact ⟨⟨by decide, hout (Or.inr (by decide))⟩,
    ⟨by decide, by decide, hforward (by decide) (by decide)⟩,
    ⟨by decide, by decide, hback (by decide) (by decide)⟩⟩

end Word
end ScalarOps
