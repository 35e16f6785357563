import ScalarOps.Proofs.ShiftLaws

/-! Bits and arithmetic. A right shift is the quotient by a power of two, and the low bits are the remainder, as long
    as the power fits a word. A sum is the sum of the bits that differ and the bits in common, these moved one place
    up: they are the carries. -/

namespace ScalarOps
namespace Word

variable {x : Word} {k i : Nat}

/-! ### Powers of two and masks -/

/-- The word whose low `k` bits are set. -/
def mask (k : Nat) : Word := ofInt (2 ^ k - 1)

theorem two_pow_sub_one_eq_mask (k : Nat) : (ofInt 2).pow k - ofInt 1 = mask k := by
  rw [← ofInt_pow, ← ofInt_sub, mask]

theorem toInt_two_pow (h : k < 31) : ((ofInt 2).pow k).toInt = 2 ^ k := by
  have hlt : (2 : Int) ^ k < 2 ^ 31 := pow_lt_pow_right₀ (by decide) h
  have hpos : (0 : Int) < 2 ^ k := by positivity
  rw [← ofInt_pow]
  exact toInt_ofInt_of_fits (by omega) (by omega)

theorem two_pow_ne_zero (h : k < 31) : (ofInt 2).pow k ≠ zero := by
  have hpos : (0 : Int) < 2 ^ k := by positivity
  have hzero : zero.toInt = 0 := rfl
  rw [Ne, ← toInt_inj, toInt_two_pow h, hzero]
  exact hpos.ne'

theorem toNat_mask (h : k ≤ 32) : (mask k).bits.toNat = 2 ^ k - 1 := by
  have hle : 2 ^ k ≤ 2 ^ 32 := Nat.pow_le_pow_right (by decide) h
  have hpos : 0 < 2 ^ k := Nat.two_pow_pos k
  have hcast : ((2 ^ k - 1 : Nat) : Int) = 2 ^ k - 1 := by
    push_cast [hpos]
    rfl
  rw [mask, ofInt, BitVec.toNat_ofInt, ← hcast]
  norm_cast
  exact Nat.mod_eq_of_lt (by omega)

theorem getLsbD_mask (h : k ≤ 32) (i : Nat) : (mask k).bits.getLsbD i = decide (i < k) := by
  rw [BitVec.getLsbD, toNat_mask h, Nat.testBit_two_pow_sub_one]

/-! ### Low bits are a remainder -/

theorem toNat_bits (x : Word) : (x.bits.toNat : Int) = x.toInt % 2 ^ 32 := by
  have hbits : x.bits = BitVec.ofInt 32 x.toInt := (BitVec.ofInt_toInt).symm
  rw [hbits, BitVec.toNat_ofInt]
  exact Int.toNat_of_nonneg (Int.emod_nonneg _ (by decide))

theorem and_mask (x : Word) (h : k ≤ 32) : x &&& mask k = ofInt (x.toInt % 2 ^ k) := by
  have hlow : (x &&& mask k).bits.toNat = x.bits.toNat % 2 ^ k := by
    show (x.bits &&& (mask k).bits).toNat = _
    rw [BitVec.toNat_and, toNat_mask h, Nat.and_two_pow_sub_one_eq_mod]
  have hexact : ((x &&& mask k).bits.toNat : Int) = x.toInt % 2 ^ k := by
    rw [hlow, Int.natCast_mod, toNat_bits]
    push_cast
    exact Int.emod_emod_of_dvd _ (pow_dvd_pow 2 h)
  rw [← hexact, ofInt, BitVec.ofInt_natCast, BitVec.ofNat_toNat, BitVec.setWidth_eq]

theorem getLsbD_and_mask (x : Word) (h : k ≤ 32) (i : Nat) :
    (x &&& mask k).bits.getLsbD i = (x.bits.getLsbD i && decide (i < k)) := by
  show (x.bits &&& (mask k).bits).getLsbD i = _
  rw [BitVec.getLsbD_and, getLsbD_mask h]

theorem high_or_low (x : Word) (hk : k < 32) :
    ((x.shiftRightBy k).shiftLeftBy k ||| (x &&& mask k)) = x := by
  have hbits : ((x.shiftRightBy k).shiftLeftBy k).bits ||| (x &&& mask k).bits = x.bits := by
    apply BitVec.eq_of_getLsbD_eq
    intro i hi
    rw [BitVec.getLsbD_or, getLsbD_shiftLeftBy_shiftRightBy hk hi, getLsbD_and_mask x hk.le]
    rcases Nat.lt_or_ge i k with h | h
    · simp [h]
    · simp [h]
  exact congrArg mk hbits

/-! ### Sums and carries -/

theorem add_eq_xor_add_two_mul_and {k : Nat} (a b : Nat) (ha : a < 2 ^ k) (hb : b < 2 ^ k) :
    a + b = (a ^^^ b) + 2 * (a &&& b) := by
  -- Both numbers lose their last bit from one bound to the next; the last bits alone satisfy the equation.
  induction k generalizing a b with
  | zero =>
    obtain rfl : a = 0 := by omega
    obtain rfl : b = 0 := by omega
    rfl
  | succ k ih =>
    have hhalf := ih (a / 2) (b / 2) (by omega) (by omega)
    rw [← Nat.xor_div_two, ← Nat.and_div_two] at hhalf
    have hdiffer : (a ^^^ b) % 2 = 1 ↔ ¬(a % 2 = 1 ↔ b % 2 = 1) := Nat.xor_mod_two_eq_one
    have hcommon : (a &&& b) % 2 = 1 ↔ a % 2 = 1 ∧ b % 2 = 1 := Nat.and_mod_two_eq_one
    omega

theorem add_eq_xor_add_and_shiftLeftBy (a b : Word) : a + b = (a ^^^ b) + (a &&& b).shiftLeftBy 1 := by
  have hbits : a.bits + b.bits = (a.bits ^^^ b.bits) + (a.bits &&& b.bits) <<< 1 := by
    apply BitVec.eq_of_toNat_eq
    rw [BitVec.toNat_add, BitVec.toNat_add, BitVec.toNat_shiftLeft, BitVec.toNat_xor, BitVec.toNat_and,
      Nat.shiftLeft_eq, pow_one, Nat.add_mod_mod, Nat.mul_comm, add_eq_xor_add_two_mul_and _ _ a.bits.isLt b.bits.isLt]
  rw [shiftLeftBy_of_lt_width (by decide)]
  exact congrArg mk hbits

end Word

/-! ### Through the operators -/

namespace Calculation

variable {n : Word}

theorem hasInt_two_pow (hn : 0 ≤ n.toInt) : ((2 : Calculation) ^ int n).HasInt ((Word.ofInt 2).pow n.toInt.toNat) :=
  (hasInt_ofNat 2).pow (hasInt_int n) hn

theorem hasInt_low_bits (x : Word) (hn : 0 ≤ n.toInt) :
    (int x &&& (2 ^ int n - 1)).HasInt (x &&& Word.mask n.toInt.toNat) := by
  rw [← Word.two_pow_sub_one_eq_mask]
  exact (hasInt_int x).and ((hasInt_two_pow hn).sub (hasInt_ofNat 1))

/-- A right shift and the low bits are quotient and remainder by a power of two, the high and the low bits make up the
    word, and a sum is the bits that differ and, moved one place to the left, the bits in common. -/
theorem bits_agree_with_arithmetic (x a b n : Word) :
    (0 ≤ n.toInt → n.toInt ≤ 30 →
      SameInt (int x >>> int n) (int x / 2 ^ int n) ∧
      SameInt (int x &&& (2 ^ int n - 1)) (int x % 2 ^ int n)) ∧
    (0 ≤ n.toInt → n.toInt ≤ 31 →
      SameInt ((int x >>> int n <<< int n) ||| (int x &&& (2 ^ int n - 1))) (int x)) ∧
    SameInt (int a + int b) ((int a ^^^ int b) + ((int a &&& int b) <<< 1)) := by
  have hx := hasInt_int x
  have hn := hasInt_int n
  refine ⟨fun hn0 hle => ?_, fun hn0 hle => ?_, ?_⟩
  · have hk : n.toInt.toNat < 31 := by omega
    have hpow := Word.toInt_two_pow hk
    have hquot := hx.div (hasInt_two_pow hn0) (Word.two_pow_ne_zero hk)
    have hrem := hx.mod (hasInt_two_pow hn0) (Word.two_pow_ne_zero hk)
    rw [hpow, Int.fdiv_eq_ediv_of_nonneg _ (by positivity)] at hquot
    rw [hpow, Int.fmod_eq_emod_of_nonneg _ (by positivity)] at hrem
    refine ⟨⟨_, hx.shiftRight hn hn0, ?_⟩, _, hasInt_low_bits x hn0, ?_⟩
    · rw [← Word.ofInt_toInt (x.shiftRightBy _), Word.toInt_shiftRightBy (by omega)]
      exact hquot
    · rw [Word.and_mask x (by omega)]
      exact hrem
  · refine ⟨_, ((hx.shiftRight hn hn0).shiftLeft hn hn0).or (hasInt_low_bits x hn0), ?_⟩
    rw [Word.high_or_low x (by omega)]
    exact hx
  · have ha := hasInt_int a
    have hb := hasInt_int b
    have hone : (1 : Calculation).HasInt (.ofInt 1) := hasInt_ofNat 1
    refine ⟨_, ha.add hb, ?_⟩
    rw [Word.add_eq_xor_add_and_shiftLeftBy]
    exact (ha.xor hb).add ((ha.and hb).shiftLeft hone (by decide))

/-- The least word by the greatest power of two that fits a word: the shift is the quotient -2, and no low bit is left. -/
theorem bits_of_least_agree_with_arithmetic :
    0 ≤ (Word.ofInt 30).toInt ∧ (Word.ofInt 30).toInt ≤ 30 ∧
    SameInt (int .least >>> int (.ofInt 30)) (int .least / 2 ^ int (.ofInt 30)) ∧
    SameInt (int .least &&& (2 ^ int (.ofInt 30) - 1)) (int .least % 2 ^ int (.ofInt 30)) ∧
    SameInt ((int .least >>> int (.ofInt 30) <<< int (.ofInt 30)) |||
      (int .least &&& (2 ^ int (.ofInt 30) - 1))) (int .least) := by
  obtain ⟨hlow, hhigh, -⟩ := bits_agree_with_arithmetic .least .zero .zero (.ofInt 30)
  obtain ⟨hquot, hrem⟩ := hlow (by decide) (by decide)
  exact ⟨by decide, by decide, hquot, hrem, hhigh (by decide) (by decide)⟩

end Calculation
end ScalarOps
