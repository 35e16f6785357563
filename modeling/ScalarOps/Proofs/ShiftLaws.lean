import ScalarOps.Proofs.Calculation

/-! Shifts in sequence. Two shifts one way are one by both counts, except that right shifts by counts below 32 that
    add up to 32 or more leave -1 of a negative word one after the other, and 0 at once. A left shift is undone by the
    right shift for the words that keep their sign in it. -/

namespace ScalarOps
namespace Word

variable {x : Word} {j k : Nat}

/-! ### Two shifts one way -/

theorem shiftLeftBy_shiftLeftBy (x : Word) (j k : Nat) : (x.shiftLeftBy j).shiftLeftBy k = x.shiftLeftBy (j + k) := by
  rw [shiftLeftBy_eq_ofInt x j, ← ofInt_shiftLeftBy, shiftLeftBy_eq_ofInt, pow_add, mul_assoc]

theorem zero_shiftRightBy (k : Nat) : zero.shiftRightBy k = zero := by
  rcases Nat.lt_or_ge k 32 with hk | hk
  · have hzero : zero.toInt = 0 := rfl
    rw [← toInt_inj, toInt_shiftRightBy hk, hzero, Int.zero_ediv]
  · exact shiftRightBy_of_width_le hk

theorem toInt_shiftRightBy_shiftRightBy (hj : j < 32) (hk : k < 32) :
    ((x.shiftRightBy j).shiftRightBy k).toInt = x.toInt / 2 ^ (j + k) := by
  rw [toInt_shiftRightBy hk, toInt_shiftRightBy hj, pow_add, Int.ediv_ediv_of_nonneg (by positivity)]

theorem bounds_two_pow (x : Word) (h : 32 ≤ k) : -2 ^ k < x.toInt ∧ x.toInt < 2 ^ k := by
  obtain ⟨hlo, hhi⟩ := x.toInt_bounds
  have hpow : (2 : Int) ^ 32 ≤ 2 ^ k := pow_le_pow_right₀ (by decide) h
  omega

/-- Every place of a negative word is moved out, but under copies of its sign. -/
theorem shiftRightBy_apart (hx : x.toInt < 0) (hj : j < 32) (hk : k < 32) (h : 32 ≤ j + k) :
    (x.shiftRightBy j).shiftRightBy k = ofInt (-1) := by
  obtain ⟨hlo, -⟩ := bounds_two_pow x h
  rw [← toInt_inj, toInt_shiftRightBy_shiftRightBy hj hk]
  exact Int.ediv_eq_neg_one_of_neg_of_le hx (by omega)

theorem shiftRightBy_shiftRightBy (h : ¬(x.toInt < 0 ∧ j < 32 ∧ k < 32 ∧ 32 ≤ j + k)) :
    (x.shiftRightBy j).shiftRightBy k = x.shiftRightBy (j + k) := by
  rcases Nat.lt_or_ge j 32 with hj | hj
  · rcases Nat.lt_or_ge k 32 with hk | hk
    · rw [← toInt_inj, toInt_shiftRightBy_shiftRightBy hj hk]
      rcases Nat.lt_or_ge (j + k) 32 with hsum | hsum
      · rw [toInt_shiftRightBy hsum]
      · -- Only here the two sides take different ways to 0: a word that is not negative runs out of bits.
        have hx : 0 ≤ x.toInt := by omega
        rw [shiftRightBy_of_width_le hsum]
        exact Int.ediv_eq_zero_of_lt hx (bounds_two_pow x hsum).2
    · rw [shiftRightBy_of_width_le hk, shiftRightBy_of_width_le (by omega)]
  · rw [shiftRightBy_of_width_le hj, zero_shiftRightBy, shiftRightBy_of_width_le (by omega)]

/-! ### There and back -/

theorem wrap_eq_self_iff {n : Int} : wrap n = n ↔ -2147483648 ≤ n ∧ n < 2147483648 := by
  constructor
  · intro h
    rw [← toInt_ofInt] at h
    have := (ofInt n).toInt_bounds
    omega
  · rintro ⟨hlo, hhi⟩
    rw [← toInt_ofInt]
    exact toInt_ofInt_of_fits hlo hhi

theorem two_pow_dvd_wrap {n : Int} (hk : k < 32) (h : (2 : Int) ^ k ∣ n) : 2 ^ k ∣ wrap n := by
  -- `wrap` takes a multiple of `2^32` away, which `2^k` divides.
  have hsplit := Int.bmod_add_bdiv n 0x100000000
  have hwrap : wrap n = n - 2 ^ 32 * n.bdiv 0x100000000 := by
    rw [wrap]
    push_cast at hsplit
    omega
  rw [hwrap]
  exact Int.dvd_sub h (Dvd.dvd.mul_right (pow_dvd_pow 2 hk.le) _)

/-- A word comes back from a left shift if it is among the words of `32 - k` bits, and no other word does. -/
theorem shiftRightBy_shiftLeftBy_eq_iff (hk : k < 32) :
    (x.shiftLeftBy k).shiftRightBy k = x ↔ -2 ^ (31 - k) ≤ x.toInt ∧ x.toInt < 2 ^ (31 - k) := by
  have hpos : (0 : Int) < 2 ^ k := by positivity
  have hwidth : (2147483648 : Int) = 2 ^ (31 - k) * 2 ^ k := by
    rw [← pow_add, show 31 - k + k = 31 by omega]
    rfl
  calc (x.shiftLeftBy k).shiftRightBy k = x
      ↔ wrap (x.toInt * 2 ^ k) / 2 ^ k = x.toInt := by
        rw [← toInt_inj, toInt_shiftRightBy hk, toInt_shiftLeftBy]
    _ ↔ wrap (x.toInt * 2 ^ k) = x.toInt * 2 ^ k :=
        Int.ediv_eq_iff_eq_mul_left hpos.ne' (two_pow_dvd_wrap hk (Dvd.intro_left _ rfl))
    _ ↔ -2147483648 ≤ x.toInt * 2 ^ k ∧ x.toInt * 2 ^ k < 2147483648 := wrap_eq_self_iff
    _ ↔ -2 ^ (31 - k) ≤ x.toInt ∧ x.toInt < 2 ^ (31 - k) := by
        rw [hwidth, ← neg_mul, mul_le_mul_iff_left₀ hpos, mul_lt_mul_iff_left₀ hpos]

/-- A right shift and the left shift back keep the bits from the `k`th on and clear the others. -/
theorem getLsbD_shiftLeftBy_shiftRightBy {i : Nat} (hk : k < 32) (hi : i < 32) :
    ((x.shiftRightBy k).shiftLeftBy k).bits.getLsbD i = (decide (k ≤ i) && x.bits.getLsbD i) := by
  rw [shiftRightBy_of_lt_width hk, shiftLeftBy_of_lt_width hk, BitVec.getLsbD_shiftLeft, BitVec.getLsbD_sshiftRight]
  rcases Nat.lt_or_ge i k with h | h
  · simp [h]
  · have hback : k + (i - k) = i := by omega
    have hlow : ¬i < k := by omega
    have hin : ¬32 ≤ i - k := by omega
    simp [hback, hlow, hin, h, hi]

/-! ### Through the operators -/

/-- The sign of a negative word survives each of two right shifts, but not the shift by both counts at once. -/
def LosesSignAtOnce (x m n : Word) : Prop :=
  x.toInt < 0 ∧ m.toInt < 32 ∧ n.toInt < 32 ∧ 32 ≤ m.toInt + n.toInt

theorem losesSignAtOnce_iff {m n : Word} (hm : 0 ≤ m.toInt) (hn : 0 ≤ n.toInt) :
    x.LosesSignAtOnce m n ↔
      x.toInt < 0 ∧ m.toInt.toNat < 32 ∧ n.toInt.toNat < 32 ∧ 32 ≤ m.toInt.toNat + n.toInt.toNat := by
  unfold LosesSignAtOnce
  omega

theorem toNat_toInt_add {m n : Word} (hm : 0 ≤ m.toInt) (hn : 0 ≤ n.toInt) (h : m.toInt + n.toInt ≤ 2147483647) :
    0 ≤ (m + n).toInt ∧ (m + n).toInt.toNat = m.toInt.toNat + n.toInt.toNat := by
  have hsum : (m + n).toInt = m.toInt + n.toInt := by
    rw [toInt_add, wrap_eq_self_iff]
    omega
  omega

end Word

namespace Calculation

/-- Two shifts one way are the shift by the sum of the counts, except where two right shifts leave -1 and one leaves
    0. A left and a right shift by one count give back exactly the words of `32 - n` bits, and a right and a left
    shift clear the low bits. -/
theorem shifts_in_sequence (x m n : Word) :
    (0 ≤ m.toInt → 0 ≤ n.toInt → m.toInt + n.toInt ≤ 2147483647 →
      SameInt (int x <<< int m <<< int n) (int x <<< (int m + int n)) ∧
      ∃ y z, (int x >>> int m >>> int n).HasInt y ∧ (int x >>> (int m + int n)).HasInt z ∧
        (¬x.LosesSignAtOnce m n → y = z) ∧ (x.LosesSignAtOnce m n → y = .ofInt (-1) ∧ z = .zero)) ∧
    (0 ≤ n.toInt → n.toInt < 32 →
      (∃ y, (int x <<< int n >>> int n).HasInt y ∧
        (y = x ↔ -2 ^ (31 - n.toInt.toNat) ≤ x.toInt ∧ x.toInt < 2 ^ (31 - n.toInt.toNat))) ∧
      ∃ y, (int x >>> int n <<< int n).HasInt y ∧
        ∀ i < 32, y.bits.getLsbD i = (decide (n.toInt.toNat ≤ i) && x.bits.getLsbD i)) := by
  have hx := hasInt_int x
  have hm := hasInt_int m
  have hn := hasInt_int n
  refine ⟨fun hm0 hn0 hfits => ?_, fun hn0 hlt => ?_⟩
  · obtain ⟨hsum0, hsum⟩ := Word.toNat_toInt_add hm0 hn0 hfits
    have hleft := hx.shiftLeft (hm.add hn) hsum0
    have hright := hx.shiftRight (hm.add hn) hsum0
    rw [hsum] at hleft hright
    refine ⟨⟨_, (hx.shiftLeft hm hm0).shiftLeft hn hn0, ?_⟩, _, _, (hx.shiftRight hm hm0).shiftRight hn hn0, hright,
      fun h => ?_, fun h => ?_⟩
    · rw [Word.shiftLeftBy_shiftLeftBy]
      exact hleft
    · rw [Word.losesSignAtOnce_iff hm0 hn0] at h
      exact Word.shiftRightBy_shiftRightBy h
    · obtain ⟨hneg, hmlt, hnlt, hge⟩ := (Word.losesSignAtOnce_iff hm0 hn0).mp h
      exact ⟨Word.shiftRightBy_apart hneg hmlt hnlt hge, Word.shiftRightBy_of_width_le hge⟩
  · have hk : n.toInt.toNat < 32 := by omega
    exact ⟨⟨_, (hx.shiftLeft hn hn0).shiftRight hn hn0, Word.shiftRightBy_shiftLeftBy_eq_iff hk⟩,
      _, (hx.shiftRight hn hn0).shiftLeft hn hn0, fun i hi => Word.getLsbD_shiftLeftBy_shiftRightBy hk hi⟩

/-- -2 shifted right by 20 twice is -1, but by 40 it is 0; and -2 comes back from a left shift by 30, as the least word of
    two bits. -/
theorem shifts_of_minus_two_in_sequence :
    (0 ≤ (Word.ofInt 20).toInt ∧ (Word.ofInt 20).toInt + (Word.ofInt 20).toInt ≤ 2147483647 ∧
      (Word.ofInt (-2)).LosesSignAtOnce (.ofInt 20) (.ofInt 20) ∧
      (int (.ofInt (-2)) >>> int (.ofInt 20) >>> int (.ofInt 20)).HasInt (.ofInt (-1)) ∧
      (int (.ofInt (-2)) >>> (int (.ofInt 20) + int (.ofInt 20))).HasInt .zero) ∧
    (0 ≤ (Word.ofInt 30).toInt ∧ (Word.ofInt 30).toInt < 32 ∧
      (int (.ofInt (-2)) <<< int (.ofInt 30) >>> int (.ofInt 30)).HasInt (.ofInt (-2))) := by
  have hloses : (Word.ofInt (-2)).LosesSignAtOnce (.ofInt 20) (.ofInt 20) := by
    refine ⟨?_, ?_, ?_, ?_⟩ <;> decide
  obtain ⟨hcompose, -⟩ := shifts_in_sequence (.ofInt (-2)) (.ofInt 20) (.ofInt 20)
  obtain ⟨-, y, z, hy, hz, -, hlost⟩ := hcompose (by decide) (by decide) (by decide)
  obtain ⟨-, hreturn⟩ := shifts_in_sequence (.ofInt (-2)) .zero (.ofInt 30)
  obtain ⟨⟨w, hw, hiff⟩, -⟩ := hreturn (by decide) (by decide)
  obtain ⟨rfl, rfl⟩ := hlost hloses
  obtain rfl := hiff.mpr (by decide)
  exact ⟨⟨by decide, by decide, hloses, hy, hz⟩, by decide, by decide, hw⟩

end Calculation
end ScalarOps
