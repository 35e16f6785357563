import Mathlib.Analysis.SpecialFunctions.Pow.Real
import ScalarOps.Binary64.Enclosure

/-! Enclosures hold their number: what is between the bounds of the operands has its product, power, root or
    reciprocal between the bounds of the result. Every step rounds one integer down and one up, by a shift
    (`Encloses.widen`) or an integer square root (`floorSqrt_eq_sqrt`). -/

namespace ScalarOps

theorem floorSqrt_eq_sqrt (n : Nat) : floorSqrt n = n.sqrt := by
  induction n using Nat.strong_induction_on with
  | _ n ih =>
    rw [floorSqrt]
    by_cases hn : n = 0
    · rw [if_pos hn, hn, Nat.sqrt_zero]
    · obtain ⟨hlow, hhigh⟩ := Nat.eq_sqrt.mp (ih (n / 4) (by omega))
      rw [if_neg hn]
      dsimp only
      generalize floorSqrt (n / 4) = r at hlow hhigh
      -- Two more bits double the root, and may add 1 to it.
      have hdouble : 2 * r * (2 * r) ≤ n := by
        calc 2 * r * (2 * r) = 4 * (r * r) := by ring
          _ ≤ n := by omega
      have hnext : n < (2 * r + 1 + 1) * (2 * r + 1 + 1) := by
        calc n < 4 * ((r + 1) * (r + 1)) := by omega
          _ = (2 * r + 1 + 1) * (2 * r + 1 + 1) := by ring
      split
      · next hle => exact Nat.eq_sqrt.mpr ⟨hle, hnext⟩
      · next hlt => exact Nat.eq_sqrt.mpr ⟨hdouble, Nat.lt_of_not_le hlt⟩

theorem two_zpow_pos (e : Int) : (0 : ℝ) < 2 ^ e := zpow_pos two_pos e

theorem mul_two_zpow_add (n : ℝ) (e : Int) (k : Nat) : n * 2 ^ (e + k) = n * 2 ^ k * 2 ^ e := by
  rw [zpow_add₀ two_ne_zero, zpow_natCast]
  ring

theorem two_pow_toNat_div {K : Type} [Field K] [CharZero K] (k : Int) : (2 : K) ^ k.toNat / 2 ^ (-k).toNat = 2 ^ k := by
  rw [← zpow_natCast, ← zpow_natCast, ← zpow_sub₀ two_ne_zero, show (k.toNat : Int) - (-k).toNat = k by omega]

namespace Enclosure

/-- The lower bound. -/
def lowerEnd (x : Enclosure) : ℚ := x.lower * 2 ^ x.exponent

/-- The upper bound. -/
def upperEnd (x : Enclosure) : ℚ := x.upper * 2 ^ x.exponent

/-- The number lies between the bounds. -/
structure Encloses (x : Enclosure) (r : ℝ) : Prop where
  lower_le : x.lowerEnd ≤ r
  le_upper : r ≤ x.upperEnd

variable {x y : Enclosure} {r s : ℝ}

theorem lowerEnd_cast (x : Enclosure) : (x.lowerEnd : ℝ) = x.lower * 2 ^ x.exponent := by
  rw [lowerEnd]
  push_cast
  rfl

theorem upperEnd_cast (x : Enclosure) : (x.upperEnd : ℝ) = x.upper * 2 ^ x.exponent := by
  rw [upperEnd]
  push_cast
  rfl

theorem lowerEnd_nonneg (x : Enclosure) : (0 : ℝ) ≤ x.lowerEnd := by
  rw [lowerEnd_cast]
  exact mul_nonneg (Nat.cast_nonneg _) (two_zpow_pos _).le

theorem Encloses.nonneg (h : x.Encloses r) : 0 ≤ r := x.lowerEnd_nonneg.trans h.lower_le

theorem encloses_exactly (n : Nat) (e : Int) : (exactly n e).Encloses (n * 2 ^ e) :=
  ⟨(lowerEnd_cast (exactly n e)).le, (upperEnd_cast (exactly n e)).ge⟩

theorem Encloses.widen (h : x.Encloses r) (bits : Nat) : (widen bits x).Encloses r := by
  unfold Enclosure.widen
  dsimp only
  generalize x.upper.log2 + 1 - bits = drop
  split
  · exact h
  · have hlower : ((x.lower >>> drop : Nat) : ℝ) * 2 ^ drop ≤ x.lower := by
      rw [Nat.shiftRight_eq_div_pow]
      exact_mod_cast Nat.div_mul_le_self x.lower (2 ^ drop)
    have hupper : (x.upper : ℝ) ≤ ((x.upper >>> drop + 1 : Nat) : ℝ) * 2 ^ drop := by
      rw [Nat.shiftRight_eq_div_pow, mul_comm]
      exact_mod_cast (Nat.lt_mul_div_succ x.upper (Nat.two_pow_pos drop)).le
    refine ⟨le_trans ?_ h.lower_le, h.le_upper.trans ?_⟩
    · rw [lowerEnd_cast, lowerEnd_cast, mul_two_zpow_add]
      exact mul_le_mul_of_nonneg_right hlower (two_zpow_pos _).le
    · rw [upperEnd_cast, upperEnd_cast, mul_two_zpow_add]
      exact mul_le_mul_of_nonneg_right hupper (two_zpow_pos _).le

theorem Encloses.mul (hx : x.Encloses r) (hy : y.Encloses s) (bits : Nat) : (mul bits x y).Encloses (r * s) := by
  have hends : ∀ m n : Nat, ((m * n : Nat) : ℝ) * 2 ^ (x.exponent + y.exponent) =
      m * 2 ^ x.exponent * (n * 2 ^ y.exponent) := by
    intro m n
    rw [zpow_add₀ two_ne_zero, Nat.cast_mul]
    ring
  refine Encloses.widen ⟨?_, ?_⟩ bits
  · rw [lowerEnd_cast, hends, ← lowerEnd_cast, ← lowerEnd_cast]
    exact mul_le_mul hx.lower_le hy.lower_le y.lowerEnd_nonneg hx.nonneg
  · rw [upperEnd_cast, hends, ← upperEnd_cast, ← upperEnd_cast]
    exact mul_le_mul hx.le_upper hy.le_upper hy.nonneg (hx.nonneg.trans hx.le_upper)

theorem Encloses.pow (h : x.Encloses r) (bits n : Nat) : (pow bits x n).Encloses (r ^ n) := by
  induction n using Nat.strong_induction_on generalizing x r with
  | _ n ih =>
    rw [Enclosure.pow]
    by_cases hn : n = 0
    · rw [if_pos hn, hn, pow_zero]
      simpa using encloses_exactly 1 0
    · have hhalf := ih (n / 2) (by omega) (h.mul h bits)
      rw [← pow_two, ← pow_mul] at hhalf
      rw [if_neg hn]
      dsimp only
      by_cases heven : n % 2 = 0
      · rw [show 2 * (n / 2) = n by omega] at hhalf
        rwa [if_pos heven]
      · have hodd := h.mul hhalf bits
        rw [← pow_succ', show 2 * (n / 2) + 1 = n by omega] at hodd
        rwa [if_neg heven]

theorem Encloses.sqrt (h : x.Encloses r) (bits : Nat) : (sqrt bits x).Encloses (√r) := by
  unfold Enclosure.sqrt
  dsimp only
  have heven : (x.exponent - (bits + ((x.exponent - bits) % 2).toNat : Nat)) % 2 = 0 := by omega
  generalize bits + ((x.exponent - bits) % 2).toNat = scale at heven
  obtain ⟨k, hk⟩ : ∃ k : Int, x.exponent - scale = 2 * k := ⟨(x.exponent - scale) / 2, by omega⟩
  have hhalf : (x.exponent - scale) / 2 = k := by omega
  -- Behind the zeros that are moved in, the exponent is even and is halved by the root.
  have hsquare : ∀ n : ℝ, (n * 2 ^ k) ^ 2 = n ^ 2 * 2 ^ (x.exponent - scale) := fun n => by
    rw [mul_pow, hk, two_mul, zpow_add₀ two_ne_zero, ← pow_two]
  have hscaled : ∀ n : Nat, ((n <<< scale : Nat) : ℝ) * 2 ^ (x.exponent - scale) = n * 2 ^ x.exponent := fun n => by
    rw [Nat.shiftLeft_eq, Nat.cast_mul, Nat.cast_pow, Nat.cast_ofNat, ← mul_two_zpow_add, sub_add_cancel]
  rw [hhalf, floorSqrt_eq_sqrt, floorSqrt_eq_sqrt]
  constructor
  · rw [lowerEnd_cast]
    apply Real.le_sqrt_of_sq_le
    calc ((x.lower <<< scale).sqrt * 2 ^ k : ℝ) ^ 2 = ((x.lower <<< scale).sqrt : ℝ) ^ 2 * 2 ^ (x.exponent - scale) :=
          hsquare _
      _ ≤ (x.lower <<< scale : Nat) * 2 ^ (x.exponent - scale) :=
          mul_le_mul_of_nonneg_right (by exact_mod_cast Nat.sqrt_le' _) (two_zpow_pos _).le
      _ = x.lowerEnd := (hscaled x.lower).trans x.lowerEnd_cast.symm
      _ ≤ r := h.lower_le
  · rw [upperEnd_cast]
    refine Real.sqrt_le_iff.mpr ⟨mul_nonneg (Nat.cast_nonneg _) (two_zpow_pos k).le, ?_⟩
    calc r ≤ x.upperEnd := h.le_upper
      _ = (x.upper <<< scale : Nat) * 2 ^ (x.exponent - scale) := x.upperEnd_cast.trans (hscaled x.upper).symm
      _ ≤ ((x.upper <<< scale).sqrt + 1 : Nat) ^ 2 * 2 ^ (x.exponent - scale) :=
          mul_le_mul_of_nonneg_right (by exact_mod_cast (Nat.lt_succ_sqrt' _).le) (two_zpow_pos _).le
      _ = (((x.upper <<< scale).sqrt + 1 : Nat) * 2 ^ k) ^ 2 := (hsquare _).symm

theorem Encloses.root (h : x.Encloses r) (bits depth : Nat) : (root bits x depth).Encloses (Real.sqrt^[depth] r) := by
  induction depth generalizing x r with
  | zero => exact h
  | succ depth ih => exact ih (h.sqrt bits)

theorem encloses_reciprocal {n : Nat} (hn : n ≠ 0) (bits : Nat) (e : Int) :
    (reciprocal bits n e).Encloses (n * 2 ^ e)⁻¹ := by
  unfold reciprocal
  dsimp only
  generalize bits + n.log2 + 1 = scale
  have hpos : (0 : ℝ) < n := Nat.cast_pos.mpr (Nat.pos_of_ne_zero hn)
  have hvalue : ((n : ℝ) * 2 ^ e)⁻¹ = (1 <<< scale : Nat) / n * 2 ^ (-e - scale) := by
    rw [Nat.shiftLeft_eq, Nat.one_mul, Nat.cast_pow, Nat.cast_ofNat, div_mul_eq_mul_div, mul_comm ((2 : ℝ) ^ scale),
      ← zpow_natCast, ← zpow_add₀ two_ne_zero, sub_add_cancel, zpow_neg, mul_inv, div_eq_inv_mul]
  rw [hvalue]
  constructor
  · rw [lowerEnd_cast]
    exact mul_le_mul_of_nonneg_right Nat.cast_div_le (two_zpow_pos _).le
  · rw [upperEnd_cast]
    refine mul_le_mul_of_nonneg_right ?_ (two_zpow_pos _).le
    rw [div_le_iff₀' hpos]
    exact_mod_cast (Nat.lt_mul_div_succ (1 <<< scale) (Nat.pos_of_ne_zero hn)).le

end Enclosure
end ScalarOps
