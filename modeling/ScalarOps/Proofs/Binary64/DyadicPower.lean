import Mathlib.Algebra.Order.Floor.Semifield
import Mathlib.Analysis.Convex.SpecificFunctions.Basic
import ScalarOps.Binary64.Power
import ScalarOps.Proofs.Binary64.RealRounding

/-! Every way to the rounded power gives the double nearest to the real number `DyadicPower.value`
    (`exists_round_eq`): the bounds on base and exponent that settle it at once, the exact quotient of a small
    integral power, and the enclosures, in which the power lies. Where no enclosure decides, the integer part of an
    exact root tells the cell of the power. -/

namespace ScalarOps

/-! ### Iterated square roots -/

theorem iterate_sqrt_rpow {x : ℝ} (hx : 0 ≤ x) (t : ℝ) (depth : Nat) :
    Real.sqrt^[depth] (x ^ t) = x ^ (t / 2 ^ depth) := by
  induction depth generalizing t with
  | zero => rw [pow_zero, div_one, Function.iterate_zero, id]
  | succ depth ih =>
    rw [Function.iterate_succ_apply, Real.sqrt_eq_rpow, ← Real.rpow_mul hx, ih, pow_succ', ← div_div,
      mul_one_div]

theorem sqrt_floor (x : ℝ) : (⌊x⌋₊).sqrt = ⌊√x⌋₊ := by
  rcases le_or_gt 0 x with hx | hx
  · refine (Nat.eq_sqrt'.mpr ⟨?_, ?_⟩).symm
    · rw [Nat.le_floor_iff hx]
      push_cast
      calc (⌊√x⌋₊ : ℝ) ^ 2 ≤ √x ^ 2 := pow_le_pow_left₀ (Nat.cast_nonneg _) (Nat.floor_le (Real.sqrt_nonneg x)) 2
        _ = x := Real.sq_sqrt hx
    · rw [Nat.floor_lt hx]
      push_cast
      calc x = √x ^ 2 := (Real.sq_sqrt hx).symm
        _ < (⌊√x⌋₊ + 1) ^ 2 := pow_lt_pow_left₀ (Nat.lt_floor_add_one _) (Real.sqrt_nonneg x) two_ne_zero
  · rw [Real.sqrt_eq_zero_of_nonpos hx.le, Nat.floor_of_nonpos hx.le, Nat.floor_zero, Nat.sqrt_zero]

/-- The integer part of a root is the root of the integer part. -/
theorem floorRoot_floor (x : ℝ) (depth : Nat) : floorRoot ⌊x⌋₊ depth = ⌊Real.sqrt^[depth] x⌋₊ := by
  induction depth generalizing x with
  | zero => rfl
  | succ depth ih => rw [floorRoot, floorSqrt_eq_sqrt, sqrt_floor, ih, Function.iterate_succ_apply]

namespace DyadicPower

open Binary64

variable {p : DyadicPower} {neg reciprocal : Bool}

/-- The base, or its reciprocal. -/
def base (reciprocal : Bool) (p : DyadicPower) : ℚ :=
  if reciprocal then (p.sig * 2 ^ p.exponent)⁻¹ else p.sig * 2 ^ p.exponent

/-- The exponent that the base is raised to. -/
def degree (p : DyadicPower) : ℚ := p.num / p.unit

/-- The power, or its reciprocal. -/
noncomputable def value (reciprocal : Bool) (p : DyadicPower) : ℝ := (p.base reciprocal : ℝ) ^ (p.degree : ℝ)

theorem base_cast (reciprocal : Bool) (p : DyadicPower) :
    (p.base reciprocal : ℝ) = if reciprocal then (p.sig * 2 ^ p.exponent : ℝ)⁻¹ else p.sig * 2 ^ p.exponent := by
  cases reciprocal <;> norm_num [base]

theorem base_not (reciprocal : Bool) (p : DyadicPower) : p.base (!reciprocal) = (p.base reciprocal)⁻¹ := by
  cases reciprocal
  · rfl
  · exact (inv_inv _).symm

theorem base_pos (hsig : p.sig ≠ 0) (reciprocal : Bool) : 0 < p.base reciprocal := by
  have hpos : (0 : ℚ) < p.sig * 2 ^ p.exponent := by positivity
  cases reciprocal
  · exact hpos
  · exact inv_pos.mpr hpos

theorem base_cast_pos (hsig : p.sig ≠ 0) (reciprocal : Bool) : (0 : ℝ) < p.base reciprocal :=
  Rat.cast_pos.mpr (base_pos hsig reciprocal)

theorem unit_eq_two_pow (p : DyadicPower) : p.unit = 2 ^ p.depth := by
  rw [unit, Nat.shiftLeft_eq, Nat.one_mul]

theorem unit_cast_pos (p : DyadicPower) : (0 : ℚ) < p.unit := by
  rw [unit_eq_two_pow]
  positivity

theorem degree_cast (p : DyadicPower) : (p.degree : ℝ) = p.num / 2 ^ p.depth := by
  rw [degree, unit_eq_two_pow]
  push_cast
  rfl

theorem degree_nonneg (p : DyadicPower) : 0 ≤ p.degree := div_nonneg (Nat.cast_nonneg _) p.unit_cast_pos.le

theorem unit_shift_le_num_iff (k : Nat) : p.unit <<< k ≤ p.num ↔ 2 ^ k ≤ p.degree := by
  rw [degree, le_div_iff₀ p.unit_cast_pos, Nat.shiftLeft_eq, mul_comm]
  exact_mod_cast Iff.rfl

theorem num_shift_le_unit_iff (k : Nat) : p.num <<< k ≤ p.unit ↔ 2 ^ k * p.degree ≤ 1 := by
  rw [degree, mul_div_assoc', div_le_one p.unit_cast_pos, Nat.shiftLeft_eq, mul_comm]
  exact_mod_cast Iff.rfl

theorem value_pos (hsig : p.sig ≠ 0) (reciprocal : Bool) : 0 < p.value reciprocal :=
  Real.rpow_pos_of_pos (base_cast_pos hsig _) _

theorem value_not (hsig : p.sig ≠ 0) (reciprocal : Bool) : p.value (!reciprocal) = (p.value reciprocal)⁻¹ := by
  rw [value, base_not, Rat.cast_inv, Real.inv_rpow (base_cast_pos hsig _).le]
  rfl

theorem iterate_sqrt_base (hsig : p.sig ≠ 0) :
    Real.sqrt^[p.depth] ((p.base reciprocal : ℝ) ^ p.num) = p.value reciprocal := by
  rw [← Real.rpow_natCast, iterate_sqrt_rpow (base_cast_pos hsig _).le, value, degree_cast]

theorem value_pow (hsig : p.sig ≠ 0) (reciprocal : Bool) :
    p.value reciprocal ^ 2 ^ p.depth = (p.base reciprocal : ℝ) ^ p.num := by
  rw [value, ← Real.rpow_natCast, ← Real.rpow_mul (base_cast_pos hsig _).le, degree_cast, Nat.cast_pow, Nat.cast_ofNat,
    div_mul_cancel₀ _ (pow_ne_zero _ two_ne_zero), Real.rpow_natCast]

/-! ### Bounds that settle the power -/

theorem zpow_cast_eq_rpow (k : Int) : ((2 ^ k : ℚ) : ℝ) = 2 ^ (k : ℝ) := by
  rw [Real.rpow_intCast]
  push_cast
  rfl

theorem le_value {k : ℝ} (h : 2 ^ k ≤ (p.base reciprocal : ℝ)) : 2 ^ (k * p.degree) ≤ p.value reciprocal := by
  rw [Real.rpow_mul zero_le_two]
  exact Real.rpow_le_rpow (Real.rpow_nonneg zero_le_two k) h (Rat.cast_nonneg.mpr p.degree_nonneg)

theorem value_le (hsig : p.sig ≠ 0) {k : ℝ} (h : (p.base reciprocal : ℝ) ≤ 2 ^ k) :
    p.value reciprocal ≤ 2 ^ (k * p.degree) := by
  rw [Real.rpow_mul zero_le_two]
  exact Real.rpow_le_rpow (base_cast_pos hsig _).le h (Rat.cast_nonneg.mpr p.degree_nonneg)

theorem base_leading_bounds (hsig : p.sig ≠ 0) (reciprocal : Bool) :
    (2 : ℚ) ^ p.leading reciprocal ≤ p.base reciprocal ∧ p.base reciprocal ≤ 2 ^ (p.leading reciprocal + 1) := by
  obtain ⟨hlow, hhigh⟩ := leading_zpow_bounds hsig p.exponent
  cases reciprocal
  · exact ⟨hlow, hhigh.le⟩
  · have hpos : (0 : ℚ) < p.sig * 2 ^ p.exponent := by positivity
    have hplace : p.leading true = -(p.sig.log2 + p.exponent + 1) := by
      rw [leading, if_pos rfl]
      omega
    have hnext : p.leading true + 1 = -(p.sig.log2 + p.exponent) := by omega
    rw [hnext, hplace, zpow_neg, zpow_neg]
    exact ⟨inv_anti₀ hpos hhigh.le, inv_anti₀ (by positivity) hlow⟩

theorem le_value_of_overflows (hsig : p.sig ≠ 0) (h : p.overflows reciprocal = true) :
    (2 ^ (1024 : Int) : ℚ) ≤ p.value reciprocal := by
  have hplaces : (1024 : ℚ) ≤ p.leading reciprocal * p.degree := by
    rw [degree, mul_div_assoc', le_div_iff₀ p.unit_cast_pos, mul_comm (p.leading reciprocal : ℚ)]
    exact_mod_cast of_decide_eq_true h
  have hbase : (2 : ℝ) ^ (p.leading reciprocal : ℝ) ≤ p.base reciprocal := by
    rw [← zpow_cast_eq_rpow]
    exact Rat.cast_le.mpr (base_leading_bounds hsig reciprocal).1
  rw [zpow_cast_eq_rpow]
  refine (Real.rpow_le_rpow_of_exponent_le one_le_two ?_).trans (le_value hbase)
  exact_mod_cast hplaces

theorem value_le_of_vanishes (hsig : p.sig ≠ 0) (h : p.vanishes reciprocal = true) :
    p.value reciprocal ≤ (2 ^ (-1075 : Int) : ℚ) := by
  have hplaces : (p.leading reciprocal + 1 : Int) * p.degree ≤ (-1075 : Int) := by
    rw [degree, mul_div_assoc', div_le_iff₀ p.unit_cast_pos, mul_comm ((p.leading reciprocal + 1 : Int) : ℚ)]
    exact_mod_cast of_decide_eq_true h
  have hbase : (p.base reciprocal : ℝ) ≤ 2 ^ ((p.leading reciprocal + 1 : Int) : ℝ) := by
    rw [← zpow_cast_eq_rpow]
    exact Rat.cast_le.mpr (base_leading_bounds hsig reciprocal).2
  rw [zpow_cast_eq_rpow]
  refine (value_le hsig hbase).trans (Real.rpow_le_rpow_of_exponent_le one_le_two ?_)
  exact_mod_cast hplaces

/-- Base and exponent of a double that is not 0 or 1: the base has few bits, is not 1 and is in the range of doubles. -/
structure InRange (p : DyadicPower) : Prop where
  sig_ne_zero : p.sig ≠ 0
  sig_lt : p.sig < 2 ^ 53
  base_ne_one : ∀ reciprocal, p.base reciprocal ≠ 1
  base_le : ∀ reciprocal, p.base reciprocal ≤ 2 ^ (1074 : Int)

/-- A quotient above 1 is one `d`th above it at least. -/
theorem one_add_le_quotient {n d : Nat} (hd : 0 < d) (hbits : d < 2 ^ 53) (hone : 1 < (n / d : ℚ)) :
    1 + 2 ^ (-53 : Int) ≤ (n / d : ℚ) := by
  have hd' : (0 : ℚ) < d := Nat.cast_pos.mpr hd
  have hnext : (d : ℚ) + 1 ≤ n := by
    rw [one_lt_div hd', Nat.cast_lt] at hone
    exact_mod_cast hone
  have hsmall : (d : ℚ) * 2 ^ (-53 : Int) ≤ 1 := by
    have hbits' : (d : ℚ) ≤ 2 ^ 53 := by exact_mod_cast hbits.le
    calc (d : ℚ) * 2 ^ (-53 : Int) ≤ 2 ^ 53 * 2 ^ (-53 : Int) := by gcongr
      _ = 1 := by norm_num
  rw [le_div_iff₀ hd', add_mul, one_mul, mul_comm _ (d : ℚ)]
  linarith

/-- Above 1 the base, or its reciprocal, is a quotient with few bits below. -/
theorem InRange.exists_quotient (h : p.InRange) (hone : 1 < p.base reciprocal) :
    ∃ n d : Nat, p.base reciprocal = n / d ∧ 0 < d ∧ d < 2 ^ 53 := by
  have hsig := h.sig_lt
  have hpos := Nat.pos_of_ne_zero h.sig_ne_zero
  have hplaces := @two_pow_toNat_div ℚ _ _ p.exponent
  have hlt : ∀ {n d : Nat}, p.base reciprocal = n / d → 0 < d → d < n := fun hquotient hd => by
    rw [hquotient, one_lt_div (Nat.cast_pos.mpr hd)] at hone
    exact_mod_cast hone
  -- One of the two powers of two is 1, since the exponent has one sign.
  have hzero : p.exponent.toNat = 0 ∨ (-p.exponent).toNat = 0 := by omega
  cases reciprocal
  · have hquotient : p.base false = (p.sig * 2 ^ p.exponent.toNat : Nat) / (2 ^ (-p.exponent).toNat : Nat) := by
      push_cast
      rw [mul_div_assoc, hplaces]
      rfl
    refine ⟨_, _, hquotient, by positivity, ?_⟩
    rcases hzero with hzero | hzero
    · have hbelow := hlt hquotient (by positivity)
      rw [hzero, pow_zero, mul_one] at hbelow
      exact hbelow.trans hsig
    · rw [hzero]
      omega
  · have hquotient : p.base true = (2 ^ (-p.exponent).toNat : Nat) / (p.sig * 2 ^ p.exponent.toNat : Nat) := by
      push_cast
      rw [← inv_div, mul_div_assoc, hplaces]
      rfl
    refine ⟨_, _, hquotient, by positivity, ?_⟩
    rcases hzero with hzero | hzero
    · rwa [hzero, pow_zero, mul_one]
    · have hbelow := hlt hquotient (by positivity)
      have hle := Nat.le_mul_of_pos_right p.sig (Nat.two_pow_pos p.exponent.toNat)
      rw [hzero] at hbelow
      omega

theorem InRange.one_lt_base (h : p.InRange) (hplace : 0 ≤ p.leading reciprocal) : 1 < p.base reciprocal :=
  ((one_le_zpow₀ one_le_two hplace).trans (base_leading_bounds h.sig_ne_zero reciprocal).1).lt_of_ne'
    (h.base_ne_one reciprocal)

theorem InRange.base_lt_one (h : p.InRange) (hplace : p.leading reciprocal < 0) : p.base reciprocal < 1 :=
  ((base_leading_bounds h.sig_ne_zero reciprocal).2.trans (zpow_le_one_of_nonpos₀ one_le_two (by omega))).lt_of_ne
    (h.base_ne_one reciprocal)

/-- By Bernoulli's inequality. -/
theorem two_rpow_le_one_add {x : ℝ} (h0 : 0 ≤ x) (h1 : x ≤ 1) : 2 ^ x ≤ 1 + x := by
  have hbernoulli := rpow_one_add_le_one_add_mul_self (show (-1 : ℝ) ≤ 1 by norm_num) h0 h1
  rwa [one_add_one_eq_two, mul_one] at hbernoulli

theorem InRange.le_value_of_large (h : p.InRange) (hone : 1 < p.base reciprocal) (hnum : 2 ^ 64 ≤ p.degree) :
    (2 ^ (1075 : Int) : ℚ) ≤ p.value reciprocal := by
  have hbase : (2 : ℝ) ^ ((2 ^ (-53 : Int) : ℚ) : ℝ) ≤ p.base reciprocal := by
    refine (two_rpow_le_one_add ?_ ?_).trans ?_
    · positivity
    · norm_num
    · obtain ⟨n, d, hquotient, hd, hbits⟩ := h.exists_quotient hone
      rw [hquotient] at hone ⊢
      exact_mod_cast one_add_le_quotient hd hbits hone
  have hplaces : (1075 : ℚ) ≤ 2 ^ (-53 : Int) * p.degree := by
    calc (1075 : ℚ) ≤ 2 ^ (-53 : Int) * 2 ^ 64 := by norm_num
      _ ≤ 2 ^ (-53 : Int) * p.degree := by gcongr
  rw [zpow_cast_eq_rpow]
  refine (Real.rpow_le_rpow_of_exponent_le one_le_two ?_).trans (le_value hbase)
  exact_mod_cast hplaces

theorem InRange.value_le_of_large (h : p.InRange) (hone : p.base reciprocal < 1) (hnum : 2 ^ 64 ≤ p.degree) :
    p.value reciprocal ≤ (2 ^ (-1075 : Int) : ℚ) := by
  have hinv : 1 < p.base (!reciprocal) := by
    rw [base_not]
    exact (one_lt_inv₀ (base_pos h.sig_ne_zero _)).mpr hone
  have hlarge := h.le_value_of_large hinv hnum
  rw [value_not h.sig_ne_zero] at hlarge
  rw [zpow_neg, Rat.cast_inv]
  exact le_inv_of_le_inv₀ (by positivity) hlarge

theorem InRange.value_le_of_small (h : p.InRange) (reciprocal : Bool) (hnum : 2 ^ 66 * p.degree ≤ 1) :
    p.value reciprocal ≤ (1 + 2 ^ (-55 : Int) : ℚ) := by
  have hbase : (p.base reciprocal : ℝ) ≤ 2 ^ ((1074 : Int) : ℝ) := by
    rw [← zpow_cast_eq_rpow]
    exact Rat.cast_le.mpr (h.base_le reciprocal)
  have hplaces : (1074 : Int) * p.degree ≤ 2 ^ (-55 : Int) := by
    calc ((1074 : Int) : ℚ) * p.degree ≤ 2 ^ 11 * p.degree :=
          mul_le_mul_of_nonneg_right (by norm_num) p.degree_nonneg
      _ = 2 ^ (-55 : Int) * (2 ^ 66 * p.degree) := by ring
      _ ≤ 2 ^ (-55 : Int) := mul_le_of_le_one_right (by positivity) hnum
  calc p.value reciprocal ≤ 2 ^ (((1074 : Int) : ℝ) * p.degree) := value_le h.sig_ne_zero hbase
    _ ≤ 2 ^ ((2 ^ (-55 : Int) : ℚ) : ℝ) :=
        Real.rpow_le_rpow_of_exponent_le one_le_two (by exact_mod_cast Rat.cast_le.mpr hplaces)
    _ ≤ 1 + ((2 ^ (-55 : Int) : ℚ) : ℝ) := by
        apply two_rpow_le_one_add
        · positivity
        · norm_num
    _ = (1 + 2 ^ (-55 : Int) : ℚ) := by push_cast; rfl

theorem InRange.le_value_of_small (h : p.InRange) (reciprocal : Bool) (hnum : 2 ^ 66 * p.degree ≤ 1) :
    (1 - 2 ^ (-55 : Int) : ℚ) ≤ p.value reciprocal := by
  have hinv := h.value_le_of_small (!reciprocal) hnum
  rw [value_not h.sig_ne_zero] at hinv
  calc ((1 - 2 ^ (-55 : Int) : ℚ) : ℝ) ≤ ((1 + 2 ^ (-55 : Int) : ℚ) : ℝ)⁻¹ := by norm_num
    _ ≤ p.value reciprocal := inv_le_of_inv_le₀ (value_pos h.sig_ne_zero _) hinv

/-! ### The exact quotient -/

theorem exists_roundExactly_eq (hsig : p.sig ≠ 0) (neg reciprocal : Bool) (hdepth : p.depth = 0) :
    ∃ code, p.roundExactly neg reciprocal = ofCode neg code ∧ IsNearestEvenReal (p.value reciprocal) code := by
  have hvalue : p.value reciprocal = (p.base reciprocal ^ p.num : ℚ) := by
    have hpow := value_pow hsig reciprocal
    rw [hdepth, pow_zero, pow_one] at hpow
    rw [hpow, Rat.cast_pow]
  have hpower : p.base false ^ p.num = (p.sig ^ p.num : Nat) * 2 ^ (p.exponent * p.num) := by
    rw [base, if_neg Bool.false_ne_true, mul_pow, zpow_mul, zpow_natCast, Nat.cast_pow]
  rw [hvalue, roundExactly, Nat.pow_eq]
  simp only [isNearestEvenReal_cast]
  cases reciprocal
  · obtain ⟨code, hcode, hnear⟩ := exists_roundScaled_eq neg (p.sig ^ p.num) one_ne_zero (p.exponent * p.num)
    rw [Nat.cast_one, div_one, ← hpower] at hnear
    rw [if_neg Bool.false_ne_true]
    exact ⟨code, hcode, hnear⟩
  · obtain ⟨code, hcode, hnear⟩ := exists_roundScaled_eq neg 1 (pow_ne_zero p.num hsig) (-(p.exponent * p.num))
    rw [zpow_neg, Nat.cast_one, one_div, ← mul_inv, ← hpower, ← inv_pow, ← base_not] at hnear
    rw [if_pos rfl, sub_eq_add_neg]
    exact ⟨code, hcode, hnear⟩

/-! ### Enclosures -/

theorem encloses_enclose (hsig : p.sig ≠ 0) (bits : Nat) (reciprocal : Bool) :
    (p.enclose reciprocal bits).Encloses (p.value reciprocal) := by
  have hbase : (if reciprocal then Enclosure.reciprocal bits p.sig p.exponent else .exactly p.sig p.exponent).Encloses
      (p.base reciprocal) := by
    rw [base_cast]
    cases reciprocal
    · exact Enclosure.encloses_exactly p.sig p.exponent
    · exact Enclosure.encloses_reciprocal hsig bits p.exponent
  rw [← iterate_sqrt_base hsig]
  exact (hbase.pow bits p.num).root bits p.depth

/-! ### The exact root -/

theorem radicand_spec (hsig : p.sig ≠ 0) (reciprocal : Bool) : (p.radicand reciprocal).2 ≠ 0 ∧
    ((p.radicand reciprocal).1 : ℚ) / (p.radicand reciprocal).2 = p.base reciprocal ^ p.num := by
  have hpower : ((p.sig.pow p.num <<< (p.exponent * p.num).toNat : Nat) : ℚ) /
      (1 <<< (-(p.exponent * p.num)).toNat : Nat) = (p.sig * 2 ^ p.exponent) ^ p.num := by
    rw [Nat.pow_eq, Nat.shiftLeft_eq, Nat.shiftLeft_eq, Nat.one_mul, Nat.cast_mul, Nat.cast_pow, Nat.cast_pow,
      Nat.cast_pow, Nat.cast_ofNat, mul_div_assoc, two_pow_toNat_div, mul_pow, zpow_mul, zpow_natCast]
  unfold radicand base
  cases reciprocal
  · refine ⟨?_, hpower⟩
    show 1 <<< _ ≠ 0
    rw [Nat.shiftLeft_eq]
    positivity
  · refine ⟨?_, ?_⟩
    · show p.sig ^ p.num <<< _ ≠ 0
      rw [Nat.shiftLeft_eq]
      positivity
    · rw [if_pos rfl, if_pos rfl, inv_pow, ← hpower, inv_div]
      rfl

/-- The power in halves of a quantum, to the power that makes its exponent whole. -/
theorem halves_pow (hsig : p.sig ≠ 0) (reciprocal : Bool) :
    (halves * p.value reciprocal) ^ 2 ^ p.depth =
      (((p.radicand reciprocal).1 <<< (1075 <<< p.depth) : Nat) : ℝ) / (p.radicand reciprocal).2 := by
  have hhalves : halves = 2 ^ 1075 := by rw [halves, Binary64.unit_eq, ← pow_succ']
  have hradicand : ((p.radicand reciprocal).1 : ℝ) / (p.radicand reciprocal).2 = (p.base reciprocal : ℝ) ^ p.num := by
    rw [← Rat.cast_pow, ← (radicand_spec hsig reciprocal).2, Rat.cast_div, Rat.cast_natCast, Rat.cast_natCast]
  rw [mul_pow, value_pow hsig, hhalves, ← hradicand, Nat.shiftLeft_eq, Nat.shiftLeft_eq, Nat.cast_mul, Nat.cast_pow,
    Nat.cast_pow, Nat.cast_ofNat, pow_mul, mul_div_right_comm, mul_comm]

theorem exists_roundRoot_eq (hsig : p.sig ≠ 0) (neg reciprocal : Bool) :
    ∃ code, p.roundRoot neg reciprocal = ofCode neg code ∧ IsNearestEvenReal (p.value reciprocal) code := by
  have hpow := halves_pow hsig reciprocal
  have hden := (radicand_spec hsig reciprocal).1
  have hnonneg : 0 ≤ halves * p.value reciprocal := mul_nonneg halves_pos.le (value_pos hsig _).le
  unfold roundRoot
  dsimp only
  generalize (p.radicand reciprocal).1 <<< (1075 <<< p.depth) = scaled at hpow ⊢
  generalize (p.radicand reciprocal).2 = den at hpow hden ⊢
  generalize hhalves : halves * p.value reciprocal = x at hpow hnonneg
  have hroot : floorRoot (scaled / den) p.depth = ⌊x⌋₊ := by
    have hx : Real.sqrt^[p.depth] (x ^ 2 ^ p.depth) = x := by
      have hdepth : ((2 ^ p.depth : Nat) : ℝ) = 2 ^ p.depth := by rw [Nat.cast_pow, Nat.cast_ofNat]
      rw [← Real.rpow_natCast, iterate_sqrt_rpow hnonneg, hdepth, div_self (pow_ne_zero _ two_ne_zero), Real.rpow_one]
    have hdiv : scaled / den = ⌊(scaled : ℝ) / den⌋₊ := (Nat.floor_div_eq_div scaled den).symm
    rw [hdiv, ← hpow, floorRoot_floor, hx]
  -- The integer part is the power itself exactly if the root leaves no remainder.
  have hexact : ⌊x⌋₊.pow (1 <<< p.depth) * den = scaled ↔ (⌊x⌋₊ : ℝ) = x := by
    rw [← pow_left_inj₀ (Nat.cast_nonneg _) hnonneg (pow_ne_zero p.depth two_ne_zero), hpow,
      eq_div_iff (Nat.cast_ne_zero.mpr hden), Nat.pow_eq, Nat.shiftLeft_eq, Nat.one_mul]
    exact_mod_cast Iff.rfl
  rw [hroot]
  refine ⟨_, rfl, ?_⟩
  by_cases hx : (⌊x⌋₊ : ℝ) = x
  · rw [if_pos (hexact.mpr hx)]
    exact isNearestEvenReal_of_halves (hx.trans hhalves.symm)
  · rw [if_neg fun h => hx (hexact.mp h)]
    exact InCell.isNearestEvenReal ⟨hhalves ▸ (Nat.floor_le hnonneg).lt_of_ne hx, hhalves ▸ Nat.lt_floor_add_one x⟩

/-! ### Rounding -/

theorem exists_refine_eq (hsig : p.sig ≠ 0) (neg reciprocal : Bool) (bits attempts : Nat) :
    ∃ code, p.refine neg reciprocal bits attempts = ofCode neg code ∧ IsNearestEvenReal (p.value reciprocal) code := by
  induction attempts generalizing bits with
  | zero => exact exists_roundRoot_eq hsig neg reciprocal
  | succ attempts ih =>
    rw [refine]
    split
    · next x hx => exact round?_nearest (encloses_enclose hsig bits reciprocal) hx
    · exact ih (2 * bits)

theorem exists_round_eq (h : p.InRange) (neg reciprocal : Bool) :
    ∃ code, p.round neg reciprocal = ofCode neg code ∧ IsNearestEvenReal (p.value reciprocal) code := by
  have hsig := h.sig_ne_zero
  -- Each test of `round` that succeeds bounds the power, and so its nearest code, which exists anyway.
  obtain ⟨code, hcode⟩ := exists_isNearestEvenReal (value_pos hsig reciprocal).le
  unfold round
  by_cases hover : p.overflows reciprocal = true
  · rw [if_pos hover]
    exact ⟨code, (ofCode_of_overflow hcode (le_value_of_overflows hsig hover)).symm, hcode⟩
  rw [if_neg hover]
  by_cases hvanish : p.vanishes reciprocal = true
  · rw [if_pos hvanish]
    exact ⟨code, (ofCode_of_underflow hcode (value_le_of_vanishes hsig hvanish)).symm, hcode⟩
  rw [if_neg hvanish]
  by_cases hlarge : p.unit <<< 64 ≤ p.num
  · have hdegree := (unit_shift_le_num_iff 64).mp hlarge
    rw [if_pos hlarge]
    by_cases hplace : 0 ≤ p.leading reciprocal
    · have hvalue : (2 ^ (1024 : Int) : ℚ) ≤ p.value reciprocal :=
        (Rat.cast_le.mpr (zpow_le_zpow_right₀ one_le_two (by decide))).trans
          (h.le_value_of_large (h.one_lt_base hplace) hdegree)
      rw [if_pos hplace]
      exact ⟨code, (ofCode_of_overflow hcode hvalue).symm, hcode⟩
    · have hvalue := h.value_le_of_large (h.base_lt_one (Int.not_le.mp hplace)) hdegree
      rw [if_neg hplace]
      exact ⟨code, (ofCode_of_underflow hcode hvalue).symm, hcode⟩
  rw [if_neg hlarge]
  by_cases hsmall : p.num <<< 66 ≤ p.unit
  · have hdegree := (num_shift_le_unit_iff 66).mp hsmall
    rw [if_pos hsmall]
    exact ⟨code, (ofCode_of_near_one hcode (h.le_value_of_small reciprocal hdegree)
      (h.value_le_of_small reciprocal hdegree)).symm, hcode⟩
  rw [if_neg hsmall]
  split
  · next hexact => exact exists_roundExactly_eq hsig neg reciprocal hexact.1
  · exact exists_refine_eq hsig neg reciprocal 192 12

end DyadicPower
end ScalarOps
