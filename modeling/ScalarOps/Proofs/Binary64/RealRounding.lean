import ScalarOps.Proofs.Binary64.Enclosure
import ScalarOps.Proofs.Binary64.Number

/-! Rounding a real number. Which code is nearest is a matter of the sums of two codes' numbers that twice the number
    lies between (`isNearestEvenReal_iff`). These sums are whole quanta, so between two halves of a quantum all
    numbers have one nearest code. An enclosure whose two ends have one double has the double of its number
    (`round?_nearest`). -/

namespace ScalarOps
namespace Binary64

variable {r : ℝ} {q : ℚ} {a b c n : Nat}

/-- No number of a code is nearer to the real number than that of `code`, and if another one is as near, `code` is even. -/
structure IsNearestEvenReal (r : ℝ) (code : Nat) : Prop where
  nearest : ∀ k, |r - codeValue code| ≤ |r - codeValue k|
  even : ∀ k, k ≠ code → |r - codeValue k| = |r - codeValue code| → code % 2 = 0

theorem isNearestEvenReal_cast : IsNearestEvenReal q c ↔ IsNearestEven q c :=
  ⟨fun h => ⟨fun k => by exact_mod_cast h.nearest k, fun k hk heq => h.even k hk (by exact_mod_cast heq)⟩,
    fun h => ⟨fun k => by exact_mod_cast h.nearest k, fun k hk heq => h.even k hk (by exact_mod_cast heq)⟩⟩

/-! ### Middles -/

theorem abs_sub_le_abs_sub_iff {u v : ℝ} (h : u < v) : |r - u| ≤ |r - v| ↔ 2 * r ≤ u + v := by
  rw [← sq_le_sq]
  constructor
  · intro hle
    nlinarith
  · intro hle
    nlinarith

theorem abs_sub_le_abs_sub_iff' {u v : ℝ} (h : u < v) : |r - v| ≤ |r - u| ↔ u + v ≤ 2 * r := by
  rw [← sq_le_sq]
  constructor
  · intro hle
    nlinarith
  · intro hle
    nlinarith

/-- Twice the middle between the numbers of two codes. -/
noncomputable def codeSum (a b : Nat) : ℝ := codeValue a + codeValue b

theorem codeSum_comm (a b : Nat) : codeSum a b = codeSum b a := add_comm _ _

theorem codeValue_cast_lt (h : a < b) : (codeValue a : ℝ) < codeValue b := by
  exact_mod_cast codeValue_strictMono h

theorem isNearestEvenReal_iff : IsNearestEvenReal r c ↔
    ∀ k, (c < k → 2 * r ≤ codeSum c k) ∧ (k < c → codeSum c k ≤ 2 * r) ∧ (k ≠ c → 2 * r = codeSum c k → c % 2 = 0) := by
  have hmiddle : ∀ k, k ≠ c → (|r - codeValue k| = |r - codeValue c| ↔ 2 * r = codeSum c k) := by
    intro k hk
    rw [le_antisymm_iff, le_antisymm_iff]
    rcases Nat.lt_or_gt_of_ne hk with hlt | hgt
    · rw [abs_sub_le_abs_sub_iff (codeValue_cast_lt hlt), abs_sub_le_abs_sub_iff' (codeValue_cast_lt hlt), codeSum_comm]
      rfl
    · rw [abs_sub_le_abs_sub_iff (codeValue_cast_lt hgt), abs_sub_le_abs_sub_iff' (codeValue_cast_lt hgt), and_comm]
      rfl
  constructor
  · intro h k
    refine ⟨fun hlt => ?_, fun hlt => ?_, fun hk heq => h.even k hk ((hmiddle k hk).mpr heq)⟩
    · exact (abs_sub_le_abs_sub_iff (codeValue_cast_lt hlt)).mp (h.nearest k)
    · rw [codeSum_comm]
      exact (abs_sub_le_abs_sub_iff' (codeValue_cast_lt hlt)).mp (h.nearest k)
  · intro h
    refine ⟨fun k => ?_, fun k hk heq => (h k).2.2 hk ((hmiddle k hk).mp heq)⟩
    rcases Nat.lt_trichotomy c k with hlt | rfl | hgt
    · exact (abs_sub_le_abs_sub_iff (codeValue_cast_lt hlt)).mpr ((h k).1 hlt)
    · exact le_rfl
    · rw [abs_sub_le_abs_sub_iff' (codeValue_cast_lt hgt)]
      exact (codeSum_comm k c).trans_le ((h k).2.1 hgt)

/-! ### Halves of quanta -/

theorem unit_real_pos : (0 : ℝ) < unit := Nat.cast_pos.mpr unit_pos

theorem codeSum_eq (a b : Nat) : codeSum a b = (codeQuanta a + codeQuanta b : Nat) / unit := by
  rw [codeSum, codeValue, codeValue, Rat.cast_div, Rat.cast_div, ← add_div]
  push_cast
  rfl

/-- How many halves of a quantum are in 1. -/
def halves : Nat := 2 * unit

theorem halves_cast : (halves : ℝ) = 2 * unit := by
  rw [halves, Nat.cast_mul, Nat.cast_ofNat]

theorem halves_pos : (0 : ℝ) < halves := Nat.cast_pos.mpr (Nat.mul_pos two_pos unit_pos)

/-- The number lies strictly between `n` and `n + 1` halves of a quantum. -/
def InCell (n : Nat) (r : ℝ) : Prop := n < halves * r ∧ halves * r < n + 1

theorem InCell.codeSum_le_iff (h : InCell n r) : codeSum a b ≤ 2 * r ↔ codeQuanta a + codeQuanta b ≤ n := by
  obtain ⟨hlow, hhigh⟩ := h
  rw [codeSum_eq, div_le_iff₀ unit_real_pos, mul_right_comm, ← halves_cast]
  constructor
  · intro hle
    exact Nat.lt_succ_iff.mp (by exact_mod_cast hle.trans_lt hhigh)
  · intro hle
    exact (Nat.cast_le.mpr hle).trans hlow.le

theorem InCell.le_codeSum_iff (h : InCell n r) : 2 * r ≤ codeSum a b ↔ n < codeQuanta a + codeQuanta b := by
  obtain ⟨hlow, hhigh⟩ := h
  rw [codeSum_eq, le_div_iff₀ unit_real_pos, mul_right_comm, ← halves_cast]
  constructor
  · intro hle
    exact_mod_cast hlow.trans_le hle
  · intro hlt
    exact hhigh.le.trans (by exact_mod_cast hlt)

/-- In a cell no number is the middle of two codes, and all numbers have the same nearest code. -/
theorem InCell.isNearestEvenReal_iff {s : ℝ} (hr : InCell n r) (hs : InCell n s) :
    IsNearestEvenReal r c ↔ IsNearestEvenReal s c := by
  have hne : ∀ {t k}, InCell n t → 2 * t ≠ codeSum c k := fun ht heq => by
    have hle := ht.codeSum_le_iff.mp heq.ge
    exact absurd (ht.le_codeSum_iff.mp heq.le) (Nat.not_lt.mpr hle)
  rw [Binary64.isNearestEvenReal_iff, Binary64.isNearestEvenReal_iff]
  refine forall_congr' fun k => ?_
  rw [hr.le_codeSum_iff, hs.le_codeSum_iff, hr.codeSum_le_iff, hs.codeSum_le_iff]
  exact and_congr_right fun _ => and_congr_right fun _ =>
    imp_congr_right fun _ => iff_of_true (fun h => absurd h (hne hr)) (fun h => absurd h (hne hs))

theorem quotient_mul (m : Nat) {d : Nat} (hd : 0 < d) : ((quotient m d : ℚ) : ℝ) * unit * d = m := by
  have hd' : (d : ℝ) ≠ 0 := Nat.cast_ne_zero.mpr hd.ne'
  rw [quotient, Rat.cast_div, Rat.cast_div, Rat.cast_natCast, Rat.cast_natCast, Rat.cast_natCast,
    div_mul_cancel₀ _ unit_real_pos.ne', div_mul_cancel₀ _ hd']

theorem inCell_middle (n : Nat) : InCell n (quotient (2 * n + 1) 4 : ℚ) := by
  have h := quotient_mul (2 * n + 1) (show 0 < 4 by decide)
  push_cast at h
  rw [InCell, halves_cast]
  constructor <;> linarith

theorem eq_quotient_of_halves (h : (n : ℝ) = halves * r) : r = (quotient (2 * n) 4 : ℚ) := by
  rw [halves_cast] at h
  have hquotient := quotient_mul (2 * n) (show 0 < 4 by decide)
  push_cast at hquotient
  have hpos := unit_real_pos
  nlinarith

theorem isNearestEvenReal_of_halves (h : (n : ℝ) = halves * r) : IsNearestEvenReal r (roundCode (2 * n) 4) :=
  eq_quotient_of_halves h ▸ isNearestEvenReal_cast.mpr (isNearestEven_roundCode _ (by decide))

theorem InCell.isNearestEvenReal (h : InCell n r) : IsNearestEvenReal r (roundCode (2 * n + 1) 4) :=
  (h.isNearestEvenReal_iff (inCell_middle n)).mpr (isNearestEvenReal_cast.mpr (isNearestEven_roundCode _ (by decide)))

theorem exists_isNearestEvenReal (hr : 0 ≤ r) : ∃ code, IsNearestEvenReal r code := by
  have hscaled : 0 ≤ halves * r := mul_nonneg halves_pos.le hr
  rcases (Nat.floor_le hscaled).eq_or_lt with heq | hlt
  · exact ⟨_, isNearestEvenReal_of_halves heq⟩
  · exact ⟨_, InCell.isNearestEvenReal ⟨hlt, Nat.lt_floor_add_one _⟩⟩

theorem IsNearestEven.le_of_real (hq : IsNearestEven q a) (hr : IsNearestEvenReal r b) (h : q ≤ r) : a ≤ b := by
  by_contra hlt
  have hmiddle := ((isNearestEvenReal_iff.mp (isNearestEvenReal_cast.mpr hq)) b).2.1 (Nat.lt_of_not_le hlt)
  have hmiddle' := ((isNearestEvenReal_iff.mp hr) a).1 (Nat.lt_of_not_le hlt)
  rw [codeSum_comm] at hmiddle
  -- Both numbers are then the middle of the two codes.
  obtain rfl : (q : ℝ) = r := by linarith
  exact hlt (hq.unique (isNearestEvenReal_cast.mp hr)).le

theorem IsNearestEven.ge_of_real (hq : IsNearestEven q a) (hr : IsNearestEvenReal r b) (h : r ≤ q) : b ≤ a := by
  by_contra hlt
  have hmiddle := ((isNearestEvenReal_iff.mp (isNearestEvenReal_cast.mpr hq)) b).1 (Nat.lt_of_not_le hlt)
  have hmiddle' := ((isNearestEvenReal_iff.mp hr) a).2.1 (Nat.lt_of_not_le hlt)
  rw [codeSum_comm] at hmiddle
  obtain rfl : (q : ℝ) = r := by linarith
  exact hlt (hq.unique (isNearestEvenReal_cast.mp hr)).ge

/-! ### The ends of the range -/

theorem unit_cast_eq : (unit : ℚ) = 2 ^ (1074 : Int) := by
  rw [unit_eq, Nat.cast_pow]
  rfl

theorem codeValue_infinity : codeValue 0x7FF0000000000000 = 2 ^ (1024 : Int) := by
  rw [codeValue_eq_natCast_iff.mpr codeQuanta_infinity, Nat.cast_pow]
  rfl

theorem codeValue_one : codeValue 1 = 2 ^ (-1074 : Int) := by
  have hquanta : codeQuanta 1 = 1 := by decide
  rw [codeValue, hquanta, Nat.cast_one, unit_cast_eq, one_div, ← zpow_neg]

/-- Zero is nearest up to half of the least positive number, half included. -/
theorem isNearestEven_zero_iff (hq : 0 ≤ q) : IsNearestEven q 0 ↔ q ≤ 2 ^ (-1075 : Int) := by
  have hone := codeValue_pos Nat.one_pos
  have hhalf : (2 : ℚ) * 2 ^ (-1075 : Int) = codeValue 1 := by
    rw [codeValue_one, ← zpow_one_add₀ two_ne_zero]
    rfl
  constructor
  · intro h
    have hmiddle := le_middle_of_abs_sub_le (codeValue_strictMono Nat.one_pos) (h.nearest 1)
    rw [codeValue_zero, zero_add, ← hhalf] at hmiddle
    exact le_of_mul_le_mul_left hmiddle two_pos
  · intro h
    have hdouble : 2 * q ≤ codeValue 1 := hhalf ▸ mul_le_mul_of_nonneg_left h zero_le_two
    refine IsNearestEven.of_between (j := 0) (by rwa [codeValue_zero]) (by linarith) (Or.inl ⟨rfl, ?_⟩)
    rw [codeValue_zero, zero_add]
    exact hdouble.lt_or_eq.imp_right fun heq => ⟨heq, rfl⟩

theorem ofCode_of_overflow {neg : Bool} (hc : IsNearestEvenReal r c) (h : (2 ^ (1024 : Int) : ℚ) ≤ r) :
    ofCode neg c = inf neg := by
  have hinfinite : 0x7FF0000000000000 ≤ c := by
    refine (isNearestEven_codeValue _).le_of_real hc ?_
    rw [codeValue_infinity]
    exact h
  rw [ofCode, dif_neg (Nat.not_lt.mpr hinfinite)]

theorem ofCode_of_underflow {neg : Bool} (hc : IsNearestEvenReal r c) (h : r ≤ (2 ^ (-1075 : Int) : ℚ)) :
    ofCode neg c = finite neg .zero := by
  have hzero : c ≤ 0 := ((isNearestEven_zero_iff (by positivity)).mpr le_rfl).ge_of_real hc h
  rw [Nat.le_zero.mp hzero]
  exact ofCode_code neg .zero

/-- The gaps on both sides of 1 are at least `2^-53`. -/
theorem ofCode_of_near_one {neg : Bool} (hc : IsNearestEvenReal r c) (hlow : (1 - 2 ^ (-55 : Int) : ℚ) ≤ r)
    (hhigh : r ≤ (1 + 2 ^ (-55 : Int) : ℚ)) : ofCode neg c = finite neg .one := by
  have hunit := unit_cast_pos.ne'
  have hbelow : IsNearestEven (1 - 2 ^ (-55 : Int)) Magnitude.one.code := by
    have hcode : roundCode ((2 ^ 55 - 1) * unit) (2 ^ 55) = Magnitude.one.code := by decide +kernel
    have hquotient : quotient ((2 ^ 55 - 1) * unit) (2 ^ 55) = 1 - 2 ^ (-55 : Int) := by
      rw [quotient, Nat.cast_mul, div_right_comm, mul_div_cancel_right₀ _ hunit]
      norm_num
    rw [← hcode, ← hquotient]
    exact isNearestEven_roundCode _ (by positivity)
  have habove : IsNearestEven (1 + 2 ^ (-55 : Int)) Magnitude.one.code := by
    have hcode : roundCode ((2 ^ 55 + 1) * unit) (2 ^ 55) = Magnitude.one.code := by decide +kernel
    have hquotient : quotient ((2 ^ 55 + 1) * unit) (2 ^ 55) = 1 + 2 ^ (-55 : Int) := by
      rw [quotient, Nat.cast_mul, div_right_comm, mul_div_cancel_right₀ _ hunit]
      norm_num
    rw [← hcode, ← hquotient]
    exact isNearestEven_roundCode _ (by positivity)
  have hone : c = Magnitude.one.code :=
    Nat.le_antisymm (habove.ge_of_real hc hhigh) (hbelow.le_of_real hc hlow)
  rw [hone, ofCode_code]

/-! ### Enclosed numbers -/

theorem quotient_shift (n d : Nat) (k : Int) :
    quotient (n <<< k.toNat) (d <<< (-k).toNat) = n / d * 2 ^ (k - 1074) := by
  rw [quotient, Nat.shiftLeft_eq, Nat.shiftLeft_eq, Nat.cast_mul, Nat.cast_mul, Nat.cast_pow, Nat.cast_pow,
    Nat.cast_ofNat, mul_div_mul_comm, two_pow_toNat_div, unit_cast_eq, zpow_sub₀ two_ne_zero, mul_div_assoc]

theorem leading_zpow_bounds (hn : n ≠ 0) (e : Int) :
    (2 : ℚ) ^ (n.log2 + e) ≤ n * 2 ^ e ∧ (n : ℚ) * 2 ^ e < 2 ^ (n.log2 + e + 1) := by
  have hpos : (0 : ℚ) < 2 ^ e := zpow_pos two_pos e
  have hlow : (2 : ℚ) ^ (n.log2 : Int) ≤ n := by exact_mod_cast Nat.log2_self_le hn
  have hhigh : (n : ℚ) < 2 ^ (n.log2 + 1 : Int) := by exact_mod_cast (Nat.lt_log2_self : n < 2 ^ (n.log2 + 1))
  rw [add_right_comm, zpow_add₀ two_ne_zero, zpow_add₀ two_ne_zero (n.log2 + 1 : Int)]
  exact ⟨mul_le_mul_of_nonneg_right hlow hpos.le, mul_lt_mul_of_pos_right hhigh hpos⟩

theorem exists_roundScaled_eq (neg : Bool) (n : Nat) {d : Nat} (hd : d ≠ 0) (e : Int) :
    ∃ code, roundScaled neg n d (1074 + e) = ofCode neg code ∧ IsNearestEven (n / d * 2 ^ e) code := by
  have hquotient := quotient_shift n d (1074 + e)
  rw [add_sub_cancel_left] at hquotient
  refine ⟨_, rfl, hquotient ▸ isNearestEven_roundCode _ ?_⟩
  rw [Nat.shiftLeft_eq]
  positivity

/-- An end is rounded to its nearest code, also where its size alone decides. -/
theorem exists_roundEnd_eq (neg : Bool) (n : Nat) (e : Int) :
    ∃ code, Enclosure.roundEnd neg n e = ofCode neg code ∧ IsNearestEven (n * 2 ^ e) code := by
  unfold Enclosure.roundEnd
  dsimp only
  by_cases hn : n = 0
  · refine ⟨0, if_pos hn, ?_⟩
    rw [hn, Nat.cast_zero, zero_mul, ← codeValue_zero]
    exact isNearestEven_codeValue 0
  · rw [if_neg hn]
    obtain ⟨hlow, hhigh⟩ := leading_zpow_bounds hn e
    obtain ⟨code, hcode, hnear⟩ := exists_roundScaled_eq neg n one_ne_zero e
    rw [Nat.cast_one, div_one] at hnear
    have hreal := isNearestEvenReal_cast.mpr hnear
    refine ⟨code, ?_, hnear⟩
    by_cases hlarge : 1024 ≤ n.log2 + e
    · have hoverflow : (2 : ℚ) ^ (1024 : Int) ≤ n * 2 ^ e := (zpow_le_zpow_right₀ one_le_two hlarge).trans hlow
      rw [if_pos hlarge, ofCode_of_overflow hreal (Rat.cast_le.mpr hoverflow)]
    · rw [if_neg hlarge]
      by_cases hsmall : n.log2 + e < -1075
      · have hunderflow : (n : ℚ) * 2 ^ e ≤ 2 ^ (-1075 : Int) :=
          hhigh.le.trans (zpow_le_zpow_right₀ one_le_two (by omega))
        rw [if_pos hsmall, ofCode_of_underflow hreal (Rat.cast_le.mpr hunderflow)]
      · rw [if_neg hsmall]
        exact hcode

/-- Codes with one double have that double between them. -/
theorem ofCode_between {neg : Bool} (h : ofCode neg a = ofCode neg b) (hac : a ≤ c) (hcb : c ≤ b) :
    ofCode neg c = ofCode neg a := by
  unfold ofCode at h ⊢
  by_cases ha : a < 0x7FF0000000000000
  · by_cases hb : b < 0x7FF0000000000000
    · rw [dif_pos ha, dif_pos hb] at h
      cases h
      obtain rfl : c = a := Nat.le_antisymm hcb hac
      rfl
    · rw [dif_pos ha, dif_neg hb] at h
      cases h
  · rw [dif_neg ha, dif_neg fun hc => ha (hac.trans_lt hc)]

/-- If an enclosure has a double, it is the one nearest to the number it holds. -/
theorem round?_nearest {x : Enclosure} {neg : Bool} {d : Binary64} (h : x.Encloses r) (hd : x.round? neg = some d) :
    ∃ code, d = ofCode neg code ∧ IsNearestEvenReal r code := by
  obtain ⟨a, ha, hlower⟩ := exists_roundEnd_eq neg x.lower x.exponent
  obtain ⟨b, hb, hupper⟩ := exists_roundEnd_eq neg x.upper x.exponent
  obtain ⟨c, hc⟩ := exists_isNearestEvenReal h.nonneg
  have hac : a ≤ c := hlower.le_of_real hc h.lower_le
  have hcb : c ≤ b := hupper.ge_of_real hc h.le_upper
  unfold Enclosure.round? at hd
  rw [ha, hb] at hd
  dsimp only at hd
  split at hd
  · next heq => exact ⟨c, (Option.some.inj hd).symm.trans (ofCode_between heq hac hcb).symm, hc⟩
  · cases hd

end Binary64
end ScalarOps
