import Mathlib.Data.Rat.Floor
import ScalarOps.Proofs.WordRing

/-! A quotient rounded toward zero and one rounded down differ only if the truncated remainder and the divisor lie on
    two sides of zero; then the quotient moves by one and the remainder by one divisor. Words divide in this way, and
    so do doubles. Of words, only `-2^31` by `-1` has a quotient that loses a bit. -/

namespace ScalarOps

variable {a b r : Int}

/-! ### Integers -/

/-- A truncated remainder lies on the other side of zero from its divisor. -/
def Straddles (r b : Int) : Prop := r ≠ 0 ∧ ¬(r < 0 ↔ b < 0)

theorem natAbs_tmod_lt (a : Int) (hb : b ≠ 0) : (a.tmod b).natAbs < b.natAbs := by
  rw [Int.natAbs_tmod]
  exact Nat.mod_lt _ (Int.natAbs_pos.mpr hb)

theorem fdiv_fmod_of_straddles (hb : b ≠ 0) (h : Straddles (a.tmod b) b) :
    a.fdiv b = a.tdiv b - 1 ∧ a.fmod b = a.tmod b + b := by
  obtain ⟨hne, hside⟩ := h
  have hlt := natAbs_tmod_lt a hb
  have heq : a.tmod b + b + b * (a.tdiv b - 1) = a := by
    have hdivision := Int.tmod_add_mul_tdiv a b
    rw [Int.mul_sub, Int.mul_one]
    omega
  rcases Int.lt_or_gt_of_ne hb with hneg | hpos
  · exact (Int.fdiv_fmod_unique' hneg).mpr ⟨heq, by omega, by omega⟩
  · exact (Int.fdiv_fmod_unique hpos).mpr ⟨heq, by omega, by omega⟩

theorem fdiv_fmod_of_not_straddles (hb : b ≠ 0) (h : ¬Straddles (a.tmod b) b) :
    a.fdiv b = a.tdiv b ∧ a.fmod b = a.tmod b := by
  rw [Straddles, not_and_or, not_not, not_not] at h
  have hlt := natAbs_tmod_lt a hb
  have heq := Int.tmod_add_mul_tdiv a b
  rcases Int.lt_or_gt_of_ne hb with hneg | hpos
  · exact (Int.fdiv_fmod_unique' hneg).mpr ⟨heq, by omega, by omega⟩
  · exact (Int.fdiv_fmod_unique hpos).mpr ⟨heq, by omega, by omega⟩

/-! A remainder of the quotient rounded down is below the divisor and not on the other side of zero. -/

theorem fmod_bounds_of_pos (a : Int) (hb : 0 < b) : 0 ≤ a.fmod b ∧ a.fmod b < b :=
  ((Int.fdiv_fmod_unique hb).mp ⟨rfl, rfl⟩).2

theorem fmod_bounds_of_neg (a : Int) (hb : b < 0) : b < a.fmod b ∧ a.fmod b ≤ 0 :=
  ((Int.fdiv_fmod_unique' hb).mp ⟨rfl, rfl⟩).2

theorem natAbs_fmod_lt (a : Int) (hb : b ≠ 0) : (a.fmod b).natAbs < b.natAbs := by
  rcases Int.lt_or_gt_of_ne hb with hneg | hpos
  · have := fmod_bounds_of_neg a hneg
    omega
  · have := fmod_bounds_of_pos a hpos
    omega

/-- A remainder of the quotient rounded down is 0 or lies on the divisor's side of zero. -/
theorem fmod_side (a : Int) (hb : b ≠ 0) : a.fmod b = 0 ∨ (a.fmod b < 0 ↔ b < 0) := by
  rcases Int.lt_or_gt_of_ne hb with hneg | hpos
  · have := fmod_bounds_of_neg a hneg
    omega
  · have := fmod_bounds_of_pos a hpos
    omega

/-- The fraction of a quotient that rounding down cuts off. -/
theorem div_eq_fdiv_add (a : Int) (hb : b ≠ 0) :
    (a : ℚ) / b = a.fdiv b + ((a.fmod b).natAbs : ℚ) / b.natAbs := by
  have hdivision : (a : ℚ) = b * a.fdiv b + a.fmod b := by
    exact_mod_cast (Int.mul_fdiv_add_fmod a b).symm
  have hfraction : (a.fmod b : ℚ) / b = ((a.fmod b).natAbs : ℚ) / b.natAbs := by
    rw [Nat.cast_natAbs, Nat.cast_natAbs, Int.cast_abs, Int.cast_abs, ← abs_div, eq_comm, abs_eq_self]
    rcases Int.lt_or_gt_of_ne hb with hneg | hpos
    · exact div_nonneg_of_nonpos (Int.cast_nonpos.mpr (fmod_bounds_of_neg a hneg).2) (Int.cast_nonpos.mpr hneg.le)
    · exact div_nonneg (Int.cast_nonneg (fmod_bounds_of_pos a hpos).1) (Int.cast_nonneg hpos.le)
  rw [← hfraction, hdivision, add_div, mul_div_cancel_left₀ _ (Int.cast_ne_zero.mpr hb)]

theorem floor_div_eq_fdiv (a : Int) (hb : b ≠ 0) : ⌊(a : ℚ) / b⌋ = a.fdiv b := by
  have hb' : (0 : ℚ) < b.natAbs := Nat.cast_pos.mpr (Int.natAbs_pos.mpr hb)
  have hnonneg : 0 ≤ ((a.fmod b).natAbs : ℚ) / b.natAbs := div_nonneg (Nat.cast_nonneg _) hb'.le
  have hlt : ((a.fmod b).natAbs : ℚ) / b.natAbs < 1 := by
    rw [div_lt_one hb', Nat.cast_lt]
    exact natAbs_fmod_lt a hb
  rw [Int.floor_eq_iff, div_eq_fdiv_add a hb]
  exact ⟨by linarith, by linarith⟩

theorem fmod_eq_sub_mul_floor (a : Int) (hb : b ≠ 0) : a.fmod b = a - b * ⌊(a : ℚ) / b⌋ := by
  rw [floor_div_eq_fdiv a hb, Int.fmod_def]

/-- A number near an inexact quotient has the same floor: the quotient is `1 / |b|` away from both integers around it
    at least, which is more than one part in `2^53` of a quotient of fewer than 53 bits by `|b|`. -/
theorem floor_eq_fdiv_of_near {p : ℚ} (hb : b ≠ 0) (hinexact : a.fmod b ≠ 0) (ha : a.natAbs < 2 ^ 53)
    (hp : |(a : ℚ) / b - p| ≤ |(a : ℚ) / b| / 2 ^ 53) : ⌊p⌋ = a.fdiv b := by
  have hb' : (0 : ℚ) < b.natAbs := Nat.cast_pos.mpr (Int.natAbs_pos.mpr hb)
  have hlow : 1 / (b.natAbs : ℚ) ≤ (a.fmod b).natAbs / b.natAbs := by
    rw [div_le_div_iff_of_pos_right hb']
    exact_mod_cast Int.natAbs_pos.mpr hinexact
  have hhigh : ((a.fmod b).natAbs : ℚ) / b.natAbs + 1 / b.natAbs ≤ 1 := by
    rw [← add_div, div_le_one hb']
    exact_mod_cast natAbs_fmod_lt a hb
  have herror : |(a : ℚ) / b| / 2 ^ 53 < 1 / b.natAbs := by
    rw [abs_div, ← Int.cast_abs, ← Int.cast_abs, ← Nat.cast_natAbs, ← Nat.cast_natAbs, div_right_comm,
      div_lt_div_iff_of_pos_right hb', div_lt_one (by norm_num)]
    exact_mod_cast ha
  have hquot := div_eq_fdiv_add a hb
  obtain ⟨hlo, hhi⟩ := abs_le.mp hp
  rw [Int.floor_eq_iff]
  exact ⟨by linarith, by linarith⟩

/-! ### Words -/

namespace Word

variable {x y : Word}

theorem toInt_eq_zero_iff : x.toInt = 0 ↔ x = zero := @toInt_inj x zero

theorem toInt_ne_zero (h : x ≠ zero) : x.toInt ≠ 0 := fun h' => h (toInt_eq_zero_iff.mp h')

theorem toInt_ofInt_of_fits {n : Int} (hlo : -2147483648 ≤ n) (hhi : n < 2147483648) : (ofInt n).toInt = n := by
  rw [toInt_ofInt, wrap]
  exact Int.bmod_eq_of_le (by omega) (by omega)

theorem sdiv_eq_ofInt (x y : Word) : (⟨x.bits.sdiv y.bits⟩ : Word) = ofInt (x.toInt.tdiv y.toInt) := by
  rw [← toInt_inj, toInt_ofInt]
  exact BitVec.toInt_sdiv x.bits y.bits

/-- A truncated quotient loses no bits but for that of `-2^31` by `-1`. -/
theorem toInt_sdiv (h : ¬(x = least ∧ y = ofInt (-1))) :
    (⟨x.bits.sdiv y.bits⟩ : Word).toInt = x.toInt.tdiv y.toInt := by
  apply BitVec.toInt_sdiv_of_ne_or_ne
  rw [← not_and_or]
  rintro ⟨hx, hy⟩
  refine h ⟨?_, ?_⟩
  · cases x
    exact congrArg mk hx
  · cases y
    exact congrArg mk hy

theorem toInt_srem (x y : Word) : (⟨x.bits.srem y.bits⟩ : Word).toInt = x.toInt.tmod y.toInt :=
  BitVec.toInt_srem x.bits y.bits

theorem straddles_iff : x.straddles y = true ↔ Straddles x.toInt y.toInt := by
  rw [Straddles, ne_eq, toInt_eq_zero_iff, ← isZero_iff]
  simp [straddles]

theorem floorDiv?_eq (x : Word) (hy : y ≠ zero) : x.floorDiv? y = some (ofInt (x.toInt.fdiv y.toInt)) := by
  have hy' := toInt_ne_zero hy
  rw [floorDiv?, if_neg (fun h => hy (isZero_iff.mp h))]
  dsimp only
  by_cases h : Straddles (x.toInt.tmod y.toInt) y.toInt
  · rw [if_pos (straddles_iff.mpr (toInt_srem x y ▸ h)), sdiv_eq_ofInt, (fdiv_fmod_of_straddles hy' h).1, ofInt_sub]
    rfl
  · rw [if_neg (fun hs => h (toInt_srem x y ▸ straddles_iff.mp hs)), sdiv_eq_ofInt,
      (fdiv_fmod_of_not_straddles hy' h).1]

theorem floorMod?_eq (x : Word) (hy : y ≠ zero) : x.floorMod? y = some (ofInt (x.toInt.fmod y.toInt)) := by
  have hy' := toInt_ne_zero hy
  have hrem : (⟨x.bits.srem y.bits⟩ : Word) = ofInt (x.toInt.tmod y.toInt) := by rw [← toInt_srem, ofInt_toInt]
  rw [floorMod?, if_neg (fun h => hy (isZero_iff.mp h))]
  dsimp only
  by_cases h : Straddles (x.toInt.tmod y.toInt) y.toInt
  · rw [if_pos (straddles_iff.mpr (toInt_srem x y ▸ h)), hrem, (fdiv_fmod_of_straddles hy' h).2, ofInt_add, ofInt_toInt]
  · rw [if_neg (fun hs => h (toInt_srem x y ▸ straddles_iff.mp hs)), hrem, (fdiv_fmod_of_not_straddles hy' h).2]

theorem toInt_ofInt_fmod (x : Word) (hy : y ≠ zero) :
    (ofInt (x.toInt.fmod y.toInt)).toInt = x.toInt.fmod y.toInt := by
  obtain ⟨hlo, hhi⟩ := y.toInt_bounds
  have hlt := natAbs_fmod_lt x.toInt (toInt_ne_zero hy)
  exact toInt_ofInt_of_fits (by omega) (by omega)

theorem toInt_ofInt_fdiv (hy : y ≠ zero) (h : ¬(x = least ∧ y = ofInt (-1))) :
    (ofInt (x.toInt.fdiv y.toInt)).toInt = x.toInt.fdiv y.toInt := by
  obtain ⟨hlo, hhi⟩ := x.toInt_bounds
  have habs := Int.natAbs_fdiv_le_natAbs x.toInt y.toInt
  refine toInt_ofInt_of_fits (by omega) ?_
  by_contra hge
  -- A quotient of `2^31` leaves only `-1` as the divisor, and `-2^31` as the dividend.
  have hquot : x.toInt.fdiv y.toInt = 2147483648 := by omega
  have hdivision := Int.mul_fdiv_add_fmod x.toInt y.toInt
  rw [hquot] at hdivision
  obtain ⟨hx, hy'⟩ : x.toInt = -2147483648 ∧ y.toInt = -1 := by
    rcases Int.lt_or_gt_of_ne (toInt_ne_zero hy) with hneg | hpos
    · have := fmod_bounds_of_neg x.toInt hneg
      omega
    · have := fmod_bounds_of_pos x.toInt hpos
      omega
  exact h ⟨toInt_inj.mp hx, toInt_inj.mp hy'⟩

end Word
end ScalarOps
