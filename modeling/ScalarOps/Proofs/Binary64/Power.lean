import Mathlib.Algebra.Order.Field.Power
import ScalarOps.Proofs.Binary64.Arithmetic
import ScalarOps.Proofs.Binary64.DyadicPower

/-! A power of finite doubles, the base other than 0, is the double nearest to the real power (`pow_finite_nearest`).
    Taking the factors of two out of the base, and roots into it, changes neither the number nor the range of the
    base. The power of an integer to an integer is the double of the exact rational power (`roundsTo_pow_ofInt`). -/

namespace ScalarOps

namespace Binary64

variable {s t : Bool} {a b : Magnitude} {k n : Nat}

/-! ### Whole doubles -/

theorem isIntegral_of_quanta (hb : b.quanta = n * unit) : (finite t b).isIntegral = true := by
  rw [isIntegral, hb, Nat.mul_mod_left]
  rfl

theorem isOdd_of_quanta (hb : b.quanta = n * unit) : (finite t b).isOdd = decide (n % 2 = 1) := by
  have hunit := unit_pos
  rw [isOdd, hb, Nat.mul_mod_mul_right]
  rcases Nat.mod_two_eq_zero_or_one n with h | h
  · rw [h, Nat.zero_mul]
    exact beq_false_of_ne hunit.ne
  · rw [h, Nat.one_mul]
    exact beq_self_eq_true unit

theorem quanta_one : Magnitude.one.quanta = 1 * unit := by decide +kernel

theorem codeValue_code_one : codeValue Magnitude.one.code = 1 := by
  rw [codeValue_of_quanta quanta_one, Nat.cast_one]

theorem codeValue_eq_one_iff : codeValue a.code = 1 ↔ a = .one := by
  rw [← codeValue_code_one, codeValue_strictMono.injective.eq_iff]
  exact ⟨fun h => Magnitude.quanta_inj.mp (by rw [a.quanta_eq, h, ← Magnitude.quanta_eq]), fun h => h ▸ rfl⟩

end Binary64

/-! ### The factors of two of base and exponent -/

namespace DyadicPower

open Binary64

variable {sig num depth n : Nat} {e : Int} {a b : Magnitude}

theorem splitTwos_spec (hn : n ≠ 0) : (splitTwos n).2 * 2 ^ (splitTwos n).1 = n := by
  induction n using Nat.strong_induction_on with
  | _ n ih =>
    rw [splitTwos]
    by_cases heven : n % 2 = 0
    · have hprod := ih (n / 2) (by omega) (by omega)
      rw [if_pos ⟨heven, hn⟩]
      dsimp only
      rw [pow_succ, ← Nat.mul_assoc, hprod]
      omega
    · rw [if_neg (fun h => heven h.1), pow_zero, mul_one]

theorem degree_halved (heven : num % 2 = 0) :
    degree ⟨sig, e, num, depth + 1⟩ = degree ⟨sig, e, num / 2, depth⟩ := by
  obtain ⟨half, rfl⟩ : ∃ half, num = 2 * half := ⟨num / 2, by omega⟩
  rw [degree, degree, unit_eq_two_pow, unit_eq_two_pow, Nat.mul_div_cancel_left half two_pos]
  push_cast
  rw [pow_succ', mul_div_mul_left _ _ two_ne_zero]

theorem base_squared {root : Nat} (hroot : root * root = sig) (he : e % 2 = 0) (reciprocal : Bool) :
    base reciprocal ⟨sig, e, num, depth + 1⟩ = base reciprocal ⟨root, e / 2, num, depth⟩ ^ 2 := by
  have hsquare : (sig : ℚ) * 2 ^ e = (root * 2 ^ (e / 2)) ^ 2 := by
    rw [mul_pow, ← hroot, Nat.cast_mul, ← pow_two, ← zpow_natCast (2 ^ (e / 2)), ← zpow_mul,
      show e / 2 * (2 : Nat) = e by omega]
  cases reciprocal
  · exact hsquare
  · rw [base, base, if_pos rfl, if_pos rfl, inv_pow, hsquare]

theorem InRange.rooted {root : Nat} (h : InRange ⟨sig, e, num, depth + 1⟩) (hroot : root * root = sig)
    (he : e % 2 = 0) : InRange ⟨root, e / 2, num, depth⟩ := by
  have hpos : 0 < root := by
    apply Nat.pos_of_ne_zero
    rintro rfl
    exact h.sig_ne_zero hroot.symm
  have hle : root ≤ sig := hroot ▸ Nat.le_mul_self root
  refine ⟨hpos.ne', hle.trans_lt h.sig_lt, fun reciprocal hone => ?_, fun reciprocal => ?_⟩
  · apply h.base_ne_one reciprocal
    rw [base_squared hroot he, hone, one_pow]
  · rcases le_total (base reciprocal ⟨root, e / 2, num, depth⟩) 1 with hone | hone
    · exact hone.trans (one_le_zpow₀ one_le_two (by omega))
    · calc base reciprocal ⟨root, e / 2, num, depth⟩ ≤ base reciprocal ⟨root, e / 2, num, depth⟩ ^ 2 :=
            le_self_pow₀ hone two_ne_zero
        _ ≤ 2 ^ (1074 : Int) := (base_squared hroot he reciprocal).symm.trans_le (h.base_le reciprocal)

theorem value_rooted {root : Nat} (hpos : root ≠ 0) (hroot : root * root = sig) (he : e % 2 = 0) (reciprocal : Bool) :
    value reciprocal ⟨root, e / 2, num, depth⟩ = value reciprocal ⟨sig, e, num, depth + 1⟩ := by
  have hnonneg := (base_cast_pos (p := ⟨root, e / 2, num, depth⟩) hpos reciprocal).le
  rw [value, value, base_squared hroot he, Rat.cast_pow, ← Real.rpow_natCast, ← Real.rpow_mul hnonneg]
  congr 1
  rw [degree_cast, degree_cast, pow_succ', Nat.cast_ofNat, ← mul_div_assoc, mul_div_mul_left _ _ two_ne_zero]

/-- Taking roots into the base, and halving the exponent, keeps the number and its range. -/
theorem reduce_spec (h : InRange ⟨sig, e, num, depth⟩) : (reduce sig e num depth).InRange ∧
    ∀ reciprocal, (reduce sig e num depth).value reciprocal = value reciprocal ⟨sig, e, num, depth⟩ := by
  induction depth generalizing sig e num with
  | zero => exact ⟨h, fun _ => rfl⟩
  | succ depth ih =>
    rw [reduce]
    by_cases heven : num % 2 = 0
    · have hhalved : InRange ⟨sig, e, num / 2, depth⟩ := ⟨h.sig_ne_zero, h.sig_lt, h.base_ne_one, h.base_le⟩
      obtain ⟨hrange, hvalue⟩ := ih hhalved
      rw [if_pos heven]
      refine ⟨hrange, fun reciprocal => (hvalue reciprocal).trans ?_⟩
      rw [value, value, degree_halved heven]
      rfl
    · rw [if_neg heven]
      dsimp only
      split
      · next hroot =>
        have hrooted := h.rooted hroot.2 hroot.1
        obtain ⟨hrange, hvalue⟩ := ih hrooted
        exact ⟨hrange, fun reciprocal => (hvalue reciprocal).trans
          (value_rooted hrooted.sig_ne_zero hroot.2 hroot.1 reciprocal)⟩
      · exact ⟨h, fun _ => rfl⟩

theorem significand_lt (a : Magnitude) : a.significand < 2 ^ 53 := by
  have hlt := a.code_lt
  unfold Magnitude.significand Magnitude.exponentField
  split <;> omega

theorem significand_ne_zero (ha : a.code ≠ 0) : a.significand ≠ 0 := by
  intro h
  have hquanta := quanta_pos ha
  rw [Magnitude.quanta, h, Nat.zero_shiftLeft] at hquanta
  exact hquanta.false

/-- A magnitude without its factors of two, which are moved to the power of two beside it. -/
theorem splitTwos_zpow (ha : a.code ≠ 0) :
    ((splitTwos a.significand).2 : ℚ) * 2 ^ ((a.shift : Int) + (splitTwos a.significand).1 - 1074) =
      codeValue a.code := by
  have hquanta : a.quanta = (splitTwos a.significand).2 * 2 ^ (splitTwos a.significand).1 * 2 ^ a.shift := by
    rw [splitTwos_spec (significand_ne_zero ha)]
    exact Nat.shiftLeft_eq a.significand a.shift
  rw [codeValue_eq_quanta, hquanta, unit_cast_eq, zpow_sub₀ two_ne_zero, zpow_add₀ two_ne_zero, zpow_natCast,
    zpow_natCast, Nat.cast_mul, Nat.cast_mul, Nat.cast_pow, Nat.cast_pow, Nat.cast_ofNat,
    mul_div_assoc', mul_comm ((2 : ℚ) ^ a.shift), mul_assoc]

theorem inRange_of_magnitude {p : DyadicPower} (hlt : p.sig < 2 ^ 53) (hbase : p.base false = codeValue a.code)
    (ha : a.code ≠ 0) (hone : a ≠ .one) : p.InRange := by
  have hpos := codeValue_pos (Nat.pos_of_ne_zero ha)
  have hinv : p.base true = (codeValue a.code)⁻¹ := hbase ▸ p.base_not false
  have hne : codeValue a.code ≠ 1 := fun h => hone (codeValue_eq_one_iff.mp h)
  refine ⟨fun hsig => ?_, hlt, fun reciprocal => ?_, fun reciprocal => ?_⟩
  · rw [base, if_neg Bool.false_ne_true, hsig, Nat.cast_zero, zero_mul] at hbase
    exact hpos.ne hbase
  · cases reciprocal
    · rwa [hbase]
    · rwa [hinv, inv_ne_one]
  · cases reciprocal
    · rw [hbase]
      calc codeValue a.code ≤ codeValue 0x7FF0000000000000 := codeValue_strictMono.monotone a.code_lt.le
        _ = 2 ^ (1024 : Int) := codeValue_infinity
        _ ≤ 2 ^ (1074 : Int) := zpow_le_zpow_right₀ one_le_two (by decide)
    · rw [hinv]
      apply inv_le_of_inv_le₀ (by positivity)
      calc ((2 : ℚ) ^ (1074 : Int))⁻¹ = codeValue 1 := by rw [codeValue_one, zpow_neg]
        _ ≤ codeValue a.code := codeValue_strictMono.monotone (Nat.pos_of_ne_zero ha)

/-- The power of a magnitude other than 0 and 1 is the power of its number, and in range. -/
theorem ofMagnitudes_spec (ha : a.code ≠ 0) (hone : a ≠ .one) (b : Magnitude) :
    (ofMagnitudes a b).InRange ∧ (ofMagnitudes a b).value false = (codeValue a.code : ℝ) ^ (codeValue b.code : ℝ) := by
  have hbase := splitTwos_zpow ha
  have hle : (splitTwos a.significand).2 ≤ a.significand := by
    calc (splitTwos a.significand).2 ≤ (splitTwos a.significand).2 * 2 ^ (splitTwos a.significand).1 :=
          Nat.le_mul_of_pos_right _ (Nat.two_pow_pos _)
      _ = a.significand := splitTwos_spec (significand_ne_zero ha)
  unfold ofMagnitudes
  dsimp only
  generalize (splitTwos a.significand).2 = odd at hbase hle ⊢
  generalize (a.shift : Int) + (splitTwos a.significand).1 - 1074 = exponent at hbase ⊢
  have hstart : InRange ⟨odd, exponent, b.quanta, 1074⟩ :=
    inRange_of_magnitude (hle.trans_lt (significand_lt a)) hbase ha hone
  obtain ⟨hrange, hvalue⟩ := reduce_spec hstart
  refine ⟨hrange, (hvalue false).trans ?_⟩
  rw [value, degree, codeValue_eq_quanta b, ← hbase]
  rfl

end DyadicPower

namespace Binary64

variable {s t : Bool} {a b : Magnitude} {k n : Nat}

/-! ### Finite base and exponent -/

/-- A finite number to a finite exponent, which is whole beside a negative number. -/
theorem pow_finite (s t : Bool) (a b : Magnitude) (hint : s = true → (finite t b).isIntegral = true) :
    (finite s a).pow (finite t b) =
      if b.code = 0 ∨ finite s a = one then one
      else if a.code = 0 then if t then inf (s && (finite t b).isOdd) else finite (s && (finite t b).isOdd) .zero
      else if a = .one then finite (s && (finite t b).isOdd) .one
      else (DyadicPower.ofMagnitudes a b).round (s && (finite t b).isOdd) t := by
  have hsignaling : ((finite s a).isSignaling || (finite t b).isSignaling) = false := rfl
  have hdefined : (s && !(finite t b).isIntegral) = false := by
    cases s
    · rfl
    · rw [hint rfl]
      rfl
  have hunit : ((finite t b).isZero || decide (finite s a = one)) = decide (b.code = 0 ∨ finite s a = one) := by
    rw [Bool.decide_or]
    rfl
  unfold pow
  rw [hsignaling, hunit, if_neg Bool.false_ne_true]
  dsimp only
  rw [hdefined, if_neg Bool.false_ne_true]
  simp only [decide_eq_true_eq]

/-- A power of finite numbers is the double nearest to the real power, and negative only for a negative base to an odd
    exponent. -/
theorem pow_finite_nearest (s t : Bool) (ha : a.code ≠ 0) (b : Magnitude)
    (hint : s = true → (finite t b).isIntegral = true) :
    ∃ code, (finite s a).pow (finite t b) = ofCode (s && (finite t b).isOdd) code ∧
      IsNearestEvenReal ((codeValue a.code : ℝ) ^ (finiteValue t b : ℝ)) code := by
  have hone : IsNearestEvenReal 1 Magnitude.one.code := by
    have hnear := isNearestEvenReal_cast.mpr (isNearestEven_codeValue Magnitude.one.code)
    rwa [codeValue_code_one, Rat.cast_one] at hnear
  rw [pow_finite s t a b hint, if_neg ha]
  by_cases hunit : b.code = 0 ∨ finite s a = one
  · have hpower : (codeValue a.code : ℝ) ^ (finiteValue t b : ℝ) = 1 := by
      rcases hunit with hb | hx
      · rw [finiteValue_eq_zero_iff.mpr hb, Rat.cast_zero, Real.rpow_zero]
      · obtain ⟨-, rfl⟩ := finite.inj hx
        rw [codeValue_code_one, Rat.cast_one, Real.one_rpow]
    have hpositive : (s && (finite t b).isOdd) = false := by
      rcases hunit with hb | hx
      · have hzero : b.quanta = 0 * unit := by rw [b.quanta_eq, hb, codeQuanta_zero, Nat.zero_mul]
        rw [isOdd_of_quanta hzero]
        exact Bool.and_false s
      · obtain ⟨rfl, -⟩ := finite.inj hx
        rfl
    rw [if_pos hunit, hpower, hpositive]
    exact ⟨_, (ofCode_code false .one).symm, hone⟩
  · rw [if_neg hunit]
    by_cases ha1 : a = .one
    · rw [if_pos ha1, ha1, codeValue_code_one, Rat.cast_one, Real.one_rpow]
      exact ⟨_, (ofCode_code _ .one).symm, hone⟩
    · rw [if_neg ha1]
      obtain ⟨hrange, hvalue⟩ := DyadicPower.ofMagnitudes_spec ha ha1 b
      obtain ⟨code, hcode, hnear⟩ := DyadicPower.exists_round_eq hrange (s && (finite t b).isOdd) t
      refine ⟨code, hcode, ?_⟩
      rw [finiteValue_eq_codeValue]
      cases t
      · rwa [hvalue] at hnear
      · have hinv := DyadicPower.value_not hrange.sig_ne_zero false
        rw [hvalue, ← Real.rpow_neg (Rat.cast_nonneg.mpr (codeValue_nonneg _))] at hinv
        rw [if_pos rfl, Rat.cast_neg, ← hinv]
        exact hnear

/-! ### Integers -/

theorem code_ne_zero_of_quanta (ha : a.quanta = k * unit) (hk : k ≠ 0) : a.code ≠ 0 := by
  intro h
  rw [a.quanta_eq, h, codeQuanta_zero] at ha
  exact Nat.mul_ne_zero hk unit_pos.ne' ha.symm

theorem intCast_zpow_neg_iff (m n : Int) : (m : ℚ) ^ n < 0 ↔ m < 0 ∧ Odd n := by
  rcases Int.even_or_odd n with heven | hodd
  · simp [not_lt.mpr (heven.zpow_nonneg (m : ℚ)), Int.not_odd_iff_even.mpr heven]
  · rw [hodd.zpow_neg_iff, Int.cast_lt_zero, and_iff_left hodd]

theorem abs_intCast_zpow (m : Int) {n : Int} (hn : n < 0) :
    |(m : ℚ) ^ n| = ((m.natAbs ^ n.natAbs : Nat) : ℚ)⁻¹ := by
  have hexp : n = -(n.natAbs : Int) := by omega
  rw [abs_zpow, hexp, zpow_neg, zpow_natCast, Int.natAbs_neg, Int.natAbs_natCast, Nat.cast_pow, Nat.cast_natAbs,
    Int.cast_abs]

theorem pow_ofInt_zero {n : Int} (hn : n < 0) (hlt : n.natAbs < 2 ^ 53) : (ofInt 0).pow (ofInt n) = inf false := by
  obtain ⟨b, hb, hquanta⟩ := ofInt_eq_finite hlt
  rw [decide_eq_true hn] at hb
  have hzero : ofInt 0 = finite false .zero := by decide +kernel
  rw [hzero, hb, pow_finite _ _ _ _ (fun h => absurd h Bool.false_ne_true), if_neg, if_pos rfl]
  · rfl
  · exact not_or.mpr ⟨code_ne_zero_of_quanta hquanta (by omega), by decide⟩

/-- The power of an integer other than 0 to an integer is the double of the exact one. -/
theorem roundsTo_pow_ofInt {m n : Int} (hm : m ≠ 0) (hm' : m.natAbs < 2 ^ 53) (hn' : n.natAbs < 2 ^ 53) :
    RoundsTo ((m : ℚ) ^ n) ((ofInt m).pow (ofInt n)) := by
  obtain ⟨a, ha, hka⟩ := ofInt_eq_finite hm'
  obtain ⟨b, hb, hkb⟩ := ofInt_eq_finite hn'
  have hsign : (decide (m < 0) && (finite (decide (n < 0)) b).isOdd) = decide ((m : ℚ) ^ n < 0) := by
    rw [isOdd_of_quanta hkb, ← Bool.decide_and, decide_eq_decide, intCast_zpow_neg_iff, ← Nat.odd_iff, Int.natAbs_odd]
  obtain ⟨code, hcode, hnear⟩ := pow_finite_nearest (decide (m < 0)) (decide (n < 0))
    (code_ne_zero_of_quanta hka (by omega)) b fun _ => isIntegral_of_quanta hkb
  have hpower : (codeValue a.code : ℝ) ^ (finiteValue (decide (n < 0)) b : ℝ) = (|(m : ℚ) ^ n| : ℚ) := by
    rw [finiteValue_of_quanta hkb, codeValue_of_quanta hka, Rat.cast_intCast n, Real.rpow_intCast, abs_zpow,
      Rat.cast_zpow, Nat.cast_natAbs, Int.cast_abs]
  rw [hpower, isNearestEvenReal_cast] at hnear
  rw [ha, hb, hcode, hsign]
  exact ⟨_, code, hasSign_decide _, hnear, rfl⟩

theorem inv_le_two_zpow_iff (hk : k ≠ 0) (p : Nat) : (k : ℚ)⁻¹ ≤ 2 ^ (-p : Int) ↔ 2 ^ p ≤ k := by
  rw [zpow_neg, inv_le_inv₀ (Nat.cast_pos.mpr (Nat.pos_of_ne_zero hk)) (by positivity), zpow_natCast]
  exact_mod_cast Iff.rfl

theorem exists_codeValue_inv_two_pow (hk : k ≤ 1074) : ∃ m : Magnitude, codeValue m.code = ((2 ^ k : Nat) : ℚ)⁻¹ := by
  obtain ⟨code, hcode⟩ := exists_code (show 1 < 2 ^ 53 by omega) (1074 - k)
  have hvalue : codeValue code = ((2 ^ k : Nat) : ℚ)⁻¹ := by
    have hplaces : 2 ^ (1074 - k) * 2 ^ k = unit := by
      rw [unit_eq, ← pow_add, Nat.sub_add_cancel hk]
    rw [codeValue, hcode, one_mul, ← hplaces, Nat.cast_mul, ← div_div, div_self (by positivity), one_div]
  have hle : codeValue code ≤ codeValue Magnitude.one.code := by
    rw [hvalue, codeValue_code_one]
    exact inv_le_one_of_one_le₀ (Nat.one_le_cast.mpr Nat.one_le_two_pow)
  exact ⟨⟨code, (codeValue_strictMono.le_iff_le.mp hle).trans_lt Magnitude.one.code_lt⟩, hvalue⟩

end Binary64
end ScalarOps
