import ScalarOps.Evaluation
import ScalarOps.Proofs.Binary64.Power

/-! An integer to an exponent that is not negative is an integer. A negative exponent gives the double nearest to the
    exact power, so its sign, its size and the bases and exponents at which it vanishes are those of the power. -/

namespace ScalarOps

open Binary64

variable {a e : Word}

theorem BinaryOp.eval_pow_of_neg (a : Word) (he : e.toInt < 0) :
    (arith .pow).eval (.int a) (.int e) = .ok (.float ((ofWord a).pow (ofWord e))) := by
  have heval : (arith .pow).eval (.int a) (.int e) = .ok (a.power e) := rfl
  rw [heval, Word.power, if_pos he]

theorem Word.power_isInt_iff : (∃ w, a.power e = .int w) ↔ 0 ≤ e.toInt := by
  rw [Word.power]
  by_cases he : e.toInt < 0
  · simp [he]
  · simp [he, not_lt.mp he]

theorem Word.roundsTo_pow (ha : a.toInt ≠ 0) :
    RoundsTo ((a.toInt : ℚ) ^ e.toInt) ((ofWord a).pow (ofWord e)) := by
  obtain ⟨halo, hahi⟩ := a.toInt_bounds
  obtain ⟨helo, hehi⟩ := e.toInt_bounds
  exact roundsTo_pow_ofInt ha (by omega) (by omega)

theorem Binary64.RoundsTo.power_of_unit {m n : Int} {x : Binary64} (h : RoundsTo ((m : ℚ) ^ n) x) (hm : m.natAbs = 1)
    (hn : n < 0) : x = finite (decide (m < 0 ∧ Odd n)) .one := by
  have hne : (m : ℚ) ^ n ≠ 0 := zpow_ne_zero n (Int.cast_ne_zero.mpr (by omega))
  have habs : |(m : ℚ) ^ n| = codeValue Magnitude.one.code := by
    rw [abs_intCast_zpow m hn, hm, Nat.one_pow, Nat.cast_one, inv_one, codeValue_code_one]
  rw [h.eq_finite hne habs, decide_eq_decide.mpr (intCast_zpow_neg_iff m n)]

/-- What is known of the double of a negative power from the power's base and exponent: the sign, that the number is at
    most a half, when it vanishes, and its value for a power of two within the range of doubles. -/
theorem Binary64.RoundsTo.negative_power {m n : Int} {x : Binary64} (h : RoundsTo ((m : ℚ) ^ n) x) (hm : 2 ≤ m.natAbs)
    (hn : n < 0) :
    ∃ neg c, x = finite neg c ∧ (neg = true ↔ m < 0 ∧ Odd n) ∧ |finiteValue neg c| ≤ 1 / 2 ∧
      (c = .zero ↔ 2 ^ 1075 ≤ m.natAbs ^ n.natAbs) ∧
      ∀ k, m.natAbs = 2 ^ k → k * n.natAbs ≤ 1074 → |finiteValue neg c| = 1 / 2 ^ (k * n.natAbs) := by
  have habs := abs_intCast_zpow m hn
  have hne : (m : ℚ) ^ n ≠ 0 := zpow_ne_zero n (Int.cast_ne_zero.mpr (by omega))
  obtain ⟨half, hhalf⟩ := exists_codeValue_inv_two_pow (show 1 ≤ 1074 by omega)
  have hpower : 2 ^ 1 ≤ m.natAbs ^ n.natAbs := hm.trans (Nat.le_self_pow (by omega) m.natAbs)
  have hle : |(m : ℚ) ^ n| ≤ codeValue half.code := by
    rw [habs, hhalf]
    exact inv_anti₀ (by positivity) (Nat.cast_le.mpr hpower)
  obtain ⟨neg, c, rfl, hsign, hnear, hcode⟩ := h.exists_finite hle
  refine ⟨neg, c, rfl, ?_, ?_, ?_, fun k hk hsmall => ?_⟩
  · rw [hsign.eq_decide hne, decide_eq_true_iff, intCast_zpow_neg_iff]
  · rw [abs_finiteValue]
    calc codeValue c.code ≤ codeValue half.code := codeValue_strictMono.monotone hcode
      _ = 1 / 2 := by rw [hhalf]; norm_num
  · have hzero : c.code = 0 ↔ IsNearestEven |(m : ℚ) ^ n| 0 := ⟨fun h => h ▸ hnear, hnear.unique⟩
    rw [Magnitude.eq_zero_iff, hzero, isNearestEven_zero_iff (abs_nonneg _), habs]
    exact inv_le_two_zpow_iff (by positivity) 1075
  · obtain ⟨d, hd⟩ := exists_codeValue_inv_two_pow hsmall
    rw [habs, hk, ← pow_mul, ← hd] at hnear
    rw [abs_finiteValue, hnear.eq_of_codeValue, hd, Nat.cast_pow, one_div, Nat.cast_two]

/-- The power of two integers is an integer exactly if the exponent is not negative. For a negative one it is the
    double of the exact power, and infinity for the base 0. So it is zero exactly if the power of the base reaches
    `2^1075`, and exact for powers of two down to `2^-1074`. -/
theorem BinaryOp.eval_pow_by_exponent_sign (a e : Word) :
    (∃ v, (arith .pow).eval (.int a) (.int e) = .ok v ∧ ((∃ w, v = .int w) ↔ 0 ≤ e.toInt)) ∧
    (e.toInt < 0 → ∃ x, (arith .pow).eval (.int a) (.int e) = .ok (.float x) ∧
      (a.toInt = 0 → x = inf false) ∧
      (a.toInt = 1 → x = one) ∧
      (a.toInt = -1 → x = if Even e.toInt then one else -one) ∧
      (a.toInt ≠ 0 → RoundsTo ((a.toInt : ℚ) ^ e.toInt) x) ∧
      (2 ≤ a.toInt.natAbs → ∃ neg m, x = finite neg m ∧ (neg = true ↔ a.toInt < 0 ∧ Odd e.toInt) ∧
        |finiteValue neg m| ≤ 1 / 2 ∧
        (m = .zero ↔ 2 ^ 1075 ≤ a.toInt.natAbs ^ e.toInt.natAbs) ∧
        ∀ k, a.toInt.natAbs = 2 ^ k → k * e.toInt.natAbs ≤ 1074 →
          |finiteValue neg m| = 1 / 2 ^ (k * e.toInt.natAbs))) := by
  refine ⟨⟨a.power e, rfl, Word.power_isInt_iff⟩, fun he => ⟨_, eval_pow_of_neg a he, ?_, ?_, ?_, ?_, ?_⟩⟩
  · intro ha
    obtain ⟨hlo, hhi⟩ := e.toInt_bounds
    unfold ofWord
    rw [ha, pow_ofInt_zero he (by omega)]
  · intro ha
    rw [(Word.roundsTo_pow (by omega)).power_of_unit (by omega) he, ha]
    rfl
  · intro ha
    rw [(Word.roundsTo_pow (by omega)).power_of_unit (by omega) he, ha]
    by_cases heven : Even e.toInt
    · simp [heven, one]
    · rw [if_neg heven, decide_eq_true ⟨by omega, Int.not_even_iff_odd.mp heven⟩]
      rfl
  · exact fun ha => Word.roundsTo_pow ha
  · exact fun ha => (Word.roundsTo_pow (by omega)).negative_power ha he

theorem two_pow_le_pow {k m n p : Nat} (hm : 2 ^ k ≤ m) (h : p ≤ k * n) : 2 ^ p ≤ m ^ n := by
  calc 2 ^ p ≤ 2 ^ (k * n) := Nat.pow_le_pow_right Nat.two_pos h
    _ = (2 ^ k) ^ n := pow_mul 2 k n
    _ ≤ m ^ n := Nat.pow_le_pow_left hm n

/-- An odd power of -2 near the end of the range of doubles is exact, and the least word to itself is positive zero. -/
theorem BinaryOp.eval_pow_to_least_doubles :
    (∃ m, (arith .pow).eval (.int (.ofInt (-2))) (.int (.ofInt (-1073))) = .ok (.float (finite true m)) ∧
      |finiteValue true m| = 1 / 2 ^ 1073) ∧
    (arith .pow).eval (.int .least) (.int .least) = .ok (.float (finite false .zero)) := by
  constructor
  · obtain ⟨-, hneg⟩ := BinaryOp.eval_pow_by_exponent_sign (.ofInt (-2)) (.ofInt (-1073))
    obtain ⟨x, heval, -, -, -, -, hlarge⟩ := hneg (by decide)
    obtain ⟨neg, m, rfl, hsign, -, -, hexact⟩ := hlarge (by decide)
    obtain rfl : neg = true := hsign.mpr (by decide)
    exact ⟨m, heval, hexact 1 (by decide) (by decide)⟩
  · obtain ⟨-, hneg⟩ := BinaryOp.eval_pow_by_exponent_sign .least .least
    obtain ⟨x, heval, -, -, -, -, hlarge⟩ := hneg (by decide)
    obtain ⟨neg, m, rfl, hsign, -, hzero, -⟩ := hlarge (by decide)
    obtain rfl : neg = false := Bool.eq_false_iff.mpr fun h => absurd (hsign.mp h) (by decide)
    obtain rfl : m = .zero :=
      hzero.mpr (two_pow_le_pow (by decide : 2 ^ 31 ≤ Word.least.toInt.natAbs) (by decide))
    exact heval

end ScalarOps
