import ScalarOps.Proofs.Binary64.Number

/-! `RoundsTo q x` says that `x` is the double of the number `q`: the nearest one, of two the even one, and of `q`'s
    sign. Sums, differences, products and quotients of finite doubles are the doubles of the exact results, and a
    remainder is exact. -/

namespace ScalarOps

theorem Magnitude.eq_zero_iff {m : Magnitude} : m = zero ↔ m.code = 0 := by
  cases m
  simp [zero]

namespace Binary64

variable {s t : Bool} {a b : Magnitude} {q : ℚ} {x : Binary64}

/-! ### The numbers of finite doubles -/

theorem finiteValue_eq_codeValue (neg : Bool) (m : Magnitude) :
    finiteValue neg m = if neg then -codeValue m.code else codeValue m.code := by
  rw [finiteValue_eq, signedValue_signed]

@[simp] theorem abs_finiteValue (neg : Bool) (m : Magnitude) : |finiteValue neg m| = codeValue m.code := by
  have hnonneg := abs_of_nonneg (codeValue_nonneg m.code)
  rw [finiteValue_eq_codeValue]
  cases neg
  · exact hnonneg
  · exact (abs_neg _).trans hnonneg

theorem codeValue_eq_zero_iff {code : Nat} : codeValue code = 0 ↔ code = 0 :=
  codeValue_zero ▸ codeValue_strictMono.injective.eq_iff

theorem finiteValue_eq_zero_iff {neg : Bool} {m : Magnitude} : finiteValue neg m = 0 ↔ m.code = 0 := by
  rw [← abs_eq_zero, abs_finiteValue, codeValue_eq_zero_iff]

theorem finiteValue_not (neg : Bool) (m : Magnitude) : finiteValue (!neg) m = -finiteValue neg m := by
  rw [finiteValue_eq_codeValue, finiteValue_eq_codeValue]
  cases neg <;> simp

/-- A number has the sign `neg`; 0 has both. -/
def HasSign (neg : Bool) (q : ℚ) : Prop := if neg then q ≤ 0 else 0 ≤ q

theorem hasSign_finiteValue (neg : Bool) (m : Magnitude) : HasSign neg (finiteValue neg m) := by
  have hnonneg := codeValue_nonneg m.code
  rw [finiteValue_eq_codeValue]
  cases neg <;> simpa [HasSign] using hnonneg

theorem HasSign.mul {p : ℚ} (hp : HasSign s p) (hq : HasSign t q) : HasSign (s != t) (p * q) := by
  cases s <;> cases t
  · exact mul_nonneg hp hq
  · exact mul_nonpos_of_nonneg_of_nonpos hp hq
  · exact mul_nonpos_of_nonpos_of_nonneg hp hq
  · exact mul_nonneg_of_nonpos_of_nonpos hp hq

theorem HasSign.inv (hq : HasSign t q) : HasSign t q⁻¹ := by
  cases t
  · exact inv_nonneg.mpr hq
  · exact inv_nonpos.mpr hq

theorem HasSign.eq_decide (hq : HasSign t q) (hne : q ≠ 0) : t = decide (q < 0) := by
  cases t
  · exact (decide_eq_false (not_lt.mpr hq)).symm
  · exact (decide_eq_true (lt_of_le_of_ne hq hne)).symm

theorem hasSign_decide (q : ℚ) : HasSign (decide (q < 0)) q := by
  by_cases h : q < 0
  · rw [decide_eq_true h]
    exact h.le
  · rw [decide_eq_false h]
    exact not_lt.mp h

/-! ### The double of a number -/

/-- A double is the one nearest to a number, of two the even one, with the number's sign. The nearest one is taken
    among all codes, and is infinite from the code of infinity on. -/
def RoundsTo (q : ℚ) (x : Binary64) : Prop :=
  ∃ neg code, HasSign neg q ∧ IsNearestEven |q| code ∧ x = ofCode neg code

theorem roundsTo_round {neg : Bool} {num den : Nat} (hden : 0 < den) (hsign : HasSign neg q)
    (habs : |q| = quotient num den) : RoundsTo q (round neg num den) :=
  ⟨neg, roundCode num den, hsign, habs ▸ isNearestEven_roundCode num hden, rfl⟩

theorem roundsTo_finite (neg : Bool) (m : Magnitude) : RoundsTo (finiteValue neg m) (finite neg m) :=
  ⟨neg, m.code, hasSign_finiteValue neg m, abs_finiteValue neg m ▸ isNearestEven_codeValue m.code,
    (ofCode_code neg m).symm⟩

theorem RoundsTo.eq_finite (h : RoundsTo q x) (hne : q ≠ 0) (hq : |q| = codeValue a.code) :
    x = finite (decide (q < 0)) a := by
  obtain ⟨neg, code, hsign, hnear, rfl⟩ := h
  rw [hq] at hnear
  rw [hnear.eq_of_codeValue, ofCode_code, hsign.eq_decide hne]

/-- A number that is not beyond a finite double is rounded to one that is not beyond it either. -/
theorem RoundsTo.exists_finite (h : RoundsTo q x) (hq : |q| ≤ codeValue b.code) :
    ∃ neg c, x = finite neg c ∧ HasSign neg q ∧ IsNearestEven |q| c.code ∧ c.code ≤ b.code := by
  obtain ⟨neg, code, hsign, hnear, rfl⟩ := h
  have hle := hnear.le_of_le_codeValue hq
  have hlt : code < 0x7FF0000000000000 := hle.trans_lt b.code_lt
  exact ⟨neg, ⟨code, hlt⟩, dif_pos hlt, hsign, hnear, hle⟩

theorem RoundsTo.number?_eq (h : RoundsTo q x) (hq : |q| = codeValue b.code) : x.number? = some (.ofRat q) := by
  obtain ⟨neg, c, rfl, hsign, hnear, -⟩ := h.exists_finite hq.le
  rw [hq] at hnear
  have hvalue : finiteValue neg c = q := by
    rw [finiteValue_eq_codeValue, hnear.eq_of_codeValue, ← hq]
    cases neg
    · exact abs_of_nonneg hsign
    · exact neg_eq_iff_eq_neg.mpr (abs_of_nonpos hsign)
  rw [number?, hvalue]

theorem RoundsTo.number?_int {n : Int} (h : RoundsTo n x) (hn : n.natAbs < 2 ^ 53) :
    x.number? = some (.ofRat n) := by
  obtain ⟨m, hm⟩ := exists_magnitude hn
  refine h.number?_eq (b := m) ?_
  rw [codeValue_of_quanta hm, Nat.cast_natAbs, Int.cast_abs]

/-- Rounding moves a number by one part in `2^53` at most, unless the number is subnormal or overflows. -/
theorem RoundsTo.error_le (h : RoundsTo q x) (hlo : codeValue (2 ^ 52) ≤ |q|) (hhi : |q| ≤ codeValue b.code) :
    ∃ neg c, x = finite neg c ∧ |q - finiteValue neg c| ≤ |q| / 2 ^ 53 := by
  obtain ⟨neg, c, rfl, hsign, hnear, -⟩ := h.exists_finite hhi
  have herror := hnear.error_le hlo
  refine ⟨neg, c, rfl, ?_⟩
  rw [finiteValue_eq_codeValue]
  cases neg
  · rwa [abs_of_nonneg hsign] at herror ⊢
  · rw [abs_of_nonpos hsign] at herror ⊢
    rwa [if_pos rfl, ← abs_neg, neg_sub', neg_neg]

/-! ### Sums, differences, products and quotients -/

theorem abs_quanta_div (n : Int) : |(n : ℚ) / unit| = quotient n.natAbs 1 := by
  rw [abs_div, abs_of_pos unit_cast_pos, quotient, Nat.cast_one, div_one, Nat.cast_natAbs, Int.cast_abs]

theorem eq_zero_or_codeValue_one_le (n : Int) : (n : ℚ) / unit = 0 ∨ codeValue 1 ≤ |(n : ℚ) / unit| := by
  by_cases h : n = 0
  · left
    simp [h]
  · right
    have hone : codeQuanta 1 * 1 = 1 := by decide
    rw [abs_quanta_div, codeValue_eq_quotient Nat.one_pos, hone, quotient_le_iff Nat.one_pos]
    exact Int.natAbs_pos.mpr h

theorem roundsTo_ofQuanta (zeroNeg : Bool) (n : Int) : RoundsTo (n / unit) (ofQuanta zeroNeg n) := by
  refine roundsTo_round Nat.one_pos ?_ (abs_quanta_div n)
  by_cases h : n = 0
  · cases zeroNeg <;> simp [HasSign, h]
  · rw [if_neg h]
    by_cases hneg : n < 0
    · rw [decide_eq_true hneg]
      exact div_nonpos_of_nonpos_of_nonneg (Int.cast_nonpos.mpr hneg.le) unit_cast_pos.le
    · rw [decide_eq_false hneg]
      exact div_nonneg (Int.cast_nonneg (not_lt.mp hneg)) unit_cast_pos.le

theorem roundsTo_add (s t : Bool) (a b : Magnitude) :
    RoundsTo (finiteValue s a + finiteValue t b) (finite s a + finite t b) := by
  have hsum : finiteValue s a + finiteValue t b = ((signed s a.quanta + signed t b.quanta : Int) : ℚ) / unit := by
    rw [finiteValue, finiteValue, ← add_div, Int.cast_add]
  rw [hsum]
  exact roundsTo_ofQuanta (s && t) _

theorem roundsTo_sub (s t : Bool) (a b : Magnitude) :
    RoundsTo (finiteValue s a - finiteValue t b) (finite s a - finite t b) := by
  rw [sub_eq_add_neg, ← finiteValue_not]
  exact roundsTo_add s (!t) a b

theorem codeValue_eq_quanta (m : Magnitude) : codeValue m.code = m.quanta / unit := by
  rw [codeValue, m.quanta_eq]

theorem roundsTo_mul (s t : Bool) (a b : Magnitude) :
    RoundsTo (finiteValue s a * finiteValue t b) (finite s a * finite t b) := by
  refine roundsTo_round unit_pos ((hasSign_finiteValue s a).mul (hasSign_finiteValue t b)) ?_
  rw [abs_mul, abs_finiteValue, abs_finiteValue, codeValue_eq_quanta, codeValue_eq_quanta, quotient, Nat.cast_mul,
    div_mul_div_comm, div_div]

theorem quanta_pos (hb : b.code ≠ 0) : 0 < b.quanta := by
  rw [b.quanta_eq, Nat.pos_iff_ne_zero, ne_eq, codeQuanta_eq_zero]
  exact hb

theorem roundsTo_div (s t : Bool) (a : Magnitude) (hb : b.code ≠ 0) :
    RoundsTo (finiteValue s a / finiteValue t b) (finite s a / finite t b) := by
  have heval : finite s a / finite t b = round (s != t) (a.quanta * unit) b.quanta := if_neg hb
  have hunit := unit_cast_pos.ne'
  rw [heval, div_eq_mul_inv]
  refine roundsTo_round (quanta_pos hb) ((hasSign_finiteValue s a).mul (hasSign_finiteValue t b).inv) ?_
  rw [abs_mul, abs_inv, abs_finiteValue, abs_finiteValue, codeValue_eq_quanta, codeValue_eq_quanta, quotient,
    Nat.cast_mul, inv_div, div_mul_div_cancel₀ hunit, div_right_comm, mul_div_cancel_right₀ _ hunit]

/-! ### Remainders -/

/-- A remainder of doubles is the number of a double: at the lower place of the two operands, it is below the divisor's
    significand or not above the dividend's. -/
theorem exists_magnitude_mod (a : Magnitude) (hb : b.code ≠ 0) : ∃ c : Magnitude, c.quanta = a.quanta % b.quanta := by
  obtain ⟨code, hcode⟩ : ∃ code, codeQuanta code = a.quanta % b.quanta := by
    obtain ⟨pa, sa, ha, hsa, hpa⟩ := exists_split a.code
    obtain ⟨pb, sb, hb', hsb, hpb⟩ := exists_split b.code
    have hqa : a.quanta = sa * 2 ^ pa := by rw [a.quanta_eq, ha, codeQuanta_split hsa.le hpa]
    have hqb : b.quanta = sb * 2 ^ pb := by rw [b.quanta_eq, hb', codeQuanta_split hsb.le hpb]
    have hsb_pos : 0 < sb := Nat.pos_of_mul_pos_right (hqb ▸ quanta_pos hb)
    -- The remainder is a multiple of the lower of the two places.
    rcases Nat.le_total pb pa with hle | hle
    · obtain ⟨k, rfl⟩ := Nat.exists_eq_add_of_le' hle
      have hmod : a.quanta % b.quanta = sa * 2 ^ k % sb * 2 ^ pb := by
        rw [hqa, hqb, pow_add, ← Nat.mul_assoc, Nat.mul_mod_mul_right]
      rw [hmod]
      exact exists_code ((Nat.mod_lt _ hsb_pos).trans hsb) pb
    · obtain ⟨k, rfl⟩ := Nat.exists_eq_add_of_le' hle
      have hmod : a.quanta % b.quanta = sa % (sb * 2 ^ k) * 2 ^ pa := by
        rw [hqa, hqb, pow_add, ← Nat.mul_assoc, Nat.mul_mod_mul_right]
      rw [hmod]
      exact exists_code ((Nat.mod_le _ _).trans_lt hsa) pa
  have hlt : code < b.code := by
    rw [← codeQuanta_lt_iff, hcode, ← b.quanta_eq]
    exact Nat.mod_lt _ (quanta_pos hb)
  exact ⟨⟨code, hlt.trans b.code_lt⟩, (Magnitude.quanta_eq _).trans hcode⟩

theorem exists_rem_eq (s t : Bool) (a : Magnitude) (hb : b.code ≠ 0) :
    ∃ c : Magnitude, (finite s a).rem (finite t b) = finite s c ∧ c.quanta = a.quanta % b.quanta := by
  obtain ⟨c, hc⟩ := exists_magnitude_mod a hb
  refine ⟨c, ?_, hc⟩
  rw [rem, if_neg hb]
  exact round_quanta s Nat.one_pos c (by rw [hc, Nat.mul_one])

end Binary64
end ScalarOps
