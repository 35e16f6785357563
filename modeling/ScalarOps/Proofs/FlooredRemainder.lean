import ScalarOps.Proofs.Binary64.Arithmetic
import ScalarOps.Proofs.Comparison
import ScalarOps.Proofs.FloorDivision

/-! The floored remainder of two numbers is `p - q * ⌊p / q⌋`. A double remainder starts from the truncated remainder,
    which is exact, and adds one divisor if the two straddle zero. The sum is the floored remainder, rounded once: it
    keeps the divisor's sign, does not become zero, and does not pass the divisor. -/

namespace ScalarOps

/-- The remainder of a quotient rounded down. -/
def flooredRemainder (p q : ℚ) : ℚ := p - q * ⌊p / q⌋

namespace Binary64

variable {s t : Bool} {a b c : Magnitude} {x y : Binary64}

/-! ### Signed numbers of quanta -/

theorem signed_tmod (s t : Bool) (m n : Nat) : (signed s m).tmod (signed t n) = signed s (m % n) := by
  cases s <;> cases t <;> simp [signed, Int.tmod_eq_emod_of_nonneg]

theorem signed_eq_zero_iff {n : Nat} : signed t n = 0 ↔ n = 0 := by
  cases t <;> simp [signed]

theorem quanta_eq_zero_iff : c.quanta = 0 ↔ c.code = 0 := by
  rw [c.quanta_eq, codeQuanta_eq_zero]

theorem isBelowZero_finite : (finite s c).isBelowZero = true ↔ signed s c.quanta < 0 := by
  have hpos : 0 < c.quanta ↔ ¬c.code = 0 := by rw [Nat.pos_iff_ne_zero, ne_eq, quanta_eq_zero_iff]
  cases s <;> simp [isBelowZero, signed, hpos]

/-- The test for a correction asks whether the remainder straddles zero with the divisor. -/
theorem straddles_finite_iff : (!(finite s c).isZero && (finite s c).isBelowZero != (finite t b).isBelowZero) = true ↔
    Straddles (signed s c.quanta) (signed t b.quanta) := by
  rw [Straddles, ← isBelowZero_finite, ← isBelowZero_finite, ne_eq, signed_eq_zero_iff, quanta_eq_zero_iff,
    Bool.and_eq_true, bne_iff_ne, ne_eq, Bool.eq_iff_iff]
  simp [isZero]

theorem flooredRemainder_finiteValue (s t : Bool) (a : Magnitude) (hb : b.code ≠ 0) :
    flooredRemainder (finiteValue s a) (finiteValue t b) =
      ((signed s a.quanta).fmod (signed t b.quanta) : Int) / unit := by
  have hb' : signed t b.quanta ≠ 0 := fun h => hb (quanta_eq_zero_iff.mp (signed_eq_zero_iff.mp h))
  unfold flooredRemainder finiteValue
  rw [div_div_div_cancel_right₀ unit_cast_pos.ne', floor_div_eq_fdiv _ hb', Int.fmod_def, Int.cast_sub, Int.cast_mul,
    sub_div, mul_div_right_comm]

/-! ### Two finite operands -/

/-- The remainder is the exact truncated one if it is zero or on the divisor's side, and otherwise the sum of the exact
    one and the divisor. The exact sum is the floored remainder. -/
theorem floorMod_cases (s t : Bool) (a : Magnitude) (hb : b.code ≠ 0) :
    ∃ c : Magnitude, c.code < b.code ∧
      (((c.code = 0 ∨ s = t) ∧ (finite s a).floorMod (finite t b) = finite s c ∧
          flooredRemainder (finiteValue s a) (finiteValue t b) = finiteValue s c) ∨
        (s ≠ t ∧ (finite s a).floorMod (finite t b) = finite s c + finite t b ∧
          flooredRemainder (finiteValue s a) (finiteValue t b) = finiteValue s c + finiteValue t b)) := by
  obtain ⟨c, hrem, hc⟩ := exists_rem_eq s t a hb
  have hb' : signed t b.quanta ≠ 0 := fun h => hb (quanta_eq_zero_iff.mp (signed_eq_zero_iff.mp h))
  have htmod : (signed s a.quanta).tmod (signed t b.quanta) = signed s c.quanta := by rw [signed_tmod, hc]
  have hlt : c.code < b.code := by
    rw [← codeQuanta_lt_iff, ← c.quanta_eq, ← b.quanta_eq, hc]
    exact Nat.mod_lt _ (quanta_pos hb)
  have heval : (finite s a).floorMod (finite t b) =
      if !(finite s c).isZero && (finite s c).isBelowZero != (finite t b).isBelowZero then finite s c + finite t b
      else finite s c := by
    unfold floorMod
    rw [hrem]
    rfl
  have hvalue := flooredRemainder_finiteValue s t a hb
  refine ⟨c, hlt, ?_⟩
  by_cases h : Straddles (signed s c.quanta) (signed t b.quanta)
  · right
    rw [(fdiv_fmod_of_straddles hb' (htmod ▸ h)).2, htmod, Int.cast_add, add_div] at hvalue
    refine ⟨?_, heval.trans (if_pos (straddles_finite_iff.mpr h)), hvalue⟩
    rintro rfl
    have hne : c.quanta ≠ 0 := fun h' => h.1 (signed_eq_zero_iff.mpr h')
    have hbpos := quanta_pos hb
    refine h.2 ?_
    -- With one sign the remainder would be on the divisor's side.
    cases s <;> simp [signed] <;> omega
  · left
    rw [(fdiv_fmod_of_not_straddles hb' (htmod ▸ h)).2, htmod] at hvalue
    refine ⟨?_, heval.trans (if_neg (fun h' => h (straddles_finite_iff.mp h'))), hvalue⟩
    by_contra hne
    rw [not_or] at hne
    have hcpos := quanta_pos hne.1
    have hbpos := quanta_pos hb
    refine h ⟨fun h' => hne.1 (quanta_eq_zero_iff.mp (signed_eq_zero_iff.mp h')), fun hside => hne.2 ?_⟩
    cases s <;> cases t <;> simp [signed] at hside ⊢ <;> omega

theorem roundsTo_floorMod (s t : Bool) (a : Magnitude) (hb : b.code ≠ 0) :
    RoundsTo (flooredRemainder (finiteValue s a) (finiteValue t b)) ((finite s a).floorMod (finite t b)) := by
  obtain ⟨c, -, ⟨-, heval, hvalue⟩ | ⟨-, heval, hvalue⟩⟩ := floorMod_cases s t a hb
  · rw [heval, hvalue]
    exact roundsTo_finite s c
  · rw [heval, hvalue]
    exact roundsTo_add s t c b

theorem floorMod_of_eq_zero (hb : b.code ≠ 0) (h : flooredRemainder (finiteValue s a) (finiteValue t b) = 0) :
    (finite s a).floorMod (finite t b) = finite s .zero := by
  obtain ⟨c, hlt, ⟨-, heval, hvalue⟩ | ⟨-, -, hvalue⟩⟩ := floorMod_cases s t a hb
  · rw [h, eq_comm, finiteValue_eq_zero_iff] at hvalue
    rw [heval, Magnitude.eq_zero_iff.mpr hvalue]
  · -- The two terms of the sum have different magnitudes.
    have hneg : finiteValue s c = -finiteValue t b := eq_neg_of_add_eq_zero_left (hvalue.symm.trans h)
    have habs := congrArg abs hneg
    rw [abs_neg, abs_finiteValue, abs_finiteValue] at habs
    exact absurd habs (codeValue_strictMono hlt).ne

theorem finiteValue_add_of_ne (hst : s ≠ t) : finiteValue s c + finiteValue t b =
    if t then -(codeValue b.code - codeValue c.code) else codeValue b.code - codeValue c.code := by
  rw [finiteValue_eq_codeValue, finiteValue_eq_codeValue]
  cases s <;> cases t <;> simp at hst ⊢ <;> ring

theorem codeValue_one_le (h : c.code < b.code) : codeValue 1 ≤ codeValue b.code - codeValue c.code := by
  have hpos : 0 < codeValue b.code - codeValue c.code := sub_pos.mpr (codeValue_strictMono h)
  have hapart := eq_zero_or_codeValue_one_le (b.quanta - c.quanta)
  rw [Int.cast_sub, Int.cast_natCast, Int.cast_natCast, sub_div, ← codeValue_eq_quanta, ← codeValue_eq_quanta,
    abs_of_pos hpos] at hapart
  exact hapart.resolve_left hpos.ne'

/-- A remainder that is not zero keeps the divisor's sign, is not beyond the divisor, and is exact if both operands
    have one sign. -/
theorem exists_floorMod_eq (hb : b.code ≠ 0) (h : flooredRemainder (finiteValue s a) (finiteValue t b) ≠ 0) :
    ∃ c, (finite s a).floorMod (finite t b) = finite t c ∧ c.code ≠ 0 ∧ c.code ≤ b.code ∧
      (s = t → finiteValue t c = flooredRemainder (finiteValue s a) (finiteValue t b)) := by
  obtain ⟨c, hlt, ⟨hside, heval, hvalue⟩ | ⟨hst, heval, hvalue⟩⟩ := floorMod_cases s t a hb
  · have hne : c.code ≠ 0 := fun h' => h (hvalue.trans (finiteValue_eq_zero_iff.mpr h'))
    obtain rfl := hside.resolve_left hne
    exact ⟨c, heval, hne, hlt.le, fun _ => hvalue.symm⟩
  -- The remainder is below the divisor, so the sum keeps the divisor's side and one quantum at least.
  · have hsum := @finiteValue_add_of_ne s t b c hst
    have hone := codeValue_one_le hlt
    have hpos : 0 < codeValue b.code - codeValue c.code := (codeValue_pos Nat.one_pos).trans_le hone
    have habs : |finiteValue s c + finiteValue t b| = codeValue b.code - codeValue c.code := by
      rw [hsum]
      cases t
      · exact abs_of_pos hpos
      · exact (abs_neg _).trans (abs_of_pos hpos)
    have hsign : HasSign t (finiteValue s c + finiteValue t b) := by
      rw [hsum]
      cases t
      · exact hpos.le
      · exact neg_nonpos.mpr hpos.le
    have hne : finiteValue s c + finiteValue t b ≠ 0 := hvalue ▸ h
    have hle : |finiteValue s c + finiteValue t b| ≤ codeValue b.code := by
      rw [habs]
      exact sub_le_self _ (codeValue_nonneg c.code)
    obtain ⟨neg, c', hc', hneg, hnear, hcode⟩ := (roundsTo_add s t c b).exists_finite hle
    obtain rfl : neg = t := (hneg.eq_decide hne).trans (hsign.eq_decide hne).symm
    have hc'_pos := hnear.le_of_codeValue_le (k := 1) (habs ▸ hone)
    exact ⟨c', heval.trans hc', Nat.ne_zero_of_lt hc'_pos, hcode, fun h' => absurd h' hst⟩

/-! ### Other operands -/

/-- An infinite divisor leaves the dividend as it is if it is zero or of the divisor's sign, and gives the divisor
    otherwise. -/
theorem floorMod_inf (s t : Bool) (a : Magnitude) :
    (finite s a).floorMod (inf t) = if a = .zero ∨ s = t then finite s a else inf t := by
  have heval : (finite s a).floorMod (inf t) =
      if !(finite s a).isZero && (finite s a).isBelowZero != t then inf t else finite s a := rfl
  rw [heval]
  by_cases ha : a = .zero
  · simp [isZero, ha, Magnitude.zero]
  · have hcode := Magnitude.eq_zero_iff.not.mp ha
    cases s <;> cases t <;> simp [isZero, isBelowZero, ha, hcode]

theorem floorMod_of_rem_eq_quietNaN (h : x.rem y = quietNaN) : x.floorMod y = quietNaN := by
  unfold floorMod
  rw [h]
  exact ite_self _

theorem floorMod_eq_nan_iff : (∃ n, x.floorMod y = nan n) ↔
    (∃ n, x = nan n) ∨ (∃ n, y = nan n) ∨ (∃ s, x = inf s) ∨ y.isZero = true := by
  have hquiet : x.rem y = quietNaN → ∃ n, x.floorMod y = nan n := fun h => ⟨_, floorMod_of_rem_eq_quietNaN h⟩
  cases x with
  | nan n => exact iff_of_true (hquiet rfl) (Or.inl ⟨n, rfl⟩)
  | inf s => exact iff_of_true (hquiet (by cases y <;> rfl)) (Or.inr (Or.inr (Or.inl ⟨s, rfl⟩)))
  | finite s a =>
    cases y with
    | nan n => exact iff_of_true (hquiet rfl) (Or.inr (Or.inl ⟨n, rfl⟩))
    | inf t =>
      rw [floorMod_inf]
      split <;> simp [isZero]
    | finite t b =>
      by_cases hb : b.code = 0
      · exact iff_of_true (hquiet (if_pos hb)) (Or.inr (Or.inr (Or.inr (by simp [isZero, hb]))))
      · by_cases h : flooredRemainder (finiteValue s a) (finiteValue t b) = 0
        · simp [floorMod_of_eq_zero hb h, isZero, hb]
        · obtain ⟨c, hc, -⟩ := exists_floorMod_eq hb h
          simp [hc, isZero, hb]

end Binary64

/-! ### The operator -/

theorem NumericPair.ofValues?_floats {l r : Value} {x y : Binary64} (hl : l.asFloat? = some x)
    (hr : r.asFloat? = some y) (hdouble : l.asInt? = none ∨ r.asInt? = none) :
    ofValues? l r = some (floats x y) := by
  cases l <;> cases r <;> simp_all [Value.asFloat?, Value.asInt?, ofValues?]

theorem BinaryOp.eval_arith_floats (op : ArithOp) {l r : Value} {x y : Binary64} (hl : l.asFloat? = some x)
    (hr : r.asFloat? = some y) (hdouble : l.asInt? = none ∨ r.asInt? = none) :
    (arith op).eval l r = .ok (.float (op.onDoubles x y)) := by
  rw [eval, NumericPair.ofValues?_floats hl hr hdouble]
  rfl

open Binary64 in
/-- The remainder of two numbers, one of them a double at least, is the floored remainder rounded once: a zero with
    the dividend's sign if that is 0, and otherwise of the divisor's sign and not beyond it. The first parts say what
    infinities, zeros and NaNs give. -/
theorem BinaryOp.eval_mod_rounds_floored_remainder {l r : Value} {x y : Binary64} (hl : l.asFloat? = some x)
    (hr : r.asFloat? = some y) (hdouble : l.asInt? = none ∨ r.asInt? = none) :
    ∃ z, (arith .mod).eval l r = .ok (.float z) ∧
      ((∃ n, z = nan n) ↔ (∃ n, x = nan n) ∨ (∃ n, y = nan n) ∨ (∃ s, x = inf s) ∨ y.isZero = true) ∧
      (∀ s a t, x = finite s a → y = inf t → z = if a = .zero ∨ s = t then x else y) ∧
      (∀ s a t b, x = finite s a → y = finite t b → b ≠ .zero →
        ∀ m, m = finiteValue s a - finiteValue t b * ⌊finiteValue s a / finiteValue t b⌋ →
          (m = 0 → z = finite s .zero) ∧
          (m ≠ 0 → RoundsTo m z ∧ ∃ c, z = finite t c ∧ c ≠ .zero ∧ |finiteValue t c| ≤ |finiteValue t b| ∧
            (s = t → finiteValue t c = m))) := by
  refine ⟨x.floorMod y, eval_arith_floats .mod hl hr hdouble, floorMod_eq_nan_iff, ?_, ?_⟩
  · rintro s a t rfl rfl
    exact floorMod_inf s t a
  · rintro s a t b rfl rfl hb m rfl
    rw [ne_eq, Magnitude.eq_zero_iff] at hb
    refine ⟨floorMod_of_eq_zero hb, fun hm => ⟨roundsTo_floorMod s t a hb, ?_⟩⟩
    obtain ⟨c, hc, hne, hle, hexact⟩ := exists_floorMod_eq hb hm
    refine ⟨c, hc, Magnitude.eq_zero_iff.not.mpr hne, ?_, hexact⟩
    rw [abs_finiteValue, abs_finiteValue]
    exact codeValue_strictMono.monotone hle

open Binary64 in
/-- The negative double next to zero leaves a positive remainder by 1, which is rounded. -/
theorem BinaryOp.eval_mod_of_least_negative_double :
    ∃ c, (arith .mod).eval (.float (finite true ⟨1, by decide⟩)) (.int .one) = .ok (.float (finite false c)) ∧
      c ≠ .zero ∧ |finiteValue false c| ≤ |finiteValue false .one| := by
  have hone : (Value.int .one).asFloat? = some (finite false .one) := by decide +kernel
  have hm : flooredRemainder (finiteValue true ⟨1, by decide⟩) (finiteValue false .one) ≠ 0 := by
    have hfmod : (signed true (⟨1, by decide⟩ : Magnitude).quanta).fmod (signed false Magnitude.one.quanta) ≠ 0 := by
      decide +kernel
    rw [flooredRemainder_finiteValue true false _ (by decide)]
    exact div_ne_zero (Int.cast_ne_zero.mpr hfmod) unit_cast_pos.ne'
  obtain ⟨z, heval, -, -, hfinite⟩ :=
    BinaryOp.eval_mod_rounds_floored_remainder (l := .float (finite true ⟨1, by decide⟩)) rfl hone (Or.inl rfl)
  obtain ⟨-, c, rfl, hne, hle, -⟩ := (hfinite true _ false .one rfl rfl (by decide) _ rfl).2 hm
  exact ⟨c, heval, hne, hle⟩

end ScalarOps
