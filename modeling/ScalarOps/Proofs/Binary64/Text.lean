import ScalarOps.Binary64.Text
import ScalarOps.Proofs.Decimal.Numeral
import ScalarOps.Proofs.Decimal.Optimal

/-! The text of a finite double is a numeral of its shortest decimal. It is one of three forms behind the sign
    (`finiteChars_eq`): the exact value with one place, which is below `10^16` its own shortest decimal, the
    positional form, or the completed scientific form. Which one is taken depends on the exact value alone
    (`isPositional_shortest_iff`). -/

namespace ScalarOps

open Decimal

/-! ### The scientific form -/

theorem splitOnce?_append {c : Char} {front : List Char} (h : c ∉ front) (rest : List Char) :
    splitOnce? c (front ++ c :: rest) = some (front, rest) := by
  have hfront : ∀ x ∈ front, (x != c) = true := fun x hx => by
    rw [bne_iff_ne]
    rintro rfl
    exact h hx
  unfold splitOnce?
  rw [List.dropWhile_append_of_pos hfront, List.takeWhile_append_of_pos hfront]
  simp

namespace Binary64

theorem not_mem_signChars (neg : Bool) {c : Char} (hc : c ≠ '-') : c ∉ signChars neg := by
  cases neg <;> simp [signChars, hc]

theorem splitOnce?_scientific (neg : Bool) (m : Magnitude) :
    splitOnce? 'e' (scientific neg m) =
      some (signChars neg ++ m.shortest.mantissa, integerChars m.shortest.exponent) := by
  have hmantissa : 'e' ∉ signChars neg ++ m.shortest.mantissa := by
    rw [List.mem_append, not_or]
    exact ⟨not_mem_signChars neg (by decide), not_mem_mantissa rfl (by decide)⟩
  rw [scientific, Decimal.scientific, ← List.append_assoc, splitOnce?_append hmantissa]

theorem exists_read?_exponent (m : Magnitude) :
    ∃ x, Word.read? (integerChars m.shortest.exponent) = some x ∧ x.toInt = m.shortest.exponent := by
  obtain ⟨x, hx, hint⟩ := m.exists_ofInt?_exponent
  refine ⟨x, ?_, hint⟩
  rw [Word.read?, readInteger?_integerChars, Option.bind_some, hx]

theorem finiteChars_eq (neg : Bool) (m : Magnitude) :
    finiteChars neg m =
      if layout.isPositional m.shortest.exponent then
        if (finite neg m).isIntegral then signChars neg ++ m.tenths else signChars neg ++ m.shortest.positional
      else completed (signChars neg ++ m.shortest.mantissa) m.shortest.exponent := by
  obtain ⟨x, hx, hint⟩ := exists_read?_exponent m
  unfold finiteChars
  rw [splitOnce?_scientific]
  dsimp only
  rw [hx, Option.getD_some, hint]
  rfl

/-- The positional form is taken for the zeros and from 10 to the power -4 up to 10 to the power 16: the former is
    rounded up to a double, the latter is one, so the shortest decimal reaches them exactly if the magnitude does. -/
theorem isPositional_shortest_iff (m : Magnitude) :
    layout.isPositional m.shortest.exponent = true ↔
      m.code = 0 ∨ ((10 : ℚ) ^ (-4 : Int) ≤ codeValue m.code ∧ codeValue m.code < (10 : ℚ) ^ (16 : Int)) := by
  by_cases hm : m.code = 0
  · refine iff_of_true ?_ (Or.inl hm)
    rw [Magnitude.shortest, if_pos hm]
    decide
  · have hlow : (⟨1, -4⟩ : Decimal).toRat ≤ codeValue (⟨1, -4⟩ : Decimal).nearestCode :=
      toRat_le_codeValue_iff.mpr (by decide +kernel)
    have hhigh : (⟨1, 16⟩ : Decimal).toRat ≤ codeValue (⟨1, 16⟩ : Decimal).nearestCode :=
      toRat_le_codeValue_iff.mpr (by decide +kernel)
    rw [← Magnitude.le_exponent_shortest_iff hm hlow, ← not_le, ← Magnitude.le_exponent_shortest_iff hm hhigh,
      Layout.isPositional, decide_eq_true_iff, Int.not_le, or_iff_right hm]
    exact Iff.rfl

theorem coeff_shortest_ne_zero {m : Magnitude} (hm : m.code ≠ 0) : m.shortest.coeff ≠ 0 :=
  Magnitude.coeff_ne_zero_of_reads hm m.nearestCode_shortest

/-! ### The exact value with one place -/

theorem divRoundEven_mul (n : Nat) {den : Nat} (hden : 0 < den) : divRoundEven (n * den) den = n := by
  unfold divRoundEven
  simp only [Nat.mul_mod_left, Nat.mul_zero, Nat.mul_div_cancel _ hden]
  rw [Nat.compare_eq_lt.mpr hden]

theorem tenths_eq {m : Magnitude} {n : Nat} (h : m.quanta = n * unit) : m.tenths = Nat.toDigits 10 n ++ ['.', '0'] := by
  have hcount : divRoundEven (10 * m.quanta) unit = 10 * n := by
    rw [h, ← Nat.mul_assoc, divRoundEven_mul _ unit_pos]
  rw [Magnitude.tenths, hcount, Nat.mul_mod_right, Nat.mul_div_cancel_left _ (by decide), Nat.toDigits_zero]

theorem isNumeral_natural (n : Nat) : IsNumeral (Nat.toDigits 10 n) ['0'] [] n := by
  have hplace : 0 + ((Nat.toDigits 10 n).length : Int) - 1 + 1 - (Nat.toDigits 10 n).length = 0 := by omega
  refine ⟨isWhole_toDigits n, isFraction_zero, 0, rfl, ?_⟩
  rw [← List.replicate_one, toRat_ofDigits_append_zeros, ofDigits, Nat.ofDigitChars_ten_toDigits, hplace,
    toRat_natural]

theorem isPositional_natural_iff {m : Magnitude} {n : Nat} (h : codeValue m.code = n) :
    layout.isPositional m.shortest.exponent = true ↔ n < 10 ^ 16 := by
  have hcast : codeValue m.code < (10 : ℚ) ^ (16 : Int) ↔ n < 10 ^ 16 := by
    rw [h]
    exact_mod_cast Iff.rfl
  rw [isPositional_shortest_iff, hcast]
  rcases Nat.eq_zero_or_pos n with rfl | hpos
  · rw [Nat.cast_zero, ← codeValue_zero] at h
    exact iff_of_true (Or.inl (codeValue_strictMono.injective h)) (by decide)
  · have hm : m.code ≠ 0 := fun hzero => by
      rw [hzero, codeValue_zero] at h
      exact hpos.ne (by exact_mod_cast h)
    have hlow : (10 : ℚ) ^ (-4 : Int) ≤ codeValue m.code := by
      rw [h]
      exact (zpow_le_one_of_nonpos₀ (by norm_num) (by decide)).trans (by exact_mod_cast hpos)
    rw [or_iff_right hm, and_iff_right hlow]

theorem finiteChars_natural (neg : Bool) {m : Magnitude} {n : Nat} (h : codeValue m.code = n) (hn : n < 10 ^ 16) :
    finiteChars neg m = signChars neg ++ (Nat.toDigits 10 n ++ ['.', '0']) := by
  rw [finiteChars_eq, if_pos ((isPositional_natural_iff h).mpr hn), if_pos (isIntegral_iff.mpr ⟨n, h⟩),
    tenths_eq (m.quanta_eq.trans (codeValue_eq_natCast_iff.mp h))]

/-! ### The completed scientific form -/

theorem exists_completed_eq (neg : Bool) {d : Decimal} (hd : d.coeff ≠ 0) :
    ∃ c fraction, c ≠ '0' ∧ IsNumeral [c] fraction (layout.exponentPart d.exponent) d.toRat ∧
      completed (signChars neg ++ d.mantissa) d.exponent =
        signChars neg ++ ([c] ++ '.' :: (fraction ++ layout.exponentPart d.exponent)) := by
  obtain ⟨c, rest, hdigits, hc, hmantissa⟩ := exists_mantissa_eq hd
  have hdigit : c.isDigit = true := isDigit_of_mem_digits (hdigits ▸ List.mem_cons_self)
  have hwhole : IsWhole [c] :=
    ⟨List.cons_ne_nil _ _, fun x hx => List.mem_singleton.mp hx ▸ hdigit,
      Or.inr (by rwa [List.head?_cons, ne_eq, Option.some_inj])⟩
  have hplace : d.exponent + ([c].length : Int) - 1 = d.exponent := by
    rw [List.length_singleton]
    omega
  have hnumber := d.toRat_ofDigits_digits
  rw [hdigits] at hnumber
  unfold completed
  rw [hmantissa]
  -- A single digit has no point yet, and the completed form adds one with a zero behind it.
  cases rest with
  | nil =>
    refine ⟨c, ['0'], hc, ⟨hwhole, isFraction_zero, _, readTail?_exponentPart _ _, ?_⟩, ?_⟩
    · rw [hplace]
      exact (toRat_ofDigits_append_zeros 1).trans hnumber
    · have hpoint : (signChars neg ++ pointed [c] []).contains '.' = false := by
        rw [List.contains_eq_mem, decide_eq_false_iff_not, List.mem_append, not_or]
        refine ⟨not_mem_signChars neg (by decide), fun h => ?_⟩
        rw [← List.mem_singleton.mp h] at hdigit
        cases hdigit
      rw [hpoint]
      simp [pointed]
  | cons x rest =>
    have hfraction : IsFraction (x :: rest) := by
      have hdrop : d.digits.drop 1 = x :: rest := by rw [hdigits, List.drop_one, List.tail_cons]
      have h := @isFraction_digits d 0 1 (by rw [hdrop]; exact List.cons_ne_nil _ _)
      rwa [hdrop] at h
    refine ⟨c, x :: rest, hc, ⟨hwhole, hfraction, _, readTail?_exponentPart _ _, ?_⟩, ?_⟩
    · rw [hplace]
      exact hnumber
    · have hpoint : (signChars neg ++ pointed [c] (x :: rest)).contains '.' = true := by
        rw [List.contains_eq_mem, decide_eq_true_iff]
        exact List.mem_append_right _ (List.mem_append_right _ List.mem_cons_self)
      rw [hpoint]
      simp [pointed]

/-! ### All forms -/

theorem exists_finiteChars_positional (neg : Bool) {m : Magnitude}
    (h : layout.isPositional m.shortest.exponent = true) :
    ∃ whole fraction, finiteChars neg m = signChars neg ++ (whole ++ '.' :: fraction) ∧
      IsNumeral whole fraction [] m.shortest.toRat := by
  cases hintegral : (finite neg m).isIntegral with
  | true =>
    -- The exact value is written; below 10 to the power 16 it is the shortest decimal.
    obtain ⟨n, hn⟩ := isIntegral_iff.mp hintegral
    have hlt := (isPositional_natural_iff hn).mp h
    refine ⟨_, _, finiteChars_natural neg hn hlt, ?_⟩
    rw [Magnitude.toRat_shortest_of_natural hn hlt]
    exact isNumeral_natural n
  | false =>
    have hm : m.code ≠ 0 := fun hzero => by
      rw [isIntegral_iff.mpr ⟨0, by rw [hzero, codeValue_zero, Nat.cast_zero]⟩] at hintegral
      cases hintegral
    -- Without a digit behind the ones the form would have no point, but then the double would be integral.
    have hdigits : m.shortest.exponent + 1 < m.shortest.digits.length := by
      by_contra hle
      rw [Magnitude.isIntegral_of_digits (by omega)] at hintegral
      cases hintegral
    obtain ⟨whole, fraction, heq, hnumeral⟩ := exists_positional_eq (coeff_shortest_ne_zero hm) hdigits
    refine ⟨whole, fraction, ?_, hnumeral⟩
    rw [finiteChars_eq, if_pos h, hintegral, if_neg Bool.false_ne_true, heq]

/-- The text of a finite double is its sign and a numeral of the shortest decimal's number: without an exponent, or
    with one behind a single digit other than 0. -/
theorem exists_finiteChars_eq (neg : Bool) (m : Magnitude) :
    ∃ whole fraction tail, finiteChars neg m = signChars neg ++ (whole ++ '.' :: (fraction ++ tail)) ∧
      IsNumeral whole fraction tail m.shortest.toRat ∧
      ((layout.isPositional m.shortest.exponent = true ∧ tail = []) ∨
        (layout.isPositional m.shortest.exponent = false ∧ tail = layout.exponentPart m.shortest.exponent ∧
          ∃ c, whole = [c] ∧ c ≠ '0')) := by
  cases hpositional : layout.isPositional m.shortest.exponent with
  | true =>
    obtain ⟨whole, fraction, heq, hnumeral⟩ := exists_finiteChars_positional neg hpositional
    exact ⟨whole, fraction, [], by rw [heq, List.append_nil], hnumeral, Or.inl ⟨rfl, rfl⟩⟩
  | false =>
    have hm : m.code ≠ 0 := fun hzero => by
      rw [(isPositional_shortest_iff m).mpr (Or.inl hzero)] at hpositional
      cases hpositional
    obtain ⟨c, fraction, hc, hnumeral, heq⟩ := exists_completed_eq neg (coeff_shortest_ne_zero hm)
    refine ⟨[c], fraction, _, ?_, hnumeral, Or.inr ⟨rfl, rfl, c, rfl, hc⟩⟩
    rw [finiteChars_eq, hpositional, if_neg Bool.false_ne_true, heq]

end Binary64
end ScalarOps
