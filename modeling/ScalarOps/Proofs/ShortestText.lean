import ScalarOps.Proofs.Binary64.Arithmetic
import ScalarOps.Proofs.Binary64.Text
import ScalarOps.Text

/-! The significant digits of a numeral are those of the number that it stands for (`significant_numeral`), whatever
    zeros its form adds at both ends. So the text of a finite double shows the shortest digits in each of its forms.
    -/

namespace ScalarOps
namespace Decimal

/-- The digits of a text in front of the exponent mark, without the zeros at both ends. -/
def significant (cs : List Char) : List Char :=
  (((cs.takeWhile (· != 'e')).filter Char.isDigit).dropWhile (· == '0')).rdropWhile (· == '0')

variable {whole fraction tail : List Char} {q : ℚ} {d : Decimal}

theorem takeWhile_mark_of_readTail? {e : Int} (h : readTail? tail = some e) : tail.takeWhile (· != 'e') = [] := by
  unfold readTail? at h
  split at h
  · rfl
  · rfl
  · cases h

theorem significant_numeral (h : IsNumeral whole fraction tail q) (neg : Bool) (hd : d.toRat = q) :
    significant (Binary64.signChars neg ++ (whole ++ '.' :: (fraction ++ tail))) = d.digits := by
  obtain ⟨e, htail, hq⟩ := h.number
  have hmark : ∀ c ∈ Binary64.signChars neg ++ (whole ++ '.' :: fraction), (c != 'e') = true := by
    intro c hc
    rw [bne_iff_ne]
    rintro rfl
    simp only [List.mem_append, List.mem_cons] at hc
    rcases hc with hsign | hwhole | hpoint | hfraction
    · exact Binary64.not_mem_signChars neg (by decide) hsign
    · exact absurd (h.isWhole.isDigit _ hwhole) (by decide)
    · cases hpoint
    · exact absurd (h.isFraction.isDigit _ hfraction) (by decide)
  have hfilter : (Binary64.signChars neg ++ (whole ++ '.' :: fraction)).filter Char.isDigit = whole ++ fraction := by
    have hsign : (Binary64.signChars neg).filter Char.isDigit = [] := by cases neg <;> rfl
    rw [List.filter_append, hsign, List.nil_append, List.filter_append, List.filter_cons_of_neg (by decide),
      List.filter_eq_self.mpr h.isWhole.isDigit, List.filter_eq_self.mpr h.isFraction.isDigit]
  have hsplit : Binary64.signChars neg ++ (whole ++ '.' :: (fraction ++ tail)) =
      (Binary64.signChars neg ++ (whole ++ '.' :: fraction)) ++ tail := by
    simp only [List.append_assoc, List.cons_append]
  -- Only sign and point are left out in front of the mark, and the zeros at both ends after it.
  rw [significant, hsplit, List.takeWhile_append_of_pos hmark, takeWhile_mark_of_readTail? htail, List.append_nil,
    hfilter, ← digits_ofDigits h.isDigit]
  exact digits_congr (hq.trans hd.symm)

end Decimal

namespace Value

open Binary64 Decimal

/-- The text of a finite double other than zero shows the digits of the shortest decimal, also where the exact value
    of an integral double is written. -/
theorem inspect_float_shortest (neg : Bool) (m : Magnitude) (hm : m.code ≠ 0) :
    ∃ cs d, (float (.finite neg m)).inspect.toList = signChars neg ++ cs ∧ Decimal.read? cs = some d ∧
      significant (float (.finite neg m)).inspect.toList = d.digits ∧ d.digits = m.shortest.digits ∧
      d.nearest neg = .finite neg m ∧ IsShortest d m.code ∧
      ∀ n : Nat, |finiteValue neg m| = n → n < 10 ^ 16 → cs = Nat.toDigits 10 n ++ ['.', '0'] := by
  obtain ⟨whole, fraction, tail, heq, hnumeral, -⟩ := exists_finiteChars_eq neg m
  obtain ⟨d, hread, hrat⟩ := hnumeral.isPointText.reads
  have htext : (float (.finite neg m)).inspect.toList = finiteChars neg m := String.toList_ofList
  have hcode : d.nearestCode = m.code := (nearestCode_congr hrat).trans m.nearestCode_shortest
  refine ⟨_, d, htext.trans heq, hread, ?_, digits_congr hrat, nearest_of_nearestCode hcode neg,
    (Magnitude.isShortest_shortest hm).congr hrat, fun n hvalue hn => ?_⟩
  · rw [htext, heq]
    exact significant_numeral hnumeral neg hrat
  · rw [abs_finiteValue] at hvalue
    exact List.append_cancel_left (heq.symm.trans (finiteChars_natural neg hvalue hn))

/-- The double next to `-2^53` is written with all of its 16 digits, and no decimal of fewer digits reads as it. -/
theorem inspect_float_beyond_53_bits :
    (float (.finite true ⟨0x4340000000000001, by decide⟩)).inspect.toList = "-9007199254740994.0".toList ∧
      ∀ e : Decimal, IsNearestEven e.toRat 0x4340000000000001 → 16 ≤ e.digits.length := by
  obtain ⟨cs, d, htext, -, hsignificant, -, -, hshortest, hnatural⟩ :=
    inspect_float_shortest true ⟨0x4340000000000001, by decide⟩ (by decide)
  have hvalue : |finiteValue true ⟨0x4340000000000001, by decide⟩| = (9007199254740994 : Nat) := by
    rw [abs_finiteValue]
    exact codeValue_eq_natCast_iff.mpr (by decide +kernel)
  have hcs := hnatural 9007199254740994 hvalue (by decide)
  have hlength : d.digits.length = 16 := by
    rw [← hsignificant, htext, hcs]
    decide +kernel
  refine ⟨?_, fun e he => hlength ▸ hshortest.fewest e he⟩
  rw [htext, hcs]
  decide +kernel

end Value
end ScalarOps
