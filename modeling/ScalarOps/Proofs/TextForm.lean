import ScalarOps.Proofs.Binary64.Arithmetic
import ScalarOps.Proofs.Binary64.Text
import ScalarOps.Text

/-! The text of a finite double is in fixed or in scientific form. The two exclude each other, since only the second
    one has a mark, so the form is decided by the exact value, although the exponent is read off the rounded digits.
    -/

namespace ScalarOps
namespace Decimal

/-- Fixed form: a whole part, a point and a fraction. -/
def IsFixed (cs : List Char) : Prop :=
  ∃ whole fraction, cs = whole ++ '.' :: fraction ∧ IsWhole whole ∧ IsFraction fraction

/-- A sign and two or three digits, which stand for `n`. -/
def IsExponent (cs : List Char) (n : Int) : Prop :=
  ∃ neg ds, cs = (if neg then '-' else '+') :: ds ∧ (∀ c ∈ ds, c.isDigit = true) ∧
    (ds.length = 2 ∨ ds.length = 3) ∧ n = Binary64.signed neg (Nat.ofDigitChars 10 ds 0)

/-- Scientific form: one digit other than 0, a point, a fraction, and an exponent behind its mark that is below -4 or
    at least 16. -/
def IsScientific (cs : List Char) : Prop :=
  ∃ c fraction exponent n, cs = c :: '.' :: (fraction ++ 'e' :: exponent) ∧ c.isDigit = true ∧ c ≠ '0' ∧
    IsFraction fraction ∧ IsExponent exponent n ∧ (n < -4 ∨ 16 ≤ n)

theorem IsFixed.not_isScientific {cs : List Char} (hfixed : IsFixed cs) : ¬IsScientific cs := by
  obtain ⟨whole, fraction, rfl, hwhole, hfraction⟩ := hfixed
  rintro ⟨c, digits, exponent, n, heq, -⟩
  have hmark : 'e' ∈ whole ++ '.' :: fraction := by
    rw [heq]
    simp
  rw [List.mem_append, List.mem_cons] at hmark
  rcases hmark with hmem | hpoint | hmem
  · exact absurd (hwhole.isDigit _ hmem) (by decide)
  · cases hpoint
  · exact absurd (hfraction.isDigit _ hmem) (by decide)

theorem isExponent_exponentPart {n : Int} (hn : n.natAbs < 1000) :
    IsExponent (Binary64.layout.exponentPart n).tail n := by
  have hlength : (Nat.toDigits 10 n.natAbs).length ≤ 3 := (Nat.length_toDigits_le_iff (by decide) (by decide)).mpr hn
  have hpos := @Nat.length_toDigits_pos 10 n.natAbs
  refine ⟨decide (n < 0), List.replicate (2 - (Nat.toDigits 10 n.natAbs).length) '0' ++ Nat.toDigits 10 n.natAbs,
    ?_, fun c hc => ?_, ?_, ?_⟩
  · simp only [decide_eq_true_eq]
    rfl
  · rcases List.mem_append.mp hc with hc | hc
    · exact isDigit_of_mem_zeros hc
    · exact isDigit_of_mem_toDigits hc
  · rw [List.length_append, List.length_replicate]
    omega
  · rw [Nat.ofDigitChars_append, Nat.ofDigitChars_replicate_zero, Nat.mul_zero, Nat.ofDigitChars_ten_toDigits,
      Binary64.signed_natAbs]

end Decimal

namespace Binary64

open Decimal

variable {neg : Bool} {m : Magnitude} {whole fraction : List Char} {q : ℚ}

theorem isFixed_of_isNumeral (h : IsNumeral whole fraction [] q) : IsFixed (whole ++ '.' :: (fraction ++ [])) := by
  rw [List.append_nil]
  exact ⟨whole, fraction, rfl, h.isWhole, h.isFraction⟩

theorem isScientific_of_isNumeral {c : Char} (hc : c ≠ '0')
    (hpositional : layout.isPositional m.shortest.exponent = false)
    (h : IsNumeral [c] fraction (layout.exponentPart m.shortest.exponent) q) :
    IsScientific ([c] ++ '.' :: (fraction ++ layout.exponentPart m.shortest.exponent)) := by
  obtain ⟨hlo, hhi⟩ := m.shortest_exponent_bounds
  have hout : ¬(-4 ≤ m.shortest.exponent ∧ m.shortest.exponent < 16) := of_decide_eq_false hpositional
  exact ⟨c, fraction, _, m.shortest.exponent, rfl, h.isWhole.isDigit c List.mem_cons_self, hc, h.isFraction,
    isExponent_exponentPart (by omega), by omega⟩

/-- The text behind the sign starts with a digit and is in the form that the exponent of the shortest decimal says. -/
theorem exists_form (neg : Bool) (m : Magnitude) :
    ∃ c rest, finiteChars neg m = signChars neg ++ c :: rest ∧ c.isDigit = true ∧
      (IsFixed (c :: rest) ↔ layout.isPositional m.shortest.exponent = true) ∧
      (IsScientific (c :: rest) ↔ ¬layout.isPositional m.shortest.exponent = true) := by
  obtain ⟨whole, fraction, tail, heq, hnumeral, hform⟩ := exists_finiteChars_eq neg m
  obtain ⟨c, rest, hcs, hdigit⟩ := hnumeral.isPointText.head
  rw [hcs] at heq
  refine ⟨c, rest, heq, hdigit, ?_⟩
  rw [← hcs]
  rcases hform with ⟨hpositional, rfl⟩ | ⟨hpositional, rfl, x, rfl, hx⟩
  · have hfixed := isFixed_of_isNumeral hnumeral
    exact ⟨iff_of_true hfixed hpositional, iff_of_false hfixed.not_isScientific (not_not_intro hpositional)⟩
  · have hscientific := isScientific_of_isNumeral hx hpositional hnumeral
    rw [← Bool.not_eq_true] at hpositional
    exact ⟨iff_of_false (fun hfixed => hfixed.not_isScientific hscientific) hpositional,
      iff_of_true hscientific hpositional⟩

theorem isPositional_iff_finiteValue (neg : Bool) (m : Magnitude) :
    layout.isPositional m.shortest.exponent = true ↔
      finiteValue neg m = 0 ∨ (1 / 10 ^ 4 ≤ |finiteValue neg m| ∧ |finiteValue neg m| < 10 ^ 16) := by
  have hlow : (10 : ℚ) ^ (-4 : Int) = 1 / 10 ^ 4 := by
    rw [zpow_neg, one_div]
    rfl
  rw [isPositional_shortest_iff, abs_finiteValue, finiteValue_eq_zero_iff, hlow]
  rfl

theorem head?_signChars_append {c : Char} (hc : c.isDigit = true) (rest : List Char) :
    (signChars neg ++ c :: rest).head? = some '-' ↔ neg = true := by
  cases neg
  · refine iff_of_false (fun hminus => ?_) Bool.false_ne_true
    obtain rfl := Option.some.inj hminus
    cases hc
  · exact iff_of_true rfl rfl

end Binary64

namespace Value

open Binary64 Decimal

/-- A finite double is written behind a minus sign exactly if its sign bit is set, and in fixed form exactly if it is
    a zero or between `10^-4` and `10^16`. The scientific form always has a mark, and behind it an exponent that is a
    word. -/
theorem inspect_float_form (neg : Bool) (m : Magnitude) :
    ∃ cs, (float (.finite neg m)).inspect.toList = signChars neg ++ cs ∧
      (IsFixed cs ↔
        finiteValue neg m = 0 ∨ (1 / 10 ^ 4 ≤ |finiteValue neg m| ∧ |finiteValue neg m| < 10 ^ 16)) ∧
      (IsScientific cs ↔
        ¬(finiteValue neg m = 0 ∨ (1 / 10 ^ 4 ≤ |finiteValue neg m| ∧ |finiteValue neg m| < 10 ^ 16))) ∧
      ((float (.finite neg m)).inspect.toList.head? = some '-' ↔ (Binary64.finite neg m).toBits.msb = true) ∧
      ∃ mantissa tail exponent, splitOnce? 'e' (Binary64.scientific neg m) = some (mantissa, tail) ∧
        Word.read? tail = some exponent ∧ exponent.toInt = m.shortest.exponent := by
  obtain ⟨c, rest, heq, hdigit, hfixed, hscientific⟩ := exists_form neg m
  obtain ⟨x, hx, hint⟩ := exists_read?_exponent m
  have htext : (float (.finite neg m)).inspect.toList = signChars neg ++ c :: rest := by
    rw [inspect, String.toList_ofList, ← heq]
    rfl
  rw [isPositional_iff_finiteValue neg m] at hfixed hscientific
  rw [htext, msb_toBits_finite]
  exact ⟨c :: rest, rfl, hfixed, hscientific, head?_signChars_append hdigit rest, _, _, x,
    splitOnce?_scientific neg m, hx, hint⟩

end Value
end ScalarOps
