import ScalarOps.Proofs.Decimal.Reading

/-! A numeral is a whole part, a point and a fraction, and may end in an exponent behind its mark. A number with a
    digit behind the ones is a numeral in positional form (`exists_positional_eq`); a mantissa is a first digit, with
    a point if more follow (`exists_mantissa_eq`). -/

namespace ScalarOps
namespace Decimal

/-- Digits without a zero in front, or a single zero. -/
structure IsWhole (ds : List Char) : Prop where
  ne_nil : ds ≠ []
  isDigit : ∀ c ∈ ds, c.isDigit = true
  front : ds = ['0'] ∨ ds.head? ≠ some '0'

/-- Digits without a zero behind, or a single zero. -/
structure IsFraction (ds : List Char) : Prop where
  ne_nil : ds ≠ []
  isDigit : ∀ c ∈ ds, c.isDigit = true
  back : ds = ['0'] ∨ ds.getLast? ≠ some '0'

/-- The parts of a text that stands for the number `q`. -/
structure IsNumeral (whole fraction tail : List Char) (q : ℚ) : Prop where
  isWhole : IsWhole whole
  isFraction : IsFraction fraction
  number : ∃ e, readTail? tail = some e ∧ (ofDigits (whole ++ fraction) (e + whole.length - 1)).toRat = q

variable {d : Decimal} {whole fraction tail : List Char} {q : ℚ}

theorem IsNumeral.isDigit (h : IsNumeral whole fraction tail q) : ∀ c ∈ whole ++ fraction, c.isDigit = true := by
  intro c hc
  rcases List.mem_append.mp hc with hc | hc
  · exact h.isWhole.isDigit c hc
  · exact h.isFraction.isDigit c hc

theorem IsNumeral.isPointText (h : IsNumeral whole fraction tail q) :
    IsPointText (whole ++ '.' :: (fraction ++ tail)) q := by
  obtain ⟨e, htail, hq⟩ := h.number
  exact IsPointText.intro h.isWhole.ne_nil h.isFraction.ne_nil h.isDigit htail hq

theorem isWhole_toDigits (n : Nat) : IsWhole (Nat.toDigits 10 n) where
  ne_nil := Nat.toDigits_ne_nil
  isDigit _ := isDigit_of_mem_toDigits
  front := by
    rcases Nat.eq_zero_or_pos n with rfl | hpos
    · exact Or.inl (Nat.toDigits_zero 10)
    · obtain ⟨c, ds, heq, hc⟩ := exists_toDigits_eq_cons hpos
      rw [heq, List.head?_cons, ne_eq, Option.some_inj]
      exact Or.inr hc

theorem isFraction_zero : IsFraction ['0'] where
  ne_nil := List.cons_ne_nil _ _
  isDigit c hc := by
    rw [List.mem_singleton.mp hc]
    rfl
  back := Or.inl rfl

/-! ### The positional form -/

theorem padded_eq_take {n : Nat} {ds : List Char} (h : n ≤ ds.length) : padded n ds = ds.take n := by
  rw [padded, Nat.sub_eq_zero_of_le h, List.replicate_zero, List.append_nil]

/-- The last digits stand behind the point, with zeros up to it if there is none of them in front of it. -/
theorem isFraction_digits {k n : Nat} (hne : d.digits.drop n ≠ []) :
    IsFraction (List.replicate k '0' ++ d.digits.drop n) where
  ne_nil := List.append_ne_nil_of_right_ne_nil _ hne
  isDigit c hc := by
    rcases List.mem_append.mp hc with hc | hc
    · exact isDigit_of_mem_zeros hc
    · exact isDigit_of_mem_digits (List.mem_of_mem_drop hc)
  back := by
    right
    rw [List.getLast?_append_of_ne_nil _ hne, List.getLast?_drop, if_neg]
    · exact d.getLast?_digits_ne
    · rwa [ne_eq, List.drop_eq_nil_iff] at hne

theorem exists_positional_eq (hd : d.coeff ≠ 0) (h : d.exponent + 1 < d.digits.length) :
    ∃ whole fraction, d.positional = whole ++ '.' :: fraction ∧ IsNumeral whole fraction [] d.toRat := by
  have hnil := digits_ne_nil hd
  unfold positional pointed
  by_cases hneg : d.exponent < 0
  · have hfraction := @isFraction_digits d (d.exponent.natAbs - 1) 0 hnil
    rw [List.drop_zero] at hfraction
    have hzeros : ['0'] ++ (List.replicate (d.exponent.natAbs - 1) '0' ++ d.digits) =
        List.replicate d.exponent.natAbs '0' ++ d.digits := by
      rw [← List.append_assoc, List.singleton_append, ← List.replicate_succ, Nat.sub_add_cancel (by omega)]
    have hplace : 0 + (['0'].length : Int) - 1 - d.exponent.natAbs = d.exponent := by
      rw [List.length_singleton]
      omega
    rw [if_pos hneg, if_neg (by rw [List.isEmpty_iff]; exact hfraction.ne_nil)]
    refine ⟨_, _, rfl, isWhole_toDigits 0, hfraction, 0, rfl, ?_⟩
    rw [hzeros, ofDigits_zeros_append, hplace, toRat_ofDigits_digits]
  -- From the ones on there are digits on both sides of the point.
  · have hones : d.exponent.toNat + 1 < d.digits.length := by omega
    have hdrop : d.digits.drop (d.exponent.toNat + 1) ≠ [] := by
      rw [ne_eq, List.drop_eq_nil_iff]
      omega
    have hlength : (d.digits.take (d.exponent.toNat + 1)).length = d.exponent.toNat + 1 :=
      List.length_take_of_le hones.le
    have hplace : 0 + ((d.exponent.toNat + 1 : Nat) : Int) - 1 = d.exponent := by omega
    have hwhole : IsWhole (d.digits.take (d.exponent.toNat + 1)) := by
      refine ⟨List.ne_nil_of_length_pos (by omega), fun c hc => isDigit_of_mem_digits (List.mem_of_mem_take hc), ?_⟩
      rw [List.head?_take, if_neg (Nat.succ_ne_zero _)]
      exact Or.inr (head?_digits_ne hd)
    rw [if_neg hneg]
    dsimp only
    rw [if_neg (by rwa [List.isEmpty_iff]), padded_eq_take hones.le]
    refine ⟨_, _, rfl, hwhole, @isFraction_digits d 0 _ hdrop, 0, rfl, ?_⟩
    rw [List.take_append_drop, hlength, hplace, toRat_ofDigits_digits]

/-! ### The mantissa -/

theorem exists_mantissa_eq (hd : d.coeff ≠ 0) :
    ∃ c rest, d.digits = c :: rest ∧ c ≠ '0' ∧ d.mantissa = pointed [c] rest := by
  obtain ⟨c, rest, hdigits⟩ := List.exists_cons_of_ne_nil (digits_ne_nil hd)
  have hc := head?_digits_ne hd
  rw [hdigits, List.head?_cons, ne_eq, Option.some_inj] at hc
  refine ⟨c, rest, hdigits, hc, ?_⟩
  rw [mantissa, hdigits, padded_eq_take (Nat.succ_le_succ (Nat.zero_le _))]
  rfl

theorem isDigit_of_mem_padded {n : Nat} {c : Char} (hc : c ∈ padded n d.digits) : c.isDigit = true := by
  rcases List.mem_append.mp hc with hc | hc
  · exact isDigit_of_mem_digits (List.mem_of_mem_take hc)
  · exact isDigit_of_mem_zeros hc

theorem not_mem_mantissa {c : Char} (hdigit : c.isDigit = false) (hc : c ≠ '.') : c ∉ d.mantissa := by
  have hwhole : c ∉ padded 1 d.digits := fun h => by simp [isDigit_of_mem_padded h] at hdigit
  have hfraction : c ∉ d.digits.drop 1 := fun h => by
    simp [isDigit_of_mem_digits (List.mem_of_mem_drop h)] at hdigit
  unfold mantissa pointed
  split
  · exact hwhole
  · rw [List.mem_append, List.mem_cons, not_or, not_or]
    exact ⟨hwhole, hc, hfraction⟩

end Decimal
end ScalarOps
