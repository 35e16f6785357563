import ScalarOps.Decimal.Layout
import ScalarOps.Decimal.Reader
import ScalarOps.Proofs.Decimal.Digits

/-! Reading digits: an integer that is written in decimal digits is read back, and a text with a point is read as the
    decimal with all of its digits (`read?_eq_ofDigits`). -/

namespace ScalarOps
namespace Decimal

/-! ### Integers -/

theorem isDigit_of_mem_zeros {n : Nat} {c : Char} (hc : c ∈ List.replicate n '0') : c.isDigit = true := by
  rw [(List.mem_replicate.mp hc).2]
  rfl

theorem isDigit_of_mem_toDigits {n : Nat} {c : Char} (hc : c ∈ Nat.toDigits 10 n) : c.isDigit = true :=
  Nat.isDigit_of_mem_toDigits (by omega) (by omega) hc

theorem readNat?_of_isDigit {cs : List Char} (hne : cs ≠ []) (hcs : ∀ c ∈ cs, c.isDigit = true) :
    readNat? cs = some (Nat.ofDigitChars 10 cs 0) := by
  rw [readNat?, if_neg]
  simpa [hne] using hcs

theorem readNat?_eq_none {cs : List Char} {c : Char} (hc : c ∈ cs) (hdigit : c.isDigit = false) :
    readNat? cs = none := by
  rw [readNat?, if_pos]
  simp only [Bool.or_eq_true, Bool.not_eq_true', List.all_eq_false]
  exact Or.inr ⟨c, hc, by simp [hdigit]⟩

theorem readNat?_toDigits (k n : Nat) : readNat? (List.replicate k '0' ++ Nat.toDigits 10 n) = some n := by
  rw [readNat?_of_isDigit]
  · rw [Nat.ofDigitChars_append, Nat.ofDigitChars_replicate_zero, Nat.mul_zero, Nat.ofDigitChars_ten_toDigits]
  · simp [Nat.toDigits_ne_nil]
  · intro c hc
    rcases List.mem_append.mp hc with hc | hc
    · exact isDigit_of_mem_zeros hc
    · exact isDigit_of_mem_toDigits hc

theorem readInteger?_of_isDigit {cs : List Char} (hcs : ∀ c ∈ cs, c.isDigit = true) :
    readInteger? cs = (readNat? cs).map Int.ofNat := by
  unfold readInteger?
  split
  · exact absurd (hcs '-' List.mem_cons_self) (by decide)
  · exact absurd (hcs '+' List.mem_cons_self) (by decide)
  · rfl

theorem readInteger?_minus {cs : List Char} {n : Int} (hn : n < 0) (h : readNat? cs = some n.natAbs) :
    readInteger? ('-' :: cs) = some n := by
  have hneg : -(n.natAbs : Int) = n := by omega
  rw [readInteger?, h, Option.map_some, hneg]

theorem map_ofNat_natAbs {n : Int} (hn : ¬n < 0) : (some n.natAbs).map Int.ofNat = some n := by
  rw [Option.map_some, Int.ofNat_eq_natCast, Int.natAbs_of_nonneg (Int.not_lt.mp hn)]

theorem readInteger?_integerChars (n : Int) : readInteger? (integerChars n) = some n := by
  have hread := readNat?_toDigits 0 n.natAbs
  rw [List.replicate_zero, List.nil_append] at hread
  unfold integerChars
  by_cases h : n < 0
  · rw [if_pos h, readInteger?_minus h hread]
  · rw [if_neg h, readInteger?_of_isDigit fun c hc => isDigit_of_mem_toDigits hc, hread, map_ofNat_natAbs h]

theorem readTail?_exponentPart (l : Layout) (e : Int) : readTail? (l.exponentPart e) = some e := by
  have hread := readNat?_toDigits (l.exponentWidth - (Nat.toDigits 10 e.natAbs).length) e.natAbs
  unfold Layout.exponentPart
  dsimp only
  by_cases h : e < 0
  · rw [if_pos h, readTail?, readInteger?_minus h hread]
  · rw [if_neg h, readTail?, readInteger?, hread, map_ofNat_natAbs h]

/-! ### Decimals -/

theorem takeWhile_isDigit_of_readTail? {tail : List Char} {e : Int} (h : readTail? tail = some e) :
    tail.takeWhile Char.isDigit = [] := by
  unfold readTail? at h
  split at h
  · rfl
  · rw [List.takeWhile_cons_of_neg (by decide)]
  · cases h

/-- Digits on both sides of a point are read as one decimal, with the exponent behind them. -/
theorem read?_eq_ofDigits {whole fraction tail : List Char} {e : Int} (hwhole : whole ≠ []) (hfraction : fraction ≠ [])
    (hdigits : ∀ c ∈ whole ++ fraction, c.isDigit = true) (htail : readTail? tail = some e) :
    read? (whole ++ '.' :: (fraction ++ tail)) = some (ofDigits (whole ++ fraction) (e + whole.length - 1)) := by
  have hpoint : ¬('.').isDigit = true := by decide
  have hw : ∀ c ∈ whole, c.isDigit = true := fun c hc => hdigits c (List.mem_append_left _ hc)
  have hf : ∀ c ∈ fraction, c.isDigit = true := fun c hc => hdigits c (List.mem_append_right _ hc)
  have hdrop : tail.dropWhile Char.isDigit = tail := by
    have htake := @List.takeWhile_append_dropWhile _ Char.isDigit tail
    rwa [takeWhile_isDigit_of_readTail? htail, List.nil_append] at htake
  have hscale : e - fraction.length = e + whole.length - 1 + 1 - ((whole ++ fraction).length : Nat) := by
    rw [List.length_append]
    omega
  rw [ne_eq, ← List.isEmpty_iff, Bool.not_eq_true] at hwhole hfraction
  unfold read?
  simp only [List.takeWhile_append_of_pos hw, List.dropWhile_append_of_pos hw, List.takeWhile_cons_of_neg hpoint,
    List.dropWhile_cons_of_neg hpoint, List.takeWhile_append_of_pos hf, List.dropWhile_append_of_pos hf,
    takeWhile_isDigit_of_readTail? htail, hdrop, List.append_nil, hwhole, hfraction, htail, Option.map_some,
    Bool.or_self, Bool.false_eq_true, if_false]
  rw [ofDigits, hscale]

/-- A text that starts with a digit, is not an integer's, and is read as a decimal of the number `q`. -/
structure IsPointText (cs : List Char) (q : ℚ) : Prop where
  head : ∃ c rest, cs = c :: rest ∧ c.isDigit = true
  not_integer : readNat? cs = none
  reads : ∃ d, read? cs = some d ∧ d.toRat = q

theorem IsPointText.intro {whole fraction tail : List Char} {e : Int} {q : ℚ} (hwhole : whole ≠ [])
    (hfraction : fraction ≠ []) (hdigits : ∀ c ∈ whole ++ fraction, c.isDigit = true)
    (htail : readTail? tail = some e) (hq : (ofDigits (whole ++ fraction) (e + whole.length - 1)).toRat = q) :
    IsPointText (whole ++ '.' :: (fraction ++ tail)) q where
  head := by
    obtain ⟨c, cs, rfl⟩ := List.exists_cons_of_ne_nil hwhole
    exact ⟨c, _, List.cons_append, hdigits c List.mem_cons_self⟩
  not_integer := readNat?_eq_none (List.mem_append_right _ List.mem_cons_self) rfl
  reads := ⟨_, read?_eq_ofDigits hwhole hfraction hdigits htail, hq⟩

end Decimal
end ScalarOps
