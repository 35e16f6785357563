import ScalarOps.Proofs.Binary64.Text
import ScalarOps.Proofs.Comparison
import ScalarOps.Reader
import ScalarOps.Text

/-! Every value but a NaN is read back from its text, a double with all of its bits. A sign and a digit never start a
    name, so what follows the sign is read as an integer or as a decimal (`read?_signed`), and a decimal is read as
    the nearest double. -/

namespace ScalarOps

namespace Value

open Binary64 Decimal

/-! ### Behind a sign -/

/-- No name starts with a digit, behind a sign or without one. -/
theorem name_head_not_isDigit :
    ∀ p ∈ named, (p.1.toList.dropWhile (· == '-')).head?.any Char.isDigit = false := by decide

theorem lookup_named_eq_none {c : Char} (hc : c.isDigit = true) (cs : List Char) (neg : Bool) :
    named.lookup (String.ofList (signChars neg ++ c :: cs)) = none := by
  have hsign : c ≠ '-' := by
    rintro rfl
    cases hc
  rw [List.lookup_eq_none_iff]
  intro p hp
  rw [bne_iff_ne]
  intro heq
  have hname := name_head_not_isDigit p hp
  rw [← heq, String.toList_ofList] at hname
  cases neg <;> simp [signChars, hsign, hc] at hname

/-- What follows a sign and starts with a digit is read as a number. -/
theorem read?_signed {c : Char} (hc : c.isDigit = true) (cs : List Char) (neg : Bool) :
    read? (String.ofList (signChars neg ++ c :: cs)) = readUnsigned? neg (c :: cs) := by
  unfold read?
  rw [lookup_named_eq_none hc cs neg]
  dsimp only
  rw [String.toList_ofList]
  cases neg with
  | true => rfl
  | false =>
    unfold readNumber?
    split
    · next rest heq =>
      cases heq
      cases hc
    · rfl

theorem read?_integer {ds : List Char} (hne : ds ≠ []) (hds : ∀ c ∈ ds, c.isDigit = true) (neg : Bool) :
    read? (String.ofList (signChars neg ++ ds)) =
      (Word.ofInt? (signed neg (Nat.ofDigitChars 10 ds 0))).map int := by
  obtain ⟨c, cs, rfl⟩ := List.exists_cons_of_ne_nil hne
  rw [read?_signed (hds c List.mem_cons_self), readUnsigned?, readNat?_of_isDigit hne hds]

/-- A text with a point is read as the double nearest to its number. -/
theorem read?_of_isPointText {cs : List Char} {q : ℚ} (h : IsPointText cs q) (neg : Bool) :
    ∃ d : Decimal, d.toRat = q ∧ read? (String.ofList (signChars neg ++ cs)) = some (float (d.nearest neg)) := by
  obtain ⟨c, rest, rfl, hc⟩ := h.head
  obtain ⟨d, hd, hq⟩ := h.reads
  refine ⟨d, hq, ?_⟩
  rw [read?_signed hc, readUnsigned?, h.not_integer]
  dsimp only
  rw [hd, Option.map_some]

/-! ### Integers and doubles -/

theorem toChars_eq_signed (n : Word) :
    n.toChars = signChars (decide (n.toInt < 0)) ++ Nat.toDigits 10 n.toInt.natAbs := by
  unfold Word.toChars integerChars
  by_cases h : n.toInt < 0 <;> simp [h, signChars]

theorem read?_inspect_int (n : Word) : read? (int n).inspect = some (int n) := by
  have hfits : Word.ofInt? n.toInt = some n := by
    rw [Word.ofInt?, Word.ofInt_toInt, if_pos rfl]
  rw [inspect, toChars, toChars_eq_signed, read?_integer Nat.toDigits_ne_nil fun c hc => isDigit_of_mem_toDigits hc,
    Nat.ofDigitChars_ten_toDigits, signed_natAbs, hfits, Option.map_some]

theorem read?_inspect_finite (neg : Bool) (m : Magnitude) :
    read? (float (.finite neg m)).inspect = some (float (.finite neg m)) := by
  obtain ⟨whole, fraction, tail, heq, hnumeral, -⟩ := exists_finiteChars_eq neg m
  obtain ⟨d, hrat, hread⟩ := read?_of_isPointText hnumeral.isPointText neg
  rw [inspect, toChars, Binary64.toChars, heq, hread,
    nearest_of_nearestCode ((nearestCode_congr hrat).trans m.nearestCode_shortest)]

theorem read?_inspect_nan (n : NaN) : read? (float (.nan n)).inspect = some (float .quietNaN) := rfl

theorem read?_inspect_of_not_isNaN {v : Value} (h : v.isNaN = false) : read? v.inspect = some v := by
  cases v with
  | nil => rfl
  | bool b => cases b <;> rfl
  | int n => exact read?_inspect_int n
  | float x =>
    cases x with
    | nan _ => cases h
    | inf neg => cases neg <;> rfl
    | finite neg m => exact read?_inspect_finite neg m

theorem eq_or_isNaN_of_inspect_eq {v w : Value} (h : v.inspect = w.inspect) :
    v = w ∨ (v.isNaN = true ∧ w.isNaN = true) := by
  have hread := congrArg read? h
  cases hv : v.isNaN with
  | false =>
    rw [read?_inspect_of_not_isNaN hv] at hread
    cases hw : w.isNaN with
    | false =>
      rw [read?_inspect_of_not_isNaN hw] at hread
      exact Or.inl (Option.some.inj hread)
    | true =>
      obtain ⟨t, rfl⟩ := exists_nan_of_isNaN hw
      rw [read?_inspect_nan] at hread
      rw [Option.some.inj hread] at hv
      cases hv
  | true =>
    cases hw : w.isNaN with
    | false =>
      obtain ⟨s, rfl⟩ := exists_nan_of_isNaN hv
      rw [read?_inspect_nan, read?_inspect_of_not_isNaN hw] at hread
      rw [← Option.some.inj hread] at hw
      cases hw
    | true => exact Or.inr ⟨rfl, rfl⟩

/-- Every value is read back from its text, a double with the same 64 bits and a NaN as the quiet one. So two values
    of one text are the same or both are NaN, and no double is written like an integer. -/
theorem inspect_reads_back :
    (∀ v : Value, v.isNaN = false → read? v.inspect = some v) ∧
    (∀ bits : BitVec 64, (float (.ofBits bits)).isNaN = false →
      ∃ x, read? (float (.ofBits bits)).inspect = some (float x) ∧ x.toBits = bits) ∧
    (∀ n, read? (float (.nan n)).inspect = some (float .quietNaN)) ∧
    (∀ v w : Value, v.inspect = w.inspect → v = w ∨ (v.isNaN = true ∧ w.isNaN = true)) ∧
    (∀ x n, (float x).inspect ≠ (int n).inspect) ∧
    (∀ ds neg, ds ≠ [] → (∀ c ∈ ds, c.isDigit = true) →
      read? (String.ofList (signChars neg ++ ds)) =
        (Word.ofInt? (signed neg (Nat.ofDigitChars 10 ds 0))).map int) ∧
    (∀ whole fraction tail exponent neg, whole ≠ [] → fraction ≠ [] → (∀ c ∈ whole ++ fraction, c.isDigit = true) →
      readTail? tail = some exponent →
      ∃ code, IsNearestEven (Nat.ofDigitChars 10 (whole ++ fraction) 0 * 10 ^ (exponent - fraction.length)) code ∧
        read? (String.ofList (signChars neg ++ (whole ++ '.' :: (fraction ++ tail)))) =
          some (float (.ofCode neg code))) := by
  refine ⟨fun v hv => read?_inspect_of_not_isNaN hv, fun bits hbits => ?_, read?_inspect_nan,
    fun v w h => eq_or_isNaN_of_inspect_eq h, fun x n h => ?_, fun ds neg hne hds => read?_integer hne hds neg,
    fun whole fraction tail e neg hwhole hfraction hdigits htail => ?_⟩
  · exact ⟨_, read?_inspect_of_not_isNaN hbits, toBits_ofBits bits⟩
  · rcases eq_or_isNaN_of_inspect_eq h with heq | ⟨-, hnan⟩
    · cases heq
    · cases hnan
  · have hscale : e + whole.length - 1 + 1 - ((whole ++ fraction).length : Nat) = e - fraction.length := by
      rw [List.length_append]
      omega
    obtain ⟨d, hd, hread⟩ := read?_of_isPointText (IsPointText.intro hwhole hfraction hdigits htail rfl) neg
    rw [ofDigits, hscale] at hd
    have hnearest := d.isNearestEven_nearestCode
    rw [hd] at hnearest
    exact ⟨d.nearestCode, hnearest, hread⟩

end Value
end ScalarOps
