import Mathlib.Data.List.DropRight
import Mathlib.Data.List.TakeWhile
import ScalarOps.Proofs.Decimal.Nearest

/-! Digits and the numbers they stand for. `ofDigits ds place` is the decimal with the digits `ds`, the first of them
    at `place`. Zeros at the ends do not change the number, so the significant digits depend on the number alone
    (`digits_congr`), and there are at most `n` of them exactly if the number is one below `10^n` times a power of
    ten. -/

namespace ScalarOps
namespace Decimal

/-- The decimal with the given digits, the first of them at `place`. -/
def ofDigits (ds : List Char) (place : Int) : Decimal := ⟨Nat.ofDigitChars 10 ds 0, place + 1 - ds.length⟩

variable {d e : Decimal} {ds : List Char} {place : Int} {n : Nat}

/-! ### The digits of a natural number -/

theorem digitChar_toNat {c : Char} (hc : c.isDigit = true) :
    c.toNat - '0'.toNat < 10 ∧ Nat.digitChar (c.toNat - '0'.toNat) = c := by
  obtain ⟨hlo, hhi⟩ := Char.isDigit_iff_toNat.mp hc
  have hzero : '0'.toNat = 48 := rfl
  have hnine : '9'.toNat = 57 := rfl
  have hlt : c.toNat - '0'.toNat < 10 := by omega
  refine ⟨hlt, Char.toNat_inj.mp ?_⟩
  rw [Nat.toNat_digitChar_of_lt_ten hlt]
  omega

theorem ofDigitChars_pos {c : Char} (hc : c.isDigit = true) (hne : c ≠ '0') (ds : List Char) :
    0 < Nat.ofDigitChars 10 (c :: ds) 0 := by
  have hpos : c.toNat - '0'.toNat ≠ 0 := fun h0 => by
    have hchar := (digitChar_toNat hc).2
    rw [h0] at hchar
    exact hne hchar.symm
  rw [Nat.ofDigitChars_cons, Nat.ofDigitChars_eq_ofDigitChars_zero, Nat.mul_zero, Nat.zero_add]
  exact Nat.add_pos_left (Nat.mul_pos (Nat.pow_pos (by decide)) (Nat.pos_of_ne_zero hpos)) _

/-- Digits are those of the number that they stand for, unless they start with a zero. -/
theorem toDigits_ofDigitChars {c : Char} (hc : c ≠ '0') (hds : ∀ x ∈ c :: ds, x.isDigit = true) :
    Nat.toDigits 10 (Nat.ofDigitChars 10 (c :: ds) 0) = c :: ds := by
  induction ds using List.reverseRecOn with
  | nil =>
    obtain ⟨hlt, hchar⟩ := digitChar_toNat (hds c List.mem_cons_self)
    rw [Nat.ofDigitChars_cons, Nat.ofDigitChars_nil, Nat.mul_zero, Nat.zero_add, Nat.toDigits_of_lt_base hlt, hchar]
  | append_singleton ds x ih =>
    rw [← List.cons_append] at hds ⊢
    obtain ⟨hlt, hchar⟩ := digitChar_toNat (hds x List.mem_concat_self)
    have hfront : ∀ y ∈ c :: ds, y.isDigit = true := fun y hy => hds y (List.mem_append_left _ hy)
    rw [Nat.ofDigitChars_append, Nat.ofDigitChars_cons, Nat.ofDigitChars_nil,
      ← Nat.toDigits_append_toDigits (by decide) (ofDigitChars_pos (hfront c List.mem_cons_self) hc ds) hlt, ih hfront,
      Nat.toDigits_of_lt_base hlt, hchar]

theorem exists_toDigits_eq_cons (hn : 0 < n) : ∃ c ds, Nat.toDigits 10 n = c :: ds ∧ c ≠ '0' := by
  induction n using Nat.strongRecOn with
  | ind n ih =>
    rw [Nat.toDigits_eq_if (by decide)]
    split
    · refine ⟨_, [], rfl, ?_⟩
      rw [ne_eq, Nat.digitChar_eq_zero]
      omega
    · obtain ⟨c, ds, heq, hc⟩ := ih (n / 10) (by omega) (by omega)
      exact ⟨c, _, by rw [heq, List.cons_append], hc⟩

theorem toDigits_mul_pow (hn : 0 < n) (k : Nat) :
    Nat.toDigits 10 (n * 10 ^ k) = Nat.toDigits 10 n ++ List.replicate k '0' := by
  induction k with
  | zero => rw [pow_zero, Nat.mul_one, List.replicate_zero, List.append_nil]
  | succ k ih =>
    have hpos : 0 < n * 10 ^ k := Nat.mul_pos hn (Nat.pow_pos (by decide))
    have hstep : n * 10 ^ (k + 1) = 10 * (n * 10 ^ k) + 0 := by ring
    rw [List.replicate_succ', ← List.append_assoc, ← ih, ← Nat.toDigits_zero 10,
      Nat.toDigits_append_toDigits (by decide) hpos (by decide), hstep]

/-! ### Zeros at the ends -/

theorem exists_takeWhile_zeros (ds : List Char) : ∃ k, ds.takeWhile (· == '0') = List.replicate k '0' := by
  refine ⟨_, List.eq_replicate_iff.mpr ⟨rfl, fun c hc => ?_⟩⟩
  simpa using List.mem_takeWhile_imp hc

theorem rdropWhile_append_zeros (ds : List Char) (k : Nat) :
    (ds ++ List.replicate k '0').rdropWhile (· == '0') = ds.rdropWhile (· == '0') := by
  unfold List.rdropWhile
  rw [List.reverse_append, List.reverse_replicate, List.dropWhile_append_of_pos]
  intro c hc
  rw [List.eq_of_mem_replicate hc, beq_self_eq_true]

theorem ofDigits_zeros_append (k : Nat) :
    ofDigits (List.replicate k '0' ++ ds) place = ofDigits ds (place - k) := by
  unfold ofDigits
  rw [Nat.ofDigitChars_append, Nat.ofDigitChars_replicate_zero, Nat.mul_zero, List.length_append,
    List.length_replicate]
  congr 1
  omega

theorem toRat_ofDigits_append_zeros (k : Nat) :
    (ofDigits (ds ++ List.replicate k '0') place).toRat = (ofDigits ds place).toRat := by
  have hten : (10 : ℚ) ^ k ≠ 0 := pow_ne_zero k (by norm_num)
  have hplace : place + 1 - ((ds.length + k : Nat) : Int) = place + 1 - ds.length - k := by omega
  simp only [ofDigits, toRat]
  rw [Nat.ofDigitChars_append, Nat.ofDigitChars_replicate_zero, List.length_append, List.length_replicate, hplace,
    zpow_sub₀ (by norm_num), zpow_natCast, Nat.cast_mul, Nat.cast_pow, Nat.cast_ofNat]
  field_simp

/-! ### The digits of a decimal -/

theorem ofDigits_coeffDigits (d : Decimal) : ofDigits d.coeffDigits d.exponent = d := by
  have hscale : d.exponent + 1 - d.coeffDigits.length = d.scale := by
    unfold exponent
    omega
  rw [ofDigits, hscale, coeffDigits, Nat.ofDigitChars_ten_toDigits]

theorem digits_eq_rdropWhile (d : Decimal) : d.digits = d.coeffDigits.rdropWhile (· == '0') := rfl

theorem exists_coeffDigits_eq (d : Decimal) : ∃ k, d.coeffDigits = d.digits ++ List.replicate k '0' := by
  obtain ⟨k, hk⟩ := exists_takeWhile_zeros d.coeffDigits.reverse
  refine ⟨k, ?_⟩
  rw [digits, ← List.reverse_replicate, ← hk, ← List.reverse_append, List.takeWhile_append_dropWhile,
    List.reverse_reverse]

theorem toRat_ofDigits_digits (d : Decimal) : (ofDigits d.digits d.exponent).toRat = d.toRat := by
  obtain ⟨k, hk⟩ := d.exists_coeffDigits_eq
  rw [← toRat_ofDigits_append_zeros k, ← hk, ofDigits_coeffDigits]

theorem isDigit_of_mem_digits {d : Decimal} {c : Char} (hc : c ∈ d.digits) : c.isDigit = true := by
  obtain ⟨k, hk⟩ := d.exists_coeffDigits_eq
  have hmem : c ∈ d.coeffDigits := hk ▸ List.mem_append_left _ hc
  exact Nat.isDigit_of_mem_toDigits (by omega) (by omega) hmem

theorem exists_natural {d : Decimal} (h : (d.digits.length : Int) ≤ d.exponent + 1) : ∃ n : Nat, d.toRat = n := by
  obtain ⟨k, hk⟩ := Int.eq_ofNat_of_zero_le (Int.sub_nonneg_of_le h)
  refine ⟨Nat.ofDigitChars 10 d.digits 0 * 10 ^ k, ?_⟩
  rw [← toRat_ofDigits_digits, toRat, ofDigits, hk]
  push_cast
  rw [zpow_natCast]

/-- The significant digits of written digits are what is left without the zeros at both ends. -/
theorem digits_ofDigits (hds : ∀ c ∈ ds, c.isDigit = true) :
    (ofDigits ds place).digits = (ds.dropWhile (· == '0')).rdropWhile (· == '0') := by
  obtain ⟨k, hk⟩ := exists_takeWhile_zeros ds
  have hvalue : Nat.ofDigitChars 10 ds 0 = Nat.ofDigitChars 10 (ds.dropWhile (· == '0')) 0 := by
    conv_lhs => rw [← @List.takeWhile_append_dropWhile _ (· == '0') ds]
    rw [hk, Nat.ofDigitChars_append, Nat.ofDigitChars_replicate_zero, Nat.mul_zero]
  rw [digits_eq_rdropWhile, coeffDigits, ofDigits, hvalue]
  cases hrest : ds.dropWhile (· == '0') with
  | nil =>
    rw [Nat.ofDigitChars_nil, Nat.toDigits_zero]
    rfl
  | cons c rest =>
    have hdigits : ∀ x ∈ c :: rest, x.isDigit = true := fun x hx =>
      hds x ((List.dropWhile_sublist _).mem (hrest ▸ hx))
    have hc : (c == '0') = false := by
      have hhead := @List.head_dropWhile_not _ (· == '0') ds (by rw [hrest]; exact List.cons_ne_nil _ _)
      simpa only [hrest, List.head_cons] using hhead
    rw [toDigits_ofDigitChars (beq_eq_false_iff_ne.mp hc) hdigits]

/-! ### Digits and the number -/

theorem digits_eq_of_coeff {k : Nat} (h : d.coeff = e.coeff * 10 ^ k) : d.digits = e.digits := by
  rcases Nat.eq_zero_or_pos e.coeff with hzero | hpos
  · rw [hzero, Nat.zero_mul, ← hzero] at h
    rw [digits, coeffDigits, h]
    rfl
  · rw [digits_eq_rdropWhile, coeffDigits, h, toDigits_mul_pow hpos, rdropWhile_append_zeros]
    rfl

theorem exists_coeff_eq (h : d.toRat = e.toRat) (hscale : d.scale ≤ e.scale) :
    ∃ k, d.coeff = e.coeff * 10 ^ k := by
  obtain ⟨k, hk⟩ := Int.eq_ofNat_of_zero_le (Int.sub_nonneg_of_le hscale)
  have hten : (10 : ℚ) ^ d.scale ≠ 0 := zpow_ne_zero _ (by norm_num)
  have hsum : e.scale = k + d.scale := by omega
  refine ⟨k, ?_⟩
  rw [toRat, toRat, hsum, zpow_add₀ (by norm_num), zpow_natCast, ← mul_assoc] at h
  exact_mod_cast mul_right_cancel₀ hten h

theorem digits_congr (h : d.toRat = e.toRat) : d.digits = e.digits := by
  rcases Int.le_total d.scale e.scale with hscale | hscale
  · obtain ⟨k, hk⟩ := exists_coeff_eq h hscale
    exact digits_eq_of_coeff hk
  · obtain ⟨k, hk⟩ := exists_coeff_eq h.symm hscale
    exact (digits_eq_of_coeff hk).symm

theorem coeff_lt_pow (d : Decimal) : d.coeff < 10 ^ d.coeffDigits.length :=
  (Nat.length_toDigits_le_iff (by decide) Nat.length_toDigits_pos).mp le_rfl

theorem pow_le_coeff (h : d.coeff ≠ 0) : 10 ^ (d.coeffDigits.length - 1) ≤ d.coeff := by
  by_contra hlt
  have hlength := @Nat.length_toDigits_pos 10 d.coeff
  have hpos : 0 < d.coeffDigits.length - 1 := by
    by_contra hzero
    rw [Nat.eq_zero_of_not_pos hzero, pow_zero] at hlt
    omega
  have hle := (Nat.length_toDigits_le_iff (by decide) hpos).mpr (Nat.lt_of_not_le hlt)
  rw [coeffDigits] at *
  omega

theorem exists_of_length_digits_le (h : d.digits.length ≤ n) :
    ∃ e : Decimal, e.coeff < 10 ^ n ∧ e.toRat = d.toRat := by
  refine ⟨_, ?_, d.toRat_ofDigits_digits⟩
  obtain ⟨k, hk⟩ := d.exists_coeffDigits_eq
  have hlt := d.coeff_lt_pow
  have hcoeff : d.coeff = Nat.ofDigitChars 10 d.digits 0 * 10 ^ k := by
    rw [Nat.mul_comm, ← Nat.ofDigitChars_replicate_zero, ← Nat.ofDigitChars_append, ← hk, coeffDigits,
      Nat.ofDigitChars_ten_toDigits]
  rw [hk, List.length_append, List.length_replicate, hcoeff, pow_add] at hlt
  exact (Nat.lt_of_mul_lt_mul_right hlt).trans_le (Nat.pow_le_pow_right (by decide) h)

theorem length_digits_le (hn : 0 < n) (h : d.coeff ≤ 10 ^ n) : d.digits.length ≤ n := by
  rcases Nat.lt_or_eq_of_le h with hlt | heq
  · obtain ⟨k, hk⟩ := d.exists_coeffDigits_eq
    have hlength := (Nat.length_toDigits_le_iff (by decide) hn).mpr hlt
    rw [← coeffDigits, hk, List.length_append] at hlength
    omega
  · have hone : d.digits = (⟨1, 0⟩ : Decimal).digits := digits_eq_of_coeff (by rw [heq, Nat.one_mul])
    rw [hone]
    exact hn

theorem digits_ne_nil (h : d.coeff ≠ 0) : d.digits ≠ [] := by
  intro hnil
  obtain ⟨k, hk⟩ := d.exists_coeffDigits_eq
  have hcoeff := @Nat.ofDigitChars_ten_toDigits d.coeff
  rw [← coeffDigits, hk, hnil, List.nil_append, Nat.ofDigitChars_replicate_zero, Nat.mul_zero] at hcoeff
  exact h hcoeff.symm

theorem head?_digits_ne (h : d.coeff ≠ 0) : d.digits.head? ≠ some '0' := by
  obtain ⟨k, hk⟩ := d.exists_coeffDigits_eq
  obtain ⟨c, ds, heq, hc⟩ := exists_toDigits_eq_cons (Nat.pos_of_ne_zero h)
  obtain ⟨x, rest, hdigits⟩ := List.exists_cons_of_ne_nil (digits_ne_nil h)
  rw [coeffDigits, heq, hdigits, List.cons_append] at hk
  injection hk with hx _
  rw [hdigits, List.head?_cons, ← hx, ne_eq, Option.some_inj]
  exact hc

theorem getLast?_digits_ne (d : Decimal) : d.digits.getLast? ≠ some '0' := by
  intro hlast
  obtain ⟨hne, hzero⟩ := List.mem_getLast?_eq_getLast (Option.mem_def.mpr hlast)
  apply List.rdropWhile_last_not (· == '0') d.coeffDigits hne
  exact beq_iff_eq.mpr hzero.symm

/-! ### The exponent and the number -/

theorem zpow_exponent_le (h : d.coeff ≠ 0) : (10 : ℚ) ^ d.exponent ≤ d.toRat := by
  have hlength := @Nat.length_toDigits_pos 10 d.coeff
  have hsum : d.exponent = ((d.coeffDigits.length - 1 : Nat) : Int) + d.scale := by
    unfold exponent coeffDigits
    omega
  have hcoeff : (10 : ℚ) ^ (d.coeffDigits.length - 1) ≤ d.coeff := by exact_mod_cast pow_le_coeff h
  rw [hsum, zpow_add₀ (by norm_num), zpow_natCast, toRat]
  exact mul_le_mul_of_nonneg_right hcoeff (zpow_nonneg (by norm_num) _)

theorem toRat_lt_zpow (d : Decimal) : d.toRat < (10 : ℚ) ^ (d.exponent + 1) := by
  have hsum : d.exponent + 1 = (d.coeffDigits.length : Int) + d.scale := by
    unfold exponent
    omega
  have hcoeff : (d.coeff : ℚ) < 10 ^ d.coeffDigits.length := by exact_mod_cast d.coeff_lt_pow
  rw [hsum, zpow_add₀ (by norm_num), zpow_natCast, toRat]
  exact mul_lt_mul_of_pos_right hcoeff (zpow_pos (by norm_num) _)

/-- The exponent counts the powers of ten that the number reaches. -/
theorem le_exponent_iff (h : d.coeff ≠ 0) {k : Int} : k ≤ d.exponent ↔ (10 : ℚ) ^ k ≤ d.toRat := by
  constructor
  · exact fun hk => (zpow_le_zpow_right₀ (by norm_num) hk).trans (zpow_exponent_le h)
  · intro hk
    have hlt := (zpow_lt_zpow_iff_right₀ (by norm_num)).mp (hk.trans_lt d.toRat_lt_zpow)
    omega

end Decimal
end ScalarOps
