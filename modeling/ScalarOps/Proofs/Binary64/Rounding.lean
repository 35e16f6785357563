import Mathlib.Algebra.Order.Field.Basic
import Mathlib.Data.Rat.Cast.Order
import Mathlib.Tactic.FieldSimp
import Mathlib.Tactic.Linarith
import ScalarOps.Proofs.Binary64.Spacing

/-! The quotient `num / den` lies between the numbers of two neighbouring codes, and `roundCode` takes the nearer of
    the two, the even one if they are equally near (`roundCode_cases`). `IsNearestEven` says the same over rational
    numbers and all codes, and has one solution at most. -/

namespace ScalarOps
namespace Binary64

variable {num den : Nat}

/-! ### The code below -/

/-- The last code whose number is not above the quotient. -/
def floorCode (num den : Nat) : Nat := lastPlace num den * 2 ^ 52 + num / (den * 2 ^ lastPlace num den)

/-- At its last place the quotient has at most 53 bits, and 53 unless the place is 0. -/
theorem floor_bits (num den : Nat) :
    num / (den * 2 ^ lastPlace num den) < 2 ^ 53 ∧
      (lastPlace num den = 0 ∨ 2 ^ 52 ≤ num / (den * 2 ^ lastPlace num den)) := by
  rw [← Nat.div_div_eq_div_mul]
  unfold lastPlace
  generalize num / den = v
  constructor
  · apply Nat.div_lt_of_lt_mul
    rw [Nat.mul_comm, ← Nat.pow_add]
    exact lt_of_lt_of_le Nat.lt_log2_self (Nat.pow_le_pow_right (by omega) (by omega))
  · by_cases hv : v.log2 - 52 = 0
    · exact Or.inl hv
    · right
      rw [Nat.le_div_iff_mul_le (Nat.two_pow_pos _), ← Nat.pow_add, show 52 + (v.log2 - 52) = v.log2 by omega]
      apply Nat.log2_self_le
      rintro rfl
      exact hv rfl

theorem codeQuanta_floorCode (num den : Nat) :
    codeQuanta (floorCode num den) = num / (den * 2 ^ lastPlace num den) * 2 ^ lastPlace num den :=
  codeQuanta_split (floor_bits num den).1.le (floor_bits num den).2

theorem codeQuanta_floorCode_succ (num den : Nat) :
    codeQuanta (floorCode num den + 1) = (num / (den * 2 ^ lastPlace num den) + 1) * 2 ^ lastPlace num den := by
  obtain ⟨hlt, hge⟩ := floor_bits num den
  rw [floorCode, Nat.add_assoc, codeQuanta_split hlt (by omega)]

theorem floorCode_le (num den : Nat) : codeQuanta (floorCode num den) * den ≤ num := by
  rw [codeQuanta_floorCode, Nat.mul_assoc, Nat.mul_comm _ den]
  exact Nat.div_mul_le_self num _

theorem lt_floorCode_succ (hden : 0 < den) : num < codeQuanta (floorCode num den + 1) * den := by
  rw [codeQuanta_floorCode_succ, Nat.mul_assoc, Nat.mul_comm _ den, Nat.mul_comm]
  exact Nat.lt_mul_div_succ num (Nat.mul_pos hden (Nat.two_pow_pos _))

/-! ### The choice between the code below and the next one -/

/-- Twice the middle between the code below and the next one, in units of the divisor. -/
def doubleMiddle (num den : Nat) : Nat :=
  (codeQuanta (floorCode num den) + codeQuanta (floorCode num den + 1)) * den

/-- A quotient below the middle is rounded to the code below, one above the middle to the next code, and the middle
    itself to the even one of the two. -/
theorem roundCode_cases (num den : Nat) :
    (roundCode num den = floorCode num den ∧
      (2 * num < doubleMiddle num den ∨ (2 * num = doubleMiddle num den ∧ floorCode num den % 2 = 0))) ∨
    (roundCode num den = floorCode num den + 1 ∧
      (doubleMiddle num den < 2 * num ∨ (2 * num = doubleMiddle num den ∧ floorCode num den % 2 = 1))) := by
  have hround : roundCode num den = lastPlace num den * 2 ^ 52 + divRoundEven num (den * 2 ^ lastPlace num den) := by
    rw [roundCode, Nat.shiftLeft_eq]
    rfl
  have hmiddle : doubleMiddle num den =
      2 * (den * 2 ^ lastPlace num den * (num / (den * 2 ^ lastPlace num den))) + den * 2 ^ lastPlace num den := by
    rw [doubleMiddle, codeQuanta_floorCode, codeQuanta_floorCode_succ]
    ring
  rw [hround, hmiddle]
  unfold floorCode
  have hdm := Nat.div_add_mod num (den * 2 ^ lastPlace num den)
  generalize den * 2 ^ lastPlace num den = d at *
  generalize d * (num / d) = whole at *
  obtain ⟨base, hbase⟩ : ∃ base, lastPlace num den * 2 ^ 52 = 2 * base := ⟨lastPlace num den * 2 ^ 51, by ring⟩
  rw [hbase]
  unfold divRoundEven
  dsimp only
  -- As in `divRoundEven`, twice the remainder is compared with the divisor.
  rcases Nat.lt_trichotomy (2 * (num % d)) d with h | h | h
  · rw [Nat.compare_eq_lt.mpr h]
    left
    exact ⟨rfl, Or.inl (by omega)⟩
  · rw [Nat.compare_eq_eq.mpr h]
    dsimp only
    rcases Nat.mod_two_eq_zero_or_one (num / d) with heven | hodd
    · left
      exact ⟨by omega, Or.inr ⟨by omega, by omega⟩⟩
    · right
      exact ⟨by omega, Or.inr ⟨by omega, by omega⟩⟩
  · rw [Nat.compare_eq_gt.mpr h]
    right
    exact ⟨rfl, Or.inl (by omega)⟩

/-! ### Order -/

theorem le_roundCode (hden : 0 < den) {code : Nat} (h : codeQuanta code * den ≤ num) : code ≤ roundCode num den := by
  have hlt : codeQuanta code < codeQuanta (floorCode num den + 1) :=
    Nat.lt_of_mul_lt_mul_right (lt_of_le_of_lt h (lt_floorCode_succ hden))
  rw [codeQuanta_lt_iff] at hlt
  rcases roundCode_cases num den with ⟨hr, -⟩ | ⟨hr, -⟩ <;> omega

theorem roundCode_le (hden : 0 < den) {code : Nat} (h : num ≤ codeQuanta code * den) : roundCode num den ≤ code := by
  have hle : codeQuanta (floorCode num den) ≤ codeQuanta code :=
    Nat.le_of_mul_le_mul_right (le_trans (floorCode_le num den) h) hden
  rw [codeQuanta_le_iff] at hle
  rcases roundCode_cases num den with ⟨hr, -⟩ | ⟨hr, hup⟩
  · omega
  · by_contra hlt
    -- The code is then the code below itself, and the quotient is its number, below the middle.
    have hcode : code = floorCode num den := by omega
    subst hcode
    have hstep := Nat.mul_lt_mul_of_pos_right (codeQuanta_lt_succ (floorCode num den)) hden
    have hmiddle : doubleMiddle num den = codeQuanta (floorCode num den) * den +
        codeQuanta (floorCode num den + 1) * den := Nat.add_mul _ _ _
    omega

theorem roundCode_codeQuanta (hden : 0 < den) (code : Nat) : roundCode (codeQuanta code * den) den = code :=
  Nat.le_antisymm (roundCode_le hden le_rfl) (le_roundCode hden le_rfl)

theorem round_quanta (neg : Bool) (hden : 0 < den) (m : Magnitude) (h : num = m.quanta * den) :
    round neg num den = finite neg m := by
  rw [round, h, m.quanta_eq, roundCode_codeQuanta hden, ofCode_code]

/-! ### Nearest over the rational numbers -/

theorem unit_cast_pos : (0 : ℚ) < unit := by exact_mod_cast unit_pos

/-- The rational number of a code. -/
def codeValue (code : Nat) : ℚ := codeQuanta code / unit

@[simp] theorem codeValue_zero : codeValue 0 = 0 := by
  simp [codeValue]

theorem codeValue_strictMono : StrictMono codeValue := fun a b h => by
  unfold codeValue
  rw [div_lt_div_iff_of_pos_right unit_cast_pos, Nat.cast_lt]
  exact codeQuanta_lt_iff.mpr h

theorem codeValue_eq_natCast_iff {code n : Nat} : codeValue code = n ↔ codeQuanta code = n * unit := by
  rw [codeValue, div_eq_iff unit_cast_pos.ne']
  exact_mod_cast Iff.rfl

theorem codeValue_of_quanta {m : Magnitude} {n : Nat} (h : m.quanta = n * unit) : codeValue m.code = n :=
  codeValue_eq_natCast_iff.mpr (m.quanta_eq.symm.trans h)

theorem isIntegral_iff {neg : Bool} {m : Magnitude} :
    (finite neg m).isIntegral = true ↔ ∃ n : Nat, codeValue m.code = n := by
  rw [isIntegral, beq_iff_eq, ← Nat.dvd_iff_mod_eq_zero, m.quanta_eq]
  exact exists_congr fun n => by rw [codeValue_eq_natCast_iff, Nat.mul_comm]

theorem exists_codeValue {sig : Nat} (hsig : sig < 2 ^ 53) (k : Nat) :
    ∃ code, codeValue code = (sig * 2 ^ k : Nat) := by
  obtain ⟨code, hcode⟩ := exists_code hsig (k + 1074)
  refine ⟨code, codeValue_eq_natCast_iff.mpr ?_⟩
  rw [hcode, pow_add, ← unit_eq, Nat.mul_assoc]

/-- No number of a code is nearer to `q` than that of `code`, and if another one is as near, `code` is even. -/
structure IsNearestEven (q : ℚ) (code : Nat) : Prop where
  nearest : ∀ k, |q - codeValue code| ≤ |q - codeValue k|
  even : ∀ k, k ≠ code → |q - codeValue k| = |q - codeValue code| → code % 2 = 0

/-- Between the code below and the next one, the nearest code is the nearer of these two. -/
theorem IsNearestEven.of_between {q : ℚ} {j code : Nat} (hlo : codeValue j ≤ q) (hhi : q < codeValue (j + 1))
    (h : (code = j ∧ (2 * q < codeValue j + codeValue (j + 1) ∨
        (2 * q = codeValue j + codeValue (j + 1) ∧ j % 2 = 0))) ∨
      (code = j + 1 ∧ (codeValue j + codeValue (j + 1) < 2 * q ∨
        (2 * q = codeValue j + codeValue (j + 1) ∧ j % 2 = 1)))) : IsNearestEven q code := by
  have habove : ∀ k, j + 1 ≤ k → |q - codeValue k| = codeValue k - q ∧ codeValue (j + 1) ≤ codeValue k := by
    intro k hk
    have hmono := codeValue_strictMono.monotone hk
    rw [abs_sub_comm]
    exact ⟨abs_of_nonneg (by linarith), hmono⟩
  have hbelow : ∀ k, k ≤ j → |q - codeValue k| = q - codeValue k ∧ codeValue k ≤ codeValue j := by
    intro k hk
    have hmono := codeValue_strictMono.monotone hk
    exact ⟨abs_of_nonneg (by linarith), hmono⟩
  -- All other codes are farther on their side than the next one of the two.
  rcases h with ⟨rfl, hq⟩ | ⟨rfl, hq⟩
  · have hself := (hbelow code le_rfl).1
    refine ⟨fun k => ?_, fun k hk heq => ?_⟩
    · rcases Nat.lt_or_ge code k with hlt | hge
      · obtain ⟨hk, hmono⟩ := habove k hlt
        rcases hq with hq | ⟨hq, -⟩ <;> linarith
      · obtain ⟨hk, hmono⟩ := hbelow k hge
        linarith
    · rcases Nat.lt_or_ge code k with hlt | hge
      · obtain ⟨hk, hmono⟩ := habove k hlt
        rcases hq with hq | ⟨-, heven⟩
        · linarith
        · exact heven
      · obtain ⟨hk', -⟩ := hbelow k hge
        have := codeValue_strictMono (show k < code by omega)
        linarith
  · have hself := (habove (j + 1) le_rfl).1
    refine ⟨fun k => ?_, fun k hk heq => ?_⟩
    · rcases Nat.lt_or_ge j k with hlt | hge
      · obtain ⟨hk, hmono⟩ := habove k hlt
        linarith
      · obtain ⟨hk, hmono⟩ := hbelow k hge
        rcases hq with hq | ⟨hq, -⟩ <;> linarith
    · rcases Nat.lt_or_ge j k with hlt | hge
      · obtain ⟨hk', -⟩ := habove k hlt
        have := codeValue_strictMono (show j + 1 < k by omega)
        linarith
      · obtain ⟨hk', hmono⟩ := hbelow k hge
        rcases hq with hq | ⟨-, hodd⟩
        · linarith
        · omega

/-- Two codes that are nearest to one number are the same: if they were not, both would be even, and a code
    between them would be nearer. -/
theorem IsNearestEven.unique {q : ℚ} {a b : Nat} (ha : IsNearestEven q a) (hb : IsNearestEven q b) : a = b := by
  have key : ∀ {a b : Nat}, IsNearestEven q a → IsNearestEven q b → ¬a < b := by
    intro a b ha hb hlt
    have heq : |q - codeValue a| = |q - codeValue b| := le_antisymm (ha.nearest b) (hb.nearest a)
    have haeven := ha.even b (by omega) heq.symm
    have hbeven := hb.even a (by omega) heq
    have hab := codeValue_strictMono hlt
    have hnext := codeValue_strictMono (Nat.lt_succ_self a)
    have hnext' := codeValue_strictMono (show a + 1 < b by omega)
    have hnear := ha.nearest (a + 1)
    have hmiddle : 2 * q = codeValue a + codeValue b := by
      rcases abs_eq_abs.mp heq with h | h <;> linarith
    rw [abs_of_nonneg (by linarith : 0 ≤ q - codeValue a)] at hnear
    rcases abs_cases (q - codeValue (a + 1)) with ⟨h, -⟩ | ⟨h, -⟩ <;> linarith
  rcases Nat.lt_trichotomy a b with h | h | h
  · exact absurd h (key ha hb)
  · exact h
  · exact absurd h (key hb ha)

theorem middle_le_of_abs_sub_le {q u v : ℚ} (huv : u < v) (h : |q - v| ≤ |q - u|) : u + v ≤ 2 * q := by
  by_contra hlow
  rw [not_le] at hlow
  rcases abs_cases (q - u) with ⟨hu, hu'⟩ | ⟨hu, hu'⟩ <;> rcases abs_cases (q - v) with ⟨hv, hv'⟩ | ⟨hv, hv'⟩ <;>
    linarith

theorem le_middle_of_abs_sub_le {q u v : ℚ} (huv : u < v) (h : |q - u| ≤ |q - v|) : 2 * q ≤ u + v := by
  by_contra hhigh
  rw [not_le] at hhigh
  rcases abs_cases (q - u) with ⟨hu, hu'⟩ | ⟨hu, hu'⟩ <;> rcases abs_cases (q - v) with ⟨hv, hv'⟩ | ⟨hv, hv'⟩ <;>
    linarith

/-- A nearest code does not decrease with the number: if it did, both numbers would be the middle of the two codes. -/
theorem IsNearestEven.mono {p q : ℚ} {a b : Nat} (ha : IsNearestEven p a) (hb : IsNearestEven q b) (h : p ≤ q) :
    a ≤ b := by
  by_contra hlt
  have hvalue := codeValue_strictMono (Nat.lt_of_not_ge hlt)
  have hp := middle_le_of_abs_sub_le hvalue (ha.nearest b)
  have hq := le_middle_of_abs_sub_le hvalue (hb.nearest a)
  have heq : p = q := by linarith
  exact hlt (ha.unique (heq ▸ hb)).le

theorem isNearestEven_codeValue (code : Nat) : IsNearestEven (codeValue code) code where
  nearest k := by
    rw [sub_self, abs_zero]
    exact abs_nonneg _
  even k hk heq := by
    rw [sub_self, abs_zero, abs_eq_zero, sub_eq_zero] at heq
    exact absurd (codeValue_strictMono.injective heq).symm hk

theorem IsNearestEven.le_of_codeValue_le {q : ℚ} {k code : Nat} (h : IsNearestEven q code) (hk : codeValue k ≤ q) :
    k ≤ code :=
  (isNearestEven_codeValue k).mono h hk

theorem IsNearestEven.le_of_le_codeValue {q : ℚ} {k code : Nat} (h : IsNearestEven q code) (hk : q ≤ codeValue k) :
    code ≤ k :=
  h.mono (isNearestEven_codeValue k) hk

theorem IsNearestEven.eq_of_codeValue {k code : Nat} (h : IsNearestEven (codeValue k) code) : code = k :=
  h.unique (isNearestEven_codeValue k)

theorem codeValue_step_le {code : Nat} (h : 2 ^ 52 ≤ code) :
    codeValue (code + 1) - codeValue code ≤ codeValue code / 2 ^ 52 := by
  have hstep : ((codeQuanta (code + 1) - codeQuanta code : Nat) : ℚ) * 2 ^ 52 ≤ codeQuanta code := by
    exact_mod_cast codeQuanta_step_le h
  rw [Nat.cast_sub (codeQuanta_lt_succ code).le] at hstep
  unfold codeValue
  rw [← sub_div, div_right_comm, div_le_div_iff_of_pos_right unit_cast_pos, le_div_iff₀ (by norm_num)]
  exact hstep

/-- From the least normal number on, rounding moves a number by one part in `2^53` at most. -/
theorem IsNearestEven.error_le {q : ℚ} {code : Nat} (h : IsNearestEven q code) (hq : codeValue (2 ^ 52) ≤ q) :
    |q - codeValue code| ≤ q / 2 ^ 53 := by
  rcases le_or_gt (codeValue code) q with hle | hgt
  · have hnear := le_middle_of_abs_sub_le (codeValue_strictMono (Nat.lt_succ_self code)) (h.nearest (code + 1))
    have hstep := codeValue_step_le (h.le_of_codeValue_le hq)
    rw [abs_of_nonneg (sub_nonneg.mpr hle)]
    linarith
  · have hcode : 2 ^ 52 < code := codeValue_strictMono.lt_iff_lt.mp (hq.trans_lt hgt)
    obtain ⟨k, rfl⟩ := Nat.exists_eq_succ_of_ne_zero (Nat.ne_zero_of_lt hcode)
    have hnear := middle_le_of_abs_sub_le (codeValue_strictMono (Nat.lt_succ_self k)) (h.nearest k)
    have hstep := codeValue_step_le (Nat.le_of_lt_succ hcode)
    rw [abs_of_neg (sub_neg.mpr hgt)]
    linarith

/-- The number of a quotient of quanta. -/
def quotient (num den : Nat) : ℚ := num / den / unit

theorem quotient_le_iff (hden : 0 < den) {a b : Nat} : quotient a den ≤ quotient b den ↔ a ≤ b := by
  have hden' : (0 : ℚ) < den := by exact_mod_cast hden
  unfold quotient
  rw [div_le_div_iff_of_pos_right unit_cast_pos, div_le_div_iff_of_pos_right hden', Nat.cast_le]

theorem quotient_lt_iff (hden : 0 < den) {a b : Nat} : quotient a den < quotient b den ↔ a < b := by
  rw [← not_le, quotient_le_iff hden, Nat.not_le]

theorem quotient_inj (hden : 0 < den) {a b : Nat} : quotient a den = quotient b den ↔ a = b := by
  rw [le_antisymm_iff, quotient_le_iff hden, quotient_le_iff hden, Nat.le_antisymm_iff]

theorem quotient_add (a b den : Nat) : quotient (a + b) den = quotient a den + quotient b den := by
  unfold quotient
  rw [Nat.cast_add, add_div, add_div]

theorem codeValue_eq_quotient (hden : 0 < den) (code : Nat) : codeValue code = quotient (codeQuanta code * den) den := by
  have hden' : (den : ℚ) ≠ 0 := by exact_mod_cast hden.ne'
  unfold codeValue quotient
  rw [Nat.cast_mul, mul_div_cancel_right₀ _ hden']

theorem isNearestEven_roundCode (num : Nat) (hden : 0 < den) : IsNearestEven (quotient num den) (roundCode num den) := by
  have hmiddle : codeValue (floorCode num den) + codeValue (floorCode num den + 1) =
      quotient (doubleMiddle num den) den := by
    rw [codeValue_eq_quotient hden, codeValue_eq_quotient hden, ← quotient_add, ← Nat.add_mul]
    rfl
  have hdouble : 2 * quotient num den = quotient (2 * num) den := by
    rw [two_mul, two_mul, quotient_add]
  refine @IsNearestEven.of_between _ (floorCode num den) _ ?_ ?_ ?_
  · rw [codeValue_eq_quotient hden, quotient_le_iff hden]
    exact floorCode_le num den
  · rw [codeValue_eq_quotient hden, quotient_lt_iff hden]
    exact lt_floorCode_succ hden
  · rw [hmiddle, hdouble, quotient_lt_iff hden, quotient_lt_iff hden, quotient_inj hden]
    exact roundCode_cases num den

end Binary64
end ScalarOps
