import ScalarOps.Decimal.Shortest
import ScalarOps.Proofs.Decimal.Digits
import ScalarOps.Word

/-! The shortest decimal reads back. On every grid the search picks the nearer one of the magnitude's two neighbours
    that read back (`pick?_cases`), and stops on the first grid that has one (`pickFrom_eq`), at the latest on the
    last one, which holds the magnitude's own number. -/

namespace ScalarOps
namespace Magnitude

open Binary64 Decimal

variable {m : Magnitude} {place : Nat} {d : Decimal}

theorem reads_iff : m.reads d = true ↔ d.nearestCode = m.code := by
  unfold reads
  rw [beq_iff_eq]
  exact ⟨nearestCode_of_nearest, fun h => nearest_of_nearestCode h false⟩

/-! ### Neighbours -/

theorem toRat_decimalUnits (m : Magnitude) : (⟨m.decimalUnits, -1074⟩ : Decimal).toRat = codeValue m.code := by
  have hscale : (-1074 : Int) = -(1074 : Nat) := rfl
  rw [codeValue, ← m.quanta_eq, unit_eq, toRat, decimalUnits, hscale]
  generalize 1074 = n
  have hpow : Nat.pow 5 n = 5 ^ n := rfl
  rw [hpow, zpow_neg, zpow_natCast, show (10 : ℚ) = 2 * 5 by norm_num, mul_pow]
  push_cast
  field_simp

/-- The last decimal of a grid that is not above the magnitude. -/
def below (m : Magnitude) (place : Nat) : Decimal := ⟨m.decimalUnits / 10 ^ place, place - 1074⟩

/-- The first decimal of a grid that is above the magnitude. -/
def above (m : Magnitude) (place : Nat) : Decimal := ⟨m.decimalUnits / 10 ^ place + 1, place - 1074⟩

theorem toRat_place (q place : Nat) :
    (⟨q, place - 1074⟩ : Decimal).toRat = (⟨q * 10 ^ place, -1074⟩ : Decimal).toRat := by
  rw [toRat_mk_mul_pow, Int.add_comm, ← Int.sub_eq_add_neg]

theorem below_le (m : Magnitude) (place : Nat) : (m.below place).toRat ≤ codeValue m.code := by
  rw [below, toRat_place, ← toRat_decimalUnits, toRat_mk_le_iff]
  exact Nat.div_mul_le_self _ _

theorem lt_above (m : Magnitude) (place : Nat) : codeValue m.code < (m.above place).toRat := by
  rw [above, toRat_place, ← toRat_decimalUnits, ← not_le, toRat_mk_le_iff, Nat.not_le, Nat.mul_comm]
  exact Nat.lt_mul_div_succ _ (Nat.pow_pos (by decide))

theorem middle_le_iff (m : Magnitude) (place : Nat) :
    (m.below place).toRat + (m.above place).toRat ≤ 2 * codeValue m.code ↔
      10 ^ place ≤ 2 * (m.decimalUnits % 10 ^ place) := by
  have hsum : ∀ a b : Nat, (⟨a, -1074⟩ : Decimal).toRat + (⟨b, -1074⟩ : Decimal).toRat =
      (⟨a + b, -1074⟩ : Decimal).toRat := fun a b => by
    rw [toRat, toRat, toRat, Nat.cast_add, add_mul]
  have hdm := Nat.div_add_mod' m.decimalUnits (10 ^ place)
  rw [below, above, toRat_place, toRat_place, ← toRat_decimalUnits, two_mul (Decimal.toRat _), hsum, hsum,
    toRat_mk_le_iff, Nat.succ_mul]
  omega

/-! ### The search -/

theorem pick?_eq (m : Magnitude) (place : Nat) :
    m.pick? place =
      if m.reads (m.below place) then
        if m.reads (m.above place) && decide (10 ^ place ≤ 2 * (m.decimalUnits % 10 ^ place)) then
          some (m.above place)
        else some (m.below place)
      else if m.reads (m.above place) then some (m.above place)
      else none := rfl

/-- The pick is a neighbour that reads back; the other one does not, or is farther away. -/
theorem pick?_cases (h : m.pick? place = some d) :
    (d = m.below place ∧ (m.below place).nearestCode = m.code ∧
      ((m.above place).nearestCode = m.code →
        2 * codeValue m.code < (m.below place).toRat + (m.above place).toRat)) ∨
    (d = m.above place ∧ (m.above place).nearestCode = m.code ∧
      ((m.below place).nearestCode = m.code →
        (m.below place).toRat + (m.above place).toRat ≤ 2 * codeValue m.code)) := by
  rw [pick?_eq] at h
  split at h
  · next hbelow =>
    split at h
    · next hmiddle =>
      rw [Bool.and_eq_true, decide_eq_true_iff, ← middle_le_iff] at hmiddle
      exact Or.inr ⟨(Option.some.inj h).symm, reads_iff.mp hmiddle.1, fun _ => hmiddle.2⟩
    · next hmiddle =>
      rw [Bool.and_eq_true, decide_eq_true_iff, ← middle_le_iff, not_and, not_le] at hmiddle
      exact Or.inl ⟨(Option.some.inj h).symm, reads_iff.mp hbelow, fun habove => hmiddle (reads_iff.mpr habove)⟩
  · next hbelow =>
    split at h
    · next habove =>
      exact Or.inr ⟨(Option.some.inj h).symm, reads_iff.mp habove, fun hread => absurd (reads_iff.mpr hread) hbelow⟩
    · cases h

theorem not_reads_of_pick?_eq_none (h : m.pick? place = none) :
    (m.below place).nearestCode ≠ m.code ∧ (m.above place).nearestCode ≠ m.code := by
  rw [pick?_eq] at h
  split at h
  · split at h <;> cases h
  · next hbelow =>
    split at h
    · cases h
    · next habove => exact ⟨fun hread => hbelow (reads_iff.mpr hread), fun hread => habove (reads_iff.mpr hread)⟩

theorem pick?_zero (m : Magnitude) : m.pick? 0 = some ⟨m.decimalUnits, -1074⟩ := by
  have hbelow : m.below 0 = ⟨m.decimalUnits, -1074⟩ := by
    rw [below, pow_zero, Nat.div_one, Nat.cast_zero, Int.zero_sub]
  have hread : m.reads (m.below 0) = true := reads_iff.mpr (hbelow ▸ nearestCode_of_toRat m.toRat_decimalUnits)
  have hmiddle : ¬10 ^ 0 ≤ 2 * (m.decimalUnits % 10 ^ 0) := by
    rw [pow_zero, Nat.mod_one]
    decide
  rw [pick?_eq, if_pos hread, decide_eq_false hmiddle, Bool.and_false, if_neg Bool.false_ne_true, hbelow]

theorem pickFrom_eq (m : Magnitude) (place : Nat) :
    ∃ p ≤ place, m.pick? p = some (m.pickFrom place) ∧ ∀ q, p < q → q ≤ place → m.pick? q = none := by
  induction place with
  | zero => exact ⟨0, le_rfl, m.pick?_zero, fun q hlt hle => absurd hle (Nat.not_le_of_lt hlt)⟩
  | succ place ih =>
    unfold pickFrom
    cases hpick : m.pick? (place + 1) with
    | some d => exact ⟨place + 1, le_rfl, hpick, fun q hlt hle => absurd hle (Nat.not_le_of_lt hlt)⟩
    | none =>
      obtain ⟨p, hp, hsome, hnone⟩ := ih
      refine ⟨p, hp.trans (Nat.le_succ place), hsome, fun q hlt hle => ?_⟩
      rcases Nat.lt_or_eq_of_le hle with hlower | rfl
      · exact hnone q hlt (Nat.le_of_lt_succ hlower)
      · exact hpick

theorem nearestCode_shortest (m : Magnitude) : m.shortest.nearestCode = m.code := by
  unfold shortest
  split
  · next hzero =>
    rw [hzero]
    exact nearestCode_of_toRat (by simp [toRat])
  · obtain ⟨p, -, hpick, -⟩ := m.pickFrom_eq ((Nat.toDigits 10 m.decimalUnits).length - 1)
    rcases pick?_cases hpick with ⟨heq, hread, -⟩ | ⟨heq, hread, -⟩
    · rw [heq, hread]
    · rw [heq, hread]

/-! ### The exponent -/

theorem coeff_ne_zero_of_reads (h : m.code ≠ 0) (hread : d.nearestCode = m.code) : d.coeff ≠ 0 := by
  intro hzero
  have hrat : d.toRat = codeValue 0 := by rw [toRat, hzero, Nat.cast_zero, zero_mul, codeValue_zero]
  exact h (hread ▸ nearestCode_of_toRat hrat)

/-- `10^-324` is read as 0, and `10^309` as infinity. -/
theorem exponent_bounds_of_reads (h : m.code ≠ 0) (hread : d.nearestCode = m.code) :
    -324 ≤ d.exponent ∧ d.exponent ≤ 308 := by
  have hcoeff := coeff_ne_zero_of_reads h hread
  constructor
  · have hzero : (⟨1, -324⟩ : Decimal).nearestCode = 0 := by decide +kernel
    rw [le_exponent_iff hcoeff, ← toRat_one]
    by_contra hlt
    have hle := nearestCode_mono (le_of_not_ge hlt)
    omega
  · have hinf : 0x7FF0000000000000 ≤ (⟨1, 309⟩ : Decimal).nearestCode := by decide +kernel
    by_contra hlt
    have hge : (309 : Int) ≤ d.exponent := by omega
    rw [le_exponent_iff hcoeff, ← toRat_one] at hge
    have hle := nearestCode_mono hge
    have hcode := m.code_lt
    omega

theorem shortest_exponent_bounds (m : Magnitude) : -324 ≤ m.shortest.exponent ∧ m.shortest.exponent ≤ 308 := by
  by_cases h : m.code = 0
  · rw [shortest, if_pos h]
    decide
  · exact exponent_bounds_of_reads h m.nearestCode_shortest

theorem exists_ofInt?_exponent (m : Magnitude) :
    ∃ x, Word.ofInt? m.shortest.exponent = some x ∧ x.toInt = m.shortest.exponent := by
  obtain ⟨hlo, hhi⟩ := m.shortest_exponent_bounds
  have hint : (Word.ofInt m.shortest.exponent).toInt = m.shortest.exponent := by
    rw [Word.toInt_ofInt, Word.wrap]
    exact Int.bmod_eq_of_le (by omega) (by omega)
  exact ⟨_, if_pos hint, hint⟩

/-! ### Integers -/

theorem isIntegral_of_natural {n : Nat} (h : m.shortest.toRat = n) (neg : Bool) :
    (finite neg m).isIntegral = true := by
  have hread := m.nearestCode_shortest
  rw [isIntegral_iff]
  by_cases hn : n < 2 ^ 53
  · obtain ⟨code, hcode⟩ := exists_codeValue hn 0
    rw [pow_zero, Nat.mul_one] at hcode
    exact ⟨n, by rw [← hread, nearestCode_of_toRat (h.trans hcode.symm), hcode]⟩
  · obtain ⟨code, hcode⟩ := @exists_codeValue (2 ^ 52) (by omega) 1
    have hle : code ≤ m.code := by
      rw [← hread]
      refine le_nearestCode ?_
      rw [hcode, h]
      exact_mod_cast Nat.le_of_not_lt hn
    rw [← codeQuanta_le_iff, codeValue_eq_natCast_iff.mp hcode] at hle
    obtain ⟨k, hk⟩ := unit_dvd_codeQuanta hle
    exact ⟨k, codeValue_eq_natCast_iff.mpr (hk.trans (Nat.mul_comm unit k))⟩

theorem isIntegral_of_digits (h : (m.shortest.digits.length : Int) ≤ m.shortest.exponent + 1) (neg : Bool) :
    (finite neg m).isIntegral = true := by
  obtain ⟨n, hn⟩ := exists_natural h
  exact isIntegral_of_natural hn neg

end Magnitude
end ScalarOps
