import Mathlib.Order.Monotone.Basic
import Mathlib.Tactic.Ring
import ScalarOps.Binary64.Round

/-! `codeQuanta` continues `Magnitude.quanta` to all codes, as if exponents had no end. A number of at most 53 bits
    times a power of two is the number of a code (`codeQuanta_split`, `exists_code`). Within a split the next code is
    one unit of the last place above, so the numbers increase with their codes (`codeQuanta_strictMono`). -/

namespace ScalarOps

/-- The multiple of `2^-1074` that a code stands for. -/
def codeQuanta (code : Nat) : Nat :=
  (if code / 2 ^ 52 = 0 then code else code % 2 ^ 52 + 2 ^ 52) * 2 ^ (code / 2 ^ 52 - 1)

theorem Magnitude.quanta_eq (m : Magnitude) : m.quanta = codeQuanta m.code :=
  Nat.shiftLeft_eq m.significand m.shift

theorem Binary64.unit_eq : Binary64.unit = 2 ^ 1074 := by
  have h : ∀ n : Nat, 1 <<< n = 2 ^ n := fun n => by rw [Nat.shiftLeft_eq, Nat.one_mul]
  exact h 1074

theorem Binary64.unit_pos : 0 < Binary64.unit := by
  rw [Binary64.unit_eq]
  exact pow_pos (by omega) _

/-! ### Splits -/

/-- A code is split into a place and a significand; only at place 0 may the significand have fewer than 53 bits.
    The significand `2^53` is the first one of the next place. -/
theorem codeQuanta_split {place sig : Nat} (hle : sig ≤ 2 ^ 53) (hge : place = 0 ∨ 2 ^ 52 ≤ sig) :
    codeQuanta (place * 2 ^ 52 + sig) = sig * 2 ^ place := by
  unfold codeQuanta
  by_cases hsub : sig < 2 ^ 52
  · -- Subnormal: the exponent field is 0 and so is the place.
    have hplace : place = 0 := by omega
    subst hplace
    rw [if_pos (by omega), show (0 * 2 ^ 52 + sig) / 2 ^ 52 - 1 = 0 by omega, Nat.zero_mul, Nat.zero_add]
  · by_cases htop : sig = 2 ^ 53
    · subst htop
      rw [if_neg (by omega), show (place * 2 ^ 52 + 2 ^ 53) / 2 ^ 52 - 1 = place + 1 by omega,
        show (place * 2 ^ 52 + 2 ^ 53) % 2 ^ 52 = 0 by omega]
      ring
    · rw [if_neg (by omega), show (place * 2 ^ 52 + sig) / 2 ^ 52 - 1 = place by omega,
        show (place * 2 ^ 52 + sig) % 2 ^ 52 + 2 ^ 52 = sig by omega]

theorem exists_split (code : Nat) :
    ∃ place sig, code = place * 2 ^ 52 + sig ∧ sig < 2 ^ 53 ∧ (place = 0 ∨ 2 ^ 52 ≤ sig) :=
  ⟨code / 2 ^ 52 - 1, code - (code / 2 ^ 52 - 1) * 2 ^ 52, by omega, by omega, by omega⟩

/-- A number of at most 53 bits times a power of two is the number of a code: at every place the significand can
    be doubled until it has 53 bits or the place is 0. -/
theorem exists_code {sig : Nat} (hsig : sig < 2 ^ 53) (place : Nat) : ∃ code, codeQuanta code = sig * 2 ^ place := by
  induction place generalizing sig with
  | zero => exact ⟨0 * 2 ^ 52 + sig, codeQuanta_split hsig.le (Or.inl rfl)⟩
  | succ place ih =>
    by_cases hnormal : 2 ^ 52 ≤ sig
    · exact ⟨(place + 1) * 2 ^ 52 + sig, codeQuanta_split hsig.le (Or.inr hnormal)⟩
    · obtain ⟨code, hcode⟩ := @ih (2 * sig) (by omega)
      exact ⟨code, by rw [hcode]; ring⟩

/-! ### Order -/

@[simp] theorem codeQuanta_zero : codeQuanta 0 = 0 := by
  simp [codeQuanta]

theorem codeQuanta_lt_succ (code : Nat) : codeQuanta code < codeQuanta (code + 1) := by
  obtain ⟨place, sig, rfl, hlt, hge⟩ := exists_split code
  rw [codeQuanta_split hlt.le hge, Nat.add_assoc, codeQuanta_split hlt (by omega)]
  exact Nat.mul_lt_mul_of_pos_right (Nat.lt_succ_self sig) (Nat.two_pow_pos place)

/-- From the least normal number on, the next code is one part in `2^52` away at most. -/
theorem codeQuanta_step_le {code : Nat} (h : 2 ^ 52 ≤ code) :
    (codeQuanta (code + 1) - codeQuanta code) * 2 ^ 52 ≤ codeQuanta code := by
  obtain ⟨place, sig, rfl, hlt, hge⟩ := exists_split code
  have hsig : 2 ^ 52 ≤ sig := by omega
  rw [codeQuanta_split hlt.le hge, Nat.add_assoc, codeQuanta_split hlt (by omega), ← Nat.sub_mul,
    Nat.sub_eq_of_eq_add (Nat.add_comm sig 1), Nat.one_mul, Nat.mul_comm]
  exact Nat.mul_le_mul_right _ hsig

theorem codeQuanta_strictMono : StrictMono codeQuanta :=
  strictMono_nat_of_lt_succ codeQuanta_lt_succ

@[simp] theorem codeQuanta_lt_iff {a b : Nat} : codeQuanta a < codeQuanta b ↔ a < b :=
  codeQuanta_strictMono.lt_iff_lt

@[simp] theorem codeQuanta_le_iff {a b : Nat} : codeQuanta a ≤ codeQuanta b ↔ a ≤ b :=
  codeQuanta_strictMono.le_iff_le

@[simp] theorem codeQuanta_inj {a b : Nat} : codeQuanta a = codeQuanta b ↔ a = b :=
  codeQuanta_strictMono.injective.eq_iff

@[simp] theorem codeQuanta_eq_zero {code : Nat} : codeQuanta code = 0 ↔ code = 0 := by
  simpa using @codeQuanta_inj code 0

theorem Magnitude.quanta_inj {a b : Magnitude} : a.quanta = b.quanta ↔ a = b := by
  rw [a.quanta_eq, b.quanta_eq, codeQuanta_inj]
  cases a
  cases b
  simp

/-- The code of infinity would stand for `2^1024`. -/
theorem codeQuanta_infinity : codeQuanta 0x7FF0000000000000 = 2 ^ 1024 * Binary64.unit := by
  have h := @codeQuanta_split 2045 (2 ^ 53) le_rfl (Or.inr (by omega))
  rw [show 2045 * 2 ^ 52 + 2 ^ 53 = 0x7FF0000000000000 by norm_num] at h
  rw [h, Binary64.unit_eq, ← pow_add, ← pow_add]

/-- From `2^53` on, the numbers of codes are integers. -/
theorem unit_dvd_codeQuanta {code : Nat} (h : 2 ^ 53 * Binary64.unit ≤ codeQuanta code) :
    Binary64.unit ∣ codeQuanta code := by
  obtain ⟨place, sig, rfl, hlt, hge⟩ := exists_split code
  rw [codeQuanta_split hlt.le hge, Binary64.unit_eq] at h ⊢
  have hprod : ∀ {n : Nat}, place ≤ n → sig * 2 ^ place < 2 ^ 53 * 2 ^ n := fun hn =>
    Nat.mul_lt_mul_of_lt_of_le hlt (pow_le_pow_right₀ one_le_two hn) (Nat.two_pow_pos _)
  have hplace : 1074 ≤ place := by
    by_contra hsmall
    exact absurd h (Nat.not_le_of_lt (hprod (Nat.le_of_not_ge hsmall)))
  exact (pow_dvd_pow 2 hplace).mul_left sig

end ScalarOps
