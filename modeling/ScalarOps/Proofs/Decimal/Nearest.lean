import Mathlib.Algebra.Order.Field.Power
import ScalarOps.Decimal.Basic
import ScalarOps.Proofs.Binary64.Rounding

/-! A decimal stands for the rational number `toRat`, and the double that it reads as has the code nearest to that
    number. So decimals of one number read as one double, and a larger one does not read as a smaller double. -/

namespace ScalarOps
namespace Decimal

open Binary64

/-- The number `coeff * 10 ^ scale`. -/
def toRat (d : Decimal) : ℚ := d.coeff * 10 ^ d.scale

/-- The code of the nearest double, before overflow. -/
def nearestCode (d : Decimal) : Nat :=
  roundCode (d.coeff * Nat.pow 10 d.scale.toNat * unit) (Nat.pow 10 (-d.scale).toNat)

theorem nearest_eq_ofCode (neg : Bool) (d : Decimal) : d.nearest neg = ofCode neg d.nearestCode := rfl

theorem zpow_eq_div (scale : Int) :
    (10 : ℚ) ^ scale = (Nat.pow 10 scale.toNat : Nat) / (Nat.pow 10 (-scale).toNat : Nat) := by
  obtain ⟨n, rfl | rfl⟩ := scale.eq_nat_or_neg
  · simp
  · simp

theorem quotient_eq_toRat (d : Decimal) :
    quotient (d.coeff * Nat.pow 10 d.scale.toNat * unit) (Nat.pow 10 (-d.scale).toNat) = d.toRat := by
  unfold quotient toRat
  rw [zpow_eq_div, Nat.cast_mul, Nat.cast_mul, div_right_comm, mul_div_cancel_right₀ _ unit_cast_pos.ne', mul_div_assoc]

theorem toRat_mk_le_iff {a b : Nat} {scale : Int} :
    (⟨a, scale⟩ : Decimal).toRat ≤ (⟨b, scale⟩ : Decimal).toRat ↔ a ≤ b := by
  have hpos : (0 : ℚ) < 10 ^ scale := zpow_pos (by norm_num) _
  rw [toRat, toRat, mul_le_mul_iff_left₀ hpos, Nat.cast_le]

theorem toRat_mk_mul_pow (a k : Nat) (scale : Int) :
    (⟨a * 10 ^ k, scale⟩ : Decimal).toRat = (⟨a, scale + k⟩ : Decimal).toRat := by
  rw [toRat, toRat, zpow_add₀ (by norm_num), zpow_natCast]
  push_cast
  ring

theorem toRat_natural (n : Nat) : (⟨n, 0⟩ : Decimal).toRat = n := by
  rw [toRat, zpow_zero, mul_one]

theorem toRat_one (scale : Int) : (⟨1, scale⟩ : Decimal).toRat = 10 ^ scale := by
  rw [toRat, Nat.cast_one, one_mul]

theorem toRat_le_codeValue_iff {d : Decimal} {code : Nat} :
    d.toRat ≤ codeValue code ↔
      d.coeff * Nat.pow 10 d.scale.toNat * unit ≤ codeQuanta code * Nat.pow 10 (-d.scale).toNat := by
  have hden : 0 < Nat.pow 10 (-d.scale).toNat := Nat.pow_pos (by decide)
  rw [← quotient_eq_toRat, codeValue_eq_quotient hden, quotient_le_iff hden]

theorem isNearestEven_nearestCode (d : Decimal) : IsNearestEven d.toRat d.nearestCode := by
  rw [← quotient_eq_toRat]
  exact isNearestEven_roundCode _ (Nat.pow_pos (by omega))

theorem nearestCode_congr {d e : Decimal} (h : d.toRat = e.toRat) : d.nearestCode = e.nearestCode :=
  d.isNearestEven_nearestCode.unique (h ▸ e.isNearestEven_nearestCode)

theorem nearestCode_of_toRat {d : Decimal} {code : Nat} (h : d.toRat = codeValue code) : d.nearestCode = code :=
  IsNearestEven.eq_of_codeValue (h ▸ d.isNearestEven_nearestCode)

theorem nearestCode_eq_iff {d : Decimal} {code : Nat} : d.nearestCode = code ↔ IsNearestEven d.toRat code :=
  ⟨fun h => h ▸ d.isNearestEven_nearestCode, d.isNearestEven_nearestCode.unique⟩

theorem nearestCode_mono {d e : Decimal} (h : d.toRat ≤ e.toRat) : d.nearestCode ≤ e.nearestCode :=
  d.isNearestEven_nearestCode.mono e.isNearestEven_nearestCode h

theorem le_nearestCode {d : Decimal} {code : Nat} (h : codeValue code ≤ d.toRat) : code ≤ d.nearestCode :=
  d.isNearestEven_nearestCode.le_of_codeValue_le h

theorem nearestCode_le {d : Decimal} {code : Nat} (h : d.toRat ≤ codeValue code) : d.nearestCode ≤ code :=
  d.isNearestEven_nearestCode.le_of_le_codeValue h

theorem nearest_of_nearestCode {d : Decimal} {m : Magnitude} (h : d.nearestCode = m.code) (neg : Bool) :
    d.nearest neg = .finite neg m := by
  rw [nearest_eq_ofCode, h, ofCode_code]

theorem nearestCode_of_nearest {d : Decimal} {neg : Bool} {m : Magnitude} (h : d.nearest neg = .finite neg m) :
    d.nearestCode = m.code := by
  rw [nearest_eq_ofCode, ofCode] at h
  split at h
  · injection h with _ hm
    rw [← hm]
  · cases h

end Decimal
end ScalarOps
