import ScalarOps.Proofs.FlooredRemainder
import ScalarOps.Proofs.Promotion

/-! Two numbers can be compared by the sign of their difference. Rounding never takes a difference of doubles to zero
    or across it, since two different ones are one quantum apart at least and a quantum is a double itself
    (`RoundsTo.order_zero`). A difference of words may wrap, but it is 0 only for equal words. -/

namespace ScalarOps

namespace Word

/-- A difference of words is 0 only for equal words, even if it wraps: adding the subtrahend again undoes it. -/
theorem sub_eq_zero_iff {x y : Word} : x - y = zero ↔ x = y := by
  constructor
  · intro h
    have hbits : x.bits - y.bits = 0#32 := congrArg bits h
    have hback := BitVec.sub_add_cancel x.bits y.bits
    rw [hbits, BitVec.zero_add] at hback
    exact congrArg mk hback.symm
  · rintro rfl
    exact congrArg mk (BitVec.sub_self x.bits)

end Word

namespace Binary64

variable {q : ℚ} {x : Binary64}

/-! ### The sign of a rounded number -/

theorem compare_signed_zero {code : Nat} (neg : Bool) (hcode : 0 < code) :
    compare (signed neg code) 0 = if neg then .lt else .gt := by
  cases neg with
  | false => exact Int.compare_eq_gt.mpr (Int.natCast_pos.mpr hcode)
  | true => exact Int.compare_eq_lt.mpr (Int.neg_neg_of_pos (Int.natCast_pos.mpr hcode))

theorem order_ofCode_zero (neg : Bool) (code : Nat) :
    (ofCode neg code).order zero = some (compare (signed neg code) 0) := by
  unfold ofCode
  by_cases h : code < 0x7FF0000000000000
  · rw [dif_pos h]
    rfl
  · -- Infinity is beyond zero on either side, as its code is.
    rw [dif_neg h, compare_signed_zero neg (by omega)]
    rfl

/-- A number that is 0 or one quantum away from it at least is on the same side of zero as its double. -/
theorem RoundsTo.order_zero (h : RoundsTo q x) (hq : q = 0 ∨ codeValue 1 ≤ |q|) : x.order zero = some (cmp q 0) := by
  obtain ⟨neg, code, hsign, hnear, rfl⟩ := h
  rw [order_ofCode_zero]
  rcases hq with rfl | hq
  · rw [abs_zero, ← codeValue_zero] at hnear
    rw [hnear.eq_of_codeValue, cmp_self_eq_eq]
    cases neg <;> rfl
  · have hcode : 1 ≤ code := hnear.le_of_codeValue_le hq
    have hne : q ≠ 0 := abs_pos.mp ((codeValue_pos Nat.one_pos).trans_le hq)
    rw [compare_signed_zero neg hcode, hsign.eq_decide hne]
    rcases lt_or_gt_of_ne hne with hneg | hpos
    · rw [decide_eq_true hneg, hneg.cmp_eq_lt, if_pos rfl]
    · rw [decide_eq_false hpos.not_gt, hpos.cmp_eq_gt, if_neg Bool.false_ne_true]

theorem finiteValue_sub (s t : Bool) (a b : Magnitude) :
    finiteValue s a - finiteValue t b = ((signed s a.quanta - signed t b.quanta : Int) : ℚ) / unit := by
  rw [finiteValue, finiteValue, ← sub_div, Int.cast_sub]

theorem order_sub_zero (s t : Bool) (a b : Magnitude) :
    (finite s a - finite t b).order zero = (finite s a).order (finite t b) := by
  have hquanta := finiteValue_sub s t a b
  have hapart := eq_zero_or_codeValue_one_le (signed s a.quanta - signed t b.quanta)
  rw [← hquanta] at hapart
  rw [(roundsTo_sub s t a b).order_zero hapart, cmp_sub_zero, order_eq_cmp rfl rfl,
    ExactNumber.ofRat_strictMono.cmp_map_eq]

end Binary64

namespace Value

open Binary64

variable {a b : Value}

/-- A number that is neither infinite nor NaN. -/
def isFinite : Value → Bool
  | int _ | float (.finite ..) => true
  | _ => false

theorem exists_asFloat?_of_isFinite (h : a.isFinite = true) : ∃ s m, a.asFloat? = some (finite s m) := by
  cases a with
  | nil | bool _ => cases h
  | int n =>
    obtain ⟨s, m, hm, -⟩ := exists_ofWord_eq n
    exact ⟨s, m, congrArg some hm⟩
  | float x =>
    cases x with
    | nan _ | inf _ => cases h
    | finite s m => exact ⟨s, m, rfl⟩

theorem order_floats {x y : Binary64} (ha : a.asFloat? = some x) (hb : b.asFloat? = some y)
    (hdouble : a.asInt? = none ∨ b.asInt? = none) : a.order b = x.order y :=
  order_of_pair (NumericPair.ofValues?_floats ha hb hdouble)

theorem exists_ofOrder_some (o : Ordering) : ∃ n, ofOrder (some o) = int n := by
  cases o <;> exact ⟨_, rfl⟩

theorem words_or_double (ha : a.isFinite = true) (hb : b.isFinite = true) :
    (∃ m n, a = int m ∧ b = int n) ∨ a.asInt? = none ∨ b.asInt? = none := by
  cases a with
  | nil | bool _ => cases ha
  | float x => exact Or.inr (Or.inl rfl)
  | int m =>
    cases b with
    | nil | bool _ => cases hb
    | float y => exact Or.inr (Or.inr rfl)
    | int n => exact Or.inl ⟨m, n, rfl, rfl⟩

end Value

/-! ### The operators -/

namespace BinaryOp

open Binary64

variable {a b : Value}

theorem cmp_difference_of_double (ha : a.isFinite = true) (hb : b.isFinite = true)
    (hdouble : a.asInt? = none ∨ b.asInt? = none) :
    ∃ x n, (arith .sub).eval a b = .ok (.float x) ∧ cmp.eval (.float x) (.int .zero) = .ok (.int n) ∧
      cmp.eval a b = .ok (.int n) := by
  obtain ⟨s, x, hx⟩ := Value.exists_asFloat?_of_isFinite ha
  obtain ⟨t, y, hy⟩ := Value.exists_asFloat?_of_isFinite hb
  have horder : a.order b = some (compare (signed s x.code) (signed t y.code)) := Value.order_floats hx hy hdouble
  have hsame : (Value.float (finite s x - finite t y)).order (.int .zero) = a.order b := by
    rw [Value.order_floats rfl rfl (Or.inl rfl), ofWord_zero, order_sub_zero, Value.order_floats hx hy hdouble]
  obtain ⟨n, hn⟩ := Value.exists_ofOrder_some (compare (signed s x.code) (signed t y.code))
  refine ⟨finite s x - finite t y, n, eval_arith_floats .sub hx hy hdouble, ?_, ?_⟩
  · rw [eval, hsame, horder, hn]
  · rw [eval, horder, hn]

theorem eq_difference_of_words (m n : Word) : eq.eval (.int (m - n)) (.int .zero) = eq.eval (.int m) (.int n) := by
  have hsame : (m - n == .zero) = (m == n) := by
    rw [Bool.eq_iff_iff, beq_iff_eq, beq_iff_eq]
    exact Word.sub_eq_zero_iff
  exact congrArg (Except.ok ∘ Value.bool) hsame

/-- The difference of two finite numbers compares with 0 as they compare with each other, if one of them is a double.
    Of two integers, whose difference may wrap, only equality can be told. -/
theorem difference_compares_as_operands (ha : a.isFinite = true) (hb : b.isFinite = true) :
    ∃ d, (arith .sub).eval a b = .ok d ∧
      (a.asInt? = none ∨ b.asInt? = none →
        ∃ n, cmp.eval d (.int .zero) = .ok (.int n) ∧ cmp.eval a b = .ok (.int n)) ∧
      (∀ m n, a = .int m → b = .int n →
        ∃ same, eq.eval d (.int .zero) = .ok (.bool same) ∧ eq.eval a b = .ok (.bool same)) := by
  rcases Value.words_or_double ha hb with ⟨m, n, rfl, rfl⟩ | hdouble
  · refine ⟨.int (m - n), rfl, fun hdouble => ?_, ?_⟩
    · rcases hdouble with h | h <;> cases h
    · rintro m n ⟨⟩ ⟨⟩
      exact ⟨_, eq_difference_of_words m n, rfl⟩
  · obtain ⟨x, n, hsub, hzero, hcmp⟩ := cmp_difference_of_double ha hb hdouble
    refine ⟨.float x, hsub, fun _ => ⟨n, hzero, hcmp⟩, ?_⟩
    rintro m n rfl rfl
    rcases hdouble with h | h <;> cases h

/-- The two ends of the finite doubles, whose difference is infinite; the least word and the negative double next to zero,
    which is lost in rounding; and the two ends of the words, whose difference wraps to -1. -/
theorem difference_of_ends_compares :
    (∃ n, cmp.eval (.float (.inf false)) (.int .zero) = .ok (.int n) ∧
      cmp.eval (.float (finite false ⟨0x7FEFFFFFFFFFFFFF, by decide⟩))
        (.float (finite true ⟨0x7FEFFFFFFFFFFFFF, by decide⟩)) = .ok (.int n)) ∧
    (∃ n, cmp.eval (.float (ofWord .least)) (.int .zero) = .ok (.int n) ∧
      cmp.eval (.int .least) (.float (finite true ⟨1, by decide⟩)) = .ok (.int n)) ∧
    ∃ same, eq.eval (.int (.ofInt (-1))) (.int .zero) = .ok (.bool same) ∧
      eq.eval (.int .greatest) (.int .least) = .ok (.bool same) := by
  refine ⟨?_, ?_, ?_⟩
  · have hsub : (arith .sub).eval (.float (finite false ⟨0x7FEFFFFFFFFFFFFF, by decide⟩))
        (.float (finite true ⟨0x7FEFFFFFFFFFFFFF, by decide⟩)) = .ok (.float (.inf false)) := by decide +kernel
    obtain ⟨d, hd, hcmp, -⟩ :=
      difference_compares_as_operands (a := .float (finite false ⟨0x7FEFFFFFFFFFFFFF, by decide⟩))
        (b := .float (finite true ⟨0x7FEFFFFFFFFFFFFF, by decide⟩)) rfl rfl
    obtain rfl := Except.ok.inj (hd.symm.trans hsub)
    exact hcmp (Or.inl rfl)
  · have hsub : (arith .sub).eval (.int .least) (.float (finite true ⟨1, by decide⟩)) =
        .ok (.float (ofWord .least)) := by decide +kernel
    obtain ⟨d, hd, hcmp, -⟩ :=
      difference_compares_as_operands (a := .int .least) (b := .float (finite true ⟨1, by decide⟩)) rfl rfl
    obtain rfl := Except.ok.inj (hd.symm.trans hsub)
    exact hcmp (Or.inr rfl)
  · obtain ⟨d, hd, -, hwords⟩ := difference_compares_as_operands (a := .int .greatest) (b := .int .least) rfl rfl
    obtain rfl := Except.ok.inj hd
    exact hwords .greatest .least rfl rfl

end BinaryOp
end ScalarOps
