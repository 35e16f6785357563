import ScalarOps.Proofs.Comparison
import ScalarOps.Proofs.Failure

/-! Equal values are numbers together, and of one exact number (`exists_number?_of_equals`), or are the same. So
    equality is an equivalence but for NaN, and a comparison cannot tell a value from an equal one. -/

namespace ScalarOps

/-- Two evaluations give the same value, or both fail with a type error. -/
def Agree (x y : Except OperatorError Value) : Prop :=
  (∃ v, x = .ok v ∧ y = .ok v) ∨
    ∃ e e', x = .error e ∧ y = .error e' ∧ e.errorClass = .typeError ∧ e'.errorClass = .typeError

namespace Value

variable {a a' b b' c : Value}

/-! ### An equivalence but for NaN -/

theorem equals_symm (h : a.equals b = true) : b.equals a = true := by
  rcases equals_iff.mp h with ⟨p, ha, hb⟩ | ⟨-, rfl⟩
  · exact equals_iff.mpr (Or.inl ⟨p, hb, ha⟩)
  · exact h

theorem equals_comm (a b : Value) : a.equals b = b.equals a :=
  Bool.eq_iff_iff.mpr ⟨equals_symm, equals_symm⟩

theorem equals_trans (hab : a.equals b = true) (hbc : b.equals c = true) : a.equals c = true := by
  rcases equals_iff.mp hab with ⟨p, ha, hb⟩ | ⟨-, rfl⟩
  · rcases equals_iff.mp hbc with ⟨q, hb', hc⟩ | ⟨-, rfl⟩
    · -- The number in the middle is one, so it is that of both ends.
      obtain rfl := Option.some.inj (hb.symm.trans hb')
      exact equals_iff.mpr (Or.inl ⟨p, ha, hc⟩)
    · exact hab
  · exact hbc

theorem equals_self_iff : a.equals a = true ↔ a.isNaN = false := by
  constructor
  · intro h
    rcases equals_iff.mp h with ⟨p, hp, -⟩ | ⟨hnum, -⟩
    · rw [Bool.eq_false_iff]
      intro hnan
      rw [number?_eq_none_of_isNaN hnan] at hp
      cases hp
    · cases a with
      | nil | bool _ => rfl
      | int _ | float _ => cases hnum
  · intro h
    cases hnum : a.isNumeric with
    | true =>
      obtain ⟨p, hp⟩ := number?_of_not_isNaN hnum h
      exact equals_iff.mpr (Or.inl ⟨p, hp, hp⟩)
    | false => exact equals_iff.mpr (Or.inr ⟨hnum, rfl⟩)

/-! ### Equal operands -/

theorem isNumeric_eq_of_equals (h : a.equals b = true) : a.isNumeric = b.isNumeric := by
  rcases equals_iff.mp h with ⟨p, ha, hb⟩ | ⟨-, rfl⟩
  · rw [isNumeric_of_number? ha, isNumeric_of_number? hb]
  · rfl

theorem isNumeric_congr (ha : a.equals a' = true) (hb : b.equals b' = true) :
    (a.isNumeric = true ∧ b.isNumeric = true) ↔ (a'.isNumeric = true ∧ b'.isNumeric = true) := by
  rw [isNumeric_eq_of_equals ha, isNumeric_eq_of_equals hb]

theorem exists_number?_of_equals (h : a.equals b = true) (hnum : a.isNumeric = true) :
    ∃ p, a.number? = some p ∧ b.number? = some p := by
  rcases equals_iff.mp h with hp | ⟨hnot, -⟩
  · exact hp
  · rw [hnum] at hnot
    cases hnot

theorem equals_congr (ha : a.equals a' = true) (hb : b.equals b' = true) : a.equals b = a'.equals b' :=
  Bool.eq_iff_iff.mpr ⟨fun h => equals_trans (equals_symm ha) (equals_trans h hb),
    fun h => equals_trans ha (equals_trans h (equals_symm hb))⟩

theorem order_congr (ha : a.equals a' = true) (hb : b.equals b' = true) : a.order b = a'.order b' := by
  by_cases hnum : a.isNumeric = true ∧ b.isNumeric = true
  · obtain ⟨p, hp, hp'⟩ := exists_number?_of_equals ha hnum.1
    obtain ⟨q, hq, hq'⟩ := exists_number?_of_equals hb hnum.2
    rw [order_of_numbers hp hq, order_of_numbers hp' hq']
  · rw [order_of_not_numeric hnum, order_of_not_numeric ((isNumeric_congr ha hb).not.mp hnum), equals_congr ha hb]

end Value

namespace BinaryOp

variable {a a' b b' : Value}

/-- On values that are not both numbers, any two operators on numbers fail with a type error. -/
theorem agree_of_not_numeric {op op' : BinaryOp} (hop : (∃ a, op = arith a) ∨ ∃ c, op = relation c)
    (hop' : (∃ a, op' = arith a) ∨ ∃ c, op' = relation c) (h : ¬(a.isNumeric = true ∧ b.isNumeric = true))
    (h' : ¬(a'.isNumeric = true ∧ b'.isNumeric = true)) : Agree (op.eval a b) (op'.eval a' b') :=
  Or.inr ⟨_, _, eval_eq_mismatch hop h, eval_eq_mismatch hop' h', errorClass_mismatch _ _ _, errorClass_mismatch _ _ _⟩

theorem eval_relation_congr (r : RelationOp) (ha : a.equals a' = true) (hb : b.equals b' = true) :
    Agree ((relation r).eval a b) ((relation r).eval a' b') := by
  by_cases hnum : a.isNumeric = true ∧ b.isNumeric = true
  · have hnum' := (Value.isNumeric_congr ha hb).mp hnum
    obtain ⟨p, hp, hp'⟩ := Value.exists_number?_of_equals ha hnum.1
    obtain ⟨q, hq, hq'⟩ := Value.exists_number?_of_equals hb hnum.2
    obtain ⟨pair, hpair⟩ := NumericPair.exists_ofValues? hnum.1 hnum.2
    obtain ⟨pair', hpair'⟩ := NumericPair.exists_ofValues? hnum'.1 hnum'.2
    refine Or.inl ⟨.bool (r.holds p q), ?_, ?_⟩
    · rw [eval_relation hpair, RelationOp.onPair_eq_holds hpair hp hq]
    · rw [eval_relation hpair', RelationOp.onPair_eq_holds hpair' hp' hq']
  · have hnum' := (Value.isNumeric_congr ha hb).not.mp hnum
    exact agree_of_not_numeric (Or.inr ⟨r, rfl⟩) (Or.inr ⟨r, rfl⟩) hnum hnum'

end BinaryOp

namespace Value

/-- Equality is symmetric, transitive and, but for NaN, reflexive, and the comparisons respect it: on equal operands
    they give the same value, or fail on both with a type error. -/
theorem equality_is_congruence :
    (∀ a b : Value, a.equals b = b.equals a) ∧
    (∀ a b c : Value, a.equals b = true → b.equals c = true → a.equals c = true) ∧
    (∀ a : Value, a.equals a = true ↔ a.isNaN = false) ∧
    (∀ a a' b b' : Value, a.equals a' = true → b.equals b' = true →
      ∀ op : BinaryOp, (∃ r, op = .relation r) ∨ op = .eq ∨ op = .notEq ∨ op = .cmp →
        Agree (op.eval a b) (op.eval a' b')) := by
  refine ⟨equals_comm, fun a b c => equals_trans, fun a => equals_self_iff, fun a a' b b' ha hb op hop => ?_⟩
  rcases hop with ⟨r, rfl⟩ | rfl | rfl | rfl
  · exact BinaryOp.eval_relation_congr r ha hb
  · exact Or.inl ⟨_, rfl, by rw [BinaryOp.eval, equals_congr ha hb]⟩
  · exact Or.inl ⟨_, rfl, by rw [BinaryOp.eval, equals_congr ha hb]⟩
  · exact Or.inl ⟨_, rfl, by rw [BinaryOp.eval, order_congr ha hb]⟩

/-- Two integers, and the doubles equal to them, of which one is the negative zero. -/
theorem cmp_one_zero_agree :
    Agree (BinaryOp.cmp.eval (int .one) (int .zero)) (BinaryOp.cmp.eval (float .one) (float (.finite true .zero))) :=
  equality_is_congruence.2.2.2 _ _ _ _ (by decide +kernel) (by decide +kernel) .cmp (Or.inr (Or.inr (Or.inr rfl)))

end Value
end ScalarOps
