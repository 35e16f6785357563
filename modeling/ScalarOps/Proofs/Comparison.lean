import Mathlib.Data.Rat.Cast.Order
import ScalarOps.Evaluation
import ScalarOps.Proofs.Binary64.Number

/-! A number of the language stands for an exact number, unless it is a NaN. Equality, the four relations and the
    three-way comparison are computed along different ways, on words, on doubles or on both, and all agree with the
    one order of the exact numbers. -/

namespace ScalarOps

namespace Value

/-- The exact number of a value, unless it is a NaN or no number. -/
def number? : Value → Option ExactNumber
  | int n => some (.ofRat n.toInt)
  | float x => x.number?
  | _ => none

/-- Whether the value is a NaN. -/
def isNaN : Value → Bool
  | float (.nan _) => true
  | _ => false

theorem exists_nan_of_isNaN {v : Value} (h : v.isNaN = true) : ∃ n, v = float (.nan n) := by
  cases v with
  | float x =>
    cases x with
    | nan n => exact ⟨n, rfl⟩
    | inf _ | finite _ _ => cases h
  | nil | bool _ | int _ => cases h

theorem number?_eq_none_of_isNaN {v : Value} (h : v.isNaN = true) : v.number? = none := by
  obtain ⟨n, rfl⟩ := exists_nan_of_isNaN h
  rfl

theorem number?_of_not_isNaN {v : Value} (hnum : v.isNumeric = true) (hnan : v.isNaN = false) :
    ∃ p, v.number? = some p := by
  cases v with
  | nil | bool _ => cases hnum
  | int n => exact ⟨_, rfl⟩
  | float x =>
    cases x with
    | nan _ => cases hnan
    | inf _ | finite _ _ => exact ⟨_, rfl⟩

theorem isNaN_of_number? {v : Value} (hnum : v.isNumeric = true) (h : v.number? = none) : v.isNaN = true := by
  by_contra hnan
  obtain ⟨p, hp⟩ := number?_of_not_isNaN hnum (Bool.not_eq_true _ ▸ hnan)
  rw [h] at hp
  cases hp

theorem isNumeric_of_number? {v : Value} {p : ExactNumber} (h : v.number? = some p) : v.isNumeric = true := by
  cases v with
  | nil | bool _ => cases h
  | int _ | float _ => rfl

end Value

/-! ### Doubles -/

theorem Binary64.equals_iff {x y : Binary64} :
    x.equals y = true ↔ ∃ p, x.number? = some p ∧ y.number? = some p := by
  unfold Binary64.equals
  rw [beq_iff_eq]
  cases hx : x.number? with
  | none => simp [Binary64.order_eq_none (Or.inl hx)]
  | some p =>
    cases hy : y.number? with
    | none => simp [Binary64.order_eq_none (Or.inr hy)]
    | some q =>
      rw [Binary64.order_eq_cmp hx hy, Option.some.injEq, cmp_eq_eq_iff]
      simp [eq_comm]

/-! ### Pairs of numbers -/

theorem ofRat_int_strictMono : StrictMono fun n : Int => ExactNumber.ofRat n :=
  ExactNumber.ofRat_strictMono.comp Int.cast_strictMono

namespace NumericPair

theorem exists_ofValues? {a b : Value} (ha : a.isNumeric = true) (hb : b.isNumeric = true) :
    ∃ pair, ofValues? a b = some pair := by
  cases a <;> cases b <;> simp_all [Value.isNumeric, ofValues?]

theorem ofValues?_eq_none {a b : Value} (h : ¬(a.isNumeric = true ∧ b.isNumeric = true)) : ofValues? a b = none := by
  cases a <;> cases b <;> simp_all [Value.isNumeric, ofValues?]

theorem order_eq_cmp {a b : Value} {pair : NumericPair} (h : ofValues? a b = some pair) {p q : ExactNumber}
    (ha : a.number? = some p) (hb : b.number? = some q) : pair.order = some (cmp p q) := by
  cases a with
  | nil | bool _ => cases ha
  | int m =>
    cases b with
    | nil | bool _ => cases hb
    | int n =>
      cases h
      cases ha
      cases hb
      rw [order, ofRat_int_strictMono.cmp_map_eq, cmp_eq_compareOfLessAndEq]
      rfl
    | float y =>
      cases h
      cases ha
      exact Binary64.order_eq_cmp (Binary64.number?_ofWord m) hb
  | float x =>
    cases b with
    | nil | bool _ => cases hb
    | int n =>
      cases h
      cases hb
      exact Binary64.order_eq_cmp ha (Binary64.number?_ofWord n)
    | float y =>
      cases h
      exact Binary64.order_eq_cmp ha hb

theorem order_eq_none {a b : Value} {pair : NumericPair} (h : ofValues? a b = some pair)
    (hnan : a.isNaN = true ∨ b.isNaN = true) : pair.order = none := by
  cases a with
  | nil | bool _ => cases h
  | int m =>
    cases b with
    | nil | bool _ => cases h
    | int n => rcases hnan with hnan | hnan <;> cases hnan
    | float y =>
      cases h
      rcases hnan with hnan | hnan
      · cases hnan
      · exact Binary64.order_eq_none (Or.inr (Value.number?_eq_none_of_isNaN hnan))
  | float x =>
    cases b with
    | nil | bool _ => cases h
    | int n =>
      cases h
      rcases hnan with hnan | hnan
      · exact Binary64.order_eq_none (Or.inl (Value.number?_eq_none_of_isNaN hnan))
      · cases hnan
    | float y =>
      cases h
      exact Binary64.order_eq_none (hnan.imp Value.number?_eq_none_of_isNaN Value.number?_eq_none_of_isNaN)

end NumericPair

/-! ### Relations -/

namespace RelationOp

/-- Whether a relation holds between exact numbers. -/
def holds : RelationOp → ExactNumber → ExactNumber → Bool
  | lt, p, q => decide (p < q)
  | le, p, q => decide (p ≤ q)
  | gt, p, q => decide (p > q)
  | ge, p, q => decide (p ≥ q)

theorem onDoubles_of_order {x y : Binary64} {p q : ExactNumber} (h : x.order y = some (cmp p q)) (op : RelationOp) :
    op.onDoubles x y = op.holds p q := by
  unfold onDoubles
  rw [h]
  rcases lt_trichotomy p q with hlt | rfl | hgt
  · rw [hlt.cmp_eq_lt]
    cases op <;> simp [holds, hlt, hlt.le, hlt.not_gt, hlt.not_ge]
  · rw [cmp_self_eq_eq]
    cases op <;> simp [holds]
  · rw [hgt.cmp_eq_gt]
    cases op <;> simp [holds, hgt, hgt.le, hgt.not_gt, hgt.not_ge]

theorem onWords_eq_holds (op : RelationOp) (a b : Word) :
    op.onWords a b = op.holds (.ofRat a.toInt) (.ofRat b.toInt) := by
  cases op with
  | lt => exact decide_eq_decide.mpr ofRat_int_strictMono.lt_iff_lt.symm
  | le => exact decide_eq_decide.mpr ofRat_int_strictMono.le_iff_le.symm
  | gt => exact decide_eq_decide.mpr ofRat_int_strictMono.lt_iff_lt.symm
  | ge => exact decide_eq_decide.mpr ofRat_int_strictMono.le_iff_le.symm

theorem onPair_eq_holds {a b : Value} {pair : NumericPair} (h : NumericPair.ofValues? a b = some pair)
    {p q : ExactNumber} (ha : a.number? = some p) (hb : b.number? = some q) (op : RelationOp) :
    op.onPair pair = op.holds p q := by
  have horder := NumericPair.order_eq_cmp h ha hb
  cases pair with
  | floats x y => exact onDoubles_of_order horder op
  | ints m n =>
    cases a <;> cases b <;> cases h
    cases ha
    cases hb
    exact op.onWords_eq_holds m n

theorem onPair_eq_false {pair : NumericPair} (h : pair.order = none) (op : RelationOp) : op.onPair pair = false := by
  cases pair with
  | ints m n => cases h
  | floats x y =>
    have hxy : x.order y = none := h
    show op.onDoubles x y = false
    unfold onDoubles
    rw [hxy]
    cases op <;> rfl

end RelationOp

/-! ### Equality and the three-way comparison -/

namespace Value

/-- Numbers are equal if they stand for the same exact number, other values if they are the same. -/
theorem equals_iff {a b : Value} :
    a.equals b = true ↔ (∃ p, a.number? = some p ∧ b.number? = some p) ∨ (a.isNumeric = false ∧ a = b) := by
  cases a with
  | nil => cases b <;> simp [equals, number?, isNumeric]
  | bool s => cases b <;> simp [equals, number?, isNumeric]
  | int m =>
    cases b with
    | nil | bool _ => simp [equals, number?]
    | int n =>
      simp only [equals, number?, isNumeric, beq_iff_eq, Option.some.injEq, exists_eq_left', Bool.true_eq_false,
        false_and, or_false]
      rw [ofRat_int_strictMono.injective.eq_iff, Word.toInt_inj, eq_comm]
    -- A word beside a double is compared as its own double.
    | float y =>
      simp only [equals, isNumeric, Binary64.equals_iff, Binary64.number?_ofWord, number?, Bool.true_eq_false,
        false_and, or_false]
  | float x =>
    cases b with
    | nil | bool _ => simp [equals, number?, isNumeric]
    | int n =>
      simp only [equals, isNumeric, Binary64.equals_iff, Binary64.number?_ofWord, number?, Bool.true_eq_false,
        false_and, or_false, and_comm]
    | float y =>
      simp only [equals, isNumeric, Binary64.equals_iff, number?, Bool.true_eq_false, false_and, or_false]

theorem equals_of_numbers {a b : Value} {p q : ExactNumber} (ha : a.number? = some p) (hb : b.number? = some q) :
    a.equals b = decide (p = q) := by
  rw [Bool.eq_iff_iff, equals_iff, decide_eq_true_iff, ha, hb, isNumeric_of_number? ha]
  simp [eq_comm]

theorem equals_of_isNaN {a b : Value} (ha : a.isNumeric = true) (h : a.isNaN = true ∨ b.isNaN = true) :
    a.equals b = false := by
  rw [Bool.eq_false_iff, ne_eq, equals_iff, ha]
  rintro (⟨p, hp, hq⟩ | ⟨hnum, -⟩)
  · rcases h with h | h
    · rw [number?_eq_none_of_isNaN h] at hp
      cases hp
    · rw [number?_eq_none_of_isNaN h] at hq
      cases hq
  · cases hnum

theorem equals_of_not_numeric {a b : Value} (h : ¬(a.isNumeric = true ∧ b.isNumeric = true)) :
    a.equals b = true ↔ (a = nil ∧ b = nil) ∨ ∃ t, a = bool t ∧ b = bool t := by
  cases a with
  | nil => cases b <;> simp [equals]
  | bool s =>
    cases b with
    | bool t =>
      rw [equals, beq_iff_eq]
      constructor
      · rintro rfl
        exact Or.inr ⟨s, rfl, rfl⟩
      · rintro (⟨hs, -⟩ | ⟨u, hs, ht⟩)
        · cases hs
        · cases hs
          cases ht
          rfl
    | nil | int _ | float _ => simp [equals]
  | int m => cases b <;> simp_all [equals, isNumeric]
  | float x => cases b <;> simp_all [equals, isNumeric]

theorem order_of_pair {a b : Value} {pair : NumericPair} (h : NumericPair.ofValues? a b = some pair) :
    a.order b = pair.order := by
  rw [order, h]

theorem ofOrder_cmp (p q : ExactNumber) :
    ofOrder (some (cmp p q)) = int (.ofInt (if p < q then -1 else if p = q then 0 else 1)) := by
  rcases lt_trichotomy p q with hlt | rfl | hgt
  · rw [hlt.cmp_eq_lt, if_pos hlt]
    rfl
  · rw [cmp_self_eq_eq, if_neg (lt_irrefl p), if_pos rfl]
    rfl
  · rw [hgt.cmp_eq_gt, if_neg hgt.not_gt, if_neg hgt.ne']
    rfl

theorem ofOrder_eq_zero_iff {o : Option Ordering} : ofOrder o = int .zero ↔ o = some .eq := by
  rcases o with _ | _ | _ | _ <;> decide

theorem order_of_isNaN {a b : Value} (ha : a.isNumeric = true) (hb : b.isNumeric = true)
    (h : a.isNaN = true ∨ b.isNaN = true) : a.order b = none := by
  obtain ⟨pair, hpair⟩ := NumericPair.exists_ofValues? ha hb
  rw [order_of_pair hpair, NumericPair.order_eq_none hpair h]

theorem order_of_numbers {a b : Value} {p q : ExactNumber} (ha : a.number? = some p) (hb : b.number? = some q) :
    a.order b = some (cmp p q) := by
  obtain ⟨pair, hpair⟩ := NumericPair.exists_ofValues? (isNumeric_of_number? ha) (isNumeric_of_number? hb)
  rw [order_of_pair hpair, NumericPair.order_eq_cmp hpair ha hb]

theorem order_eq_map₂ {a b : Value} (ha : a.isNumeric = true) (hb : b.isNumeric = true) :
    a.order b = Option.map₂ cmp a.number? b.number? := by
  cases hp : a.number? with
  | none => exact order_of_isNaN ha hb (Or.inl (isNaN_of_number? ha hp))
  | some p =>
    cases hq : b.number? with
    | none => exact order_of_isNaN ha hb (Or.inr (isNaN_of_number? hb hq))
    | some q => exact order_of_numbers hp hq

theorem order_of_not_numeric {a b : Value} (h : ¬(a.isNumeric = true ∧ b.isNumeric = true)) :
    a.order b = if a.equals b then some .eq else none := by
  rw [order, NumericPair.ofValues?_eq_none h]

theorem order_eq_eq_iff {a b : Value} : a.order b = some .eq ↔ a.equals b = true := by
  by_cases hnum : a.isNumeric = true ∧ b.isNumeric = true
  · by_cases hnan : a.isNaN = true ∨ b.isNaN = true
    · simp [order_of_isNaN hnum.1 hnum.2 hnan, equals_of_isNaN hnum.1 hnan]
    · rw [not_or, Bool.not_eq_true, Bool.not_eq_true] at hnan
      obtain ⟨p, hp⟩ := number?_of_not_isNaN hnum.1 hnan.1
      obtain ⟨q, hq⟩ := number?_of_not_isNaN hnum.2 hnan.2
      rw [order_of_numbers hp hq, equals_of_numbers hp hq, Option.some.injEq, cmp_eq_eq_iff, decide_eq_true_iff]
  · rw [order_of_not_numeric hnum]
    cases a.equals b <;> simp

end Value

/-! ### The seven operators -/

namespace BinaryOp

theorem eval_relation {a b : Value} {pair : NumericPair} (h : NumericPair.ofValues? a b = some pair)
    (r : RelationOp) : (relation r).eval a b = .ok (.bool (r.onPair pair)) := by
  rw [eval]
  simp only [h]

theorem eval_lt_of_numeric {a b : Value} (ha : a.isNumeric = true) (hb : b.isNumeric = true) :
    (relation .lt).eval a b = .ok (.bool (a.order b == some .lt)) := by
  obtain ⟨pair, hpair⟩ := NumericPair.exists_ofValues? ha hb
  rw [eval_relation hpair, Value.order_of_pair hpair]
  cases pair with
  | ints m n =>
    have hlt : (compare m.toInt n.toInt = .lt) ↔ m.toInt < n.toInt := Int.compare_eq_lt
    have hbool : RelationOp.lt.onWords m n = (some (compare m.toInt n.toInt) == some .lt) := by
      rw [Bool.eq_iff_iff, beq_iff_eq, Option.some.injEq, hlt, RelationOp.onWords, decide_eq_true_iff]
    exact congrArg (Except.ok ∘ Value.bool) hbool
  | floats x y =>
    show Except.ok (Value.bool (RelationOp.lt.onDoubles x y)) = Except.ok (Value.bool (x.order y == some .lt))
    unfold RelationOp.onDoubles
    rcases x.order y with _ | _ | _ | _ <;> rfl

/-- The relations, equality and the three-way comparison agree with the order of the exact numbers. Beside a NaN there
    is no order; values that are not both numbers are equal only if they are the same, and have no order otherwise. -/
theorem comparison_agrees_with_numbers (a b : Value) :
    (∀ p q, a.number? = some p → b.number? = some q →
      (∀ r, (relation r).eval a b = .ok (.bool (r.holds p q))) ∧
      eq.eval a b = .ok (.bool (decide (p = q))) ∧
      notEq.eval a b = .ok (.bool (decide (p ≠ q))) ∧
      cmp.eval a b = .ok (.int (.ofInt (if p < q then -1 else if p = q then 0 else 1)))) ∧
    (a.isNumeric = true → b.isNumeric = true → a.isNaN = true ∨ b.isNaN = true →
      (∀ r, (relation r).eval a b = .ok (.bool false)) ∧
      eq.eval a b = .ok (.bool false) ∧
      notEq.eval a b = .ok (.bool true) ∧
      cmp.eval a b = .ok .nil) ∧
    (¬(a.isNumeric = true ∧ b.isNumeric = true) →
      ∃ same : Bool, (same = true ↔ (a = .nil ∧ b = .nil) ∨ ∃ t, a = .bool t ∧ b = .bool t) ∧
        eq.eval a b = .ok (.bool same) ∧
        notEq.eval a b = .ok (.bool !same) ∧
        cmp.eval a b = .ok (if same then .int .zero else .nil)) ∧
    (cmp.eval a b = .ok (.int .zero) ↔ eq.eval a b = .ok (.bool true)) := by
  refine ⟨fun p q ha hb => ?_, fun ha hb hnan => ?_, fun hnum => ?_, ?_⟩
  · obtain ⟨pair, hpair⟩ :=
      NumericPair.exists_ofValues? (Value.isNumeric_of_number? ha) (Value.isNumeric_of_number? hb)
    refine ⟨fun r => ?_, ?_, ?_, ?_⟩
    · rw [eval_relation hpair, RelationOp.onPair_eq_holds hpair ha hb]
    · rw [eval, Value.equals_of_numbers ha hb]
    · rw [eval, Value.equals_of_numbers ha hb, decide_not]
    · rw [eval, Value.order_of_numbers ha hb, Value.ofOrder_cmp]
  · obtain ⟨pair, hpair⟩ := NumericPair.exists_ofValues? ha hb
    refine ⟨fun r => ?_, ?_, ?_, ?_⟩
    · rw [eval_relation hpair, RelationOp.onPair_eq_false (NumericPair.order_eq_none hpair hnan)]
    · rw [eval, Value.equals_of_isNaN ha hnan]
    · rw [eval, Value.equals_of_isNaN ha hnan]
      rfl
    · rw [eval, Value.order_of_isNaN ha hb hnan]
      rfl
  · refine ⟨a.equals b, Value.equals_of_not_numeric hnum, rfl, rfl, ?_⟩
    rw [eval, Value.order_of_not_numeric hnum]
    cases a.equals b <;> rfl
  · rw [eval, eval, Except.ok.injEq, Except.ok.injEq, Value.bool.injEq, Value.ofOrder_eq_zero_iff,
      Value.order_eq_eq_iff]

end BinaryOp

end ScalarOps
