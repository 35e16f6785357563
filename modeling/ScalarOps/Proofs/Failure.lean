import ScalarOps.Evaluation
import ScalarOps.Proofs.Comparison

/-! When operators fail, and why. The lemmas follow the families of operators, and the last theorem puts them
    together. -/

namespace ScalarOps

/-! ### Division by zero -/

theorem Word.floorDiv?_eq_none_iff {a b : Word} : a.floorDiv? b = none ↔ b = zero := by
  rw [← Word.isZero_iff]
  cases h : b.isZero <;> simp [floorDiv?, h]

theorem Word.floorMod?_eq_none_iff {a b : Word} : a.floorMod? b = none ↔ b = zero := by
  rw [← Word.isZero_iff]
  cases h : b.isZero <;> simp [floorMod?, h]

theorem Value.ofQuotient_eq_error_iff {q : Option Word} {e : OperatorError} :
    ofQuotient q = .error e ↔ e = .dividedByZero ∧ q = none := by
  cases q <;> simp [ofQuotient, eq_comm]

theorem ArithOp.onWords_eq_error_iff {op : ArithOp} {a b : Word} {e : OperatorError} :
    op.onWords a b = .error e ↔ e = .dividedByZero ∧ (op = div ∨ op = mod) ∧ b = .zero := by
  cases op with
  | div => simp [onWords, Value.ofQuotient_eq_error_iff, Word.floorDiv?_eq_none_iff]
  | mod => simp [onWords, Value.ofQuotient_eq_error_iff, Word.floorMod?_eq_none_iff]
  | add | sub | mul | pow => simp [onWords]

/-! ### Operators on numbers -/

namespace BinaryOp

variable {op : BinaryOp} {l r : Value} {e : OperatorError}

/-- On values that are not both numbers, an operator on numbers fails. -/
theorem eval_eq_mismatch (hop : (∃ a, op = arith a) ∨ ∃ c, op = relation c)
    (h : ¬(l.isNumeric = true ∧ r.isNumeric = true)) : op.eval l r = .error (op.mismatch l r) := by
  have hnone := NumericPair.ofValues?_eq_none h
  rcases hop with ⟨a, rfl⟩ | ⟨c, rfl⟩
  · rw [eval]
    simp only [hnone]
  · rw [eval]
    simp only [hnone]

theorem mismatch_of_left (h : l.isNumeric = false) : op.mismatch l r = .undefinedBinary op l.className := by
  rw [mismatch, h]
  rfl

theorem mismatch_of_right (h : l.isNumeric = true) :
    op.mismatch l r = if op.isRelational then .notComparable l.className r.className
      else .notCoercible r.className l.className := by
  rw [mismatch, h]
  rfl

theorem errorClass_mismatch (op : BinaryOp) (l r : Value) : (op.mismatch l r).errorClass = .typeError := by
  unfold mismatch
  split
  · rfl
  · split <;> rfl

theorem eval_arith_eq_error_iff {a : ArithOp} (hl : l.isNumeric = true) (hr : r.isNumeric = true) :
    (arith a).eval l r = .error e ↔
      e = .dividedByZero ∧ (a = .div ∨ a = .mod) ∧ (∃ m, l = .int m) ∧ r = .int .zero := by
  cases l with
  | nil | bool _ => cases hl
  | int m =>
    cases r with
    | nil | bool _ => cases hr
    | int n =>
      have heval : (arith a).eval (.int m) (.int n) = a.onWords m n := rfl
      rw [heval, ArithOp.onWords_eq_error_iff]
      simp
    | float y =>
      have heval : (arith a).eval (.int m) (.float y) = .ok (.float (a.onDoubles (.ofWord m) y)) := rfl
      simp [heval]
  | float x =>
    obtain ⟨y, heval⟩ : ∃ y, (arith a).eval (.float x) r = .ok (.float y) := by
      cases r with
      | nil | bool _ => cases hr
      | int _ | float _ => exact ⟨_, rfl⟩
    simp [heval]

theorem exists_eval_relation (c : RelationOp) (hl : l.isNumeric = true) (hr : r.isNumeric = true) :
    ∃ t, (relation c).eval l r = .ok (.bool t) := by
  obtain ⟨pair, hpair⟩ := NumericPair.exists_ofValues? hl hr
  exact ⟨_, eval_relation hpair c⟩

/-! ### Bit operators -/

theorem eval_bit_of_left (b : BitOp) (r : Value) (h : ∀ m, l ≠ .int m) :
    (bit b).eval l r = .error (.undefinedBinary (bit b) l.className) := by
  cases l with
  | int m => exact absurd rfl (h m)
  | nil | bool _ | float _ => rfl

theorem eval_bit_of_right (b : BitOp) (m : Word) (h : ∀ n, r ≠ .int n) :
    (bit b).eval (.int m) r = .error (.notCoercible r.className "Integer") := by
  cases r with
  | int n => exact absurd rfl (h n)
  | nil | bool _ | float _ => rfl

theorem eval_bit_eq_ok_iff {b : BitOp} {v : Value} :
    (bit b).eval l r = .ok v ↔ ∃ m n, l = .int m ∧ r = .int n ∧ v = .int (b.onWords m n) := by
  constructor
  · intro h
    by_cases hl : ∃ m, l = .int m
    · obtain ⟨m, rfl⟩ := hl
      by_cases hr : ∃ n, r = .int n
      · obtain ⟨n, rfl⟩ := hr
        exact ⟨m, n, rfl, rfl, (Except.ok.inj h).symm⟩
      · rw [eval_bit_of_right b m (not_exists.mp hr)] at h
        cases h
    · rw [eval_bit_of_left b r (not_exists.mp hl)] at h
      cases h
  · rintro ⟨m, n, rfl, rfl, rfl⟩
    rfl

/-- The bit operators are the ones that take no double, on either side of any value. -/
theorem isBitwise_iff : op.isBitwise = true ↔
    ∀ (x : Binary64) (v : Value), (∃ e, op.eval (.float x) v = .error e) ∧ ∃ e, op.eval v (.float x) = .error e := by
  constructor
  · intro hop x v
    cases op with
    | bit b =>
      refine ⟨⟨_, eval_bit_of_left b v fun m h => by cases h⟩, ?_⟩
      cases v with
      | int m => exact ⟨_, eval_bit_of_right b m fun n h => by cases h⟩
      | nil | bool _ | float _ => exact ⟨_, eval_bit_of_left b _ fun m h => by cases h⟩
    | arith _ | eq | notEq | relation _ | cmp | connective _ => cases hop
  · intro h
    obtain ⟨⟨e, he⟩, -⟩ := h .zero (.float .zero)
    cases op with
    | bit b => rfl
    | arith _ | eq | notEq | relation _ | cmp | connective _ => cases he

/-! ### Operators on all values -/

theorem exists_eval_total (hop : (∃ c, op = connective c) ∨ op = eq ∨ op = notEq ∨ op = cmp) (l r : Value) :
    ∃ v, op.eval l r = .ok v := by
  rcases hop with ⟨c, rfl⟩ | rfl | rfl | rfl <;> exact ⟨_, rfl⟩

end BinaryOp

/-! ### Unary operators -/

/-- A sign fails on what is not a number and a complement on what is not an integer; `!` never fails. -/
theorem UnaryOp.eval_eq_error_iff {op : UnaryOp} {v : Value} {e : OperatorError} :
    op.eval v = .error e ↔ e = .undefinedUnary op v.className ∧
      (((op = plus ∨ op = neg) ∧ v.isNumeric = false) ∨ (op = bitNot ∧ ∀ n, v ≠ .int n)) := by
  cases op <;> cases v <;> simp [eval, Value.isNumeric, eq_comm]

/-! ### All operators -/

/-- Which operators fail on which values, and why: each family is listed with every failure it has, and with the
    operands, the operator and the classes that the failure names. -/
theorem Operator.failures_exact :
    (∀ (op : BinaryOp) (l r : Value), (∃ c, op = .connective c) ∨ op = .eq ∨ op = .notEq ∨ op = .cmp →
      ∃ v, op.eval l r = .ok v) ∧
    (∀ (b : BitOp) (l r : Value),
      (∀ v, (BinaryOp.bit b).eval l r = .ok v ↔ ∃ m n, l = .int m ∧ r = .int n ∧ v = .int (b.onWords m n)) ∧
      ((∀ m, l ≠ .int m) → (BinaryOp.bit b).eval l r = .error (.undefinedBinary (.bit b) l.className)) ∧
      ((∃ m, l = .int m) → (∀ n, r ≠ .int n) →
        (BinaryOp.bit b).eval l r = .error (.notCoercible r.className "Integer"))) ∧
    (∀ (op : BinaryOp) (l r : Value), (∃ a, op = .arith a) ∨ (∃ c, op = .relation c) → l.isNumeric = false →
      op.eval l r = .error (.undefinedBinary op l.className)) ∧
    (∀ (c : RelationOp) (l r : Value), l.isNumeric = true →
      (r.isNumeric = false → (BinaryOp.relation c).eval l r = .error (.notComparable l.className r.className)) ∧
      (r.isNumeric = true → ∃ v, (BinaryOp.relation c).eval l r = .ok v)) ∧
    (∀ (a : ArithOp) (l r : Value), l.isNumeric = true →
      (r.isNumeric = false → (BinaryOp.arith a).eval l r = .error (.notCoercible r.className l.className)) ∧
      (r.isNumeric = true → ∀ e, (BinaryOp.arith a).eval l r = .error e ↔
        e = .dividedByZero ∧ (a = .div ∨ a = .mod) ∧ (∃ m, l = .int m) ∧ r = .int .zero)) ∧
    (∀ (op : UnaryOp) (v : Value) (e : OperatorError), op.eval v = .error e ↔
      e = .undefinedUnary op v.className ∧
        (((op = .plus ∨ op = .neg) ∧ v.isNumeric = false) ∨ (op = .bitNot ∧ ∀ n, v ≠ .int n))) := by
  refine ⟨fun op l r hop => BinaryOp.exists_eval_total hop l r, fun b l r => ⟨fun v => BinaryOp.eval_bit_eq_ok_iff,
    BinaryOp.eval_bit_of_left b r, ?_⟩, fun op l r hop hl => ?_, fun c l r hl => ⟨fun hr => ?_, fun hr => ?_⟩,
    fun a l r hl => ⟨fun hr => ?_, fun hr e => BinaryOp.eval_arith_eq_error_iff hl hr⟩,
    fun op v e => UnaryOp.eval_eq_error_iff⟩
  · rintro ⟨m, rfl⟩ hr
    exact BinaryOp.eval_bit_of_right b m hr
  · rw [BinaryOp.eval_eq_mismatch hop (by simp [hl]), BinaryOp.mismatch_of_left hl]
  · rw [BinaryOp.eval_eq_mismatch (Or.inr ⟨c, rfl⟩) (by simp [hr]), BinaryOp.mismatch_of_right hl]
    rfl
  · obtain ⟨t, ht⟩ := BinaryOp.exists_eval_relation c hl hr
    exact ⟨_, ht⟩
  · rw [BinaryOp.eval_eq_mismatch (Or.inl ⟨a, rfl⟩) (by simp [hr]), BinaryOp.mismatch_of_right hl]
    rfl

end ScalarOps
