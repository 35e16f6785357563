import ScalarOps.Proofs.Binary64.Power
import ScalarOps.Proofs.Difference
import ScalarOps.Proofs.Equality
import ScalarOps.Proofs.Shift

/-! A word is negated modulo `2^32` and a double by its sign, while a difference from 0 and a product with -1 go
    through the pair of operands and rounding. All three give the exact negative, but for the least word. Negation
    turns the order of the exact numbers round, and comparison follows it. -/

namespace ScalarOps

/-! ### Exact numbers -/

namespace ExactNumber

/-- The number on the other side of zero; an infinity goes to the other one. -/
def neg : ExactNumber → ExactNumber
  | ⊥ => ⊤
  | ⊤ => ⊥
  | ((q : ℚ) : WithTop ℚ) => ofRat (-q)

theorem neg_strictAnti : StrictAnti neg :=
  WithBot.strictAnti_iff.mpr ⟨WithTop.strictAnti_iff.mpr
    ⟨fun _ _ h => ofRat_strictMono (neg_lt_neg h), fun _ => bot_lt_ofRat _⟩,
      WithTop.forall.mpr ⟨bot_lt_end, fun _ => ofRat_lt_top _⟩⟩

end ExactNumber

/-! ### Words -/

namespace Word

theorem neg_neg (n : Word) : - -n = n := congrArg mk BitVec.neg_neg

theorem zero_sub (n : Word) : zero - n = -n := congrArg mk (BitVec.zero_sub n.bits)

theorem mul_minus_one (n : Word) : n * ofInt (-1) = -n := by
  rw [← ofInt_toInt n, ← ofInt_mul, mul_neg_one, ofInt_neg]

end Word

/-! ### Doubles -/

namespace Binary64

theorem neg_neg (x : Binary64) : - -x = x := by
  show x.neg.neg = x
  cases x <;> simp [neg]

theorem number?_neg (x : Binary64) : (-x).number? = x.number?.map ExactNumber.neg := by
  cases x with
  | nan _ => rfl
  | inf s => cases s <;> rfl
  | finite s m => exact congrArg (some ∘ ExactNumber.ofRat) (finiteValue_not s m)

/-- The double is its own rounded difference from 0, but for its sign. -/
theorem number?_zero_sub (x : Binary64) : (zero - x).number? = x.number?.map ExactNumber.neg := by
  cases x with
  | nan _ => rfl
  | inf s => cases s <;> rfl
  | finite s m =>
    have hzero : finiteValue false .zero = 0 := finiteValue_eq_zero_iff.mpr rfl
    have hrounds := roundsTo_sub false s .zero m
    rw [hzero, zero_sub] at hrounds
    exact hrounds.number?_eq (by rw [abs_neg, abs_finiteValue])

theorem ofWord_minus_one : ofWord (.ofInt (-1)) = finite true .one := by decide +kernel

theorem number?_mul_minus_one (x : Binary64) :
    (x * ofWord (.ofInt (-1))).number? = x.number?.map ExactNumber.neg := by
  rw [ofWord_minus_one]
  cases x with
  | nan _ => rfl
  | inf s => cases s <;> rfl
  | finite s m =>
    have hone : finiteValue true .one = -1 := by
      rw [finiteValue_eq_codeValue, if_pos rfl, codeValue_code_one]
    have hrounds := roundsTo_mul s true m .one
    rw [hone, mul_neg_one] at hrounds
    exact hrounds.number?_eq (by rw [abs_neg, abs_finiteValue])

end Binary64

/-! ### Values -/

namespace Value

open Binary64

variable {a b v w : Value}

theorem order_of_negatives (ha : a.isNumeric = true) (hb : b.isNumeric = true) (hv : v.isNumeric = true)
    (hw : w.isNumeric = true) (hneg : v.number? = a.number?.map ExactNumber.neg)
    (hneg' : w.number? = b.number?.map ExactNumber.neg) : v.order w = b.order a := by
  rw [order_eq_map₂ hv hw, order_eq_map₂ hb ha, hneg, hneg']
  cases a.number? with
  | none => cases b.number? <;> rfl
  | some p =>
    cases b.number? with
    | none => rfl
    | some q => exact congrArg some (ExactNumber.neg_strictAnti.cmp_map_eq p q)

theorem number?_neg_of_ne_least {n : Word} (hn : n ≠ .least) :
    (int (-n)).number? = (int n).number?.map ExactNumber.neg := by
  have hcast : (((-n).toInt : Int) : ℚ) = -n.toInt := by
    rw [Word.toInt_neg_of_ne_least hn, Int.cast_neg]
  exact congrArg (some ∘ ExactNumber.ofRat) hcast

/-- Every number has a negation, which is a number and is negated to the first one again. Unless it is the least word, it
    stands for the negative number. -/
theorem exists_negation (hnum : v.isNumeric = true) :
    ∃ n, UnaryOp.neg.eval v = .ok n ∧ UnaryOp.neg.eval n = .ok v ∧ n.isNumeric = true ∧
      (v ≠ int .least → n.number? = v.number?.map ExactNumber.neg) := by
  cases v with
  | nil | bool _ => cases hnum
  | int n =>
    refine ⟨int (-n), rfl, congrArg (Except.ok ∘ int) n.neg_neg, rfl, fun hne => ?_⟩
    exact number?_neg_of_ne_least fun hn => hne (congrArg int hn)
  | float x => exact ⟨float (-x), rfl, congrArg (Except.ok ∘ float) x.neg_neg, rfl, fun _ => x.number?_neg⟩

theorem exists_equal_negations (hnum : v.isNumeric = true) (hnan : v.isNaN = false) {n : Value}
    (hn : UnaryOp.neg.eval v = .ok n) :
    ∃ d p, (BinaryOp.arith .sub).eval (int .zero) v = .ok d ∧
      (BinaryOp.arith .mul).eval v (int (.ofInt (-1))) = .ok p ∧
      n.equals d = true ∧ n.equals p = true ∧ d.equals p = true := by
  cases v with
  | nil | bool _ => cases hnum
  | int m =>
    -- The three words are the same, so this case has room for the least word.
    obtain rfl := Except.ok.inj hn
    have hself : (int (-m)).equals (int (-m)) = true := equals_self_iff.mpr rfl
    exact ⟨int (-m), int (-m), congrArg (Except.ok ∘ int) m.zero_sub, congrArg (Except.ok ∘ int) m.mul_minus_one,
      hself, hself, hself⟩
  | float x =>
    obtain rfl := Except.ok.inj hn
    obtain ⟨p, hp⟩ := number?_of_not_isNaN hnum hnan
    have hneg : ∀ {y : Binary64}, y.number? = x.number?.map ExactNumber.neg →
        (float y).number? = some (ExactNumber.neg p) := fun hy => hy.trans (congrArg (Option.map _) hp)
    have hn := hneg x.number?_neg
    have hd := hneg x.number?_zero_sub
    have hm := hneg x.number?_mul_minus_one
    refine ⟨_, _, BinaryOp.eval_arith_floats .sub rfl rfl (Or.inr rfl), BinaryOp.eval_arith_floats .mul rfl rfl (Or.inl rfl),
      ?_, ?_, ?_⟩
    · exact equals_iff.mpr (Or.inl ⟨_, hn, ofWord_zero ▸ hd⟩)
    · exact equals_iff.mpr (Or.inl ⟨_, hn, hm⟩)
    · exact equals_iff.mpr (Or.inl ⟨_, ofWord_zero ▸ hd, hm⟩)

end Value

/-! ### The operators -/

namespace UnaryOp

open Binary64

/-- A number negated twice is the same, a double with all of its 64 bits. The negation of a number, its difference
    from 0 and its product with -1 are equal, and the negatives of two numbers are in the opposite order. -/
theorem negation_agrees_with_operators :
    (∀ v : Value, v.isNumeric = true → ∃ n, neg.eval v = .ok n ∧ neg.eval n = .ok v ∧
      (v.isNaN = false → ∃ d p, (BinaryOp.arith .sub).eval (.int .zero) v = .ok d ∧
        (BinaryOp.arith .mul).eval v (.int (.ofInt (-1))) = .ok p ∧
        n.equals d = true ∧ n.equals p = true ∧ d.equals p = true)) ∧
    (∀ bits : BitVec 64, ∃ x y, neg.eval (.float (.ofBits bits)) = .ok (.float x) ∧
      neg.eval (.float x) = .ok (.float y) ∧ y.toBits = bits) ∧
    (∀ a b : Value, a.isNumeric = true → b.isNumeric = true → a ≠ .int .least → b ≠ .int .least →
      ∃ m n, neg.eval a = .ok m ∧ neg.eval b = .ok n ∧
        (∃ below, (BinaryOp.relation .lt).eval a b = .ok (.bool below) ∧
          (BinaryOp.relation .lt).eval n m = .ok (.bool below)) ∧
        ∃ v, BinaryOp.cmp.eval m n = .ok v ∧ BinaryOp.cmp.eval b a = .ok v) := by
  refine ⟨fun v hnum => ?_, fun bits => ?_, fun a b ha hb hane hbne => ?_⟩
  · obtain ⟨n, hn, hback, -, -⟩ := Value.exists_negation hnum
    exact ⟨n, hn, hback, fun hnan => Value.exists_equal_negations hnum hnan hn⟩
  · refine ⟨_, _, rfl, rfl, ?_⟩
    rw [Binary64.neg_neg, toBits_ofBits]
  · obtain ⟨m, hm, -, hmnum, hmneg⟩ := Value.exists_negation ha
    obtain ⟨n, hn, -, hnnum, hnneg⟩ := Value.exists_negation hb
    have hmn := Value.order_of_negatives ha hb hmnum hnnum (hmneg hane) (hnneg hbne)
    have hnm := Value.order_of_negatives hb ha hnnum hmnum (hnneg hbne) (hmneg hane)
    refine ⟨m, n, hm, hn, ⟨_, BinaryOp.eval_lt_of_numeric ha hb, ?_⟩, _, rfl, ?_⟩
    · rw [BinaryOp.eval_lt_of_numeric hnnum hmnum, hnm]
    · rw [BinaryOp.eval, hmn]

/-- The least word, which is its own negation; the negative zero, with its bits; and a word beside an infinity. -/
theorem negation_of_ends_agrees :
    (∃ n d p, neg.eval (.int .least) = .ok n ∧ neg.eval n = .ok (.int .least) ∧
      (BinaryOp.arith .sub).eval (.int .zero) (.int .least) = .ok d ∧
      (BinaryOp.arith .mul).eval (.int .least) (.int (.ofInt (-1))) = .ok p ∧
      n.equals d = true ∧ n.equals p = true ∧ d.equals p = true) ∧
    (∃ x y, neg.eval (.float (.ofBits 0x8000000000000000#64)) = .ok (.float x) ∧
      neg.eval (.float x) = .ok (.float y) ∧ y.toBits = 0x8000000000000000#64) ∧
    ∃ m n, neg.eval (.float (inf true)) = .ok m ∧ neg.eval (.int .greatest) = .ok n ∧
      (∃ below, (BinaryOp.relation .lt).eval (.float (inf true)) (.int .greatest) = .ok (.bool below) ∧
        (BinaryOp.relation .lt).eval n m = .ok (.bool below)) ∧
      ∃ v, BinaryOp.cmp.eval m n = .ok v ∧ BinaryOp.cmp.eval (.int .greatest) (.float (inf true)) = .ok v := by
  obtain ⟨hnegation, hbits, horder⟩ := negation_agrees_with_operators
  obtain ⟨n, hn, hback, hequal⟩ := hnegation (.int .least) rfl
  obtain ⟨d, p, hd, hp, hequals⟩ := hequal rfl
  refine ⟨⟨n, d, p, hn, hback, hd, hp, hequals⟩, hbits _, ?_⟩
  exact horder (.float (inf true)) (.int .greatest) rfl rfl (by decide) (by decide)

end UnaryOp
end ScalarOps
