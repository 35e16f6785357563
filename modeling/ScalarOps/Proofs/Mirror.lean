import ScalarOps.Proofs.Equality

/-! Operands in the other order make their pair swapped (`NumericPair.ofValues?_swap`). Sums and products of the two
    pairs are the same, and a relation holds of one as its mirror image does of the other. Where there is no pair,
    both orders fail with a type error, though on different operands. -/

namespace ScalarOps

/-! ### Words and doubles -/

namespace Word

theorem add_comm (x y : Word) : x + y = y + x := congrArg mk (BitVec.add_comm x.bits y.bits)

theorem mul_comm (x y : Word) : x * y = y * x := congrArg mk (BitVec.mul_comm x.bits y.bits)

theorem and_comm (x y : Word) : x &&& y = y &&& x := congrArg mk (BitVec.and_comm x.bits y.bits)

theorem or_comm (x y : Word) : x ||| y = y ||| x := congrArg mk (BitVec.or_comm x.bits y.bits)

theorem xor_comm (x y : Word) : x ^^^ y = y ^^^ x := congrArg mk (BitVec.xor_comm x.bits y.bits)

end Word

namespace Binary64

theorem add_comm (x y : Binary64) : x + y = y + x := by
  show x.add y = y.add x
  cases x with
  | nan _ => cases y <;> rfl
  | inf s =>
    cases y with
    | nan _ | finite _ _ => rfl
    | inf t => cases s <;> cases t <;> rfl
  | finite s a =>
    cases y with
    | nan _ | inf _ => rfl
    | finite t b =>
      have hsum := Int.add_comm (signed s a.quanta) (signed t b.quanta)
      rw [add, add, hsum, Bool.and_comm]

theorem mul_comm (x y : Binary64) : x * y = y * x := by
  show x.mul y = y.mul x
  cases x with
  | nan _ => cases y <;> rfl
  | inf s =>
    cases y with
    | nan _ => rfl
    | inf t => rw [mul, mul, bne_comm]
    | finite t b => rw [mul, mul, bne_comm]
  | finite s a =>
    cases y with
    | nan _ => rfl
    | inf t => rw [mul, mul, bne_comm]
    | finite t b => rw [mul, mul, bne_comm, Nat.mul_comm]

theorem order_swap (x y : Binary64) : y.order x = (x.order y).map Ordering.swap := by
  cases x with
  | nan _ => cases y <;> rfl
  | inf s =>
    cases y with
    | nan _ => rfl
    | inf t => cases s <;> cases t <;> rfl
    | finite t b => cases s <;> rfl
  | finite s a =>
    cases y with
    | nan _ => rfl
    | inf t => cases t <;> rfl
    | finite t b => exact congrArg some (Int.compare_swap _ _).symm

end Binary64

/-! ### Pairs -/

namespace NumericPair

/-- The pair in the other order. -/
def swap : NumericPair → NumericPair
  | ints a b => ints b a
  | floats x y => floats y x

theorem ofValues?_swap (a b : Value) : ofValues? b a = (ofValues? a b).map swap := by
  cases a <;> cases b <;> rfl

theorem order_swap (pair : NumericPair) : pair.swap.order = pair.order.map Ordering.swap := by
  cases pair with
  | ints a b => exact congrArg some (Int.compare_swap _ _).symm
  | floats x y => exact x.order_swap y

end NumericPair

theorem ArithOp.onPair_swap {op : ArithOp} (h : op = add ∨ op = mul) (pair : NumericPair) :
    op.onPair pair.swap = op.onPair pair := by
  cases pair with
  | ints a b =>
    rcases h with rfl | rfl
    · exact congrArg (Except.ok ∘ Value.int) (b.add_comm a)
    · exact congrArg (Except.ok ∘ Value.int) (b.mul_comm a)
  | floats x y =>
    rcases h with rfl | rfl
    · exact congrArg (Except.ok ∘ Value.float) (y.add_comm x)
    · exact congrArg (Except.ok ∘ Value.float) (y.mul_comm x)

theorem ArithOp.exists_onPair {op : ArithOp} (h : op = add ∨ op = mul) (pair : NumericPair) :
    ∃ v, op.onPair pair = .ok v := by
  cases pair <;> rcases h with rfl | rfl <;> exact ⟨_, rfl⟩

namespace RelationOp

/-- The relation that holds between two numbers in the other order. -/
def mirror : RelationOp → RelationOp
  | lt => gt
  | le => ge
  | gt => lt
  | ge => le

theorem onPair_mirror (op : RelationOp) (pair : NumericPair) : op.mirror.onPair pair.swap = op.onPair pair := by
  cases pair with
  | ints a b => cases op <;> rfl
  | floats x y =>
    show op.mirror.onDoubles y x = op.onDoubles x y
    unfold onDoubles
    rw [x.order_swap y]
    cases op <;> rcases x.order y with _ | _ | _ | _ <;> rfl

end RelationOp

/-! ### Values -/

namespace Value

variable {a b : Value}

theorem order_swap (a b : Value) : b.order a = (a.order b).map Ordering.swap := by
  unfold order
  rw [NumericPair.ofValues?_swap a b]
  cases NumericPair.ofValues? a b with
  | some pair => exact pair.order_swap
  | none =>
    rw [equals_comm b a]
    cases a.equals b <;> rfl

theorem ofOrder_swap (o : Option Ordering) :
    (ofOrder o = nil ∧ ofOrder (o.map Ordering.swap) = nil) ∨
      ∃ m n, ofOrder o = int m ∧ ofOrder (o.map Ordering.swap) = int n ∧ n.toInt = -m.toInt := by
  rcases o with _ | _ | _ | _
  · exact Or.inl ⟨rfl, rfl⟩
  all_goals exact Or.inr ⟨_, _, rfl, rfl, by decide⟩

end Value

namespace BinaryOp

variable {a b : Value}

/-- An operator on numbers agrees with another one on the operands in the other order if it does on every pair. -/
theorem agree_of_pairs {op op' : BinaryOp} (hop : (∃ a, op = arith a) ∨ ∃ c, op = relation c)
    (hop' : (∃ a, op' = arith a) ∨ ∃ c, op' = relation c)
    (h : ∀ pair, NumericPair.ofValues? a b = some pair → NumericPair.ofValues? b a = some pair.swap →
      ∃ v, op.eval a b = .ok v ∧ op'.eval b a = .ok v) :
    Agree (op.eval a b) (op'.eval b a) := by
  by_cases hnum : a.isNumeric = true ∧ b.isNumeric = true
  · obtain ⟨pair, hpair⟩ := NumericPair.exists_ofValues? hnum.1 hnum.2
    exact Or.inl (h pair hpair (by rw [NumericPair.ofValues?_swap, hpair]; rfl))
  · exact agree_of_not_numeric hop hop' hnum fun hnum' => hnum hnum'.symm

theorem eval_arith {pair : NumericPair} (h : NumericPair.ofValues? a b = some pair) (op : ArithOp) :
    (arith op).eval a b = op.onPair pair := by
  rw [eval]
  simp only [h]

theorem eval_arith_swap {op : ArithOp} (h : op = .add ∨ op = .mul) (a b : Value) :
    Agree ((arith op).eval a b) ((arith op).eval b a) := by
  refine agree_of_pairs (Or.inl ⟨op, rfl⟩) (Or.inl ⟨op, rfl⟩) fun pair hpair hswap => ?_
  obtain ⟨v, hv⟩ := ArithOp.exists_onPair h pair
  exact ⟨v, by rw [eval_arith hpair, hv], by rw [eval_arith hswap, ArithOp.onPair_swap h, hv]⟩

theorem eval_relation_mirror (op : RelationOp) (a b : Value) :
    Agree ((relation op).eval a b) ((relation op.mirror).eval b a) := by
  refine agree_of_pairs (Or.inr ⟨op, rfl⟩) (Or.inr ⟨op.mirror, rfl⟩) fun pair hpair hswap => ?_
  exact ⟨_, eval_relation hpair op, by rw [eval_relation hswap, RelationOp.onPair_mirror]⟩

theorem exists_eval_bit_error (op : BitOp) (h : ¬((∃ m, a = .int m) ∧ ∃ n, b = .int n)) :
    ∃ e, (bit op).eval a b = .error e ∧ e.errorClass = .typeError := by
  by_cases ha : ∃ m, a = .int m
  · obtain ⟨m, rfl⟩ := ha
    exact ⟨_, eval_bit_of_right op m fun n hn => h ⟨⟨m, rfl⟩, n, hn⟩, rfl⟩
  · exact ⟨_, eval_bit_of_left op b (not_exists.mp ha), rfl⟩

theorem eval_bit_swap (op : BitOp) (h : ∀ m n, op.onWords m n = op.onWords n m) (a b : Value) :
    Agree ((bit op).eval a b) ((bit op).eval b a) := by
  by_cases hints : (∃ m, a = .int m) ∧ ∃ n, b = .int n
  · obtain ⟨⟨m, rfl⟩, n, rfl⟩ := hints
    exact Or.inl ⟨_, rfl, by rw [h m n]; rfl⟩
  · obtain ⟨e, he, hclass⟩ := exists_eval_bit_error op hints
    obtain ⟨e', he', hclass'⟩ := exists_eval_bit_error op fun hints' => hints hints'.symm
    exact Or.inr ⟨e, e', he, he', hclass, hclass'⟩

/-! ### The mirror laws -/

/-- Whether the order of the operands does not matter. -/
def isSymmetric : BinaryOp → Bool
  | arith .add | arith .mul | bit .and | bit .or | bit .xor | eq | notEq => true
  | _ => false

theorem eval_swap {op : BinaryOp} (h : op.isSymmetric = true) (a b : Value) : Agree (op.eval a b) (op.eval b a) := by
  cases op with
  | arith op =>
    cases op with
    | add => exact eval_arith_swap (Or.inl rfl) a b
    | mul => exact eval_arith_swap (Or.inr rfl) a b
    | sub | div | mod | pow => cases h
  | bit op =>
    cases op with
    | and => exact eval_bit_swap .and Word.and_comm a b
    | or => exact eval_bit_swap .or Word.or_comm a b
    | xor => exact eval_bit_swap .xor Word.xor_comm a b
    | shiftLeft | shiftRight => cases h
  | eq => exact Or.inl ⟨_, rfl, by rw [eval, Value.equals_comm]⟩
  | notEq => exact Or.inl ⟨_, rfl, by rw [eval, Value.equals_comm]⟩
  | relation _ | cmp | connective _ => cases h

/-- With the operands in the other order, the symmetric operators give the same value, a relation gives what its
    mirror image did, and the three-way comparison the negative; or both orders fail with a type error. -/
theorem mirror_laws (a b : Value) :
    (∀ op : BinaryOp, op.isSymmetric = true → Agree (op.eval a b) (op.eval b a)) ∧
    Agree ((relation .lt).eval a b) ((relation .gt).eval b a) ∧
    Agree ((relation .le).eval a b) ((relation .ge).eval b a) ∧
    ((cmp.eval a b = .ok .nil ∧ cmp.eval b a = .ok .nil) ∨
      ∃ m n, cmp.eval a b = .ok (.int m) ∧ cmp.eval b a = .ok (.int n) ∧ n.toInt = -m.toInt) := by
  refine ⟨fun op h => eval_swap h a b, eval_relation_mirror .lt a b, eval_relation_mirror .le a b, ?_⟩
  rw [eval, eval, Value.order_swap a b]
  rcases Value.ofOrder_swap (a.order b) with ⟨h, h'⟩ | ⟨m, n, h, h', hneg⟩
  · exact Or.inl ⟨congrArg _ h, congrArg _ h'⟩
  · exact Or.inr ⟨m, n, congrArg _ h, congrArg _ h', hneg⟩

/-- A sum with nil is not defined on nil and does not coerce it on the right; both are type errors. -/
theorem add_nil_mirrored : (arith .add).isSymmetric = true ∧
    Agree ((arith .add).eval .nil (.int .one)) ((arith .add).eval (.int .one) .nil) :=
  ⟨rfl, (mirror_laws .nil (.int .one)).1 (arith .add) rfl⟩

end BinaryOp
end ScalarOps
