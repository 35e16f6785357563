import ScalarOps.Expression
import ScalarOps.Proofs.Shift

/-! An integer expression combines words by the operators that lose nothing but high bits. Each takes the words of two
    integers to the word of the exact result, so bits dropped on the way never reach the low 32 bits of the end. -/

namespace ScalarOps

/-! ### The operators that are exact modulo 2^32 -/

/-- The unary operators that lose nothing but high bits. -/
inductive ModularUnary
  | plus | neg | bitNot

/-- The binary operators that lose nothing but high bits. -/
inductive ModularBinary
  | add | sub | mul

/-- The operators with a count that lose nothing but high bits. -/
inductive ModularCounted
  | pow | shiftLeft

/-- A word that is not negative. -/
structure Count where
  word : Word
  nonneg : 0 ≤ word.toInt

/-- The number of times. -/
def Count.toNat (n : Count) : Nat := n.word.toInt.toNat

namespace ModularUnary

/-- The operator of the language. -/
def operator : ModularUnary → UnaryOp
  | plus => .plus
  | neg => .neg
  | bitNot => .bitNot

/-- The exact operation. -/
def onIntegers : ModularUnary → Int → Int
  | plus, a => a
  | neg, a => -a
  | bitNot, a => -a - 1

theorem eval_ofInt (op : ModularUnary) (a : Int) :
    op.operator.eval (.int (.ofInt a)) = .ok (.int (.ofInt (op.onIntegers a))) := by
  cases op with
  | plus => rfl
  | neg => rw [onIntegers, Word.ofInt_neg]; rfl
  | bitNot => rw [onIntegers, Word.ofInt_complement]; rfl

end ModularUnary

namespace ModularBinary

/-- The operator of the language. -/
def operator : ModularBinary → BinaryOp
  | add => .arith .add
  | sub => .arith .sub
  | mul => .arith .mul

/-- The exact operation. -/
def onIntegers : ModularBinary → Int → Int → Int
  | add, a, b => a + b
  | sub, a, b => a - b
  | mul, a, b => a * b

theorem eval_ofInt (op : ModularBinary) (a b : Int) :
    op.operator.eval (.int (.ofInt a)) (.int (.ofInt b)) = .ok (.int (.ofInt (op.onIntegers a b))) := by
  cases op with
  | add => rw [onIntegers, Word.ofInt_add]; rfl
  | sub => rw [onIntegers, Word.ofInt_sub]; rfl
  | mul => rw [onIntegers, Word.ofInt_mul]; rfl

end ModularBinary

namespace ModularCounted

/-- The operator of the language. -/
def operator : ModularCounted → BinaryOp
  | pow => .arith .pow
  | shiftLeft => .bit .shiftLeft

/-- The exact operation. -/
def onIntegers : ModularCounted → Int → Nat → Int
  | pow, a, n => a ^ n
  | shiftLeft, a, n => a * 2 ^ n

theorem power_count (x : Word) (n : Count) : x.power n.word = .int (x.pow n.toNat) := by
  rw [Word.power, if_neg (Int.not_lt.mpr n.nonneg)]
  rfl

theorem shiftLeft_count (x : Word) (n : Count) : x.shiftLeft n.word = x.shiftLeftBy n.toNat :=
  Word.shiftLeft_of_nonneg n.nonneg

theorem eval_ofInt (op : ModularCounted) (a : Int) (n : Count) :
    op.operator.eval (.int (.ofInt a)) (.int n.word) = .ok (.int (.ofInt (op.onIntegers a n.toNat))) := by
  cases op with
  | pow =>
    rw [onIntegers, Word.ofInt_pow, ← power_count]
    rfl
  | shiftLeft =>
    rw [onIntegers, Word.ofInt_shiftLeftBy, ← shiftLeft_count]
    rfl

end ModularCounted

/-! ### Trees of them -/

/-- Expressions over words and these operators. -/
inductive IntegerTree
  | word (n : Word)
  | unary (op : ModularUnary) (e : IntegerTree)
  | binary (op : ModularBinary) (l r : IntegerTree)
  | counted (op : ModularCounted) (e : IntegerTree) (n : Count)

namespace IntegerTree

/-- The value under the operators of the language, or the first failure of one. -/
def eval : IntegerTree → Except OperatorError Value
  | word n => .ok (.int n)
  | unary op e => do
    let v ← eval e
    op.operator.eval v
  | binary op l r => do
    let v ← eval l
    let w ← eval r
    op.operator.eval v w
  | counted op e n => do
    let v ← eval e
    op.operator.eval v (.int n.word)

/-- The same tree as an expression of the language. -/
def toExpr {τ ε : Type} : IntegerTree → Expr τ ε
  | word n => .lit (.int n)
  | unary op e => .unary op.operator e.toExpr
  | binary op l r => .binary op.operator l.toExpr r.toExpr
  | counted op e n => .binary op.operator e.toExpr (.lit (.int n.word))

theorem eval_toExpr {τ ε : Type} (e : IntegerTree) : (e.toExpr : Expr τ ε).eval = Run.lift .operator e.eval := by
  induction e with
  | word n =>
    rw [toExpr, Expr.eval]
    rfl
  | unary op e ih =>
    rw [toExpr, Expr.eval, ih, eval]
    cases e.eval <;> rfl
  | binary op l r ihl ihr =>
    rw [toExpr, Expr.eval, ihl, ihr, eval]
    cases op <;> cases l.eval <;> cases r.eval <;> rfl
  | counted op e n ih =>
    rw [toExpr, Expr.eval, ih, Expr.eval, eval]
    cases op <;> cases e.eval <;> rfl

/-- The value in the integers, where nothing wraps. -/
def exactValue : IntegerTree → Int
  | word n => n.toInt
  | unary op e => op.onIntegers e.exactValue
  | binary op l r => op.onIntegers l.exactValue r.exactValue
  | counted op e n => op.onIntegers e.exactValue n.toNat

theorem eval_eq_ofInt (e : IntegerTree) : e.eval = .ok (.int (.ofInt e.exactValue)) := by
  induction e with
  | word n => rw [eval, exactValue, Word.ofInt_toInt]
  | unary op e ih =>
    rw [eval, ih]
    exact op.eval_ofInt e.exactValue
  | binary op l r ihl ihr =>
    rw [eval, ihl, ihr]
    exact op.eval_ofInt l.exactValue r.exactValue
  | counted op e n ih =>
    rw [eval, ih]
    exact op.eval_ofInt e.exactValue n

/-- An integer expression of any depth has a value, and it is the integer between `-2^31` and `2^31 - 1` that
    agrees with its exact value modulo `2^32`. -/
theorem eval_eq_wrap_exact (e : IntegerTree) : ∃ w : Word, e.eval = .ok (.int w) ∧ w.toInt = Word.wrap e.exactValue :=
  ⟨.ofInt e.exactValue, eval_eq_ofInt e, Word.toInt_ofInt e.exactValue⟩

end IntegerTree
end ScalarOps
