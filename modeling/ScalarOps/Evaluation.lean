import ScalarOps.Binary64.Power
import ScalarOps.OperatorError
import ScalarOps.Value

/-! Operators on evaluated operands. The reasons why there is no value come in the same order in every family: a left
    operand on which the operator is not defined, then a right operand that does not fit the left one, then a zero
    divisor. -/

namespace ScalarOps

/-! ### Unary operators -/

/-- The value of a unary operator. `!` takes every value, the signs take numbers, `~` takes integers. -/
def UnaryOp.eval : UnaryOp → Value → Except OperatorError Value
  | .not, v => .ok (.bool !v.isTruthy)
  | .plus, .int n => .ok (.int n)
  | .plus, .float x => .ok (.float x)
  | .neg, .int n => .ok (.int (-n))
  | .neg, .float x => .ok (.float (-x))
  | .bitNot, .int n => .ok (.int (~~~n))
  | op, v => .error (.undefinedUnary op v.className)

/-! ### The families of binary operators -/

/-- A word as a value; no word means that the divisor was zero. -/
def Value.ofQuotient : Option Word → Except OperatorError Value
  | some n => .ok (.int n)
  | none => .error .dividedByZero

/-- The power of two integers: a word, or a double if the exponent is negative. -/
def Word.power (base exponent : Word) : Value :=
  if exponent.toInt < 0 then .float (.pow (.ofWord base) (.ofWord exponent))
  else .int (base.pow exponent.toInt.toNat)

/-- An arithmetic operator on integers. Quotient and remainder are rounded down. -/
def ArithOp.onWords : ArithOp → Word → Word → Except OperatorError Value
  | add, a, b => .ok (.int (a + b))
  | sub, a, b => .ok (.int (a - b))
  | mul, a, b => .ok (.int (a * b))
  | div, a, b => Value.ofQuotient (a.floorDiv? b)
  | mod, a, b => Value.ofQuotient (a.floorMod? b)
  | pow, a, b => .ok (a.power b)

/-- An arithmetic operator on doubles, which always has a value. -/
def ArithOp.onDoubles : ArithOp → Binary64 → Binary64 → Binary64
  | add, x, y => x + y
  | sub, x, y => x - y
  | mul, x, y => x * y
  | div, x, y => x / y
  | mod, x, y => x.floorMod y
  | pow, x, y => x.pow y

/-- An arithmetic operator on two numbers of one kind. -/
def ArithOp.onPair (op : ArithOp) : NumericPair → Except OperatorError Value
  | .ints a b => op.onWords a b
  | .floats x y => .ok (.float (op.onDoubles x y))

/-- Whether a relation holds between two integers. -/
def RelationOp.onWords : RelationOp → Word → Word → Bool
  | lt, a, b => decide (a.toInt < b.toInt)
  | le, a, b => decide (a.toInt ≤ b.toInt)
  | gt, a, b => decide (a.toInt > b.toInt)
  | ge, a, b => decide (a.toInt ≥ b.toInt)

/-- Whether a relation holds between two doubles; none holds beside a NaN. -/
def RelationOp.onDoubles (op : RelationOp) (x y : Binary64) : Bool :=
  match op, x.order y with
  | lt, some .lt => true
  | le, some .lt | le, some .eq => true
  | gt, some .gt => true
  | ge, some .gt | ge, some .eq => true
  | _, _ => false

/-- Whether a relation holds between two numbers of one kind. -/
def RelationOp.onPair (op : RelationOp) : NumericPair → Bool
  | .ints a b => op.onWords a b
  | .floats x y => op.onDoubles x y

/-- An operator on the bits of two integers; shifts take a signed count. -/
def BitOp.onWords : BitOp → Word → Word → Word
  | and, a, b => a &&& b
  | or, a, b => a ||| b
  | xor, a, b => a ^^^ b
  | shiftLeft, a, b => a.shiftLeft b
  | shiftRight, a, b => a.shiftRight b

/-- The operand that a connective gives: the left one if it decides, the right one otherwise. -/
def Connective.select (op : Connective) (l r : Value) : Value :=
  match op with
  | and => if l.isTruthy then r else l
  | or => if l.isTruthy then l else r

/-! ### Binary operators -/

/-- Why a numeric operator does not take two values that are not both numbers. -/
def BinaryOp.mismatch (op : BinaryOp) (l r : Value) : OperatorError :=
  if !l.isNumeric then .undefinedBinary op l.className
  else if op.isRelational then .notComparable l.className r.className
  else .notCoercible r.className l.className

/-- The value of a binary operator on evaluated operands. -/
def BinaryOp.eval (op : BinaryOp) (l r : Value) : Except OperatorError Value :=
  match op with
  | connective c => .ok (c.select l r)
  | eq => .ok (.bool (l.equals r))
  | notEq => .ok (.bool !(l.equals r))
  | cmp => .ok (.ofOrder (l.order r))
  | bit b =>
    match l, r with
    | .int m, .int n => .ok (.int (b.onWords m n))
    | .int _, r => .error (.notCoercible r.className "Integer")
    | l, _ => .error (.undefinedBinary op l.className)
  | arith a =>
    match NumericPair.ofValues? l r with
    | some pair => a.onPair pair
    | none => .error (op.mismatch l r)
  | relation c =>
    match NumericPair.ofValues? l r with
    | some pair => .ok (.bool (c.onPair pair))
    | none => .error (op.mismatch l r)

end ScalarOps
