import ScalarOps.Evaluation

/-! The right operand of a binary operator is a computation of the caller's, which may stop with a failure of the
    caller's own. `BinaryOp.apply` runs it once, or not at all where a connective is decided by its left operand. Its
    failure comes before any failure of the operator. -/

namespace ScalarOps

/-- A computation on a state `σ` that gives an `α` or stops with an `ε`; the state lasts in both cases. -/
abbrev Run (σ ε α : Type) := ExceptT ε (StateM σ) α

variable {σ ε : Type}

/-- The outcome of an operator as a computation, its failure turned into the caller's. -/
def Run.lift (raise : OperatorError → ε) : Except OperatorError Value → Run σ ε Value
  | .ok v => pure v
  | .error e => throw (raise e)

/-- Conjunction: a left operand that counts as false is the value, otherwise the right one is. -/
def Value.and (l : Value) (r : Run σ ε Value) : Run σ ε Value :=
  if l.isTruthy then r else pure l

/-- Disjunction: a left operand that counts as true is the value, otherwise the right one is. -/
def Value.or (l : Value) (r : Run σ ε Value) : Run σ ε Value :=
  if l.isTruthy then pure l else r

/-- A unary operator on an evaluated operand, as a computation. -/
def UnaryOp.apply (raise : OperatorError → ε) (op : UnaryOp) (v : Value) : Run σ ε Value :=
  Run.lift raise (op.eval v)

/-- The value of a binary operator whose right operand is a computation. -/
def BinaryOp.apply (raise : OperatorError → ε) (op : BinaryOp) (l : Value) (r : Run σ ε Value) :
    Run σ ε Value :=
  match op with
  | connective .and => l.and r
  | connective .or => l.or r
  | op => do
    let v ← r
    Run.lift raise (op.eval l v)

end ScalarOps
