import ScalarOps.Application
import ScalarOps.Dispatch

/-! Expressions over operators and sends. A note is logged before its expression is evaluated, and a halt stops with a
    failure of the caller's own, so the order of evaluation is visible. Evaluation stops at the first failure and
    keeps the log up to it. -/

namespace ScalarOps

/-- Expressions with notes in `τ` and failures of the caller in `ε`. -/
inductive Expr (τ ε : Type)
  | lit (v : Value)
  /-- A note for the log in front of an expression. -/
  | note (entry : τ) (e : Expr τ ε)
  | unary (op : UnaryOp) (e : Expr τ ε)
  | binary (op : BinaryOp) (l r : Expr τ ε)
  | send (selector : String) (receiver : Expr τ ε) (args : List (Expr τ ε))
  /-- A stop with a failure of the caller. -/
  | halt (failure : ε)

/-- Why an evaluation stopped. -/
inductive Interruption (ε : Type)
  | operator (e : OperatorError)
  | halted (failure : ε)
deriving DecidableEq

namespace Expr

variable {τ ε : Type}

/-- A computation that keeps a log and stops with an interruption. -/
abbrev Logged (τ ε α : Type) := Run (List τ) (Interruption ε) α

/-- Adds an entry to the log. -/
def Logged.note (entry : τ) : Logged τ ε Unit := modify (· ++ [entry])

mutual

/-- The value of an expression; a connective that its left operand decides skips the right one. -/
def eval : Expr τ ε → Logged τ ε Value
  | lit v => pure v
  | note entry e => do
    Logged.note entry
    eval e
  | unary op e => do
    let v ← eval e
    op.apply .operator v
  | binary op l r => do
    let v ← eval l
    op.apply .operator v (eval r)
  | send selector receiver args => do
    let v ← eval receiver
    let vs ← evalAll args
    Run.lift .operator (v.send selector vs)
  | halt failure => throw (.halted failure)

/-- The values of arguments, from left to right. -/
def evalAll : List (Expr τ ε) → Logged τ ε (List Value)
  | [] => pure []
  | e :: es => do
    let v ← eval e
    let vs ← evalAll es
    pure (v :: vs)

end

mutual

/-- The value of an expression all of whose operands are evaluated. -/
def evalEagerly : Expr τ ε → Logged τ ε Value
  | lit v => pure v
  | note entry e => do
    Logged.note entry
    evalEagerly e
  | unary op e => do
    let v ← evalEagerly e
    Run.lift .operator (op.eval v)
  | binary op l r => do
    let v ← evalEagerly l
    let w ← evalEagerly r
    Run.lift .operator (op.eval v w)
  | send selector receiver args => do
    let v ← evalEagerly receiver
    let vs ← evalAllEagerly args
    Run.lift .operator (v.send selector vs)
  | halt failure => throw (.halted failure)

/-- The values of arguments, all of whose operands are evaluated. -/
def evalAllEagerly : List (Expr τ ε) → Logged τ ε (List Value)
  | [] => pure []
  | e :: es => do
    let v ← evalEagerly e
    let vs ← evalAllEagerly es
    pure (v :: vs)

end

/-- The outcome of an evaluation that starts with an empty log, and the log at its end. -/
def outcome (run : Logged τ ε Value) : Except (Interruption ε) Value × List τ :=
  run.run.run []

end Expr

end ScalarOps
