import ScalarOps.Expression
import ScalarOps.Proofs.Application

/-! A formula connects values and operands by `&&`, `||` and `!`; an operand is a computation of the caller's and is
    started only where a connective needs it. The laws hold of the computations (`Formula.run_connect_assoc`,
    `Formula.run_not_connect`), so both sides also start the same operands in the same order, which `Run.named` logs.
    -/

namespace ScalarOps

variable {ι σ ε α β : Type}

/-! ### Applied connectives -/

/-- The connective to which negation leads. -/
def Connective.dual : Connective → Connective
  | and => or
  | or => and

theorem Value.isTruthy_bool (b : Bool) : (Value.bool b).isTruthy = b := by
  cases b <;> rfl

namespace BinaryOp

theorem apply_connective (raise : OperatorError → ε) (c : Connective) (l : Value) (r : Run σ ε Value) :
    (connective c).apply raise l r = if (connective c).DecidedBy l then pure l else r := by
  cases c <;> cases h : l.isTruthy <;> simp [apply, Value.and, Value.or, DecidedBy, h]

/-- The negation of a value decides the dual connective exactly where the value decides the connective. -/
theorem decidedBy_dual_iff {c : Connective} {v : Value} :
    (connective c.dual).DecidedBy (.bool !v.isTruthy) ↔ (connective c).DecidedBy v := by
  cases c <;> simp [DecidedBy, Connective.dual, Value.isTruthy_bool]

end BinaryOp

theorem UnaryOp.apply_not (raise : OperatorError → ε) (v : Value) :
    (not.apply raise v : Run σ ε Value) = pure (.bool !v.isTruthy) := rfl

/-! ### A log of the operands -/

namespace Run

/-- The same computation, which puts its name on a log beside its own state when it is started. -/
def named (name : ι) (r : Run σ ε α) : Run (σ × List ι) ε α :=
  ExceptT.mk fun (s, started) => ((r.exec s).1, (r.exec s).2, started ++ [name])

/-- A computation with a log has the outcome and the state of the one without, and only adds to the log. -/
def Records (logged : Run (σ × List ι) ε α) (r : Run σ ε α) : Prop :=
  ∀ s started, ∃ names, logged.exec (s, started) = ((r.exec s).1, (r.exec s).2, started ++ names)

namespace Records

theorem named (name : ι) (r : Run σ ε α) : Records (r.named name) r := fun _ _ => ⟨[name], rfl⟩

theorem pure (v : α) : Records (Pure.pure v : Run (σ × List ι) ε α) (Pure.pure v) := fun s started =>
  ⟨[], by rw [exec_pure, exec_pure, List.append_nil]⟩

theorem bind {logged : Run (σ × List ι) ε α} {r : Run σ ε α} {f : α → Run (σ × List ι) ε β} {g : α → Run σ ε β}
    (h : Records logged r) (hf : ∀ v, Records (f v) (g v)) : Records (logged >>= f) (r >>= g) := by
  intro s started
  obtain ⟨names, hlogged⟩ := h s started
  rcases hr : r.exec s with ⟨e | v, t⟩
  · rw [hr] at hlogged
    exact ⟨names, by rw [exec_bind_error hlogged, exec_bind_error hr]⟩
  · rw [hr] at hlogged
    obtain ⟨names', hf'⟩ := hf v t (started ++ names)
    exact ⟨names ++ names', by rw [exec_bind_ok hlogged, exec_bind_ok hr, hf', List.append_assoc]⟩

end Records
end Run

/-! ### Formulas -/

/-- Formulas over values and operands, which go by names. -/
inductive Formula (ι : Type)
  | value (v : Value)
  | operand (name : ι)
  | connect (c : Connective) (l r : Formula ι)
  | not (e : Formula ι)

namespace Formula

instance : AndOp (Formula ι) := ⟨connect .and⟩
instance : OrOp (Formula ι) := ⟨connect .or⟩
instance : Complement (Formula ι) := ⟨not⟩

/-- The evaluation of a formula: a connective is applied to the value on its left, and to the right formula as it is. -/
def run (raise : OperatorError → ε) (operands : ι → Run σ ε Value) : Formula ι → Run σ ε Value
  | value v => pure v
  | operand name => operands name
  | connect c l r => do
    let v ← run raise operands l
    (BinaryOp.connective c).apply raise v (run raise operands r)
  | not e => do
    let v ← run raise operands e
    UnaryOp.not.apply raise v

/-- The formula as an expression of the language, with expressions for its operands. -/
def toExpr {τ : Type} (operands : ι → Expr τ ε) : Formula ι → Expr τ ε
  | value v => .lit v
  | operand name => operands name
  | connect c l r => .binary (.connective c) (l.toExpr operands) (r.toExpr operands)
  | not e => .unary .not (e.toExpr operands)

theorem eval_toExpr {τ : Type} (operands : ι → Expr τ ε) (φ : Formula ι) :
    (φ.toExpr operands).eval = φ.run .operator fun name => (operands name).eval := by
  induction φ with
  | value v => rw [toExpr, Expr.eval, run]
  | operand name => rw [toExpr, run]
  | connect c l r ihl ihr => rw [toExpr, Expr.eval, ihl, ihr, run]
  | not e ih => rw [toExpr, Expr.eval, ih, run]

/-- What a formula does in a state: its outcome, the state it leaves, and the operands it has started, in order. -/
def behaviour (raise : OperatorError → ε) (operands : ι → Run σ ε Value) (φ : Formula ι) (s : σ) :
    Except ε Value × σ × List ι :=
  (φ.run raise fun name => (operands name).named name).exec (s, [])

/-- Two formulas do the same, whatever their operands are and in every state. -/
def Alike (φ ψ : Formula ι) : Prop :=
  ∀ (σ ε : Type) (raise : OperatorError → ε) (operands : ι → Run σ ε Value) (s : σ),
    φ.behaviour raise operands s = ψ.behaviour raise operands s

section Laws

variable (raise : OperatorError → ε) (operands : ι → Run σ ε Value)

theorem run_connect_assoc (c : Connective) (φ ψ χ : Formula ι) :
    (connect c (connect c φ ψ) χ).run raise operands = (connect c φ (connect c ψ χ)).run raise operands := by
  simp only [run, bind_assoc]
  refine bind_congr fun v => ?_
  rw [BinaryOp.apply_connective, BinaryOp.apply_connective]
  by_cases h : (BinaryOp.connective c).DecidedBy v
  · -- The value that decides the inner connective is its own value, so it decides the outer one too.
    rw [if_pos h, if_pos h, pure_bind, BinaryOp.apply_connective, if_pos h]
  · rw [if_neg h, if_neg h]

theorem run_not_connect (c : Connective) (φ ψ : Formula ι) :
    (not (connect c φ ψ)).run raise operands = (connect c.dual (not φ) (not ψ)).run raise operands := by
  simp only [run, bind_assoc]
  refine bind_congr fun v => ?_
  rw [UnaryOp.apply_not, pure_bind, BinaryOp.apply_connective, BinaryOp.apply_connective]
  by_cases h : (BinaryOp.connective c).DecidedBy v
  · rw [if_pos h, if_pos (BinaryOp.decidedBy_dual_iff.mpr h), pure_bind, UnaryOp.apply_not]
  · rw [if_neg h, if_neg fun hdual => h (BinaryOp.decidedBy_dual_iff.mp hdual)]

/-- Names on the operands change neither the outcome nor the state. -/
theorem records_run (φ : Formula ι) :
    Run.Records (φ.run raise fun name => (operands name).named name) (φ.run raise operands) := by
  induction φ with
  | value v => exact .pure v
  | operand name => exact .named name (operands name)
  | connect c l r ihl ihr =>
    refine ihl.bind fun v => ?_
    rw [BinaryOp.apply_connective, BinaryOp.apply_connective]
    by_cases h : (BinaryOp.connective c).DecidedBy v
    · rw [if_pos h, if_pos h]
      exact .pure v
    · rw [if_neg h, if_neg h]
      exact ihr
  | not e ih => exact ih.bind fun v => .pure _

theorem exec_run (φ : Formula ι) (s : σ) :
    (φ.run raise operands).exec s = ((φ.behaviour raise operands s).1, (φ.behaviour raise operands s).2.1) := by
  obtain ⟨names, h⟩ := records_run raise operands φ s []
  rw [behaviour, h]

end Laws

theorem Alike.of_run_eq {φ ψ : Formula ι}
    (h : ∀ {σ ε : Type} (raise : OperatorError → ε) (operands : ι → Run σ ε Value),
      φ.run raise operands = ψ.run raise operands) : Alike φ ψ := by
  intro σ ε raise operands s
  rw [behaviour, behaviour, h]

/-- Associativity and the laws of negation hold of formulas together with what their operands do: both sides have one
    outcome, leave one state and start the same operands in the same order. -/
theorem logical_laws_with_effects (φ ψ χ : Formula ι) :
    Alike ((φ &&& ψ) &&& χ) (φ &&& (ψ &&& χ)) ∧
    Alike ((φ ||| ψ) ||| χ) (φ ||| (ψ ||| χ)) ∧
    Alike (~~~(φ &&& ψ)) (~~~φ ||| ~~~ψ) ∧
    Alike (~~~(φ ||| ψ)) (~~~φ &&& ~~~ψ) ∧
    ∀ {σ ε : Type} (raise : OperatorError → ε) (operands : ι → Run σ ε Value) (s : σ),
      (φ.run raise operands).exec s = ((φ.behaviour raise operands s).1, (φ.behaviour raise operands s).2.1) :=
  ⟨.of_run_eq fun raise operands => run_connect_assoc raise operands .and φ ψ χ,
    .of_run_eq fun raise operands => run_connect_assoc raise operands .or φ ψ χ,
    .of_run_eq fun raise operands => run_not_connect raise operands .and φ ψ,
    .of_run_eq fun raise operands => run_not_connect raise operands .or φ ψ,
    fun raise operands s => exec_run raise operands φ s⟩

/-- A failing operand is started on either side, and what stands behind it is not. -/
example (s : Nat) :
    (~~~(value (.bool true) &&& operand 0 &&& operand 1) : Formula Nat).behaviour id
      (fun _ => do modify (· + 1); throw (.dividedByZero)) s = (.error .dividedByZero, s + 1, [0]) := rfl

end Formula
end ScalarOps
