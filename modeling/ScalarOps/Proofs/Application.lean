import ScalarOps.Application

/-! When the right operand runs. A connective that its left operand decides leaves the computation alone
    (`DecidedBy.apply_eq`); any other operator runs it first and is evaluated on what it returns
    (`apply_of_not_decidedBy`). How often it was started shows in the log that `Run.recorded` keeps. -/

namespace ScalarOps

variable {σ ε α β : Type}

/-! ### Computations -/

namespace Run

/-- The outcome of a computation that is started in a state, and the state that it leaves. -/
def exec (r : Run σ ε α) (s : σ) : Except ε α × σ := r.run.run s

@[simp] theorem exec_pure (v : α) (s : σ) : (pure v : Run σ ε α).exec s = (.ok v, s) := rfl

@[simp] theorem exec_throw (e : ε) (s : σ) : (throw e : Run σ ε α).exec s = (.error e, s) := rfl

section Bind

variable {r : Run σ ε α} {f : α → Run σ ε β} {s t : σ}

theorem exec_bind_ok {v : α} (h : r.exec s = (.ok v, t)) : (r >>= f).exec s = (f v).exec t := by
  have hbind : (r >>= f).exec s = ExceptT.bindCont f (r.exec s).1 (r.exec s).2 := rfl
  rw [hbind, h]
  rfl

theorem exec_bind_error {e : ε} (h : r.exec s = (.error e, t)) : (r >>= f).exec s = (.error e, t) := by
  have hbind : (r >>= f).exec s = ExceptT.bindCont f (r.exec s).1 (r.exec s).2 := rfl
  rw [hbind, h]
  rfl

end Bind

@[simp] theorem exec_lift (raise : OperatorError → ε) (x : Except OperatorError Value) (s : σ) :
    (lift raise x).exec s = (x.mapError raise, s) := by
  cases x <;> rfl

theorem exec_bind_lift (raise : OperatorError → ε) (r : Run σ ε α) (f : α → Except OperatorError Value) (s : σ) :
    (r >>= fun v => lift raise (f v)).exec s =
      ((r.exec s).1.bind fun v => (f v).mapError raise, (r.exec s).2) := by
  rcases h : r.exec s with ⟨_ | v, t⟩
  · rw [exec_bind_error h]
    rfl
  · rw [exec_bind_ok h, exec_lift]
    rfl

/-- The same computation, which keeps a log of the states it was started in beside its own state. -/
def recorded (r : Run σ ε α) : Run (σ × List σ) ε α :=
  ExceptT.mk fun (s, starts) => ((r.exec s).1, (r.exec s).2, starts ++ [s])

@[simp] theorem exec_recorded (r : Run σ ε α) (s : σ) (starts : List σ) :
    r.recorded.exec (s, starts) = ((r.exec s).1, (r.exec s).2, starts ++ [s]) := rfl

end Run

/-! ### Decided connectives -/

namespace BinaryOp

variable {op : BinaryOp} {l : Value}

/-- The left operand alone gives the value: it counts as false in a conjunction or as true in a disjunction. -/
def DecidedBy (op : BinaryOp) (l : Value) : Prop :=
  (op = connective .and ∧ l.isTruthy = false) ∨ (op = connective .or ∧ l.isTruthy = true)

instance : Decidable (op.DecidedBy l) := inferInstanceAs (Decidable (_ ∨ _))

theorem DecidedBy.isShortCircuit (h : op.DecidedBy l) : op.isShortCircuit = true := by
  rcases h with ⟨rfl, -⟩ | ⟨rfl, -⟩ <;> rfl

theorem DecidedBy.eval_eq (h : op.DecidedBy l) (v : Value) : op.eval l v = .ok l := by
  rcases h with ⟨rfl, hl⟩ | ⟨rfl, hl⟩ <;> simp [eval, Connective.select, hl]

theorem DecidedBy.apply_eq (h : op.DecidedBy l) (raise : OperatorError → ε) (r : Run σ ε Value) :
    op.apply raise l r = pure l := by
  rcases h with ⟨rfl, hl⟩ | ⟨rfl, hl⟩ <;> simp [apply, Value.and, Value.or, hl]

theorem eval_of_not_decidedBy (hop : op.isShortCircuit = true) (h : ¬op.DecidedBy l) (v : Value) :
    op.eval l v = .ok v := by
  cases op with
  | connective c => cases c <;> simp_all [DecidedBy, eval, Connective.select]
  | arith _ | eq | notEq | relation _ | cmp | bit _ => cases hop

theorem apply_of_not_decidedBy (h : ¬op.DecidedBy l) (raise : OperatorError → ε) (r : Run σ ε Value) :
    op.apply raise l r = r >>= fun v => Run.lift raise (op.eval l v) := by
  cases op with
  | connective c =>
    have hright : (fun v => Run.lift (σ := σ) raise ((connective c).eval l v)) = pure := by
      funext v
      rw [eval_of_not_decidedBy rfl h]
      rfl
    rw [hright, bind_pure]
    cases c <;> simp_all [DecidedBy, apply, Value.and, Value.or]
  | arith _ | eq | notEq | relation _ | cmp | bit _ => rfl

theorem apply_of_not_isShortCircuit (h : op.isShortCircuit = false) (raise : OperatorError → ε) (r : Run σ ε Value) :
    op.apply raise l r = r >>= fun v => Run.lift raise (op.eval l v) :=
  apply_of_not_decidedBy (fun hl => by simp [hl.isShortCircuit] at h) raise r

theorem exec_apply_of_not_decidedBy (h : ¬op.DecidedBy l) (raise : OperatorError → ε) (r : Run σ ε Value) (s : σ) :
    (op.apply raise l r).exec s = ((r.exec s).1.bind fun v => (op.eval l v).mapError raise, (r.exec s).2) := by
  rw [apply_of_not_decidedBy h, Run.exec_bind_lift]

/-! ### How often the right operand runs -/

/-- The record changes nothing else, and shows one start, in the state at hand, unless the left operand decides. -/
theorem exec_apply_recorded (raise : OperatorError → ε) (op : BinaryOp) (l : Value) (r : Run σ ε Value) (s : σ) :
    (op.apply raise l r.recorded).exec (s, []) =
      (((op.apply raise l r).exec s).1, ((op.apply raise l r).exec s).2, if op.DecidedBy l then [] else [s]) := by
  by_cases h : op.DecidedBy l
  · rw [h.apply_eq, h.apply_eq, if_pos h]
    rfl
  · rw [exec_apply_of_not_decidedBy h, exec_apply_of_not_decidedBy h, Run.exec_recorded, if_neg h]
    rfl

/-- A binary operator starts its right operand once, in the state at hand, unless a connective is decided by its left
    one. A failure of the operand comes first; on a right operand that just returns a value, the application is the
    evaluation. -/
theorem apply_runs_operand_where_needed (raise : OperatorError → ε) (op : BinaryOp) (l : Value) (r : Run σ ε Value)
    (s : σ) :
    (∃ starts, (op.apply raise l r.recorded).exec (s, []) =
        (((op.apply raise l r).exec s).1, ((op.apply raise l r).exec s).2, starts) ∧
      (starts = [] ↔ op.DecidedBy l) ∧ (starts = [s] ↔ ¬op.DecidedBy l)) ∧
    (op.DecidedBy l → (op.apply raise l r).exec s = (.ok l, s)) ∧
    (¬op.DecidedBy l → ∀ t,
      (∀ e, r.exec s = (.error e, t) → (op.apply raise l r).exec s = (.error e, t)) ∧
      (∀ v, r.exec s = (.ok v, t) → (op.apply raise l r).exec s =
        (if op.isShortCircuit then .ok v else (op.eval l v).mapError raise, t))) ∧
    (∀ v, (op.apply raise l (pure v)).exec s = ((op.eval l v).mapError raise, s)) := by
  refine ⟨⟨_, exec_apply_recorded raise op l r s, ?_, ?_⟩, fun h => ?_, fun h t => ⟨fun e hr => ?_, fun v hr => ?_⟩,
    fun v => ?_⟩
  · by_cases h : op.DecidedBy l <;> simp [h]
  · by_cases h : op.DecidedBy l <;> simp [h]
  · rw [h.apply_eq, Run.exec_pure]
  · rw [exec_apply_of_not_decidedBy h, hr]
    rfl
  · rw [exec_apply_of_not_decidedBy h, hr]
    dsimp only [Except.bind]
    by_cases hop : op.isShortCircuit = true
    · rw [if_pos hop, eval_of_not_decidedBy hop h]
      rfl
    · rw [if_neg hop]
  · by_cases h : op.DecidedBy l
    · rw [h.apply_eq, h.eval_eq]
      rfl
    · rw [exec_apply_of_not_decidedBy h]
      rfl

/-- A sum that is not defined on its left operand fails as its right operand does. -/
theorem apply_add_nil_of_failing_operand :
    ((arith .add).apply (fun _ => "operator") .nil (do set 1; throw "operand" : Run Nat String Value)).exec 0 =
      (.error "operand", 1) :=
  ((apply_runs_operand_where_needed _ (arith .add) .nil _ 0).2.2.1 (by decide) 1).1 "operand" rfl

end BinaryOp
end ScalarOps
