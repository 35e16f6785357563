import ScalarOps.Expression
import ScalarOps.Proofs.Application

/-! Where every operand can be evaluated, leaving some of them out changes nothing but the log. `Refines` says so of
    two computations: whatever the eager one returns, the lazy one returns too, and it logs some of what the eager one
    logs. Sequencing keeps the relation (`Refines.bind`), and so does a connective (`Refines.apply`). -/

namespace ScalarOps
namespace Expr

variable {τ ε α β : Type}

/-! ### Refinement of logged computations -/

/-- What the eager computation returns, the lazy one returns too: started with some of the eager one's entries, it
    ends with some of them. The eager one takes no entry back. -/
structure Refines (lazy eager : Logged τ ε α) : Prop where
  grows : ∀ log : List τ, log.Sublist (eager.exec log).2
  returns : ∀ {v : α} {log log' after' : List τ}, log.Sublist log' → eager.exec log' = (.ok v, after') →
    ∃ after, lazy.exec log = (.ok v, after) ∧ after.Sublist after'

namespace Refines

theorem pure (v : α) : Refines (Pure.pure v : Logged τ ε α) (Pure.pure v) where
  grows log := List.Sublist.refl log
  returns {w log log' after'} hlog h := by
    cases h
    exact ⟨log, rfl, hlog⟩

theorem throw (i : Interruption ε) : Refines (MonadExcept.throw i : Logged τ ε α) (MonadExcept.throw i) where
  grows log := List.Sublist.refl log
  returns _ h := by cases h

theorem lift (x : Except OperatorError Value) : Refines (Run.lift .operator x : Logged τ ε Value)
    (Run.lift .operator x) := by
  cases x with
  | ok v => exact pure v
  | error e => exact throw (.operator e)

theorem note (entry : τ) : Refines (Logged.note entry : Logged τ ε Unit) (Logged.note entry) where
  grows log := List.sublist_append_left log [entry]
  returns {v log log' after'} hlog h := by
    cases h
    exact ⟨log ++ [entry], rfl, hlog.append_right [entry]⟩

theorem bind {m n : Logged τ ε α} {f g : α → Logged τ ε β} (h : Refines m n) (hf : ∀ v, Refines (f v) (g v)) :
    Refines (m >>= f) (n >>= g) where
  grows log := by
    have hn := h.grows log
    rcases hexec : n.exec log with ⟨i | v, middle⟩
    · rw [hexec] at hn
      rw [Run.exec_bind_error hexec]
      exact hn
    · rw [hexec] at hn
      rw [Run.exec_bind_ok hexec]
      exact hn.trans ((hf v).grows middle)
  returns {w log log' after'} hlog hexec := by
    rcases hn : n.exec log' with ⟨i | v, middle'⟩
    · rw [Run.exec_bind_error hn] at hexec
      cases hexec
    · rw [Run.exec_bind_ok hn] at hexec
      obtain ⟨middle, hm, hmiddle⟩ := h.returns hlog hn
      rw [Run.exec_bind_ok hm]
      exact (hf v).returns hmiddle hexec

/-- An eager computation whose value is not used leaves nothing but its log, so it may be left out. -/
theorem skip {m n : Logged τ ε α} (h : Refines m n) (w : β) :
    Refines (Pure.pure w) (n >>= fun _ => Pure.pure w) where
  grows := (h.bind fun _ => pure w).grows
  returns {v log log' after'} hlog hexec := by
    have hgrows := h.grows log'
    rcases hn : n.exec log' with ⟨i | u, middle'⟩
    · rw [Run.exec_bind_error hn] at hexec
      cases hexec
    · rw [hn] at hgrows
      rw [Run.exec_bind_ok hn] at hexec
      cases hexec
      exact ⟨log, rfl, hlog.trans hgrows⟩

theorem apply {m n : Logged τ ε Value} (h : Refines m n) (op : BinaryOp) (l : Value) :
    Refines (op.apply .operator l m) (n >>= fun r => Run.lift .operator (op.eval l r)) := by
  by_cases hl : op.DecidedBy l
  · -- The eager evaluation gives the left operand for any right one.
    have heager : (fun r => Run.lift .operator (op.eval l r)) = fun _ => (Pure.pure l : Logged τ ε Value) := by
      funext r
      rw [hl.eval_eq]
      rfl
    rw [hl.apply_eq, heager]
    exact h.skip l
  · rw [BinaryOp.apply_of_not_decidedBy hl]
    exact h.bind fun r => lift (op.eval l r)

end Refines

/-! ### Expressions -/

mutual

theorem refines_evalEagerly : ∀ e : Expr τ ε, Refines e.eval e.evalEagerly
  | lit v => by
    rw [eval, evalEagerly]
    exact .pure v
  | note entry e => by
    rw [eval, evalEagerly]
    exact (Refines.note entry).bind fun _ => refines_evalEagerly e
  | unary op e => by
    rw [eval, evalEagerly]
    exact (refines_evalEagerly e).bind fun v => .lift (op.eval v)
  | binary op l r => by
    rw [eval, evalEagerly]
    exact (refines_evalEagerly l).bind fun v => (refines_evalEagerly r).apply op v
  | send selector receiver args => by
    rw [eval, evalEagerly]
    exact (refines_evalEagerly receiver).bind fun v => (refines_evalAllEagerly args).bind fun vs =>
      .lift (v.send selector vs)
  | halt failure => by
    rw [eval, evalEagerly]
    exact .throw (.halted failure)

theorem refines_evalAllEagerly : ∀ es : List (Expr τ ε), Refines (evalAll es) (evalAllEagerly es)
  | [] => by
    rw [evalAll, evalAllEagerly]
    exact .pure []
  | e :: es => by
    rw [evalAll, evalAllEagerly]
    exact (refines_evalEagerly e).bind fun v => (refines_evalAllEagerly es).bind fun vs => .pure (v :: vs)

end

/-! ### Expressions without connectives -/

mutual

/-- Whether no connective occurs in an expression. -/
def isConnectiveFree : Expr τ ε → Bool
  | lit _ => true
  | note _ e => e.isConnectiveFree
  | unary _ e => e.isConnectiveFree
  | binary op l r => !op.isShortCircuit && l.isConnectiveFree && r.isConnectiveFree
  | send _ receiver args => receiver.isConnectiveFree && allConnectiveFree args
  | halt _ => true

/-- Whether no argument has a connective in it. -/
def allConnectiveFree : List (Expr τ ε) → Bool
  | [] => true
  | e :: es => e.isConnectiveFree && allConnectiveFree es

end

mutual

theorem eval_eq_evalEagerly : ∀ e : Expr τ ε, e.isConnectiveFree = true → e.eval = e.evalEagerly
  | lit v, _ => by rw [eval, evalEagerly]
  | note entry e, h => by
    rw [isConnectiveFree] at h
    rw [eval, evalEagerly, eval_eq_evalEagerly e h]
  | unary op e, h => by
    rw [isConnectiveFree] at h
    rw [eval, evalEagerly, eval_eq_evalEagerly e h]
    rfl
  | binary op l r, h => by
    rw [isConnectiveFree, Bool.and_eq_true, Bool.and_eq_true, Bool.not_eq_true'] at h
    obtain ⟨⟨hop, hl⟩, hr⟩ := h
    rw [eval, evalEagerly, eval_eq_evalEagerly l hl, eval_eq_evalEagerly r hr]
    simp only [BinaryOp.apply_of_not_isShortCircuit hop]
  | send selector receiver args, h => by
    rw [isConnectiveFree, Bool.and_eq_true] at h
    rw [eval, evalEagerly, eval_eq_evalEagerly receiver h.1, evalAll_eq_evalAllEagerly args h.2]
  | halt failure, _ => by rw [eval, evalEagerly]

theorem evalAll_eq_evalAllEagerly :
    ∀ es : List (Expr τ ε), allConnectiveFree es = true → evalAll es = evalAllEagerly es
  | [], _ => by rw [evalAll, evalAllEagerly]
  | e :: es, h => by
    rw [allConnectiveFree, Bool.and_eq_true] at h
    rw [evalAll, evalAllEagerly, eval_eq_evalEagerly e h.1, evalAll_eq_evalAllEagerly es h.2]

end

/-! ### Outcomes -/

/-- Notes in front of a value or a stop: an expression that adds entries to the log and ends as it is told. -/
def leaf (entries : List τ) (result : Except ε Value) : Expr τ ε :=
  entries.foldr note (match result with
    | .ok v => lit v
    | .error failure => halt failure)

theorem exec_eval_leaf (entries : List τ) (result : Except ε Value) (log : List τ) :
    (leaf entries result).eval.exec log = (result.mapError .halted, log ++ entries) := by
  induction entries generalizing log with
  | nil =>
    rw [List.append_nil]
    cases result with
    | ok v =>
      show (lit v).eval.exec log = _
      rw [eval, Run.exec_pure]
      rfl
    | error failure =>
      show (halt failure).eval.exec log = _
      rw [eval, Run.exec_throw]
      rfl
  | cons entry entries ih =>
    have hnote : (Logged.note entry : Logged τ ε Unit).exec log = (.ok (), log ++ [entry]) := rfl
    show (note entry (leaf entries result)).eval.exec log = _
    rw [eval, Run.exec_bind_ok hnote, ih, List.append_assoc]
    rfl

theorem isConnectiveFree_leaf (entries : List τ) (result : Except ε Value) :
    (leaf entries result).isConnectiveFree = true := by
  induction entries with
  | nil => cases result <;> rfl
  | cons entry entries ih => exact ih

/-- Short-circuit evaluation refines eager evaluation: it has the same value wherever eager evaluation has one, and
    logs some of the same entries in their order. Without connectives the two have the same outcome and log. -/
theorem outcome_eval_refines_eager :
    (∀ (entries : List τ) (result : Except ε Value),
      outcome (leaf entries result).eval = (result.mapError .halted, entries) ∧
      outcome (leaf entries result).evalEagerly = (result.mapError .halted, entries)) ∧
    ∀ e : Expr τ ε,
      (∀ v log, outcome e.evalEagerly = (.ok v, log) → ∃ log', outcome e.eval = (.ok v, log') ∧ log'.Sublist log) ∧
      (∀ i log, outcome e.eval = (.error i, log) → ∃ i' log', outcome e.evalEagerly = (.error i', log')) ∧
      (e.isConnectiveFree = true → outcome e.eval = outcome e.evalEagerly) := by
  refine ⟨fun entries result => ?_, fun e => ⟨fun v log h => ?_, fun i log h => ?_, fun h => ?_⟩⟩
  · rw [← eval_eq_evalEagerly _ (isConnectiveFree_leaf entries result), and_self]
    exact exec_eval_leaf entries result []
  · exact (refines_evalEagerly e).returns (List.Sublist.refl []) h
  · rcases heager : outcome e.evalEagerly with ⟨i' | v, log'⟩
    · exact ⟨i', log', rfl⟩
    · obtain ⟨after, hlazy, -⟩ := (refines_evalEagerly e).returns (List.Sublist.refl []) heager
      have hboth := h.symm.trans hlazy
      cases hboth
  · rw [eval_eq_evalEagerly e h]

/-- A disjunction inside a sum: the note on its right operand is left out, and the sum stays. -/
theorem eval_sum_of_decided_or :
    ∃ log, outcome (binary (.arith .add) (note 1 (lit (.int .one)))
        (binary (.connective .or) (lit (.int .one)) (note 2 (lit .nil))) : Expr Nat String).eval =
      (.ok (.int (.ofInt 2)), log) ∧ log.Sublist [1, 2] :=
  (outcome_eval_refines_eager.2 _).1 _ _ rfl

end Expr
end ScalarOps
