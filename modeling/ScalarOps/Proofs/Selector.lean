import ScalarOps.Application
import ScalarOps.Dispatch

/-! The search through the list of all operators finds the one operator of a selector: `ofSelector?` is the inverse of
    `selector?` (`ofSelector?_eq_some_iff`), although some selectors begin with others and the signs have the symbols
    of binary operators. -/

namespace ScalarOps

/-! ### The search for a selector -/

namespace Operator

variable {op : Operator} {selector : String}

/-- Two entries of the list with one selector are the same, unless they have none. -/
theorem selectors_distinct :
    ∀ op ∈ all, ∀ op' ∈ all, op.selector? = op'.selector? → op.selector? = none ∨ op = op' := by decide

theorem selector?_inj {op' : Operator} (h : op.selector? = some selector) (h' : op'.selector? = some selector) :
    op = op' := by
  rcases selectors_distinct op op.mem_all op' op'.mem_all (h.trans h'.symm) with hnone | heq
  · rw [h] at hnone
    cases hnone
  · exact heq

theorem selector?_of_ofSelector? (h : ofSelector? selector = some op) : op.selector? = some selector := by
  unfold ofSelector? at h
  have hop := List.find?_some h
  exact beq_iff_eq.mp hop

theorem ofSelector?_eq_none_iff : ofSelector? selector = none ↔ ∀ op : Operator, op.selector? ≠ some selector := by
  rw [ofSelector?, List.find?_eq_none]
  constructor
  · intro h op hop
    exact h op op.mem_all (beq_iff_eq.mpr hop)
  · intro h op _ hop
    exact h op (beq_iff_eq.mp hop)

theorem ofSelector?_eq_some_iff : ofSelector? selector = some op ↔ op.selector? = some selector := by
  constructor
  · exact selector?_of_ofSelector?
  · intro h
    cases hfound : ofSelector? selector with
    | none => exact absurd h (ofSelector?_eq_none_iff.mp hfound op)
    | some found => rw [selector?_inj (selector?_of_ofSelector? hfound) h]

theorem selector?_eq_none_iff : op.selector? = none ↔ ∃ c, op = binary (.connective c) := by
  constructor
  · intro h
    rcases op with _ | (_ | _ | _ | _ | _ | c | _)
    case binary.connective => exact ⟨c, rfl⟩
    all_goals cases h
  · rintro ⟨c, rfl⟩
    rfl

theorem symbol_connective_ne_selector (c : Connective) : ∀ op : Operator, op.selector? ≠ some c.symbol := by
  have h : ∀ op ∈ all, op.selector? ≠ some c.symbol := by cases c <;> decide
  exact fun op => h op op.mem_all

end Operator

/-! ### Sends -/

namespace Value

variable {σ ε : Type} {receiver : Value} {selector : String}

theorem send_of_unknown (h : ∀ op : Operator, op.selector? ≠ some selector) (args : List Value) :
    receiver.send selector args = .error (.undefinedMethod selector receiver.className) := by
  rw [send, Operator.ofSelector?_eq_none_iff.mpr h]

theorem send_unary (op : UnaryOp) : receiver.send op.selector [] = op.eval receiver := by
  have h : Operator.ofSelector? op.selector = some (.unary op) := Operator.ofSelector?_eq_some_iff.mpr rfl
  rw [send, h]

theorem send_binary {op : BinaryOp} (h : op.selector? = some selector) (arg : Value) :
    receiver.send selector [arg] = op.eval receiver arg := by
  have hfound : Operator.ofSelector? selector = some (.binary op) := Operator.ofSelector?_eq_some_iff.mpr h
  rw [send, hfound]

theorem send_of_length_ne {op : Operator} (h : op.selector? = some selector) {args : List Value}
    (hargs : args.length ≠ op.arity) :
    receiver.send selector args = .error (.wrongArity selector op.arity args.length) := by
  rw [send, Operator.ofSelector?_eq_some_iff.mpr h]
  cases op with
  | unary op =>
    cases args with
    | nil => exact absurd rfl hargs
    | cons arg args => rfl
  | binary op =>
    match args with
    | [] => rfl
    | [arg] => exact absurd rfl hargs
    | _ :: _ :: _ => rfl

/-- A selector finds its one operator, and every operator but the connectives has one. So a send is the operator on
    the receiver and the arguments, or reports their number; to any other selector the receiver has no method. -/
theorem send_is_operator_of_selector (raise : OperatorError → ε) :
    (∀ s u, Operator.ofSelector? s = some (.unary u) ↔ s = u.selector) ∧
    (∀ s b, Operator.ofSelector? s = some (.binary b) ↔ b.selector? = some s) ∧
    (∀ (op op' : Operator) s, op.selector? = some s → op'.selector? = some s → op = op') ∧
    (∀ op : Operator, (∀ c, op ≠ .binary (.connective c)) →
      ∃ s, op.selector? = some s ∧ Operator.ofSelector? s = some op) ∧
    (∀ c : Connective, Operator.ofSelector? c.symbol = none) ∧
    (∀ s, (∀ op : Operator, op.selector? ≠ some s) → Operator.ofSelector? s = none) ∧
    ∀ receiver : Value,
      (∀ u : UnaryOp, receiver.send u.selector [] = u.eval receiver ∧
        Run.lift raise (receiver.send u.selector []) = (u.apply raise receiver : Run σ ε Value)) ∧
      (∀ (b : BinaryOp) s arg, b.selector? = some s → receiver.send s [arg] = b.eval receiver arg) ∧
      (∀ (op : Operator) s args, op.selector? = some s → args.length ≠ op.arity →
        receiver.send s args = .error (.wrongArity s op.arity args.length)) ∧
      (∀ s args, (∀ op : Operator, op.selector? ≠ some s) →
        receiver.send s args = .error (.undefinedMethod s receiver.className)) := by
  -- All parts come from the search being the inverse of `selector?`.
  refine ⟨fun s u => ?_, fun s b => Operator.ofSelector?_eq_some_iff, fun op op' s => Operator.selector?_inj,
    fun op hop => ?_, fun c => ?_, fun s => Operator.ofSelector?_eq_none_iff.mpr, fun receiver =>
    ⟨fun u => ⟨send_unary u, ?_⟩, fun b s arg h => send_binary h arg, fun op s args h => send_of_length_ne h,
      fun s args h => send_of_unknown h args⟩⟩
  · rw [Operator.ofSelector?_eq_some_iff, eq_comm]
    exact Option.some_inj
  · cases hs : op.selector? with
    | none =>
      obtain ⟨c, hc⟩ := Operator.selector?_eq_none_iff.mp hs
      exact absurd hc (hop c)
    | some s => exact ⟨s, rfl, Operator.ofSelector?_eq_some_iff.mpr hs⟩
  · exact Operator.ofSelector?_eq_none_iff.mpr (Operator.symbol_connective_ne_selector c)
  · rw [send_unary]
    rfl

/-- The wrong number of arguments comes before the operands, on which the operator is not defined. -/
theorem send_le_nil_of_two_arguments : nil.send "<=" [nil, nil] = .error (.wrongArity "<=" 1 2) :=
  ((send_is_operator_of_selector (σ := Unit) id).2.2.2.2.2.2 nil).2.2.1 (.binary (.relation .le)) "<=" [nil, nil]
    rfl (by decide)

end Value
end ScalarOps
