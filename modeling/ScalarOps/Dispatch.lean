import ScalarOps.Evaluation

/-! A selector and arguments are sent to a receiver. An unknown selector is reported first, then a wrong number of
    arguments, and only then does the operator look at the operands. -/

namespace ScalarOps

/-- The value of the operator that a selector names, with the receiver as its first operand. -/
def Value.send (receiver : Value) (selector : String) (args : List Value) : Except OperatorError Value :=
  match Operator.ofSelector? selector with
  | none => .error (.undefinedMethod selector receiver.className)
  | some op =>
    match op, args with
    | .unary op, [] => op.eval receiver
    | .binary op, [arg] => op.eval receiver arg
    | op, args => .error (.wrongArity selector op.arity args.length)

end ScalarOps
