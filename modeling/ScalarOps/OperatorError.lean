import ScalarOps.Operator

/-! An `OperatorError` says why an operator or a selector gave no value. Its text is its message followed by the class
    in brackets. -/

namespace ScalarOps

/-- The classes of failures in the language. -/
inductive ErrorClass
  | typeError
  | zeroDivisionError
deriving DecidableEq

/-- The name of a class of failures. -/
def ErrorClass.name : ErrorClass → String
  | typeError => "TypeError"
  | zeroDivisionError => "ZeroDivisionError"

/-- Why an operator or a selector gave no value. -/
inductive OperatorError
  | dividedByZero
  | undefinedUnary (op : UnaryOp) (className : String)
  /-- A binary operator is not defined on receivers of a class. -/
  | undefinedBinary (op : BinaryOp) (className : String)
  /-- An argument's class has no conversion into the class that is needed. -/
  | notCoercible (source target : String)
  | notComparable (left right : String)
  | undefinedMethod (selector className : String)
  | wrongArity (selector : String) (expected given : Nat)
deriving DecidableEq

namespace OperatorError

/-- The class of a failure: a type error but for a zero divisor. -/
def errorClass : OperatorError → ErrorClass
  | dividedByZero => .zeroDivisionError
  | _ => .typeError

/-- What went wrong, without the class. -/
def message : OperatorError → String
  | dividedByZero => "divided by 0"
  | undefinedUnary op className => "undefined operator '" ++ op.selector ++ "' for " ++ className
  | undefinedBinary op className => "undefined operator '" ++ op.symbol ++ "' for " ++ className
  | notCoercible source target => source ++ " can't be coerced into " ++ target
  | notComparable left right => "comparison of " ++ left ++ " with " ++ right ++ " failed"
  | undefinedMethod selector className => "undefined method '" ++ selector ++ "' for " ++ className
  | wrongArity selector expected given =>
    "wrong number of arguments to '" ++ selector ++ "' (given " ++ given.repr ++ ", expected "
      ++ expected.repr ++ ")"

/-- The message with the class in brackets. -/
def text (e : OperatorError) : String := e.message ++ " (" ++ e.errorClass.name ++ ")"

end OperatorError

end ScalarOps
