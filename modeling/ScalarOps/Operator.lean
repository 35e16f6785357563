/-! The operators fall into families that treat their operands alike: arithmetic, relations, bit operations, the two
    connectives, and those that are defined everywhere. All but the connectives have a selector, by which they can be
    sent to a value like a method. -/

namespace ScalarOps

/-- Operators on numbers that give a number. -/
inductive ArithOp
  | add | sub | mul | div | mod | pow
deriving DecidableEq

/-- Operators on numbers that give a truth value. -/
inductive RelationOp
  | lt | le | gt | ge
deriving DecidableEq

/-- Operators on the bits of integers. -/
inductive BitOp
  | and | or | xor | shiftLeft | shiftRight
deriving DecidableEq

/-- The connectives, which give one of their operands and may leave the right one unevaluated. -/
inductive Connective
  | and | or
deriving DecidableEq

/-- The operators with one operand. -/
inductive UnaryOp
  | plus | neg | bitNot | not
deriving DecidableEq

/-- The operators with two operands, by family. -/
inductive BinaryOp
  | arith (op : ArithOp)
  | eq | notEq
  | relation (op : RelationOp)
  | cmp
  | connective (op : Connective)
  | bit (op : BitOp)
deriving DecidableEq

/-! ### Unary operators -/

namespace UnaryOp

/-- The unary operators. -/
def all : List UnaryOp := [plus, neg, bitNot, not]

/-- How a unary operator is written. -/
def symbol : UnaryOp → String
  | plus => "+"
  | neg => "-"
  | bitNot => "~"
  | not => "!"

/-- How the operator is sent to a value; the signs are told from addition and subtraction by an at sign. -/
def selector : UnaryOp → String
  | plus => "+@"
  | neg => "-@"
  | bitNot => "~"
  | not => "!"

end UnaryOp

/-! ### Binary operators -/

/-- How an arithmetic operator is written. -/
def ArithOp.symbol : ArithOp → String
  | add => "+"
  | sub => "-"
  | mul => "*"
  | div => "/"
  | mod => "%"
  | pow => "**"

/-- How a relation is written. -/
def RelationOp.symbol : RelationOp → String
  | lt => "<"
  | le => "<="
  | gt => ">"
  | ge => ">="

/-- How a bit operator is written. -/
def BitOp.symbol : BitOp → String
  | and => "&"
  | or => "|"
  | xor => "^"
  | shiftLeft => "<<"
  | shiftRight => ">>"

/-- How a connective is written. -/
def Connective.symbol : Connective → String
  | and => "&&"
  | or => "||"

namespace BinaryOp

/-- The binary operators. -/
def all : List BinaryOp :=
  [arith .add, arith .sub, arith .mul, arith .div, arith .mod, arith .pow,
    eq, notEq, relation .lt, relation .le, relation .gt, relation .ge, cmp,
    connective .and, connective .or,
    bit .and, bit .or, bit .xor, bit .shiftLeft, bit .shiftRight]

/-- How a binary operator is written. -/
def symbol : BinaryOp → String
  | arith op => op.symbol
  | eq => "=="
  | notEq => "!="
  | relation op => op.symbol
  | cmp => "<=>"
  | connective op => op.symbol
  | bit op => op.symbol

/-- Whether the operator may leave its right operand unevaluated. -/
def isShortCircuit : BinaryOp → Bool
  | connective _ => true
  | _ => false

/-- Whether the operator works on the bits of integers only. -/
def isBitwise : BinaryOp → Bool
  | bit _ => true
  | _ => false

/-- Whether the operator is one of the four relations. -/
def isRelational : BinaryOp → Bool
  | relation _ => true
  | _ => false

/-- How the operator is sent to a value; the connectives are not. -/
def selector? (op : BinaryOp) : Option String :=
  if op.isShortCircuit then none else some op.symbol

end BinaryOp

/-! ### Operators by selector -/

/-- The operators with one operand and those with two. -/
inductive Operator
  | unary (op : UnaryOp)
  | binary (op : BinaryOp)
deriving DecidableEq

namespace Operator

/-- The number of arguments beside the receiver when the operator is sent as a method. -/
def arity : Operator → Nat
  | unary _ => 0
  | binary _ => 1

/-- How an operator is written. -/
def symbol : Operator → String
  | unary op => op.symbol
  | binary op => op.symbol

/-- How an operator is sent to a value, if it can be sent. -/
def selector? : Operator → Option String
  | unary op => some op.selector
  | binary op => op.selector?

/-- The operators with one operand, then those with two. -/
def all : List Operator := UnaryOp.all.map unary ++ BinaryOp.all.map binary

/-- The operator that a selector names. -/
def ofSelector? (selector : String) : Option Operator :=
  all.find? fun op => op.selector? == some selector

end Operator

/-! ### The lists are complete -/

theorem UnaryOp.mem_all (op : UnaryOp) : op ∈ all := by
  cases op <;> decide

theorem BinaryOp.mem_all (op : BinaryOp) : op ∈ all := by
  rcases op with op | _ | _ | op | _ | op | op <;> (try cases op) <;> decide

theorem Operator.mem_all (op : Operator) : op ∈ all := by
  rcases op with op | op
  · exact List.mem_append_left _ (List.mem_map_of_mem op.mem_all)
  · exact List.mem_append_right _ (List.mem_map_of_mem op.mem_all)

end ScalarOps
