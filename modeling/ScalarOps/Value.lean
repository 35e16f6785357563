import ScalarOps.Word
import ScalarOps.Binary64.Arithmetic

/-! A value is nil, a truth value, an integer word or a double. Two numbers are compared as integers if both are, and
    as doubles otherwise; every other value compares only with itself. Language equality takes 1 for 1.0 and one zero
    for the other, and a NaN for nothing, whereas `=` on `Value` is identity. -/

namespace ScalarOps

/-- The values of the language. -/
inductive Value
  | nil
  | bool (b : Bool)
  | int (n : Word)
  | float (x : Binary64)
deriving DecidableEq

namespace Value

instance : Inhabited Value := ⟨nil⟩

/-! ### Kinds and views -/

/-- Whether the value counts as true: all but nil and false. -/
def isTruthy : Value → Bool
  | nil | bool false => false
  | _ => true

/-- Whether the value is nil. -/
def isNil : Value → Bool
  | nil => true
  | _ => false

/-- Whether the value is a number. -/
def isNumeric : Value → Bool
  | int _ | float _ => true
  | _ => false

/-- The word of an integer. -/
def asInt? : Value → Option Word
  | int n => some n
  | _ => none

/-- A number as a double. -/
def asFloat? : Value → Option Binary64
  | int n => some (.ofWord n)
  | float x => some x
  | _ => none

/-- The truth value, of values that are one. -/
def asBool? : Value → Option Bool
  | bool b => some b
  | _ => none

/-- The name of the value's class. -/
def className : Value → String
  | nil => "NilClass"
  | bool true => "TrueClass"
  | bool false => "FalseClass"
  | int _ => "Integer"
  | float _ => "Float"

theorem isTruthy_iff {v : Value} : v.isTruthy = true ↔ v.isNil = false ∧ v.asBool? ≠ some false := by
  cases v with
  | bool b => cases b <;> decide
  | nil | int _ | float _ => simp [isTruthy, isNil, asBool?]

theorem isNumeric_eq_isSome_asFloat? (v : Value) : v.isNumeric = v.asFloat?.isSome := by
  cases v <;> rfl

end Value

/-! ### Pairs of numbers -/

/-- Two numbers of one kind, on which an arithmetic operator or a comparison works. -/
inductive NumericPair
  | ints (a b : Word)
  | floats (x y : Binary64)
deriving DecidableEq

namespace NumericPair

/-- The numbers of two values: words if both are integers, doubles if one is, none unless both are numbers. -/
def ofValues? : Value → Value → Option NumericPair
  | .int a, .int b => some (ints a b)
  | .int a, .float y => some (floats (.ofWord a) y)
  | .float x, .int b => some (floats x (.ofWord b))
  | .float x, .float y => some (floats x y)
  | _, _ => none

/-- How the two numbers compare, unless one is NaN. -/
def order : NumericPair → Option Ordering
  | ints a b => some (compare a b)
  | floats x y => x.order y

end NumericPair

/-! ### Comparison -/

namespace Value

/-- Language equality: two words, two truth values and nil are equal as they are, doubles by their order, and a
    word is equal to the doubles that its own double is equal to. -/
def equals : Value → Value → Bool
  | int a, int b => a == b
  | float x, float y => x.equals y
  | int a, float y => (Binary64.ofWord a).equals y
  | float x, int b => (Binary64.ofWord b).equals x
  | bool a, bool b => a == b
  | nil, nil => true
  | _, _ => false

/-- How two values compare: numbers by size, any other value only with what it is equal to. -/
def order (l r : Value) : Option Ordering :=
  match NumericPair.ofValues? l r with
  | some pair => pair.order
  | none => if l.equals r then some .eq else none

/-- The result of the three-way comparison: -1, 0 or 1, and nil for values that do not compare. -/
def ofOrder : Option Ordering → Value
  | some .lt => int (.ofInt (-1))
  | some .eq => int .zero
  | some .gt => int .one
  | none => nil

end Value

end ScalarOps
