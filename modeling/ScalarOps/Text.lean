import ScalarOps.Binary64.Text
import ScalarOps.Value

/-! Every value is written so that it reads back as itself, but for a NaN, which reads back as the quiet one. -/

namespace ScalarOps
namespace Value

/-- The characters of a value's text. -/
def toChars : Value → List Char
  | nil => "nil".toList
  | bool b => if b then "true".toList else "false".toList
  | int n => n.toChars
  | float x => x.toChars

/-- The text of a value. -/
def inspect (v : Value) : String := String.ofList v.toChars

end Value
end ScalarOps
