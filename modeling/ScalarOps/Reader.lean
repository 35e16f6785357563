import ScalarOps.Decimal.Reader
import ScalarOps.Value

/-! `Value.read?` reads the text of a value: a name, an integer in decimal digits that fits a word, or a decimal
    number with a point, which is read as the nearest double and keeps its sign even at zero. -/

namespace ScalarOps
namespace Value

/-- A number whose sign has been read. -/
def readUnsigned? (neg : Bool) (cs : List Char) : Option Value :=
  match Decimal.readNat? cs with
  | some n => (Word.ofInt? (Binary64.signed neg n)).map int
  | none => (Decimal.read? cs).map fun d => float (d.nearest neg)

/-- A number behind an optional minus sign. -/
def readNumber? : List Char → Option Value
  | '-' :: cs => readUnsigned? true cs
  | cs => readUnsigned? false cs

/-- The values that are written by name. -/
def named : List (String × Value) :=
  [("nil", nil), ("true", bool true), ("false", bool false), ("NaN", float .quietNaN),
    ("Infinity", float (.inf false)), ("-Infinity", float (.inf true))]

/-- The value that a text is written for. -/
def read? (text : String) : Option Value :=
  match named.lookup text with
  | some v => some v
  | none => readNumber? text.toList

end Value
end ScalarOps
