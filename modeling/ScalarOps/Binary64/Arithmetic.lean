import ScalarOps.Word
import ScalarOps.Binary64.Round

/-! Arithmetic of doubles. Each operation computes its exact result on quanta and rounds it once; where no number is
    the answer the result is NaN. -/

namespace ScalarOps
namespace Binary64

/-- The double nearest to a signed number of quanta; `zeroNeg` is the sign that an exact zero takes. -/
def ofQuanta (zeroNeg : Bool) (n : Int) : Binary64 :=
  round (if n = 0 then zeroNeg else decide (n < 0)) n.natAbs 1

/-- The double nearest to an integer; 0 gives positive zero. -/
def ofInt (n : Int) : Binary64 := ofQuanta false (n * unit)

/-- The double of a word. -/
def ofWord (n : Word) : Binary64 := ofInt n.toInt

/-- The number with its sign bit turned, also that of a zero or of a NaN. -/
def neg : Binary64 → Binary64
  | nan n => nan { n with neg := !n.neg }
  | inf s => inf !s
  | finite s m => finite (!s) m

/-- The rounded sum. An exact zero is negative only if both terms are. -/
def add : Binary64 → Binary64 → Binary64
  | nan _, _ | _, nan _ => quietNaN
  | inf s, inf t => if s = t then inf s else quietNaN
  | inf s, finite .. => inf s
  | finite .., inf t => inf t
  | finite s a, finite t b => ofQuanta (s && t) (signed s a.quanta + signed t b.quanta)

/-- The rounded difference. -/
def sub (x y : Binary64) : Binary64 := x.add y.neg

/-- The rounded product; zero times infinity has none. -/
def mul : Binary64 → Binary64 → Binary64
  | nan _, _ | _, nan _ => quietNaN
  | inf s, inf t => inf (s != t)
  | inf s, finite t b => if b.code = 0 then quietNaN else inf (s != t)
  | finite s a, inf t => if a.code = 0 then quietNaN else inf (s != t)
  | finite s a, finite t b => round (s != t) (a.quanta * b.quanta) unit

/-- The rounded quotient; a number other than zero divided by zero is infinite. -/
def div : Binary64 → Binary64 → Binary64
  | nan _, _ | _, nan _ => quietNaN
  | inf _, inf _ => quietNaN
  | inf s, finite t _ => inf (s != t)
  | finite s _, inf t => finite (s != t) .zero
  | finite s a, finite t b =>
    if b.code = 0 then if a.code = 0 then quietNaN else inf (s != t)
    else round (s != t) (a.quanta * unit) b.quanta

/-- The remainder of the quotient rounded toward zero. It is exact, and has the sign of the dividend. -/
def rem : Binary64 → Binary64 → Binary64
  | nan _, _ | _, nan _ => quietNaN
  | inf _, _ => quietNaN
  | finite s a, inf _ => finite s a
  | finite s a, finite _ b => if b.code = 0 then quietNaN else round s (a.quanta % b.quanta) 1

/-- The remainder of the quotient rounded down: a remainder on the other side of zero from the divisor moves
    by one divisor, which rounds once more. -/
def floorMod (x y : Binary64) : Binary64 :=
  let r := x.rem y
  if !r.isZero && r.isBelowZero != y.isBelowZero then r.add y else r

instance : Neg Binary64 := ⟨neg⟩
instance : Add Binary64 := ⟨add⟩
instance : Sub Binary64 := ⟨sub⟩
instance : Mul Binary64 := ⟨mul⟩
instance : Div Binary64 := ⟨div⟩

end Binary64
end ScalarOps
