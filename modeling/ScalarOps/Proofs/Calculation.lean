import ScalarOps.Expression
import ScalarOps.Proofs.Application
import ScalarOps.Proofs.FloorDivision
import ScalarOps.Proofs.Shift

/-! Laws about integers under several operators are stated on calculations, written with the usual signs. For each
    operator one lemma gets the integer of a calculation (`HasInt`) from those of its operands, and a law is then a
    fact about words. -/

namespace ScalarOps

/-- An expression that notes nothing and does not halt. -/
abbrev Calculation := Expr Empty Empty

namespace Calculation

/-! ### Signs -/

/-- An integer as a calculation. -/
def int (n : Word) : Calculation := .lit (.int n)

instance (k : Nat) : OfNat Calculation k := ⟨int (.ofInt k)⟩
instance : Add Calculation := ⟨.binary (.arith .add)⟩
instance : Sub Calculation := ⟨.binary (.arith .sub)⟩
instance : Div Calculation := ⟨.binary (.arith .div)⟩
instance : Mod Calculation := ⟨.binary (.arith .mod)⟩
instance : Pow Calculation Calculation := ⟨.binary (.arith .pow)⟩
instance : AndOp Calculation := ⟨.binary (.bit .and)⟩
instance : OrOp Calculation := ⟨.binary (.bit .or)⟩
instance : XorOp Calculation := ⟨.binary (.bit .xor)⟩
instance : ShiftLeft Calculation := ⟨.binary (.bit .shiftLeft)⟩
instance : ShiftRight Calculation := ⟨.binary (.bit .shiftRight)⟩

/-! ### Integers -/

/-- The value of the calculation is an integer, with all operands evaluated. -/
def HasInt (e : Calculation) (n : Word) : Prop := Expr.outcome e.evalEagerly = (.ok (.int n), [])

/-- Both calculations give an integer, and it is the same one. -/
def SameInt (e f : Calculation) : Prop := ∃ n, e.HasInt n ∧ f.HasInt n

theorem hasInt_int (n : Word) : (int n).HasInt n := rfl

theorem hasInt_ofNat (k : Nat) : (OfNat.ofNat k : Calculation).HasInt (.ofInt k) := rfl

namespace HasInt

variable {l r : Calculation} {a b c : Word}

theorem binary {op : BinaryOp} (hl : l.HasInt a) (hr : r.HasInt b) (h : op.eval (.int a) (.int b) = .ok (.int c)) :
    HasInt (.binary op l r) c := by
  have hl' : l.evalEagerly.exec [] = (.ok (.int a), []) := hl
  have hr' : r.evalEagerly.exec [] = (.ok (.int b), []) := hr
  show (Expr.evalEagerly (.binary op l r)).exec [] = _
  rw [Expr.evalEagerly, Run.exec_bind_ok hl', Run.exec_bind_ok hr', Run.exec_lift, h]
  rfl

theorem add (hl : l.HasInt a) (hr : r.HasInt b) : (l + r).HasInt (a + b) := hl.binary hr rfl

theorem sub (hl : l.HasInt a) (hr : r.HasInt b) : (l - r).HasInt (a - b) := hl.binary hr rfl

theorem div (hl : l.HasInt a) (hr : r.HasInt b) (hb : b ≠ .zero) :
    (l / r).HasInt (.ofInt (a.toInt.fdiv b.toInt)) :=
  hl.binary hr (congrArg Value.ofQuotient (Word.floorDiv?_eq a hb))

theorem mod (hl : l.HasInt a) (hr : r.HasInt b) (hb : b ≠ .zero) :
    (l % r).HasInt (.ofInt (a.toInt.fmod b.toInt)) :=
  hl.binary hr (congrArg Value.ofQuotient (Word.floorMod?_eq a hb))

theorem pow (hl : l.HasInt a) (hr : r.HasInt b) (hb : 0 ≤ b.toInt) : (l ^ r).HasInt (a.pow b.toInt.toNat) :=
  hl.binary hr (congrArg Except.ok (if_neg (Int.not_lt.mpr hb)))

theorem and (hl : l.HasInt a) (hr : r.HasInt b) : (l &&& r).HasInt (a &&& b) := hl.binary hr rfl

theorem or (hl : l.HasInt a) (hr : r.HasInt b) : (l ||| r).HasInt (a ||| b) := hl.binary hr rfl

theorem xor (hl : l.HasInt a) (hr : r.HasInt b) : (l ^^^ r).HasInt (a ^^^ b) := hl.binary hr rfl

theorem shiftLeft (hl : l.HasInt a) (hr : r.HasInt b) (hb : 0 ≤ b.toInt) :
    (l <<< r).HasInt (a.shiftLeftBy b.toInt.toNat) := by
  rw [← Word.shiftLeft_of_nonneg hb]
  exact hl.binary hr rfl

theorem shiftRight (hl : l.HasInt a) (hr : r.HasInt b) (hb : 0 ≤ b.toInt) :
    (l >>> r).HasInt (a.shiftRightBy b.toInt.toNat) := by
  rw [← Word.shiftRight_of_nonneg hb]
  exact hl.binary hr rfl

end HasInt
end Calculation
end ScalarOps
