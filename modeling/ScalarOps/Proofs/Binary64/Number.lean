import Mathlib.Algebra.Order.Ring.WithTop
import Mathlib.Data.Int.ConditionallyCompleteOrder
import Mathlib.Order.Compare
import ScalarOps.Binary64.Arithmetic
import ScalarOps.Proofs.Binary64.Rounding

/-! A finite double stands for a rational number, an infinity for one of the two ends beyond all of them, and a NaN
    for nothing. The order of doubles is the order of these numbers (`order_eq_cmp`), and the double of a word stands
    for the word's integer (`number?_ofWord`). -/

namespace ScalarOps

/-- The rational numbers with an infinity at both ends. -/
abbrev ExactNumber := WithBot (WithTop ℚ)

namespace ExactNumber

/-- A rational number among the exact ones. -/
def ofRat (q : ℚ) : ExactNumber := ((q : WithTop ℚ) : WithBot (WithTop ℚ))

theorem ofRat_strictMono : StrictMono ofRat :=
  WithBot.coe_strictMono.comp WithTop.coe_strictMono

theorem bot_lt_ofRat (q : ℚ) : ⊥ < ofRat q := WithBot.bot_lt_coe _

theorem ofRat_lt_top (q : ℚ) : ofRat q < ⊤ := WithBot.coe_lt_coe.mpr (WithTop.coe_lt_top q)

theorem bot_lt_end : (⊥ : ExactNumber) < ⊤ := (bot_lt_ofRat 0).trans (ofRat_lt_top 0)

end ExactNumber

open ExactNumber

/-! ### Signed codes -/

/-- The number of a code with a sign. -/
def signedValue (z : Int) : ℚ := if z < 0 then -Binary64.codeValue z.natAbs else Binary64.codeValue z.natAbs

theorem signedValue_signed (neg : Bool) (code : Nat) :
    signedValue (Binary64.signed neg code) = if neg then -Binary64.codeValue code else Binary64.codeValue code := by
  unfold signedValue Binary64.signed
  cases neg with
  | false => simp
  | true =>
    by_cases h : code = 0
    · simp [h]
    · have hneg : -(code : Int) < 0 := by omega
      rw [if_pos rfl, if_pos hneg, if_pos rfl, Int.natAbs_neg, Int.natAbs_natCast]

theorem Binary64.codeValue_pos {code : Nat} (h : 0 < code) : 0 < codeValue code := by
  simpa using codeValue_strictMono h

theorem Binary64.codeValue_nonneg (code : Nat) : 0 ≤ codeValue code := by
  simpa using codeValue_strictMono.monotone (Nat.zero_le code)

theorem signedValue_strictMono : StrictMono signedValue := by
  intro a b hab
  unfold signedValue
  by_cases ha : a < 0 <;> by_cases hb : b < 0
  · rw [if_pos ha, if_pos hb]
    exact neg_lt_neg (Binary64.codeValue_strictMono (by omega))
  · rw [if_pos ha, if_neg hb]
    have hpos : 0 < Binary64.codeValue a.natAbs := Binary64.codeValue_pos (by omega)
    have hnonneg := Binary64.codeValue_nonneg b.natAbs
    linarith
  · omega
  · rw [if_neg ha, if_neg hb]
    exact Binary64.codeValue_strictMono (by omega)

namespace Binary64

/-! ### Doubles -/

/-- The rational number of a finite double. -/
def finiteValue (neg : Bool) (m : Magnitude) : ℚ := signed neg m.quanta / unit

/-- The number that a double stands for; a NaN stands for none. -/
def number? : Binary64 → Option ExactNumber
  | nan _ => none
  | inf neg => some (if neg then ⊥ else ⊤)
  | finite neg m => some (ofRat (finiteValue neg m))

theorem finiteValue_eq (neg : Bool) (m : Magnitude) : finiteValue neg m = signedValue (signed neg m.code) := by
  rw [signedValue_signed, finiteValue, m.quanta_eq]
  cases neg with
  | false => rfl
  | true =>
    simp only [signed, if_pos, codeValue]
    rw [Int.cast_neg, Int.cast_natCast, neg_div]

theorem compare_signed (s t : Bool) (a b : Magnitude) :
    compare (signed s a.code) (signed t b.code) = cmp (ofRat (finiteValue s a)) (ofRat (finiteValue t b)) := by
  rw [ofRat_strictMono.cmp_map_eq, finiteValue_eq, finiteValue_eq, signedValue_strictMono.cmp_map_eq,
    cmp_eq_compareOfLessAndEq]
  rfl

theorem order_eq_cmp {x y : Binary64} {p q : ExactNumber} (hx : x.number? = some p) (hy : y.number? = some q) :
    x.order y = some (cmp p q) := by
  cases x with
  | nan _ => cases hx
  | inf s =>
    obtain rfl := Option.some.inj hx
    cases y with
    | nan _ => cases hy
    | inf t =>
      obtain rfl := Option.some.inj hy
      cases s <;> cases t
      · exact congrArg some (cmp_self_eq_eq ⊤).symm
      · exact congrArg some bot_lt_end.cmp_eq_gt.symm
      · exact congrArg some bot_lt_end.cmp_eq_lt.symm
      · exact congrArg some (cmp_self_eq_eq ⊥).symm
    | finite t b =>
      obtain rfl := Option.some.inj hy
      cases s
      · exact congrArg some (ofRat_lt_top _).cmp_eq_gt.symm
      · exact congrArg some (bot_lt_ofRat _).cmp_eq_lt.symm
  | finite s a =>
    obtain rfl := Option.some.inj hx
    cases y with
    | nan _ => cases hy
    | inf t =>
      obtain rfl := Option.some.inj hy
      cases t
      · exact congrArg some (ofRat_lt_top _).cmp_eq_lt.symm
      · exact congrArg some (bot_lt_ofRat _).cmp_eq_gt.symm
    | finite t b =>
      obtain rfl := Option.some.inj hy
      exact congrArg some (compare_signed s t a b)

theorem order_eq_none {x y : Binary64} (h : x.number? = none ∨ y.number? = none) : x.order y = none := by
  cases x <;> cases y <;> simp [number?] at h <;> rfl

/-! ### Integers -/

theorem exists_magnitude {n : Nat} (hn : n < 2 ^ 53) : ∃ m : Magnitude, m.quanta = n * unit := by
  obtain ⟨code, hcode⟩ := exists_code hn 1074
  rw [← unit_eq] at hcode
  have hbound : n < 2 ^ 1024 := hn.trans_le (pow_le_pow_right₀ (by omega) (by omega))
  have hlt : code < 0x7FF0000000000000 := by
    rw [← codeQuanta_lt_iff, codeQuanta_infinity, hcode]
    exact Nat.mul_lt_mul_of_pos_right hbound unit_pos
  exact ⟨⟨code, hlt⟩, by rw [Magnitude.quanta_eq, hcode]⟩

/-- The double of an integer of at most 53 bits stands for the integer, and is negative only if the integer is. -/
theorem ofInt_eq_finite {n : Int} (hn : n.natAbs < 2 ^ 53) :
    ∃ m : Magnitude, ofInt n = finite (decide (n < 0)) m ∧ m.quanta = n.natAbs * unit := by
  obtain ⟨m, hm⟩ := exists_magnitude hn
  refine ⟨m, ?_, hm⟩
  have hsign : (if n * (unit : Int) = 0 then false else decide (n * (unit : Int) < 0)) = decide (n < 0) := by
    have hpos : (0 : Int) < unit := by exact_mod_cast unit_pos
    by_cases h0 : n = 0
    · simp [h0]
    · rw [if_neg (mul_ne_zero h0 hpos.ne'), decide_eq_decide, mul_neg_iff]
      constructor
      · rintro (⟨-, h⟩ | ⟨h, -⟩)
        · exact absurd h hpos.not_gt
        · exact h
      · exact fun h => Or.inr ⟨h, hpos⟩
  rw [ofInt, ofQuanta, hsign]
  apply round_quanta _ Nat.one_pos
  rw [Int.natAbs_mul, Int.natAbs_natCast, Nat.mul_one, hm]

theorem signed_natAbs (n : Int) : signed (decide (n < 0)) n.natAbs = n := by
  unfold signed
  by_cases h : n < 0
  · simp only [h, decide_true, if_true]
    omega
  · simp only [h, decide_false, Bool.false_eq_true, if_false]
    omega

theorem signed_mul (neg : Bool) (a b : Nat) : signed neg (a * b) = signed neg a * b := by
  cases neg
  · exact Int.natCast_mul a b
  · rw [signed, if_pos rfl, signed, if_pos rfl, Int.natCast_mul, Int.neg_mul]

theorem finiteValue_of_quanta {n : Int} {m : Magnitude} (hm : m.quanta = n.natAbs * unit) :
    finiteValue (decide (n < 0)) m = n := by
  rw [finiteValue, hm, signed_mul, signed_natAbs, Int.cast_mul, Int.cast_natCast,
    mul_div_cancel_right₀ _ unit_cast_pos.ne']

theorem exists_ofWord_eq (n : Word) : ∃ neg m, ofWord n = finite neg m ∧ finiteValue neg m = n.toInt := by
  have hn : n.toInt.natAbs < 2 ^ 53 := by
    obtain ⟨hlo, hhi⟩ := n.toInt_bounds
    omega
  obtain ⟨m, hm, hquanta⟩ := ofInt_eq_finite hn
  exact ⟨_, m, hm, finiteValue_of_quanta hquanta⟩

theorem number?_ofWord (n : Word) : (ofWord n).number? = some (ofRat n.toInt) := by
  obtain ⟨neg, m, hm, hvalue⟩ := exists_ofWord_eq n
  rw [hm, number?, hvalue]

end Binary64
end ScalarOps
