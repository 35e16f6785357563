import ScalarOps.Proofs.Failure
import ScalarOps.Proofs.FloorDivision

/-! A floored division takes a truncated quotient and remainder and may correct them by a decrement or by a sum;
    `floorDiv` and `floorMod` leave these four steps open. Steps that wrap give the division of words. Steps that stop
    at a zero divisor, and at a result that no word holds, give the same answers but for `-2^31` by `-1`. -/

namespace ScalarOps

/-- Why a step of integer arithmetic stops. -/
inductive StepFault
  | zeroDivisor
  /-- The exact result is no word. -/
  | overflow (exact : Int)
deriving DecidableEq

/-- The arithmetic of a floored division, as steps of a computation. -/
structure DivisionSteps (m : Type → Type) where
  quot : Word → Word → m Word
  rem : Word → Word → m Word
  sub : Word → Word → m Word
  add : Word → Word → m Word

namespace DivisionSteps

/-! ### The division over any steps -/

section Any

variable {m : Type → Type} [Monad m] (steps : DivisionSteps m)

/-- The quotient rounded down; a zero divisor has none. -/
def floorDiv (x y : Word) : m (Option Word) :=
  if y.isZero then pure none
  else do
    let quot ← steps.quot x y
    let rem ← steps.rem x y
    some <$> if rem.straddles y then steps.sub quot .one else pure quot

/-- The remainder of the quotient rounded down; a zero divisor has none. -/
def floorMod (x y : Word) : m (Option Word) :=
  if y.isZero then pure none
  else do
    let rem ← steps.rem x y
    some <$> if rem.straddles y then steps.add rem y else pure rem

end Any

/-- Steps that drop the bits that no word holds. -/
def wrapping : DivisionSteps Id where
  quot x y := pure ⟨x.bits.sdiv y.bits⟩
  rem x y := pure ⟨x.bits.srem y.bits⟩
  sub x y := pure (x - y)
  add x y := pure (x + y)

theorem floorDiv_wrapping (x y : Word) : (wrapping.floorDiv x y).run = x.floorDiv? y := rfl

theorem floorMod_wrapping (x y : Word) : (wrapping.floorMod x y).run = x.floorMod? y := rfl

/-! ### Steps that are exact -/

/-- The word of an integer, or a stop if there is none. -/
def exactly (n : Int) : Except StepFault Word :=
  match Word.ofInt? n with
  | some w => .ok w
  | none => .error (.overflow n)

/-- Steps that stop at a zero divisor and at an exact result that is no word. -/
def checked : DivisionSteps (Except StepFault) where
  quot x y := if y.isZero then .error .zeroDivisor else exactly (x.toInt.tdiv y.toInt)
  rem x y := if y.isZero then .error .zeroDivisor else exactly (x.toInt.tmod y.toInt)
  sub x y := exactly (x.toInt - y.toInt)
  add x y := exactly (x.toInt + y.toInt)

variable {x y : Word}

theorem exactly_eq_ok {n : Int} {w : Word} (h : w.toInt = n) : exactly n = .ok w := by
  rw [exactly, Word.ofInt?, ← h, Word.ofInt_toInt, if_pos rfl]

theorem checked_quot (hy : y ≠ .zero) (h : ¬(x = .least ∧ y = .ofInt (-1))) :
    checked.quot x y = .ok ⟨x.bits.sdiv y.bits⟩ := by
  simp only [checked]
  rw [if_neg (fun hz => hy (Word.isZero_iff.mp hz))]
  exact exactly_eq_ok (Word.toInt_sdiv h)

theorem checked_quot_least : checked.quot .least (.ofInt (-1)) = .error (.overflow 2147483648) := by
  decide

theorem checked_rem (x : Word) (hy : y ≠ .zero) : checked.rem x y = .ok ⟨x.bits.srem y.bits⟩ := by
  simp only [checked]
  rw [if_neg (fun hz => hy (Word.isZero_iff.mp hz))]
  exact exactly_eq_ok (Word.toInt_srem x y)

theorem checked_sub_one (hy : y ≠ .zero) (h : ¬(x = .least ∧ y = .ofInt (-1)))
    (hs : Straddles (x.toInt.tmod y.toInt) y.toInt) :
    checked.sub ⟨x.bits.sdiv y.bits⟩ .one = .ok (⟨x.bits.sdiv y.bits⟩ - .one) := by
  -- The decremented quotient is the floored one, and that one fits.
  have hfloor := (fdiv_fmod_of_straddles (Word.toInt_ne_zero hy) hs).1
  have hfits := Word.toInt_ofInt_fdiv hy h
  have hone : Word.one.toInt = 1 := rfl
  simp only [checked]
  refine exactly_eq_ok ?_
  rw [Word.toInt_sub, Word.toInt_sdiv h, hone, ← hfloor, ← Word.toInt_ofInt, hfits]

theorem checked_add (hy : y ≠ .zero) (hs : Straddles (x.toInt.tmod y.toInt) y.toInt) :
    checked.add ⟨x.bits.srem y.bits⟩ y = .ok (⟨x.bits.srem y.bits⟩ + y) := by
  have hfloor := (fdiv_fmod_of_straddles (Word.toInt_ne_zero hy) hs).2
  have hfits := Word.toInt_ofInt_fmod x hy
  simp only [checked]
  refine exactly_eq_ok ?_
  rw [Word.toInt_add, Word.toInt_srem, ← hfloor, ← Word.toInt_ofInt, hfits]

theorem straddles_srem_iff : (⟨x.bits.srem y.bits⟩ : Word).straddles y = true ↔
    Straddles (x.toInt.tmod y.toInt) y.toInt := by
  rw [Word.straddles_iff, Word.toInt_srem]

/-! ### The division by exact steps -/

/-- A correction of an exact result is exact, if its step is where it is made. -/
theorem correct_checked {w v : Word} {step : Except StepFault Word} {c : Bool}
    (h : c = true → step = .ok v) :
    (some <$> if c = true then step else .ok w) = .ok (some (if c = true then v else w)) := by
  cases c with
  | false => rfl
  | true =>
    rw [if_pos rfl, h rfl, if_pos rfl]
    rfl

/-- The exact steps give the quotient of words, except that they stop at the quotient of `-2^31` by `-1`. -/
theorem floorDiv_checked (x y : Word) : checked.floorDiv x y =
    if x = .least ∧ y = .ofInt (-1) then .error (.overflow 2147483648) else .ok (x.floorDiv? y) := by
  by_cases hy : y = .zero
  · -- The zero divisor is answered before any step is taken.
    subst hy
    rw [if_neg (fun h => absurd h.2 (by decide))]
    rfl
  by_cases h : x = .least ∧ y = .ofInt (-1)
  · rw [if_pos h, h.1, h.2, floorDiv, if_neg (by decide), checked_quot_least]
    rfl
  have hz : ¬y.isZero = true := fun hz => hy (Word.isZero_iff.mp hz)
  rw [if_neg h, floorDiv, if_neg hz, checked_quot hy h, checked_rem x hy, Word.floorDiv?, if_neg hz]
  exact correct_checked fun hs => checked_sub_one hy h (straddles_srem_iff.mp hs)

theorem floorMod_checked (x y : Word) : checked.floorMod x y = .ok (x.floorMod? y) := by
  by_cases hy : y = .zero
  · subst hy
    rfl
  have hz : ¬y.isZero = true := fun hz => hy (Word.isZero_iff.mp hz)
  rw [floorMod, if_neg hz, checked_rem x hy, Word.floorMod?, if_neg hz]
  exact correct_checked fun hs => checked_add hy (straddles_srem_iff.mp hs)

end DivisionSteps

/-! ### The floored pair -/

namespace Word

variable {x y : Word}

/-- Quotient and remainder make up the dividend, whatever bits the quotient lost. -/
theorem ofInt_fdiv_mul_add_ofInt_fmod (x y : Word) :
    ofInt (x.toInt.fdiv y.toInt) * y + ofInt (x.toInt.fmod y.toInt) = x := by
  have hdivision := Int.mul_fdiv_add_fmod x.toInt y.toInt
  calc ofInt (x.toInt.fdiv y.toInt) * y + ofInt (x.toInt.fmod y.toInt)
      = ofInt (y.toInt * x.toInt.fdiv y.toInt + x.toInt.fmod y.toInt) := by
        rw [ofInt_add, Int.mul_comm, ofInt_mul, ofInt_toInt]
    _ = x := by rw [hdivision, ofInt_toInt]

/-- Division of words rounds down, and the quotient of `-2^31` by `-1` is the only one that no word holds. No zero
    divisor reaches a step of the division, and every step but that one is exact. -/
theorem division_floored_by_exact_steps (x y : Word) :
    (x.floorDiv? y = none ↔ y = zero) ∧ (x.floorMod? y = none ↔ y = zero) ∧
    (y ≠ zero → ∃ q r, x.floorDiv? y = some q ∧ x.floorMod? y = some r ∧
      r.toInt = x.toInt - y.toInt * ⌊(x.toInt : ℚ) / y.toInt⌋ ∧
      (r.toInt = 0 ∨ (r.toInt < 0 ↔ y.toInt < 0)) ∧ |r.toInt| < |y.toInt| ∧
      q.toInt = (if x = least ∧ y = ofInt (-1) then -2147483648 else ⌊(x.toInt : ℚ) / y.toInt⌋) ∧
      q * y + r = x) ∧
    (DivisionSteps.wrapping.floorDiv x y).run = x.floorDiv? y ∧
    (DivisionSteps.wrapping.floorMod x y).run = x.floorMod? y ∧
    DivisionSteps.checked.floorDiv x y = (if x = least ∧ y = ofInt (-1) then .error (.overflow 2147483648)
      else .ok (x.floorDiv? y)) ∧
    DivisionSteps.checked.floorMod x y = .ok (x.floorMod? y) := by
  refine ⟨floorDiv?_eq_none_iff, floorMod?_eq_none_iff, fun hy => ?_, DivisionSteps.floorDiv_wrapping x y,
    DivisionSteps.floorMod_wrapping x y, DivisionSteps.floorDiv_checked x y, DivisionSteps.floorMod_checked x y⟩
  have hy' := toInt_ne_zero hy
  have hrem := toInt_ofInt_fmod x hy
  refine ⟨ofInt (x.toInt.fdiv y.toInt), ofInt (x.toInt.fmod y.toInt), floorDiv?_eq x hy, floorMod?_eq x hy,
    ?_, ?_, ?_, ?_, ofInt_fdiv_mul_add_ofInt_fmod x y⟩
  · rw [hrem, fmod_eq_sub_mul_floor x.toInt hy']
  · rw [hrem]
    exact fmod_side x.toInt hy'
  · rw [hrem, Int.abs_eq_natAbs, Int.abs_eq_natAbs]
    exact_mod_cast natAbs_fmod_lt x.toInt hy'
  · by_cases h : x = least ∧ y = ofInt (-1)
    · rw [if_pos h, h.1, h.2]
      rfl
    · rw [if_neg h, toInt_ofInt_fdiv hy h, floor_div_eq_fdiv x.toInt hy']

/-- The quotient of `-2^31` by 3 is corrected down and its remainder up, and both together make up `-2^31` again. -/
theorem division_of_least_by_three : ofInt 3 ≠ zero ∧ ∃ q r, least.floorDiv? (ofInt 3) = some q ∧
    least.floorMod? (ofInt 3) = some r ∧ q.toInt = -715827883 ∧ r.toInt = 1 ∧ q * ofInt 3 + r = least := by
  have hne : ofInt 3 ≠ zero := by decide
  obtain ⟨-, -, hpair, -⟩ := division_floored_by_exact_steps least (ofInt 3)
  obtain ⟨q, r, hq, hr, -, -, -, -, hdividend⟩ := hpair hne
  have hq' : some q = some (ofInt (-715827883)) := hq.symm.trans (by decide)
  have hr' : some r = some (ofInt 1) := hr.symm.trans (by decide)
  cases hq'
  cases hr'
  exact ⟨hne, _, _, hq, hr, rfl, rfl, hdividend⟩

end Word
end ScalarOps
