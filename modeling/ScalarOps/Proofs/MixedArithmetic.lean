import ScalarOps.Proofs.FlooredRemainder

/-! An integer may be given to an arithmetic operator as a word or as its double. A sum, a difference, a product or a
    remainder has the same value on both as long as the exact one fits a word. A quotient of doubles is rounded, but
    not as far as the next integer, so its floor is the quotient of the words. -/

namespace ScalarOps

open Binary64

variable {a b : Word} {l r : Value} {op : ArithOp} {n : Int}

/-- The values that give an integer: its word and its double. -/
def Word.GivenAs (n : Word) (v : Value) : Prop := v = .int n ∨ v = .float (.ofWord n)

/-- The exact value of a sum, a difference or a product of integers. -/
def ArithOp.onIntegers? : ArithOp → Int → Int → Option Int
  | add, m, n => some (m + n)
  | sub, m, n => some (m - n)
  | mul, m, n => some (m * n)
  | _, _, _ => none

/-! ### The two ways -/

theorem Word.GivenAs.asFloat? (h : a.GivenAs l) : l.asFloat? = some (ofWord a) := by
  rcases h with rfl | rfl <;> rfl

/-- With a double among the operands, an operator works on the doubles of both integers. -/
theorem BinaryOp.eval_arith_of_givenAs (op : ArithOp) (hl : a.GivenAs l) (hr : b.GivenAs r)
    (hdouble : ¬(l = .int a ∧ r = .int b)) :
    (arith op).eval l r = .ok (.float (op.onDoubles (ofWord a) (ofWord b))) := by
  refine eval_arith_floats op hl.asFloat? hr.asFloat? ?_
  rcases hl with rfl | rfl
  · rcases hr with rfl | rfl
    · exact absurd ⟨rfl, rfl⟩ hdouble
    · exact Or.inr rfl
  · exact Or.inl rfl

theorem ArithOp.onWords_of_onIntegers? (h : op.onIntegers? a.toInt b.toInt = some n) :
    op.onWords a b = .ok (.int (.ofInt n)) := by
  cases op with
  | add | sub | mul =>
    obtain rfl := Option.some.inj h
    simp only [onWords, Word.ofInt_add, Word.ofInt_sub, Word.ofInt_mul, Word.ofInt_toInt]
  | div | mod | pow => cases h

theorem ArithOp.roundsTo_onDoubles (h : op.onIntegers? a.toInt b.toInt = some n) :
    RoundsTo n (op.onDoubles (ofWord a) (ofWord b)) := by
  obtain ⟨s, x, hx, hxa⟩ := exists_ofWord_eq a
  obtain ⟨t, y, hy, hyb⟩ := exists_ofWord_eq b
  rw [hx, hy]
  cases op with
  | add =>
    obtain rfl := Option.some.inj h
    rw [Int.cast_add, ← hxa, ← hyb]
    exact roundsTo_add s t x y
  | sub =>
    obtain rfl := Option.some.inj h
    rw [Int.cast_sub, ← hxa, ← hyb]
    exact roundsTo_sub s t x y
  | mul =>
    obtain rfl := Option.some.inj h
    rw [Int.cast_mul, ← hxa, ← hyb]
    exact roundsTo_mul s t x y
  | div | mod | pow => cases h

theorem Value.equals_of_number? {w : Word} {x : Binary64} (hw : w.toInt = n) (hx : x.number? = some (.ofRat n)) :
    (int w).equals (float x) = true :=
  equals_iff.mpr (Or.inl ⟨_, by rw [number?, hw], hx⟩)

/-! ### Quotients and remainders -/

theorem exists_ofWord_eq_of_ne_zero (hb : b ≠ .zero) :
    ∃ t y, ofWord b = finite t y ∧ finiteValue t y = b.toInt ∧ y.code ≠ 0 := by
  obtain ⟨t, y, hy, hyb⟩ := exists_ofWord_eq b
  refine ⟨t, y, hy, hyb, fun h => Word.toInt_ne_zero hb ?_⟩
  rw [finiteValue_eq_zero_iff.mpr h] at hyb
  exact_mod_cast hyb.symm

theorem number?_floorMod_ofWord (a : Word) (hb : b ≠ .zero) :
    ((ofWord a).floorMod (ofWord b)).number? = some (.ofRat (a.toInt.fmod b.toInt)) := by
  obtain ⟨s, x, hx, hxa⟩ := exists_ofWord_eq a
  obtain ⟨t, y, hy, hyb, hne⟩ := exists_ofWord_eq_of_ne_zero hb
  have hvalue : flooredRemainder (finiteValue s x) (finiteValue t y) = (a.toInt.fmod b.toInt : Int) := by
    rw [hxa, hyb, flooredRemainder, floor_div_eq_fdiv _ (Word.toInt_ne_zero hb), Int.fmod_def, Int.cast_sub,
      Int.cast_mul]
  have hrounds := roundsTo_floorMod s t x hne
  rw [hvalue] at hrounds
  have hlt := natAbs_fmod_lt a.toInt (Word.toInt_ne_zero hb)
  obtain ⟨hlo, hhi⟩ := b.toInt_bounds
  rw [hx, hy]
  exact hrounds.number?_int (by omega)

/-- Quotients of integers that fit words are far above the subnormal numbers. -/
theorem least_normal_le_quotient {m n : Int} (hm : m ≠ 0) (hn : n ≠ 0) (hlt : n.natAbs ≤ 2 ^ 31) :
    codeValue (2 ^ 52) ≤ |(m : ℚ) / n| := by
  have hnormal : codeValue (2 ^ 52) ≤ 1 / 2 ^ 31 := by
    have hquanta : codeQuanta (2 ^ 52) = 2 ^ 52 := by norm_num [codeQuanta]
    have hunit : 2 ^ 52 * 2 ^ 31 ≤ unit := by
      rw [unit_eq, ← Nat.pow_add]
      exact pow_le_pow_right₀ one_le_two (by omega)
    rw [codeValue, hquanta, div_le_div_iff₀ unit_cast_pos (by positivity), one_mul]
    exact_mod_cast hunit
  have hm' : (1 : ℚ) ≤ |(m : ℚ)| := by exact_mod_cast Int.one_le_abs hm
  have hn' : |(n : ℚ)| ≤ 2 ^ 31 := by
    rw [← Int.cast_abs, ← Nat.cast_natAbs]
    exact_mod_cast hlt
  have hpos : 0 < |(n : ℚ)| := abs_pos.mpr (Int.cast_ne_zero.mpr hn)
  rw [abs_div]
  exact hnormal.trans (div_le_div₀ (abs_nonneg _) hm' hpos hn')

/-- The quotient of the doubles of two words is rounded, and its floor is the quotient of the integers rounded down. -/
theorem exists_div_ofWord_eq (a : Word) (hb : b ≠ .zero) :
    ∃ q, (ofWord a / ofWord b).number? = some (.ofRat q) ∧ ⌊q⌋ = a.toInt.fdiv b.toInt := by
  obtain ⟨s, x, hx, hxa⟩ := exists_ofWord_eq a
  obtain ⟨t, y, hy, hyb, hne⟩ := exists_ofWord_eq_of_ne_zero hb
  have hb' := Word.toInt_ne_zero hb
  obtain ⟨halo, hahi⟩ := a.toInt_bounds
  obtain ⟨hblo, hbhi⟩ := b.toInt_bounds
  have hrounds := roundsTo_div s t x hne
  rw [hxa, hyb] at hrounds
  rw [hx, hy]
  by_cases hinexact : a.toInt.fmod b.toInt = 0
  · have hquot : (a.toInt : ℚ) / b.toInt = (a.toInt.fdiv b.toInt : Int) := by
      rw [div_eq_fdiv_add _ hb', hinexact, Int.natAbs_zero, Nat.cast_zero, zero_div, add_zero]
    have habs := Int.natAbs_fdiv_le_natAbs a.toInt b.toInt
    rw [hquot] at hrounds
    exact ⟨_, hrounds.number?_int (by omega), Int.floor_intCast _⟩
  -- An inexact quotient is rounded by less than its distance from the integers around it.
  · have ha' : a.toInt ≠ 0 := fun h => hinexact (by rw [h, Int.zero_fmod])
    obtain ⟨m, hm⟩ := exists_magnitude (show a.toInt.natAbs < 2 ^ 53 by omega)
    have hle : |(a.toInt : ℚ) / b.toInt| ≤ codeValue m.code := by
      rw [codeValue_of_quanta hm, Nat.cast_natAbs, Int.cast_abs, abs_div]
      exact div_le_self (abs_nonneg _) (by exact_mod_cast Int.one_le_abs hb')
    obtain ⟨neg, c, hc, herror⟩ := hrounds.error_le (least_normal_le_quotient ha' hb' (by omega)) hle
    exact ⟨_, by rw [hc, number?], floor_eq_fdiv_of_near hb' hinexact (by omega) herror⟩

/-! ### All operators -/

/-- One double is the result of all three ways to give the operands with a double among them. The result on words is
    equal to it, or for a quotient the floor of it, as long as the exact one fits a word. -/
theorem ArithOp.words_and_doubles_agree (op : ArithOp) (a b : Word) :
    ∃ x, (∀ l r, a.GivenAs l → b.GivenAs r → ¬(l = .int a ∧ r = .int b) →
        (BinaryOp.arith op).eval l r = .ok (.float x)) ∧
      (∀ n, op.onIntegers? a.toInt b.toInt = some n → -2147483648 ≤ n → n < 2147483648 →
        ∃ w, w.toInt = n ∧ (BinaryOp.arith op).eval (.int a) (.int b) = .ok (.int w) ∧
          (Value.int w).equals (.float x) = true) ∧
      (op = mod → b ≠ .zero →
        ∃ w, (BinaryOp.arith op).eval (.int a) (.int b) = .ok (.int w) ∧ (Value.int w).equals (.float x) = true) ∧
      (op = div → b ≠ .zero → ¬(a = .least ∧ b = .ofInt (-1)) →
        ∃ w q, (BinaryOp.arith op).eval (.int a) (.int b) = .ok (.int w) ∧ x.number? = some (.ofRat q) ∧
          w.toInt = ⌊q⌋) := by
  have heval : (BinaryOp.arith op).eval (.int a) (.int b) = op.onWords a b := rfl
  refine ⟨op.onDoubles (ofWord a) (ofWord b), fun l r hl hr h => BinaryOp.eval_arith_of_givenAs op hl hr h, ?_, ?_, ?_⟩
  · intro n hn hlo hhi
    have hfits := Word.toInt_ofInt_of_fits hlo hhi
    refine ⟨.ofInt n, hfits, heval.trans (onWords_of_onIntegers? hn), Value.equals_of_number? hfits ?_⟩
    exact (roundsTo_onDoubles hn).number?_int (by omega)
  · rintro rfl hb
    refine ⟨.ofInt (a.toInt.fmod b.toInt), ?_, ?_⟩
    · rw [heval, onWords, Word.floorMod?_eq a hb]
      rfl
    · exact Value.equals_of_number? (Word.toInt_ofInt_fmod a hb) (number?_floorMod_ofWord a hb)
  · rintro rfl hb hfits
    obtain ⟨q, hq, hfloor⟩ := exists_div_ofWord_eq a hb
    refine ⟨.ofInt (a.toInt.fdiv b.toInt), q, ?_, hq, ?_⟩
    · rw [heval, onWords, Word.floorDiv?_eq a hb]
      rfl
    · rw [hfloor, Word.toInt_ofInt_fdiv hb hfits]

/-- The double quotient of the greatest word by the least one lies just above -1, and its floor is the word quotient. -/
theorem ArithOp.greatest_div_least_agree : Word.least ≠ .zero ∧ ¬(Word.greatest = .least ∧ Word.least = .ofInt (-1)) ∧
    ∃ x w q, (BinaryOp.arith div).eval (.int .greatest) (.int .least) = .ok (.int w) ∧
      (BinaryOp.arith div).eval (.float (.ofWord .greatest)) (.int .least) = .ok (.float x) ∧
      x.number? = some (.ofRat q) ∧ w.toInt = ⌊q⌋ := by
  have hne : Word.least ≠ .zero := by decide
  have hfits : ¬(Word.greatest = .least ∧ Word.least = .ofInt (-1)) := by decide
  obtain ⟨x, hforms, -, -, hdiv⟩ := ArithOp.words_and_doubles_agree div .greatest .least
  obtain ⟨w, q, hw, hx, hfloor⟩ := hdiv rfl hne hfits
  exact ⟨hne, hfits, x, w, q, hw, hforms _ _ (Or.inr rfl) (Or.inl rfl) (fun h => Value.noConfusion h.1), hx, hfloor⟩

end ScalarOps
