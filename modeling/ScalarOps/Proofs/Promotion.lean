import ScalarOps.Proofs.Comparison

/-! An operator that meets a word beside a double takes the double of the word instead. It is exact: the exponent is
    the place of the leading bit, and the significand is the magnitude moved up until it has 53 bits
    (`exists_normal_magnitude`). -/

namespace ScalarOps
namespace Binary64

/-! ### Normal form -/

/-- With a significand of 53 bits the place is one below the exponent field. -/
theorem fields_of_split {m : Magnitude} {place sig : Nat} (hcode : m.code = place * 2 ^ 52 + sig) (hlow : 2 ^ 52 ≤ sig)
    (hhigh : sig < 2 ^ 53) : m.exponentField = place + 1 ∧ m.significand = sig := by
  have hfield : m.exponentField = place + 1 := by
    rw [Magnitude.exponentField, hcode]
    omega
  refine ⟨hfield, ?_⟩
  rw [Magnitude.significand, if_neg (by omega), hcode]
  omega

/-- A number of at most 53 bits other than 0, as a normal double: 1023 and the place of its leading bit make the exponent
    field, and its bits, moved up until the leading one is the hidden one, make the significand. -/
theorem exists_normal_magnitude {n : Nat} (hn : n ≠ 0) (hlt : n < 2 ^ 53) :
    ∃ m : Magnitude, m.quanta = n * unit ∧ m.exponentField = 1023 + n.log2 ∧ m.significand = n * 2 ^ (52 - n.log2) := by
  have hplace : n.log2 < 53 := (Nat.log2_lt hn).mpr hlt
  have hlow : 2 ^ 52 ≤ n * 2 ^ (52 - n.log2) := by
    calc 2 ^ 52 = 2 ^ n.log2 * 2 ^ (52 - n.log2) := by rw [← pow_add, show n.log2 + (52 - n.log2) = 52 by omega]
      _ ≤ n * 2 ^ (52 - n.log2) := Nat.mul_le_mul_right _ (Nat.log2_self_le hn)
  have hhigh : n * 2 ^ (52 - n.log2) < 2 ^ 53 := by
    calc n * 2 ^ (52 - n.log2) < 2 ^ (n.log2 + 1) * 2 ^ (52 - n.log2) :=
          Nat.mul_lt_mul_of_pos_right Nat.lt_log2_self (Nat.two_pow_pos _)
      _ = 2 ^ 53 := by rw [← pow_add, show n.log2 + 1 + (52 - n.log2) = 53 by omega]
  have hcode : (1022 + n.log2) * 2 ^ 52 + n * 2 ^ (52 - n.log2) < 0x7FF0000000000000 := by omega
  obtain ⟨hfield, hsig⟩ := fields_of_split (m := ⟨_, hcode⟩) rfl hlow hhigh
  refine ⟨⟨_, hcode⟩, ?_, by omega, hsig⟩
  rw [Magnitude.quanta_eq, codeQuanta_split hhigh.le (Or.inr hlow), unit_eq, Nat.mul_assoc, ← pow_add,
    show 52 - n.log2 + (1022 + n.log2) = 1074 by omega]

theorem ofWord_zero : ofWord .zero = zero := by decide +kernel

/-- The double of a word has the word's sign and stands for its integer; it is normal unless it is 0. -/
theorem exists_ofWord_normal (n : Word) :
    ∃ m, ofWord n = finite (decide (n.toInt < 0)) m ∧ finiteValue (decide (n.toInt < 0)) m = n.toInt ∧
      (n ≠ .zero → m.exponentField = 1023 + n.toInt.natAbs.log2 ∧
        m.significand = n.toInt.natAbs * 2 ^ (52 - n.toInt.natAbs.log2)) := by
  obtain ⟨hlo, hhi⟩ := n.toInt_bounds
  obtain ⟨m, hm, hquanta⟩ := @ofInt_eq_finite n.toInt (by omega)
  refine ⟨m, hm, finiteValue_of_quanta hquanta, fun hn => ?_⟩
  have hne : n.toInt ≠ 0 := fun h => hn (Word.toInt_inj.mp h)
  obtain ⟨m', hquanta', hfields⟩ := @exists_normal_magnitude n.toInt.natAbs (by omega) (by omega)
  rwa [Magnitude.quanta_inj.mp (hquanta.trans hquanta'.symm)]

/-! ### Order -/

theorem order_ofWord (m n : Word) : (ofWord m).order (ofWord n) = some (compare m.toInt n.toInt) :=
  -- Words compare as their exact numbers too, as a pair of integers.
  (order_eq_cmp (number?_ofWord m) (number?_ofWord n)).trans
    (NumericPair.order_eq_cmp (a := .int m) (b := .int n) rfl rfl rfl).symm

theorem ofWord_injective : Function.Injective ofWord := by
  intro m n h
  have hnumber := number?_ofWord m
  rw [h, number?_ofWord, Option.some.injEq] at hnumber
  exact (Word.toInt_inj.mp (ofRat_int_strictMono.injective hnumber)).symm

/-! ### The pair of operands -/

/-- A word beside a double enters the pair as its double, and the other operand enters it with all of its 64 bits. -/
theorem exists_ofValues?_bits (n : Word) (bits : BitVec 64) :
    ∃ x, x.toBits = bits ∧
      NumericPair.ofValues? (.int n) (.float (ofBits bits)) = some (.floats (ofWord n) x) ∧
      NumericPair.ofValues? (.float (ofBits bits)) (.int n) = some (.floats x (ofWord n)) :=
  ⟨ofBits bits, toBits_ofBits bits, rfl, rfl⟩

/-- The double of a word is exact, in normal form and positive at 0, and in the order of the words. Beside a double,
    the pair of operands holds it on the word's side, and the other double with all of its 64 bits, NaN or not. -/
theorem ofWord_exact_and_ordered :
    (∀ n : Word, ∃ m, ofWord n = finite (decide (n.toInt < 0)) m ∧ finiteValue (decide (n.toInt < 0)) m = n.toInt ∧
      (n ≠ .zero → m.exponentField = 1023 + n.toInt.natAbs.log2 ∧
        m.significand = n.toInt.natAbs * 2 ^ (52 - n.toInt.natAbs.log2))) ∧
    ofWord .zero = zero ∧
    Function.Injective ofWord ∧
    (∀ m n : Word, (ofWord m).order (ofWord n) = some (compare m.toInt n.toInt)) ∧
    ∀ (n : Word) (bits : BitVec 64), ∃ x, x.toBits = bits ∧
      NumericPair.ofValues? (.int n) (.float (ofBits bits)) = some (.floats (ofWord n) x) ∧
      NumericPair.ofValues? (.float (ofBits bits)) (.int n) = some (.floats x (ofWord n)) :=
  ⟨exists_ofWord_normal, ofWord_zero, ofWord_injective, order_ofWord, exists_ofValues?_bits⟩

/-- The least word, whose magnitude is no word: the significand of its double is the hidden bit alone. A negative NaN with
    a payload stays what it is beside that double. -/
theorem ofWord_least_beside_nan : Word.least ≠ .zero ∧
    (∃ m, ofWord .least = finite true m ∧ finiteValue true m = -2147483648 ∧ m.exponentField = 1054 ∧
      m.significand = 2 ^ 52) ∧
    ∃ x, x.toBits = 0xFFF8000000000001#64 ∧
      NumericPair.ofValues? (.int .least) (.float (ofBits 0xFFF8000000000001#64)) = some (.floats (ofWord .least) x) ∧
      NumericPair.ofValues? (.float (ofBits 0xFFF8000000000001#64)) (.int .least) = some (.floats x (ofWord .least)) := by
  have hne : Word.least ≠ .zero := by decide
  obtain ⟨hexact, -, -, -, hpair⟩ := ofWord_exact_and_ordered
  obtain ⟨m, hm, hvalue, hfields⟩ := hexact .least
  obtain ⟨hexponent, hsignificand⟩ := hfields hne
  refine ⟨hne, ⟨m, hm, ?_, hexponent, hsignificand⟩, hpair .least _⟩
  have hint : Word.least.toInt = -2147483648 := by decide
  rw [hint] at hvalue
  exact_mod_cast hvalue

end Binary64
end ScalarOps
