import ScalarOps.Proofs.Decimal.Shortest

/-! `IsShortest d code` says that `d` reads as the code with as few digits as possible and is the nearest of those, of
    two the larger; the search gives such a decimal (`isShortest_shortest`). A decimal that reads back with as many
    digits as a neighbour of the magnitude is not between the neighbours (`le_or_succ_le`), so the neighbour on its
    way reads back too. An integer below `10^16` is the shortest decimal of its own double (`isShortest_natural`). -/

namespace ScalarOps

open Binary64

namespace Decimal

variable {d e : Decimal} {code : Nat}

/-- The decimal reads as the code, with the fewest digits of all decimals that do; of these it is the nearest to the
    code's number, and the larger of two that are equally near. -/
structure IsShortest (d : Decimal) (code : Nat) : Prop where
  reads : IsNearestEven d.toRat code
  fewest : ∀ e : Decimal, IsNearestEven e.toRat code → d.digits.length ≤ e.digits.length
  nearest : ∀ e : Decimal, IsNearestEven e.toRat code → e.digits.length = d.digits.length →
    |d.toRat - codeValue code| ≤ |e.toRat - codeValue code|
  larger : ∀ e : Decimal, IsNearestEven e.toRat code → e.digits.length = d.digits.length →
    |e.toRat - codeValue code| = |d.toRat - codeValue code| → e.toRat ≤ d.toRat

theorem IsShortest.congr (h : IsShortest d code) (hrat : e.toRat = d.toRat) : IsShortest e code where
  reads := hrat ▸ h.reads
  fewest := digits_congr hrat ▸ h.fewest
  nearest := by
    rw [hrat, digits_congr hrat]
    exact h.nearest
  larger := by
    rw [hrat, digits_congr hrat]
    exact h.larger

theorem IsShortest.toRat_eq (hd : IsShortest d code) (he : IsShortest e code) : d.toRat = e.toRat := by
  have hlength : e.digits.length = d.digits.length :=
    Nat.le_antisymm (he.fewest d hd.reads) (hd.fewest e he.reads)
  have hdistance : |e.toRat - codeValue code| = |d.toRat - codeValue code| :=
    le_antisymm (he.nearest d hd.reads hlength.symm) (hd.nearest e he.reads hlength)
  exact le_antisymm (he.larger d hd.reads hlength.symm hdistance.symm) (hd.larger e he.reads hlength hdistance)

/-- No decimal of at most `r + 1` digits lies between two neighbours on a grid if the lower one has that many. -/
theorem le_or_succ_le {q r : Nat} {scale : Int} (hq : 10 ^ r ≤ q) (hd : d.digits.length ≤ r + 1) :
    d.toRat ≤ (⟨q, scale⟩ : Decimal).toRat ∨ (⟨q + 1, scale⟩ : Decimal).toRat ≤ d.toRat := by
  obtain ⟨⟨c, s⟩, hcoeff, hrat⟩ := exists_of_length_digits_le hd
  rw [← hrat]
  rcases Int.lt_or_le s scale with hlt | hle
  · -- On a finer grid the decimal does not reach the power of ten that the lower neighbour does.
    left
    have hscale : s + ((r + 1 : Nat) : Int) ≤ scale + r := by omega
    calc (⟨c, s⟩ : Decimal).toRat ≤ (⟨1 * 10 ^ (r + 1), s⟩ : Decimal).toRat :=
          toRat_mk_le_iff.mpr (by rw [Nat.one_mul]; exact hcoeff.le)
      _ = 10 ^ (s + ((r + 1 : Nat) : Int)) := by rw [toRat_mk_mul_pow, toRat_one]
      _ ≤ 10 ^ (scale + r) := zpow_le_zpow_right₀ (by norm_num) hscale
      _ = (⟨1 * 10 ^ r, scale⟩ : Decimal).toRat := by rw [toRat_mk_mul_pow, toRat_one]
      _ ≤ (⟨q, scale⟩ : Decimal).toRat := toRat_mk_le_iff.mpr (by rwa [Nat.one_mul])
  · obtain ⟨k, hk⟩ := Int.eq_ofNat_of_zero_le (Int.sub_nonneg_of_le hle)
    have hs : s = scale + k := by omega
    rw [hs, ← toRat_mk_mul_pow, toRat_mk_le_iff, toRat_mk_le_iff]
    exact le_or_gt _ _

end Decimal

namespace Magnitude

open Decimal

variable {m : Magnitude} {first place : Nat} {d e : Decimal}

/-! ### Beyond the neighbours -/

theorem below_reads (he : e.nearestCode = m.code) (hle : e.toRat ≤ (m.below place).toRat) :
    (m.below place).nearestCode = m.code :=
  Nat.le_antisymm (nearestCode_le (m.below_le place)) (he ▸ nearestCode_mono hle)

theorem above_reads (he : e.nearestCode = m.code) (hle : (m.above place).toRat ≤ e.toRat) :
    (m.above place).nearestCode = m.code :=
  Nat.le_antisymm (he ▸ nearestCode_mono hle) (le_nearestCode (m.lt_above place).le)

/-- Beyond the neighbours no decimal that reads back is nearer than the pick, and none as near is larger. -/
theorem picked_nearest (h : m.pick? place = some d) (he : e.nearestCode = m.code)
    (hbeyond : e.toRat ≤ (m.below place).toRat ∨ (m.above place).toRat ≤ e.toRat) :
    |d.toRat - codeValue m.code| ≤ |e.toRat - codeValue m.code| ∧
      (|e.toRat - codeValue m.code| = |d.toRat - codeValue m.code| → e.toRat ≤ d.toRat) := by
  have hbelow := m.below_le place
  have habove := (m.lt_above place).le
  rcases pick?_cases h with ⟨rfl, -, hmiddle⟩ | ⟨rfl, -, hmiddle⟩
  · rw [abs_of_nonpos (sub_nonpos.mpr hbelow)]
    rcases hbeyond with hle | hge
    · rw [abs_of_nonpos (by linarith)]
      exact ⟨by linarith, fun _ => hle⟩
    -- The upper neighbour then reads back as well, and was farther away.
    · have hfar := hmiddle (above_reads he hge)
      rw [abs_of_nonneg (by linarith)]
      exact ⟨by linarith, fun heq => by linarith⟩
  · rw [abs_of_nonneg (sub_nonneg.mpr habove)]
    rcases hbeyond with hle | hge
    · have hfar := hmiddle (below_reads he hle)
      rw [abs_of_nonpos (by linarith)]
      exact ⟨by linarith, fun _ => by linarith⟩
    · rw [abs_of_nonneg (by linarith)]
      exact ⟨by linarith, fun heq => by linarith⟩

/-! ### The first grid -/

theorem decimalUnits_bounds (h : m.code ≠ 0) :
    10 ^ ((Nat.toDigits 10 m.decimalUnits).length - 1) ≤ m.decimalUnits ∧
      m.decimalUnits < 10 ^ ((Nat.toDigits 10 m.decimalUnits).length - 1 + 1) := by
  have hcoeff := coeff_ne_zero_of_reads h (nearestCode_of_toRat m.toRat_decimalUnits)
  refine ⟨@pow_le_coeff ⟨m.decimalUnits, -1074⟩ hcoeff, ?_⟩
  rw [Nat.sub_add_cancel Nat.length_toDigits_pos]
  exact coeff_lt_pow ⟨m.decimalUnits, -1074⟩

theorem beyond_neighbours (hfirst : 10 ^ first ≤ m.decimalUnits) (hplace : place ≤ first)
    (he : e.digits.length ≤ first - place + 1) :
    e.toRat ≤ (m.below place).toRat ∨ (m.above place).toRat ≤ e.toRat := by
  refine le_or_succ_le ?_ he
  rwa [Nat.le_div_iff_mul_le (Nat.pow_pos (by decide)), ← pow_add, Nat.sub_add_cancel hplace]

theorem length_digits_picked (hfirst : m.decimalUnits < 10 ^ (first + 1)) (hplace : place ≤ first)
    (h : m.pick? place = some d) : d.digits.length ≤ first - place + 1 := by
  have hdiv : m.decimalUnits / 10 ^ place < 10 ^ (first - place + 1) := by
    rwa [Nat.div_lt_iff_lt_mul (Nat.pow_pos (by decide)), ← pow_add, Nat.add_right_comm, Nat.sub_add_cancel hplace]
  rcases pick?_cases h with ⟨rfl, -⟩ | ⟨rfl, -⟩
  · exact length_digits_le (Nat.succ_pos _) hdiv.le
  · exact length_digits_le (Nat.succ_pos _) hdiv

theorem lt_length_digits_of_pick?_eq_none (hfirst : 10 ^ first ≤ m.decimalUnits) (hplace : place ≤ first)
    (h : m.pick? place = none) (he : e.nearestCode = m.code) : first - place + 1 < e.digits.length := by
  obtain ⟨hbelow, habove⟩ := not_reads_of_pick?_eq_none h
  by_contra hlength
  rcases beyond_neighbours hfirst hplace (Nat.le_of_not_lt hlength) with hle | hge
  · exact hbelow (below_reads he hle)
  · exact habove (above_reads he hge)

theorem isShortest_shortest (h : m.code ≠ 0) : IsShortest m.shortest m.code := by
  have hshortest : m.shortest = m.pickFrom ((Nat.toDigits 10 m.decimalUnits).length - 1) := if_neg h
  have hread := m.nearestCode_shortest
  obtain ⟨hlow, hhigh⟩ := decimalUnits_bounds h
  generalize (Nat.toDigits 10 m.decimalUnits).length - 1 = first at *
  rw [hshortest] at hread ⊢
  obtain ⟨p, hp, hpick, hnone⟩ := m.pickFrom_eq first
  have hdigits := length_digits_picked hhigh hp hpick
  refine ⟨nearestCode_eq_iff.mp hread, fun e he => ?_, fun e he hlength => ?_, fun e he hlength => ?_⟩
  · -- The grid before had nothing to pick; the first grid has one digit, which every decimal but 0 has.
    have hcode := nearestCode_eq_iff.mpr he
    refine hdigits.trans ?_
    rcases Nat.lt_or_eq_of_le hp with hlt | rfl
    · have hlonger := lt_length_digits_of_pick?_eq_none hlow hlt (hnone (p + 1) (Nat.lt_succ_self p) hlt) hcode
      omega
    · rw [Nat.sub_self, Nat.zero_add]
      exact List.length_pos_of_ne_nil (digits_ne_nil (coeff_ne_zero_of_reads h hcode))
  · exact (picked_nearest hpick (nearestCode_eq_iff.mpr he) (beyond_neighbours hlow hp (hlength ▸ hdigits))).1
  · exact (picked_nearest hpick (nearestCode_eq_iff.mpr he) (beyond_neighbours hlow hp (hlength ▸ hdigits))).2

/-! ### Integers -/

variable {n : Nat}

/-- An even number that reads as an integer below `2^54` is that integer, because it has a double itself. -/
theorem eq_of_even_reads {k : Nat} (hm : codeValue m.code = n) (hn : n < 2 ^ 54) (he : e.nearestCode = m.code)
    (hrat : e.toRat = k) (heven : k % 2 = 0) : k = n := by
  have hlt : k < 2 ^ 54 := by
    by_contra hlarge
    obtain ⟨code, hcode⟩ := @exists_codeValue (2 ^ 52) (by decide) 2
    have hle : codeValue code ≤ codeValue m.code := by
      refine codeValue_strictMono.monotone (he ▸ le_nearestCode ?_)
      rw [hcode, hrat]
      exact_mod_cast Nat.le_of_not_lt hlarge
    rw [hcode, hm, Nat.cast_le] at hle
    omega
  obtain ⟨code, hcode⟩ := @exists_codeValue (k / 2) (by omega) 1
  rw [pow_one, Nat.div_mul_cancel (Nat.dvd_of_mod_eq_zero heven)] at hcode
  rw [nearestCode_of_toRat (hrat.trans hcode.symm)] at he
  rw [he, hm] at hcode
  exact_mod_cast hcode.symm

/-- A decimal without a zero in front of the point does not read as an integer above its coefficient. -/
theorem le_coeff_of_reads (hm : codeValue m.code = n) (he : e.nearestCode = m.code) (hscale : e.scale ≤ 0)
    (hcoeff : e.coeff < 2 ^ 53) : n ≤ e.coeff := by
  obtain ⟨code, hcode⟩ := exists_codeValue hcoeff 0
  rw [pow_zero, Nat.mul_one] at hcode
  have hle : e.toRat ≤ codeValue code := by
    rw [hcode, toRat]
    exact mul_le_of_le_one_right (Nat.cast_nonneg _) (zpow_le_one_of_nonpos₀ (by norm_num) hscale)
  have hmono : codeValue m.code ≤ codeValue code := codeValue_strictMono.monotone (he ▸ nearestCode_le hle)
  rw [hm, hcode] at hmono
  exact_mod_cast hmono

theorem length_digits_natural_le (hm : codeValue m.code = n) (hpos : n ≠ 0) (hn : n < 10 ^ 16)
    (he : e.nearestCode = m.code) : (⟨n, 0⟩ : Decimal).digits.length ≤ e.digits.length := by
  by_contra hshorter
  rw [Nat.not_le] at hshorter
  obtain ⟨f, hcoeff, hrat⟩ := exists_of_length_digits_le (Nat.le_refl e.digits.length)
  have hread : f.nearestCode = m.code := (nearestCode_congr hrat).trans he
  have hlength : (Nat.toDigits 10 n).length ≤ 16 := (Nat.length_toDigits_le_iff (by decide) (by decide)).mpr hn
  have hdigits : e.digits.length ≤ (Nat.toDigits 10 n).length - 1 := by
    obtain ⟨k, hk⟩ := exists_coeffDigits_eq ⟨n, 0⟩
    rw [coeffDigits] at hk
    rw [hk, List.length_append]
    omega
  -- A shorter decimal has at most 15 digits: without a zero in front of the point it is too small, with one it is even.
  rcases le_or_gt f.scale 0 with hscale | hscale
  · have hsmall : f.coeff < 10 ^ 15 := hcoeff.trans_le (Nat.pow_le_pow_right (by decide) (by omega))
    have hle := le_coeff_of_reads hm hread hscale (by omega)
    have hlow : 10 ^ e.digits.length ≤ n :=
      (Nat.pow_le_pow_right (by decide) hdigits).trans (@pow_le_coeff ⟨n, 0⟩ hpos)
    omega
  · obtain ⟨k, hk⟩ := Int.eq_ofNat_of_zero_le hscale.le
    have hnatural : f.toRat = (f.coeff * 10 ^ k : Nat) := by
      rw [toRat, hk, zpow_natCast]
      push_cast
      rfl
    have heven : f.coeff * 10 ^ k % 2 = 0 := by
      obtain ⟨j, rfl⟩ := Nat.exists_eq_succ_of_ne_zero (show k ≠ 0 by omega)
      rw [pow_succ, ← Nat.mul_assoc]
      omega
    have heq := eq_of_even_reads hm (by omega) hread hnatural heven
    have hsame : (⟨n, 0⟩ : Decimal).digits = e.digits :=
      digits_congr (by rw [toRat_natural, ← heq, ← hnatural, hrat])
    rw [hsame] at hshorter
    exact lt_irrefl _ hshorter

theorem isShortest_natural (hm : codeValue m.code = n) (hpos : n ≠ 0) (hn : n < 10 ^ 16) :
    IsShortest ⟨n, 0⟩ m.code := by
  have hzero : |(⟨n, 0⟩ : Decimal).toRat - codeValue m.code| = 0 := by rw [toRat_natural, hm, sub_self, abs_zero]
  have hread : (⟨n, 0⟩ : Decimal).nearestCode = m.code := nearestCode_of_toRat (by rw [toRat_natural, hm])
  refine ⟨nearestCode_eq_iff.mp hread,
    fun e he => length_digits_natural_le hm hpos hn (nearestCode_eq_iff.mpr he), fun e _ _ => ?_, fun e _ _ heq => ?_⟩
  · rw [hzero]
    exact abs_nonneg _
  · rw [hzero, abs_eq_zero, sub_eq_zero, hm, ← toRat_natural] at heq
    exact heq.le

theorem toRat_shortest_of_natural (hm : codeValue m.code = n) (hn : n < 10 ^ 16) : m.shortest.toRat = n := by
  by_cases hzero : m.code = 0
  · rw [hzero, codeValue_zero] at hm
    rw [shortest, if_pos hzero, toRat_natural, ← hm, Nat.cast_zero]
  · have hpos : n ≠ 0 := by
      rintro rfl
      exact hzero (codeValue_strictMono.injective (by rw [hm, codeValue_zero, Nat.cast_zero]))
    rw [(isShortest_shortest hzero).toRat_eq (isShortest_natural hm hpos hn), toRat_natural]

/-! ### Powers of ten -/

/-- The shortest decimal reaches a power of ten exactly if the magnitude does, provided that the power is not rounded
    down. -/
theorem le_exponent_shortest_iff {k : Int} (hm : m.code ≠ 0)
    (hk : (⟨1, k⟩ : Decimal).toRat ≤ codeValue (⟨1, k⟩ : Decimal).nearestCode) :
    k ≤ m.shortest.exponent ↔ (10 : ℚ) ^ k ≤ codeValue m.code := by
  have hread := m.nearestCode_shortest
  have hbest := isShortest_shortest hm
  rw [le_exponent_iff (coeff_ne_zero_of_reads hm hread), ← toRat_one]
  constructor
  · intro hle
    exact hk.trans (codeValue_strictMono.monotone (hread ▸ nearestCode_mono hle))
  · intro hle
    by_contra hlt
    rw [not_le] at hlt
    -- The power of ten lies between the decimal and the magnitude, so it reads back too and is the nearer one.
    have hpower : (⟨1, k⟩ : Decimal).nearestCode = m.code :=
      Nat.le_antisymm (nearestCode_le hle) (hread ▸ nearestCode_mono hlt.le)
    have hone : (⟨1, k⟩ : Decimal).digits.length ≤ 1 := length_digits_le Nat.one_pos (Nat.one_le_pow 1 10 (by decide))
    have hpos := List.length_pos_of_ne_nil (digits_ne_nil (coeff_ne_zero_of_reads hm hread))
    have hlength : (⟨1, k⟩ : Decimal).digits.length = m.shortest.digits.length :=
      Nat.le_antisymm (hone.trans hpos) (hbest.fewest _ (nearestCode_eq_iff.mp hpower))
    have hnearest := hbest.nearest _ (nearestCode_eq_iff.mp hpower) hlength
    rw [abs_of_neg (by linarith), abs_of_nonpos (by linarith)] at hnearest
    linarith

end Magnitude
end ScalarOps
