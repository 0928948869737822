/-
# The nearest double

What it means that a double is the nearest to a quotient, said without rounding anything, and that
rounding gives it.

* `Binary64.Nearest`: no finite double is nearer; of two that are as near the one with the even
  significand is taken; and the sign is that of the quotient.
* `Binary64.Nearest.unique`: there is only one.
* `Binary64.nearest_ofRatio`: a quotient that is not too great is rounded to it.
* `Binary64.nearest_ofNat`: so are all naturals of 64 bits, and `Binary64.Nearest.negative` says the
  same of their opposites.

The steps of the doubles around a quotient are what it is rounded to.  A double below these steps is
farther from the quotient than the least of them, so only whole numbers of steps are compared, and
there it is `roundHalfEven` that decides.
-/
import PackedTree.Proofs.Binary64.Integers

namespace PackedTree

/-! ## 1. The nearest integer -/

/-- A multiple that is not zero or the number itself is beyond its opposite or its double. -/
theorem mul_cases {d : ℤ} (hd : 0 < d) (m : ℤ) :
    m * d ≤ -d ∨ m = 0 ∧ m * d = 0 ∨ m = 1 ∧ m * d = d ∨ 2 * d ≤ m * d := by
  rcases lt_trichotomy m 0 with hneg | rfl | hpos
  · left
    nlinarith
  · exact .inr (.inl ⟨rfl, zero_mul d⟩)
  · rcases eq_or_lt_of_le (show 1 ≤ m from hpos) with rfl | htwo
    · exact .inr (.inr (.inl ⟨rfl, one_mul d⟩))
    · right; right; right
      nlinarith

/-- **Rounding to an integer gives the nearest one**, and the even one of two. -/
theorem roundHalfEven_nearest (num : ℕ) {den : ℕ} (hd : 0 < den) (k : ℕ) :
    |(roundHalfEven num den : ℚ) - num / den| ≤ |(k : ℚ) - num / den| ∧
      (|(roundHalfEven num den : ℚ) - num / den| = |(k : ℚ) - num / den| →
        k ≠ roundHalfEven num den → roundHalfEven num den % 2 = 0) := by
  have hden : (0 : ℚ) < den := by exact_mod_cast hd
  have hdistance (j : ℕ) : |(j : ℚ) - num / den| = (|(j * den : ℤ) - num| : ℤ) / den := by
    have hscaled : (j : ℚ) - num / den = (j * den - num) / den := by
      rw [sub_div, mul_div_cancel_right₀ _ hden.ne']
    rw [hscaled, abs_div, abs_of_pos hden]
    push_cast
    rfl
  rw [hdistance, hdistance, div_le_div_iff_of_pos_right hden, div_left_inj' hden.ne', Int.cast_le,
    Int.cast_inj]
  -- how far a number of denominators is from the numerator
  obtain ⟨q, hq⟩ : ∃ q, q = num / den := ⟨_, rfl⟩
  obtain ⟨r, hr⟩ : ∃ r, r = num % den := ⟨_, rfl⟩
  have hnum : (num : ℤ) = q * den + r := by
    rw [hq, hr]
    exact_mod_cast (Nat.div_add_mod' num den).symm
  have hrlt : r < den := hr ▸ Nat.mod_lt _ hd
  have hoffset (j : ℤ) : j * den - num = (j - q) * den - r := by
    rw [hnum]
    ring
  rw [hoffset, hoffset, roundHalfEven_eq, ← hq, ← hr]
  have hproduct := mul_cases (d := den) (by exact_mod_cast hd) ((k : ℤ) - q)
  generalize ((k : ℤ) - q) * den = p at *
  have hup : ((q + 1 : ℕ) : ℤ) - q = 1 := by omega
  simp only [Int.abs_eq_natAbs]
  split_ifs with hrounds
  · rw [hup, one_mul]
    omega
  · rw [sub_self, zero_mul]
    omega

namespace Binary64

variable {x y : Binary64} {num den : ℕ} {q : ℚ}

/-! ## 2. The nearest double -/

/-- **A double is the nearest to a quotient**: it is finite, with the sign of the quotient, no finite
double is nearer, and if one is as near, the significand of this one is even. -/
structure Nearest (x : Binary64) (q : ℚ) : Prop where
  finite : x.isFinite = true
  sign : x.isNegative = decide (q < 0)
  closest : ∀ y : Binary64, y.isFinite = true → |x.value - q| ≤ |y.value - q|
  even : ∀ y : Binary64, y.isFinite = true → |x.value - q| = |y.value - q| →
    y.value ≠ x.value → x.significand % 2 = 0

/-- The last digit of a significand is that of the pattern. -/
theorem significand_mod_two (x : Binary64) : x.significand % 2 = x.bits.toNat % 2 := by
  unfold significand fractionField fractions
  split <;> omega

/-- Without a sign, finite patterns are in the order of their sizes. -/
theorem unsigned_lt_of_size_lt (hx : x.isFinite = true) (h : x.size < y.size) :
    x.unsigned.bits.toNat < y.unsigned.bits.toNat := by
  refine Nat.lt_of_not_le fun hle => ?_
  have hsize := size_mono (unsigned_lt_infinity hx).le hle
  rw [size_congr x.fields_unsigned.1 x.fields_unsigned.2,
    size_congr y.fields_unsigned.1 y.fields_unsigned.2] at hsize
  exact absurd hsize (not_le.mpr h)

theorem isFinite_unsigned (x : Binary64) : x.unsigned.isFinite = x.isFinite := by
  unfold isFinite
  rw [x.fields_unsigned.1]

theorem isNegative_iff (x : Binary64) :
    x.isNegative = true ↔ x.bits.toNat = x.unsigned.bits.toNat + 0x8000000000000000 := by
  have hlt := x.bits.toNat_lt
  rw [isNegative, decide_eq_true_eq, toNat_bits_unsigned]
  omega

/-- **Between two sizes that are not next to each other** there is one more, with either sign. -/
theorem exists_between (hy : y.isFinite = true)
    (hlt : x.unsigned.bits.toNat + 1 < y.unsigned.bits.toNat) :
    ∃ z : Binary64, z.isFinite = true ∧ z.isNegative = x.isNegative ∧ x.size < z.size ∧
      z.size < y.size := by
  have hfinite := unsigned_lt_infinity hy
  have hinfinity : infinity.bits.toNat = 0x7ff0000000000000 := rfl
  have hxbits := x.toNat_bits_unsigned
  have hxlt := x.bits.toNat_lt
  have hbits : (⟨UInt64.ofNat (x.bits.toNat + 1)⟩ : Binary64).bits.toNat = x.bits.toNat + 1 :=
    UInt64.toNat_ofNat_of_lt (lt_of_lt_of_le (b := 0xfff0000000000001) (by omega) (by decide))
  generalize (⟨UInt64.ofNat (x.bits.toNat + 1)⟩ : Binary64) = z at hbits
  have hunsigned : z.unsigned.bits.toNat = x.unsigned.bits.toNat + 1 := by
    rw [z.toNat_bits_unsigned, hbits, hxbits]
    omega
  refine ⟨z, ?_, ?_, ?_, ?_⟩
  · rw [← z.isFinite_unsigned]
    exact isFinite_of_lt (by omega)
  · rw [Bool.eq_iff_iff, isNegative_iff, isNegative_iff, hunsigned, hbits]
    omega
  · rw [← size_congr x.fields_unsigned.1 x.fields_unsigned.2,
      ← size_congr z.fields_unsigned.1 z.fields_unsigned.2]
    exact size_lt_of_lt (by omega) (by omega)
  · rw [← size_congr y.fields_unsigned.1 y.fields_unsigned.2,
      ← size_congr z.fields_unsigned.1 z.fields_unsigned.2]
    exact size_lt_of_lt hfinite.le (by omega)

/-- With one sign the distance of a value is that of its size. -/
theorem abs_value_sub (h : x.isNegative = decide (q < 0)) : |x.value - q| = |x.size - abs q| := by
  unfold value
  by_cases hq : q < 0
  · rw [h, decide_eq_true hq, if_pos rfl, abs_of_neg hq, ← abs_neg]
    congr 1
    ring
  · rw [h, decide_eq_false hq, if_neg Bool.false_ne_true, abs_of_nonneg (not_lt.mp hq)]

/-- Two doubles that are nearest do not differ in size: they would be next to each other, and one of
their significands odd. -/
theorem Nearest.not_size_lt (hx : x.Nearest q) (hy : y.Nearest q) : ¬x.size < y.size := by
  intro hlt
  have hdistance : |x.size - abs q| = |y.size - abs q| := by
    rw [← abs_value_sub hx.sign, ← abs_value_sub hy.sign]
    exact le_antisymm (hx.closest y hy.finite) (hy.closest x hx.finite)
  have hmiddle : |q| - x.size = y.size - |q| := by
    rcases abs_eq_abs.mp hdistance with h | h <;> linarith
  have hne : y.value ≠ x.value := by
    intro h
    have hsizes := congrArg abs h
    rw [abs_value, abs_value] at hsizes
    exact hlt.ne hsizes.symm
  have hvalues : |x.value - q| = |y.value - q| := by
    rw [abs_value_sub hx.sign, abs_value_sub hy.sign, hdistance]
  have hxeven := hx.even y hy.finite hvalues hne
  have hyeven := hy.even x hx.finite hvalues.symm hne.symm
  rw [significand_mod_two] at hxeven hyeven
  have hbits := unsigned_lt_of_size_lt hx.finite hlt
  have hxbits := x.toNat_bits_unsigned
  have hybits := y.toNat_bits_unsigned
  have hapart : x.unsigned.bits.toNat + 1 < y.unsigned.bits.toNat := by omega
  obtain ⟨z, hz, hzsign, hxz, hzy⟩ := exists_between hy.finite hapart
  -- what is between the two is nearer
  have hcloser := hx.closest z hz
  rw [abs_value_sub hx.sign, abs_value_sub (hzsign.trans hx.sign)] at hcloser
  have hfar : |x.size - abs q| = |q| - x.size := by
    rw [abs_sub_comm, abs_of_nonneg (by linarith)]
  have hnear : |z.size - abs q| < |q| - x.size := abs_lt.mpr ⟨by linarith, by linarith⟩
  exact absurd hcloser (not_le.mpr (hfar ▸ hnear))

/-- **There is one nearest double.** -/
theorem Nearest.unique (hx : x.Nearest q) (hy : y.Nearest q) : x = y := by
  have hsize : x.size = y.size := le_antisymm (not_lt.mp (hy.not_size_lt hx))
    (not_lt.mp (hx.not_size_lt hy))
  have hsign : x.isNegative = y.isNegative := hx.sign.trans hy.sign.symm
  have hvalue : x.value = y.value := by rw [value, value, hsign, hsize]
  have hzeros : zero.isNegative ≠ zero.negative.isNegative := by decide
  rcases eq_or_isZero (quantity_eq_finite_iff.mpr ⟨hx.finite, rfl⟩)
    (quantity_eq_finite_iff.mpr ⟨hy.finite, hvalue.symm⟩) with h | ⟨rfl | rfl, rfl | rfl⟩
  · exact h
  · rfl
  · exact absurd hsign hzeros
  · exact absurd hsign.symm hzeros
  · rfl

/-! ## 3. Quotients are rounded to the nearest double -/

/-- What a pattern without a sign stands for, when it is packed of an exponent and a number of steps
that has all its digits or the least exponent. -/
theorem size_of_packed {e s : ℕ} (hx : x.bits.toNat = e * fractions + s) (hs : s ≤ 2 * fractions)
    (he : e = 0 ∨ fractions ≤ s) (hfinite : x.bits.toNat < infinity.bits.toNat) :
    x.size = s * 2 ^ ((e : ℤ) - 1074) := by
  have hbound : e * fractions + s < 2047 * fractions := hx ▸ hfinite
  have hsmall : x.bits.toNat % 0x8000000000000000 = e * fractions + s := by
    rw [hx]
    exact Nat.mod_eq_of_lt (hbound.trans (by decide))
  rcases Nat.lt_or_ge s fractions with hfew | hall
  · -- a number below the least that has all its digits
    obtain rfl : e = 0 := he.resolve_right (Nat.not_le.mpr hfew)
    rw [Nat.zero_mul, Nat.zero_add] at hx
    have hzero : x.exponentField = 0 := by
      rw [exponentField, hx, Nat.div_eq_of_lt hfew]
    have hexponent : x.exponent = -1074 := by
      rw [exponent, hzero]
      rfl
    have hfraction : x.fractionField = s := by
      rw [fractionField, hx, Nat.mod_eq_of_lt hfew]
    rw [size, significand, if_pos hzero, hfraction, hexponent]
    norm_num
  · have hless : e < 2046 := by
      unfold fractions at hbound hall
      omega
    rcases hs.lt_or_eq with hdigits | rfl
    · exact (size_of_fields hsmall hall hdigits hless).2
    · -- the steps were rounded up to the next power of two
      have hcarry : x.bits.toNat % 0x8000000000000000 = (e + 1) * fractions + fractions := by
        rw [hsmall]
        ring
      have hnext : e + 1 < 2046 := by
        unfold fractions at hbound
        omega
      rw [(size_of_fields hcarry le_rfl (by decide) hnext).2]
      have hexponent : ((e + 1 : ℕ) : ℤ) - 1074 = (e : ℤ) - 1074 + 1 := by omega
      rw [hexponent, zpow_add_one₀ (by norm_num)]
      push_cast
      ring

/-- **What a quotient is rounded to**, in steps. -/
theorem size_ofRatio (hn : 0 < num) (hd : 0 < den)
    (hfinite : packed num den < infinity.bits.toNat) :
    (ofRatio num den).bits.toNat = packed num den ∧
      (ofRatio num den).size = steps num den * 2 ^ stepExponent num den := by
  have hleast : -1074 ≤ stepExponent num den := le_max_right _ _
  have hbits : (ofRatio num den).bits.toNat = packed num den := by
    rw [toNat_bits_ofRatio hn, min_eq_left hfinite.le]
  refine ⟨hbits, ?_⟩
  rw [size_of_packed hbits (steps_le hn hd) ?_ (hbits ▸ hfinite)]
  · congr 2
    omega
  · rcases hleast.eq_or_lt with heq | hlt
    · exact .inl (by omega)
    · exact .inr (le_steps hn hd hlt)

/-- **Only whole numbers of steps matter**: for any double there is one that is as near to the
quotient, and nearer if it is another. -/
theorem exists_steps_nearer (hn : 0 < num) (hd : 0 < den) (y : Binary64) :
    ∃ k : ℕ, |(k : ℚ) * 2 ^ stepExponent num den - num / den| ≤ |y.size - num / den| ∧
      (|(k : ℚ) * 2 ^ stepExponent num den - num / den| = |y.size - num / den| →
        y.size = k * 2 ^ stepExponent num den) := by
  rcases le_or_gt (stepExponent num den) y.exponent with hle | hgt
  · -- the double is a number of steps itself
    have hmultiple : y.size =
        ((y.significand * 2 ^ (y.exponent - stepExponent num den).toNat : ℕ) : ℚ) *
          2 ^ stepExponent num den := by
      have hexponent : ((y.exponent - stepExponent num den).toNat : ℤ) + stepExponent num den =
          y.exponent := by omega
      push_cast
      rw [size, mul_assoc, ← zpow_natCast, ← zpow_add₀ (by norm_num), hexponent]
    exact ⟨_, by rw [hmultiple], fun _ => hmultiple⟩
  · -- it is below the least number of steps that has all its digits, and so is the quotient not
    have hsignificand : y.significand < 2 * fractions := by
      have hfraction : y.fractionField < fractions := Nat.mod_lt _ (by decide)
      unfold significand
      split <;> omega
    have hlog : floorLog2 num den = 52 + stepExponent num den := by
      have hleast : -1074 ≤ y.exponent := by
        unfold exponent
        omega
      unfold stepExponent at hgt ⊢
      omega
    have hbelow : y.size < fractions * 2 ^ stepExponent num den := by
      calc y.size < ((2 * fractions : ℕ) : ℚ) * 2 ^ y.exponent := by
            unfold size
            gcongr
        _ = fractions * 2 ^ (y.exponent + 1) := by
            rw [zpow_add_one₀ (by norm_num)]
            push_cast
            ring
        _ ≤ fractions * 2 ^ stepExponent num den := by
            gcongr
            · norm_num
            · omega
    have hquotient : (fractions : ℚ) * 2 ^ stepExponent num den ≤ num / den := by
      calc (fractions : ℚ) * 2 ^ stepExponent num den = 2 ^ floorLog2 num den := by
            rw [hlog, zpow_add₀ (by norm_num)]
            norm_num [fractions]
        _ ≤ num / den := (floorLog2_spec hn hd).1
    have hnearer : |(fractions : ℚ) * 2 ^ stepExponent num den - num / den| <
        |y.size - num / den| := by
      rw [abs_of_nonpos (by linarith), abs_of_nonpos (by linarith)]
      linarith
    exact ⟨fractions, hnearer.le, fun heq => absurd heq hnearer.ne⟩

/-- Without a sign a double is not farther from a positive quotient. -/
theorem abs_size_sub_le (hq : 0 < q) (y : Binary64) :
    |y.size - q| ≤ |y.value - q| ∧ (|y.size - q| = |y.value - q| → y.value = y.size) := by
  have hsize := y.size_nonneg
  unfold value
  split_ifs
  · have hfar : |-y.size - q| = y.size + q := by
      rw [abs_of_nonpos (by linarith)]
      ring
    rw [hfar]
    refine ⟨abs_le.mpr ⟨by linarith, by linarith⟩, fun heq => ?_⟩
    rcases abs_cases (y.size - q) with ⟨habs, -⟩ | ⟨habs, -⟩ <;> linarith
  · exact ⟨le_rfl, fun _ => rfl⟩

/-- **A positive quotient is rounded to the nearest double**, if that is finite. -/
theorem nearest_ofRatio (hn : 0 < num) (hd : 0 < den)
    (hfinite : packed num den < infinity.bits.toNat) :
    (ofRatio num den).Nearest ((num : ℚ) / den) := by
  have hq : (0 : ℚ) < num / den := by positivity
  obtain ⟨hbits, hsize⟩ := size_ofRatio hn hd hfinite
  have hnegative : (ofRatio num den).isNegative = false :=
    not_isNegative_of_le (hbits ▸ hfinite.le)
  have hvalue : (ofRatio num den).value = steps num den * 2 ^ stepExponent num den := by
    rw [value, hnegative, if_neg Bool.false_ne_true, hsize]
  obtain ⟨n, d, hdpos, hsteps, hinSteps⟩ := exists_steps_eq num hd
  have hpower : (0 : ℚ) < 2 ^ stepExponent num den := by positivity
  -- distances in steps
  have hdistance (k : ℕ) : |(k : ℚ) * 2 ^ stepExponent num den - num / den| =
      |(k : ℚ) - n / d| * 2 ^ stepExponent num den := by
    rw [hinSteps, ← abs_of_pos hpower, ← abs_mul, abs_of_pos hpower, sub_mul,
      div_mul_cancel₀ _ hpower.ne']
  have hnearest (k : ℕ) := hsteps ▸ roundHalfEven_nearest n hdpos k
  have hrounded (k : ℕ) : |(steps num den : ℚ) * 2 ^ stepExponent num den - num / den| ≤
      |(k : ℚ) * 2 ^ stepExponent num den - num / den| := by
    rw [hdistance, hdistance]
    exact mul_le_mul_of_nonneg_right (hnearest k).1 hpower.le
  refine ⟨isFinite_of_lt (hbits ▸ hfinite), ?_, fun y _ => ?_, fun y _ heq hne => ?_⟩
  · rw [hnegative, decide_eq_false (not_lt.mpr hq.le)]
  · obtain ⟨k, hk, -⟩ := exists_steps_nearer hn hd y
    rw [hvalue]
    exact (hrounded k).trans (hk.trans (abs_size_sub_le hq y).1)
  · obtain ⟨k, hk, hkeq⟩ := exists_steps_nearer hn hd y
    obtain ⟨hsign, hsigneq⟩ := abs_size_sub_le hq y
    rw [hvalue] at heq hne
    -- all distances between are the same
    have hsame : |(k : ℚ) * 2 ^ stepExponent num den - num / den| = |y.size - num / den| :=
      le_antisymm hk (hsign.trans (heq.symm.le.trans (hrounded k)))
    have hysize := hkeq hsame
    have hyvalue := hsigneq (le_antisymm hsign (heq.symm.le.trans ((hrounded k).trans hk)))
    have htie : |(steps num den : ℚ) - n / d| = |(k : ℚ) - n / d| := by
      refine mul_right_cancel₀ hpower.ne' ?_
      rw [← hdistance, ← hdistance, heq, hsame, hyvalue]
    have hother : k ≠ steps num den := by
      rintro rfl
      exact hne (hyvalue.trans hysize)
    have heven := (hnearest k).2 htie hother
    have hfractions : fractions % 2 = 0 := rfl
    rw [significand_mod_two, hbits, packed, Nat.add_mod, Nat.mul_mod, hfractions, heven]
    rfl

/-! ## 4. Integers -/

/-- A natural of 64 bits is not rounded to infinity. -/
theorem packed_lt_infinity {n : ℕ} (hpos : 0 < n) (hn : n < 2 ^ 64) :
    packed n 1 < infinity.bits.toNat := by
  have hlog := floorLog2_lt hpos hn
  have hsteps := steps_le hpos Nat.one_pos
  have hexponent : (stepExponent n 1 + 1074).toNat ≤ 1085 := by
    unfold stepExponent
    omega
  calc packed n 1 ≤ 1085 * fractions + 2 * fractions :=
        Nat.add_le_add (Nat.mul_le_mul_right _ hexponent) hsteps
    _ < infinity.bits.toNat := by decide

/-- **A natural of 64 bits is converted to the nearest double.** -/
theorem nearest_ofNat {n : ℕ} (hn : n < 2 ^ 64) : (ofNat n).Nearest n := by
  rcases Nat.eq_zero_or_pos n with rfl | hpos
  · have hzero : zero.isFinite = true ∧ zero.isNegative = false ∧ zero.significand % 2 = 0 := by
      decide
    have hvalue : zero.value = 0 :=
      (quantity_eq_finite_iff.mp (IsZero.quantity_eq (.inl rfl))).2
    have hdistance : |zero.value - 0| = 0 := by rw [hvalue, sub_zero, abs_zero]
    rw [Nat.cast_zero]
    refine ⟨hzero.1, ?_, fun y _ => ?_, fun _ _ _ _ => hzero.2.2⟩
    · exact hzero.2.1.trans (decide_eq_false (lt_irrefl _)).symm
    · exact hdistance.le.trans (abs_nonneg _)
  · have h := nearest_ofRatio hpos Nat.one_pos (packed_lt_infinity hpos hn)
    rwa [Nat.cast_one, div_one] at h

/-- The sign bit changes the sign and nothing else. -/
theorem fields_negative (h : x.isNegative = false) :
    x.negative.isNegative = true ∧ x.negative.exponentField = x.exponentField ∧
      x.negative.fractionField = x.fractionField := by
  rw [isNegative, decide_eq_false_iff_not, Nat.not_le] at h
  have hbits := toNat_bits_negative h
  unfold isNegative exponentField fractionField fractions
  rw [hbits, decide_eq_true_eq]
  omega

/-- **Every double has an opposite.** -/
theorem exists_opposite (x : Binary64) : ∃ y : Binary64, y.isFinite = x.isFinite ∧
    y.value = -x.value := by
  have hopposite {y : Binary64} (he : y.exponentField = x.exponentField)
      (hf : y.fractionField = x.fractionField) (hsign : y.isNegative = !x.isNegative) :
      y.isFinite = x.isFinite ∧ y.value = -x.value := by
    refine ⟨by rw [isFinite, isFinite, he], ?_⟩
    rw [value, value, hsign, size_congr he hf]
    cases x.isNegative <;> simp
  cases hx : x.isNegative with
  | false =>
    obtain ⟨hsign, he, hf⟩ := fields_negative hx
    exact ⟨x.negative, hopposite he hf (hsign.trans (by rw [hx]; rfl))⟩
  | true =>
    have hsign : x.unsigned.isNegative = false := by
      have hlt : x.bits.toNat % 0x8000000000000000 < 0x8000000000000000 :=
        Nat.mod_lt _ (by decide)
      rw [isNegative, toNat_bits_unsigned, decide_eq_false (Nat.not_le.mpr hlt)]
    exact ⟨x.unsigned, hopposite x.fields_unsigned.1 x.fields_unsigned.2
      (hsign.trans (by rw [hx]; rfl))⟩

/-- **The opposite of a nearest double** is nearest to the opposite quotient. -/
theorem Nearest.negative (h : x.Nearest q) (hq : 0 < q) : x.negative.Nearest (-q) := by
  have hx : x.isNegative = false := h.sign.trans (decide_eq_false (not_lt.mpr hq.le))
  obtain ⟨hsign, he, hf⟩ := fields_negative hx
  have hvalue : x.negative.value = -x.value := by
    rw [value, value, hsign, hx, size_congr he hf]
    rfl
  have hflip (a b : ℚ) : |-a - -b| = |a - b| := by
    rw [← abs_neg]
    congr 1
    ring
  have hneg (y : Binary64) : ∃ z : Binary64, z.isFinite = y.isFinite ∧ z.value = -y.value ∧
      |y.value - -q| = |z.value - q| := by
    obtain ⟨z, hz, hzvalue⟩ := y.exists_opposite
    refine ⟨z, hz, hzvalue, ?_⟩
    rw [hzvalue, ← hflip, neg_neg]
  refine ⟨?_, ?_, fun y hy => ?_, fun y hy heq hne => ?_⟩
  · rw [isFinite, he]
    exact h.finite
  · rw [hsign, decide_eq_true (neg_neg_of_pos hq)]
  · obtain ⟨z, hz, -, hdistance⟩ := hneg y
    rw [hvalue, hflip, hdistance]
    exact h.closest z (hz.trans hy)
  · obtain ⟨z, hz, hzvalue, hdistance⟩ := hneg y
    rw [hvalue, hflip, hdistance] at heq
    rw [hvalue] at hne
    have heven := h.even z (hz.trans hy) heq fun hsame => hne (by rw [← hsame, hzvalue, neg_neg])
    rwa [significand, he, hf]

end Binary64

end PackedTree
