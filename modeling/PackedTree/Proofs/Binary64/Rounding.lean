/-
# Rounding keeps the order

A quotient that is not greater is rounded to a double that is not greater.  So a bound on a quotient
that is a double itself is a bound on what the quotient is rounded to, through any number of rounded
operations.

* `Binary64.value`: the rational that a pattern stands for.
* `roundHalfEven_mono`, `floorLog2_spec`: rounding to an integer keeps the order, and where the
  leading binary digit of a quotient stands.
* `Binary64.ofRatio_mono`: rounding to a double keeps the order of the patterns.
* `Binary64.size_lt_of_lt`: patterns without a sign are in the order of what they stand for.
* `Binary64.percent_le`: a part of a whole is at most 100 percent.

How far a rounded quotient is from the exact one is not said here.
-/
import Mathlib.Algebra.Order.Field.Power
import Mathlib.Data.Rat.Cast.Order
import Mathlib.Tactic.NormNum
import Mathlib.Tactic.Positivity
import PackedTree.Binary64.Rounding

namespace PackedTree

/-! ## 1. Rounding to an integer -/

theorem roundHalfEven_one (n : Nat) : roundHalfEven n 1 = n := by
  simp [roundHalfEven, Nat.mod_one]

/-- **When rounding goes up**: above one half, and at one half if the integer below is odd. -/
theorem roundHalfEven_eq (num den : Nat) :
    roundHalfEven num den =
      if den < 2 * (num % den) ∨ (den = 2 * (num % den) ∧ num / den % 2 = 1) then num / den + 1
      else num / den := by
  simp only [roundHalfEven]
  split_ifs <;> omega

/-- Rounding gives one of the two neighbours. -/
theorem roundHalfEven_bounds (num den : Nat) :
    num / den ≤ roundHalfEven num den ∧ roundHalfEven num den ≤ num / den + 1 := by
  rw [roundHalfEven_eq]
  split <;> omega

/-- **Rounding to an integer keeps the order.**  Between quotients with the same integer below them
the remainders decide. -/
theorem roundHalfEven_mono {num den num' den' : Nat} (hd : 0 < den) (hd' : 0 < den')
    (h : num * den' ≤ num' * den) : roundHalfEven num den ≤ roundHalfEven num' den' := by
  have hquotients : num / den ≤ num' / den' := by
    rw [Nat.le_div_iff_mul_le hd']
    refine Nat.le_of_mul_le_mul_right ?_ hd
    calc num / den * den' * den = num / den * den * den' := Nat.mul_right_comm _ _ _
      _ ≤ num * den' := Nat.mul_le_mul_right _ (Nat.div_mul_le_self num den)
      _ ≤ num' * den := h
  rcases Nat.lt_or_eq_of_le hquotients with hless | heq
  · have hup := (roundHalfEven_bounds num den).2
    have hdown := (roundHalfEven_bounds num' den').1
    omega
  · have hremainders : num % den * den' ≤ num' % den' * den := by
      have hnum := congrArg (· * den') (Nat.div_add_mod num den)
      have hnum' := congrArg (· * den) (Nat.div_add_mod num' den')
      have hwhole : den * (num / den) * den' = den' * (num' / den') * den := by
        rw [heq, Nat.mul_right_comm, Nat.mul_comm den den', Nat.mul_right_comm]
      simp only [Nat.add_mul] at hnum hnum'
      omega
    have hdouble : 2 * (num % den) * den' ≤ 2 * (num' % den') * den := by
      rw [Nat.mul_assoc, Nat.mul_assoc]
      exact Nat.mul_le_mul_left 2 hremainders
    have hhalf (hle : 2 * (num' % den') ≤ den') : 2 * (num % den) ≤ den := by
      refine Nat.le_of_mul_le_mul_right (hdouble.trans ?_) hd'
      rw [Nat.mul_comm den den']
      exact Nat.mul_le_mul_right den hle
    have hbelow (hlt : 2 * (num' % den') < den') : 2 * (num % den) < den := by
      refine Nat.lt_of_mul_lt_mul_right (a := den') (hdouble.trans_lt ?_)
      rw [Nat.mul_comm den den']
      exact Nat.mul_lt_mul_of_pos_right hlt hd
    rw [roundHalfEven_eq, roundHalfEven_eq, heq]
    split_ifs <;> omega

/-- The same with quotients. -/
theorem roundHalfEven_le_of_div_le {num den num' den' : Nat} (hd : 0 < den) (hd' : 0 < den')
    (h : (num : ℚ) / den ≤ num' / den') : roundHalfEven num den ≤ roundHalfEven num' den' := by
  rw [div_le_div_iff₀ (by exact_mod_cast hd) (by exact_mod_cast hd')] at h
  exact roundHalfEven_mono hd hd' (by exact_mod_cast h)

/-! ## 2. The leading digit of a quotient -/

theorem log2_bounds {n : Nat} (h : 0 < n) :
    (2 : ℚ) ^ (n.log2 : ℤ) ≤ n ∧ (n : ℚ) < 2 ^ ((n.log2 : ℤ) + 1) := by
  constructor
  · exact_mod_cast Nat.log2_self_le h.ne'
  · exact_mod_cast Nat.lt_log2_self (n := n)

/-- The comparison that decides between the two places that the lengths leave open. -/
theorem floorLog2_eq {num den : Nat} (hd : 0 < den) :
    floorLog2 num den =
      if (num : ℚ) / den < 2 ^ ((num.log2 : ℤ) - den.log2) then (num.log2 : ℤ) - den.log2 - 1
      else (num.log2 : ℤ) - den.log2 := by
  have hden : (0 : ℚ) < den := by exact_mod_cast hd
  have hbelow (l : ℤ) :
      (if 0 ≤ l then num < den <<< l.toNat else num <<< (-l).toNat < den) ↔
        (num : ℚ) / den < 2 ^ l := by
    rw [div_lt_iff₀ hden]
    split
    · rename_i hpos
      lift l to ℕ using hpos with k
      rw [Int.toNat_natCast, Nat.shiftLeft_eq, zpow_natCast, mul_comm]
      norm_cast
    · rename_i hneg
      obtain ⟨k, rfl⟩ : ∃ k : ℕ, l = -k := ⟨(-l).toNat, by omega⟩
      rw [neg_neg, Int.toNat_natCast, Nat.shiftLeft_eq, zpow_neg, zpow_natCast, inv_mul_eq_div,
        lt_div_iff₀ (by positivity)]
      norm_cast
  simp only [floorLog2, hbelow]

/-- **Where the leading binary digit of a quotient stands.** -/
theorem floorLog2_spec {num den : Nat} (hn : 0 < num) (hd : 0 < den) :
    (2 : ℚ) ^ floorLog2 num den ≤ num / den ∧ (num : ℚ) / den < 2 ^ (floorLog2 num den + 1) := by
  have hden : (0 : ℚ) < den := by exact_mod_cast hd
  obtain ⟨hnumLow, hnumHigh⟩ := log2_bounds hn
  obtain ⟨hdenLow, hdenHigh⟩ := log2_bounds hd
  rw [floorLog2_eq hd]
  set l : ℤ := (num.log2 : ℤ) - den.log2 with hl
  have hlow : (2 : ℚ) ^ (l - 1) ≤ num / den := by
    rw [le_div_iff₀ hden]
    calc (2 : ℚ) ^ (l - 1) * den ≤ 2 ^ (l - 1) * 2 ^ ((den.log2 : ℤ) + 1) :=
          mul_le_mul_of_nonneg_left hdenHigh.le (by positivity)
      _ = 2 ^ (num.log2 : ℤ) := by
          rw [← zpow_add₀ (by norm_num)]
          congr 1
          omega
      _ ≤ num := hnumLow
  have hhigh : (num : ℚ) / den < 2 ^ (l + 1) := by
    rw [div_lt_iff₀ hden]
    calc (num : ℚ) < 2 ^ ((num.log2 : ℤ) + 1) := hnumHigh
      _ = 2 ^ (l + 1) * 2 ^ (den.log2 : ℤ) := by
          rw [← zpow_add₀ (by norm_num)]
          congr 1
          omega
      _ ≤ 2 ^ (l + 1) * den := mul_le_mul_of_nonneg_left hdenLow (by positivity)
  split
  · rename_i h
    exact ⟨hlow, by rwa [sub_add_cancel]⟩
  · rename_i h
    exact ⟨not_lt.mp h, hhigh⟩

namespace Binary64

variable {num den num' den' : Nat}

/-! ## 3. Rounding to a double -/

/-- The exponent of the step at which a quotient is rounded. -/
def stepExponent (num den : Nat) : Int := max (floorLog2 num den - 52) (-1074)

/-- The rounded number of steps of a quotient. -/
def steps (num den : Nat) : Nat :=
  if 0 ≤ stepExponent num den then roundHalfEven num (den <<< (stepExponent num den).toNat)
  else roundHalfEven (num <<< (-stepExponent num den).toNat) den

/-- The pattern of a rounded quotient, if that is finite. -/
def packed (num den : Nat) : Nat :=
  (stepExponent num den + 1074).toNat * fractions + steps num den

/-- **A quotient is rounded to its pattern**, or to infinity if that is less. -/
theorem toNat_bits_ofRatio (h : 0 < num) :
    (ofRatio num den).bits.toNat = min (packed num den) infinity.bits.toNat := by
  have he : ofRatio num den = if infinity.bits.toNat ≤ packed num den then infinity
      else ⟨UInt64.ofNat (packed num den)⟩ := by
    rw [ofRatio, if_neg h.ne']
    rfl
  rw [he]
  split
  · rename_i hle
    rw [min_eq_right hle]
  · rename_i hless
    have hless := not_le.mp hless
    rw [min_eq_left hless.le]
    exact UInt64.toNat_ofNat_of_lt (hless.trans (by decide))

/-- The quotient in steps. -/
theorem exists_steps_eq (num : Nat) (hd : 0 < den) :
    ∃ n d : Nat, 0 < d ∧ steps num den = roundHalfEven n d ∧
      (n : ℚ) / d = num / den / 2 ^ stepExponent num den := by
  unfold steps
  generalize stepExponent num den = e
  split
  · rename_i hpos
    lift e to ℕ using hpos with k
    refine ⟨num, den <<< k, by rw [Nat.shiftLeft_eq]; positivity, rfl, ?_⟩
    rw [Nat.shiftLeft_eq, zpow_natCast, div_div]
    push_cast
    rfl
  · rename_i hneg
    obtain ⟨k, rfl⟩ : ∃ k : ℕ, e = -k := ⟨(-e).toNat, by omega⟩
    rw [neg_neg, Int.toNat_natCast]
    refine ⟨num <<< k, den, hd, rfl, ?_⟩
    rw [Nat.shiftLeft_eq, zpow_neg, zpow_natCast, div_inv_eq_mul]
    push_cast
    rw [div_mul_eq_mul_div]

/-- At one step exponent the rounded numbers of steps are in the order of the quotients. -/
theorem steps_mono (hd : 0 < den) (hd' : 0 < den')
    (he : stepExponent num den = stepExponent num' den') (h : (num : ℚ) / den ≤ num' / den') :
    steps num den ≤ steps num' den' := by
  obtain ⟨n, d, hdpos, hsteps, hq⟩ := exists_steps_eq num hd
  obtain ⟨n', d', hdpos', hsteps', hq'⟩ := exists_steps_eq num' hd'
  rw [hsteps, hsteps']
  refine roundHalfEven_le_of_div_le hdpos hdpos' ?_
  rw [hq, hq', he]
  gcongr

/-- **A significand has at most 53 binary digits**, or is rounded up to the next power of two. -/
theorem steps_le (hn : 0 < num) (hd : 0 < den) : steps num den ≤ 2 * fractions := by
  obtain ⟨n, d, hdpos, hsteps, hq⟩ := exists_steps_eq num hd
  rw [hsteps, ← roundHalfEven_one (2 * fractions)]
  refine roundHalfEven_le_of_div_le hdpos Nat.one_pos ?_
  have hexponent : floorLog2 num den + 1 ≤ 53 + stepExponent num den := by
    unfold stepExponent
    omega
  rw [hq, div_le_iff₀ (by positivity)]
  calc (num : ℚ) / den ≤ 2 ^ (floorLog2 num den + 1) := (floorLog2_spec hn hd).2.le
    _ ≤ 2 ^ (53 + stepExponent num den) := zpow_le_zpow_right₀ (by norm_num) hexponent
    _ = ((2 * fractions : Nat) : ℚ) / (1 : Nat) * 2 ^ stepExponent num den := by
        rw [zpow_add₀ (by norm_num)]
        norm_num [fractions]

/-- **The leading digit is there**, unless the quotient is below the least power of two that has all
its digits. -/
theorem le_steps (hn : 0 < num) (hd : 0 < den) (he : -1074 < stepExponent num den) :
    fractions ≤ steps num den := by
  obtain ⟨n, d, hdpos, hsteps, hq⟩ := exists_steps_eq num hd
  rw [hsteps, ← roundHalfEven_one fractions]
  refine roundHalfEven_le_of_div_le Nat.one_pos hdpos ?_
  have hexponent : 52 + stepExponent num den = floorLog2 num den := by
    unfold stepExponent at he ⊢
    omega
  rw [hq, le_div_iff₀ (by positivity)]
  calc ((fractions : Nat) : ℚ) / (1 : Nat) * 2 ^ stepExponent num den
      = 2 ^ (52 + stepExponent num den) := by
        rw [zpow_add₀ (by norm_num)]
        norm_num [fractions]
    _ = 2 ^ floorLog2 num den := by rw [hexponent]
    _ ≤ num / den := (floorLog2_spec hn hd).1

/-- A greater quotient is not rounded at finer steps. -/
theorem stepExponent_mono (hn : 0 < num) (hd : 0 < den) (hn' : 0 < num') (hd' : 0 < den')
    (h : (num : ℚ) / den ≤ num' / den') : stepExponent num den ≤ stepExponent num' den' := by
  have hlog : floorLog2 num den < floorLog2 num' den' + 1 := by
    refine (zpow_lt_zpow_iff_right₀ (by norm_num : (1 : ℚ) < 2)).mp ?_
    exact ((floorLog2_spec hn hd).1.trans h).trans_lt (floorLog2_spec hn' hd').2
  unfold stepExponent
  omega

/-- **Rounding to a double keeps the order of the patterns.**  Where the step grows, the greatest
significand of the finer step makes the pattern of the least significand of the next. -/
theorem packed_mono (hn : 0 < num) (hd : 0 < den) (hn' : 0 < num') (hd' : 0 < den')
    (h : (num : ℚ) / den ≤ num' / den') : packed num den ≤ packed num' den' := by
  have hleast : -1074 ≤ stepExponent num den := le_max_right _ _
  unfold packed
  rcases (stepExponent_mono hn hd hn' hd' h).lt_or_eq with hless | heq
  · have hup := steps_le hn hd
    have hdown := le_steps hn' hd' (hleast.trans_lt hless)
    have hnext : (stepExponent num den + 1074).toNat + 1 ≤
        (stepExponent num' den' + 1074).toNat := by omega
    calc (stepExponent num den + 1074).toNat * fractions + steps num den
        ≤ ((stepExponent num den + 1074).toNat + 1) * fractions + fractions := by
          rw [Nat.add_mul]
          omega
      _ ≤ (stepExponent num' den' + 1074).toNat * fractions + steps num' den' :=
          Nat.add_le_add (Nat.mul_le_mul_right _ hnext) hdown
  · have hsteps := steps_mono hd hd' heq h
    rw [heq]
    omega

theorem ofRatio_mono (hd : 0 < den) (hd' : 0 < den') (h : (num : ℚ) / den ≤ num' / den') :
    (ofRatio num den).bits.toNat ≤ (ofRatio num' den').bits.toNat := by
  rcases Nat.eq_zero_or_pos num with rfl | hn
  · exact Nat.zero_le _
  · have hn' : 0 < num' := by
      refine Nat.pos_of_ne_zero ?_
      rintro rfl
      have hpos : (0 : ℚ) < num / den := by positivity
      rw [Nat.cast_zero, zero_div] at h
      exact absurd h (not_le.mpr hpos)
    rw [toNat_bits_ofRatio hn, toNat_bits_ofRatio hn']
    exact min_le_min_right _ (packed_mono hn hd hn' hd' h)

/-- A rounded quotient is at most infinity. -/
theorem ofRatio_le_infinity (num den : Nat) :
    (ofRatio num den).bits.toNat ≤ infinity.bits.toNat := by
  rcases Nat.eq_zero_or_pos num with rfl | hn
  · exact Nat.zero_le _
  · rw [toNat_bits_ofRatio hn]
    exact min_le_right _ _

/-! ## 4. What patterns stand for -/

variable {x y : Binary64}

/-- What a finite number stands for, without its sign. -/
def size (x : Binary64) : ℚ := x.significand * 2 ^ x.exponent

/-- **What a finite number stands for.** -/
def value (x : Binary64) : ℚ := if x.isNegative then -x.size else x.size

theorem size_nonneg (x : Binary64) : 0 ≤ x.size := by
  unfold size
  positivity

/-- The magnitude is the size as a quotient. -/
theorem magnitude_div (x : Binary64) :
    0 < x.magnitude.2 ∧ (x.magnitude.1 : ℚ) / x.magnitude.2 = x.size := by
  unfold magnitude size
  generalize x.exponent = e
  split
  · rename_i hpos
    lift e to ℕ using hpos with k
    refine ⟨Nat.one_pos, ?_⟩
    rw [Int.toNat_natCast, Nat.shiftLeft_eq, zpow_natCast, Nat.cast_one, div_one]
    push_cast
    rfl
  · rename_i hneg
    obtain ⟨k, rfl⟩ : ∃ k : ℕ, e = -k := ⟨(-e).toNat, by omega⟩
    rw [neg_neg, Int.toNat_natCast, Nat.shiftLeft_eq, one_mul, zpow_neg, zpow_natCast]
    refine ⟨by positivity, ?_⟩
    push_cast
    rfl

/-- Numbers are the same if their patterns are, read as naturals. -/
theorem eq_of_toNat_bits (h : x.bits.toNat = y.bits.toNat) : x = y := by
  cases x
  cases y
  exact congrArg Binary64.mk (UInt64.toNat_inj.mp h)

/-- **Patterns without a sign are in the order of what they stand for.**  A greater exponent field
makes up for the whole significand. -/
theorem size_lt_of_lt (hy : y.bits.toNat ≤ infinity.bits.toNat)
    (h : x.bits.toNat < y.bits.toNat) : x.size < y.size := by
  have hinfinity : infinity.bits.toNat = 0x7ff0000000000000 := rfl
  have hfields : x.exponentField < y.exponentField ∨
      x.exponentField = y.exponentField ∧ x.fractionField < y.fractionField := by
    unfold exponentField fractionField fractions
    omega
  have hfraction : x.fractionField < fractions := Nat.mod_lt _ (by decide)
  unfold size
  rcases hfields with hless | ⟨heq, hfractions⟩
  · have hsignificand : fractions ≤ y.significand := by
      unfold significand
      split <;> omega
    -- a significand is less than twice the least one with all digits, and there is room for the two
    obtain ⟨k, hk, hexponent⟩ : ∃ k : ℕ, x.significand < fractions * 2 ^ k ∧
        x.exponent + k ≤ y.exponent := by
      unfold significand exponent
      by_cases hzero : x.exponentField = 0
      · exact ⟨0, by simp only [hzero, if_true]; omega, by omega⟩
      · exact ⟨1, by rw [if_neg hzero]; omega, by omega⟩
    calc (x.significand : ℚ) * 2 ^ x.exponent
        < ((fractions * 2 ^ k : Nat) : ℚ) * 2 ^ x.exponent := by gcongr
      _ = fractions * 2 ^ (x.exponent + k) := by
          rw [zpow_add₀ (by norm_num), zpow_natCast]
          push_cast
          rw [mul_assoc, mul_comm (2 ^ k : ℚ)]
      _ ≤ y.significand * 2 ^ y.exponent := by
          gcongr
          norm_num
  · have hsignificand : x.significand < y.significand := by
      unfold significand
      rw [heq]
      split <;> omega
    have hexponent : x.exponent = y.exponent := by
      unfold exponent
      rw [heq]
    rw [hexponent]
    gcongr

theorem size_mono (hy : y.bits.toNat ≤ infinity.bits.toNat) (h : x.bits.toNat ≤ y.bits.toNat) :
    x.size ≤ y.size := by
  rcases h.lt_or_eq with hlt | heq
  · exact (size_lt_of_lt hy hlt).le
  · rw [eq_of_toNat_bits heq]

theorem not_isNegative_of_le (h : x.bits.toNat ≤ infinity.bits.toNat) : x.isNegative = false := by
  have hinfinity : infinity.bits.toNat = 0x7ff0000000000000 := rfl
  unfold isNegative
  rw [decide_eq_false_iff_not]
  omega

theorem isFinite_of_lt (h : x.bits.toNat < infinity.bits.toNat) : x.isFinite = true := by
  have hinfinity : infinity.bits.toNat = 0x7ff0000000000000 := rfl
  unfold isFinite exponentField fractions
  rw [decide_eq_true_eq]
  omega

/-! ## 5. Parts of a whole -/

/-- A product is rounded to at most what a quotient is rounded to that is not less. -/
theorem mul_le (hd : 0 < den) (h : x.size * y.size ≤ num / den) :
    (x.mul y).bits.toNat ≤ (ofRatio num den).bits.toNat := by
  obtain ⟨hx, hxsize⟩ := x.magnitude_div
  obtain ⟨hy, hysize⟩ := y.magnitude_div
  refine ofRatio_mono (Nat.mul_pos hx hy) hd ?_
  push_cast
  rw [mul_div_mul_comm, hxsize, hysize]
  exact h

/-- The same for a quotient of doubles. -/
theorem div_le (hy : 0 < y.size) (hd : 0 < den) (h : x.size / y.size ≤ num / den) :
    (x.div y).bits.toNat ≤ (ofRatio num den).bits.toNat := by
  obtain ⟨hx, hxsize⟩ := x.magnitude_div
  obtain ⟨hypos, hysize⟩ := y.magnitude_div
  have hynum : 0 < y.magnitude.1 := by
    refine Nat.pos_of_ne_zero fun hzero => ?_
    rw [hzero, Nat.cast_zero, zero_div] at hysize
    exact hy.ne hysize
  refine ofRatio_mono (Nat.mul_pos hx hynum) hd ?_
  push_cast
  rw [← div_div_div_eq, hxsize, hysize]
  exact h

theorem size_ofNat_one : (ofNat 1).size = 1 := by
  have hsignificand : (ofNat 1).significand = fractions := by decide
  have hexponent : (ofNat 1).exponent = -52 := by decide
  rw [size, hsignificand, hexponent]
  norm_num [fractions]

theorem size_ofNat_hundred : (ofNat 100).size = 100 := by
  have hsignificand : (ofNat 100).significand = 100 * 2 ^ 46 := by decide
  have hexponent : (ofNat 100).exponent = -46 := by decide
  rw [size, hsignificand, hexponent]
  norm_num

theorem size_ofNat_mono {m n : Nat} (h : m ≤ n) : (ofNat m).size ≤ (ofNat n).size := by
  refine size_mono (ofRatio_le_infinity n 1) (ofRatio_mono Nat.one_pos Nat.one_pos ?_)
  gcongr

/-- The quotient of a part by its whole is rounded to at most one, and a hundred times that to at
most a hundred. -/
theorem percent_le_hundred {part whole : Nat} (h : part ≤ whole) :
    (percent part whole).bits.toNat ≤ (ofNat 100).bits.toNat := by
  unfold percent
  split
  · exact Nat.zero_le _
  · rename_i hwhole
    have hpos : 0 < (ofNat whole).size := by
      refine zero_lt_one.trans_le (size_ofNat_one ▸ size_ofNat_mono ?_)
      exact Nat.one_le_iff_ne_zero.mpr hwhole
    have hquotient : ((ofNat part).div (ofNat whole)).size ≤ 1 := by
      rw [← size_ofNat_one]
      refine size_mono (ofRatio_le_infinity _ _) (div_le hpos Nat.one_pos ?_)
      rw [Nat.cast_one, div_one]
      exact (div_le_one hpos).mpr (size_ofNat_mono h)
    refine mul_le Nat.one_pos ?_
    calc ((ofNat part).div (ofNat whole)).size * (ofNat 100).size ≤ 1 * 100 := by
          rw [size_ofNat_hundred]
          gcongr
      _ = ((100 : Nat) : ℚ) / (1 : Nat) := by norm_num

/-- **A part of a whole is at most 100 percent**, after all roundings. -/
theorem percent_le {part whole : Nat} (h : part ≤ whole) :
    (percent part whole).isFinite = true ∧ 0 ≤ (percent part whole).value ∧
      (percent part whole).value ≤ 100 := by
  have hbits := percent_le_hundred h
  have hfinite : (ofNat 100).bits.toNat < infinity.bits.toNat := by decide
  have hsize : (percent part whole).size ≤ 100 :=
    size_ofNat_hundred ▸ size_mono hfinite.le hbits
  unfold value
  rw [not_isNegative_of_le (hbits.trans hfinite.le)]
  exact ⟨isFinite_of_lt (hbits.trans_lt hfinite), size_nonneg _, hsize⟩

end Binary64

end PackedTree
