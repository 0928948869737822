/-
# Which numbers are integers of 32 bits

A number is kept as a 32-bit integer exactly if it equals one, whatever its pattern is.

* `Binary64.quantity`: what a pattern stands for, be it finite or not.
* `Binary64.toInt?_eq_some_iff`: the integer that a number equals.
* `Binary64.eq_or_isZero`: two patterns of one quantity are the same or the two zeros.
* `Binary64.ofInt_exact`: small integers are doubles.
* `Binary64.toInt32?_eq_some_iff_roundTrip`: a conversion to 32 bits that rounds, clamps and makes 0
  of a NaN gives the integer that a number equals, if converting it back gives the number.
* `Binary64.payload`: the bytes of a number after its tag.
* `Slot.ofNumber_exact`: how numbers are told apart.
-/
import PackedTree.Proofs.Binary64.Rounding
import PackedTree.Proofs.Wire.Attempts

namespace PackedTree

namespace Binary64

variable {x y : Binary64} {i : ℤ}

/-! ## 1. What patterns stand for -/

/-- What a pattern of a double can stand for. -/
inductive Quantity where
  | nan
  | infinity (negative : Bool)
  | finite (q : ℚ)

/-- **What a pattern stands for.** -/
def quantity (x : Binary64) : Quantity :=
  if x.isFinite then .finite x.value
  else if x.isNaN then .nan
  else .infinity x.isNegative

theorem quantity_eq_finite_iff {q : ℚ} :
    x.quantity = .finite q ↔ x.isFinite = true ∧ x.value = q := by
  unfold quantity
  split_ifs with hfinite <;> simp [hfinite]

/-- A quotient equals an integer if nothing remains. -/
theorem div_eq_intCast_iff {a b : ℕ} (hb : 0 < b) :
    (a : ℚ) / b = i ↔ a % b = 0 ∧ ((a / b : ℕ) : ℤ) = i := by
  have hb' : (b : ℚ) ≠ 0 := by exact_mod_cast hb.ne'
  rw [div_eq_iff hb']
  constructor
  · intro h
    have hproduct : (a : ℤ) = i * b := by exact_mod_cast h
    constructor
    · have hmod : (a : ℤ) % b = 0 := by rw [hproduct, Int.mul_emod_left]
      exact_mod_cast hmod
    · rw [Int.natCast_div, hproduct, Int.mul_ediv_cancel _ (by exact_mod_cast hb.ne')]
  · rintro ⟨hmod, rfl⟩
    have hproduct : a / b * b = a := by rw [Nat.div_mul_cancel (Nat.dvd_of_mod_eq_zero hmod)]
    exact_mod_cast hproduct.symm

/-- **The integer a number equals.** -/
theorem toInt?_eq_some_iff : x.toInt? = some i ↔ x.quantity = .finite i := by
  obtain ⟨hpos, hsize⟩ := x.magnitude_div
  have hexact (j : ℤ) : x.size = j ↔
      x.magnitude.1 % x.magnitude.2 = 0 ∧ ((x.magnitude.1 / x.magnitude.2 : ℕ) : ℤ) = j := by
    rw [← hsize, div_eq_intCast_iff hpos]
  rw [quantity_eq_finite_iff]
  unfold toInt? value
  by_cases hfinite : x.isFinite = true
  · rw [if_pos hfinite, and_iff_right hfinite]
    by_cases hnegative : x.isNegative = true
    · have hsign : -x.size = i ↔ x.size = (-i : ℤ) := by
        rw [neg_eq_iff_eq_neg]
        push_cast
        rfl
      rw [if_pos hnegative, hsign, hexact]
      simp only [hnegative, if_true, Option.ite_none_right_eq_some,
        Option.some.injEq, neg_eq_iff_eq_neg]
    · rw [if_neg hnegative, hexact]
      simp only [hnegative, Bool.false_eq_true, if_false, Option.ite_none_right_eq_some,
        Option.some.injEq]
  · rw [if_neg hfinite]
    exact ⟨fun h => (nomatch h), fun h => absurd h.1 hfinite⟩

/-- **The 32-bit integer a number equals.** -/
theorem toInt32?_eq_some_iff {j : Int32} : x.toInt32? = some j ↔ x.toInt? = some j.toInt := by
  unfold toInt32?
  cases hx : x.toInt? with
  | none => simp
  | some i =>
    simp only [Option.some.injEq]
    split_ifs with hrange
    · rw [Option.some.injEq, ← Int32.toInt_inj, Int32.toInt_ofInt_of_le hrange.1 hrange.2]
    · refine ⟨fun h => (nomatch h), ?_⟩
      rintro rfl
      exact absurd ⟨j.le_toInt, j.toInt_lt⟩ hrange

/-! ## 2. Patterns of one quantity -/

/-- One of the two zeros. -/
def IsZero (x : Binary64) : Prop := x = zero ∨ x = zero.negative

/-- The same magnitude without the sign bit. -/
def unsigned (x : Binary64) : Binary64 := ⟨UInt64.ofNat (x.bits.toNat % 0x8000000000000000)⟩

theorem toNat_bits_unsigned (x : Binary64) :
    x.unsigned.bits.toNat = x.bits.toNat % 0x8000000000000000 := by
  have hlt : x.bits.toNat % 0x8000000000000000 < 0x8000000000000000 := Nat.mod_lt _ (by decide)
  exact UInt64.toNat_ofNat_of_lt (hlt.trans (by decide))

theorem fields_unsigned (x : Binary64) :
    x.unsigned.exponentField = x.exponentField ∧ x.unsigned.fractionField = x.fractionField := by
  unfold exponentField fractionField fractions
  rw [toNat_bits_unsigned]
  omega

/-- The size is that of the fields. -/
theorem size_congr (he : x.exponentField = y.exponentField)
    (hf : x.fractionField = y.fractionField) : x.size = y.size := by
  simp only [size, significand, exponent, he, hf]

theorem unsigned_lt_infinity (h : x.isFinite = true) :
    x.unsigned.bits.toNat < infinity.bits.toNat := by
  have hinfinity : infinity.bits.toNat = 0x7ff0000000000000 := rfl
  unfold isFinite exponentField fractions at h
  rw [decide_eq_true_eq] at h
  rw [toNat_bits_unsigned]
  omega

theorem abs_value (x : Binary64) : |x.value| = x.size := by
  unfold value
  split
  · rw [abs_neg, abs_of_nonneg x.size_nonneg]
  · exact abs_of_nonneg x.size_nonneg

theorem isZero_of_size (h : x.size = 0) : x.IsZero := by
  have hsignificand : x.significand = 0 := by
    have hpower : (2 : ℚ) ^ x.exponent ≠ 0 := by positivity
    exact_mod_cast (mul_eq_zero.mp h).resolve_right hpower
  have hfields : x.bits.toNat / 0x10000000000000 % 2048 = 0 ∧
      x.bits.toNat % 0x10000000000000 = 0 := by
    unfold significand exponentField fractionField fractions at hsignificand
    split at hsignificand <;> omega
  have hbits : x.bits.toNat = 0 ∨ x.bits.toNat = 0x8000000000000000 := by
    have hlt := x.bits.toNat_lt
    omega
  exact hbits.imp (fun h => eq_of_toNat_bits h) fun h => eq_of_toNat_bits h

theorem IsZero.quantity_eq (h : x.IsZero) : x.quantity = .finite 0 := by
  have hfinite : zero.isFinite = true ∧ zero.negative.isFinite = true := by decide
  have hsignificand : zero.significand = 0 ∧ zero.negative.significand = 0 := by decide
  have hvalue {z : Binary64} (hz : z.significand = 0) : z.value = 0 := by
    rw [← abs_eq_zero, abs_value, size, hz, Nat.cast_zero, zero_mul]
  rw [quantity_eq_finite_iff]
  rcases h with rfl | rfl
  · exact ⟨hfinite.1, hvalue hsignificand.1⟩
  · exact ⟨hfinite.2, hvalue hsignificand.2⟩

/-- **The zeros stand for zero**, and nothing else does. -/
theorem isZero_iff : x.IsZero ↔ x.quantity = .finite 0 := by
  refine ⟨IsZero.quantity_eq, fun h => isZero_of_size ?_⟩
  rw [← abs_value, (quantity_eq_finite_iff.mp h).2, abs_zero]

/-- **Finite patterns of one value** are the same or the two zeros: without signs they are in the
order of their sizes, and the signs can only differ at zero. -/
theorem eq_or_isZero {q : ℚ} (hx : x.quantity = .finite q) (hy : y.quantity = .finite q) :
    x = y ∨ x.IsZero ∧ y.IsZero := by
  obtain ⟨hxfinite, hxvalue⟩ := quantity_eq_finite_iff.mp hx
  obtain ⟨hyfinite, hyvalue⟩ := quantity_eq_finite_iff.mp hy
  have hsize : x.size = y.size := by rw [← abs_value, ← abs_value, hxvalue, hyvalue]
  have hunsigned : x.unsigned.bits.toNat = y.unsigned.bits.toNat := by
    have hxsize : x.unsigned.size = x.size := size_congr x.fields_unsigned.1 x.fields_unsigned.2
    have hysize : y.unsigned.size = y.size := size_congr y.fields_unsigned.1 y.fields_unsigned.2
    rcases Nat.lt_trichotomy x.unsigned.bits.toNat y.unsigned.bits.toNat with hlt | heq | hgt
    · have hless := size_lt_of_lt (unsigned_lt_infinity hyfinite).le hlt
      rw [hxsize, hysize, hsize] at hless
      exact absurd hless (lt_irrefl _)
    · exact heq
    · have hless := size_lt_of_lt (unsigned_lt_infinity hxfinite).le hgt
      rw [hxsize, hysize, hsize] at hless
      exact absurd hless (lt_irrefl _)
  rw [toNat_bits_unsigned, toNat_bits_unsigned] at hunsigned
  by_cases hsign : x.isNegative = y.isNegative
  · left
    have hxlt := x.bits.toNat_lt
    have hylt := y.bits.toNat_lt
    simp only [isNegative, decide_eq_decide] at hsign
    exact eq_of_toNat_bits (by omega)
  · right
    -- a size and the same size below zero are equal
    have hzero : x.size = 0 := by
      have hvalues : x.value = y.value := hxvalue.trans hyvalue.symm
      rw [value, value, ← hsize, Bool.eq_not_of_ne hsign] at hvalues
      cases hnegative : y.isNegative with
      | false =>
        rw [hnegative] at hvalues
        simpa [neg_eq_self] using hvalues
      | true =>
        rw [hnegative] at hvalues
        simpa [self_eq_neg] using hvalues
    exact ⟨isZero_of_size hzero, isZero_of_size (hsize ▸ hzero)⟩

/-! ## 3. Integers as doubles -/

/-- The leading digit of an integer below a power of two. -/
theorem floorLog2_lt {n k : ℕ} (hpos : 0 < n) (hn : n < 2 ^ k) : floorLog2 n 1 < k := by
  obtain ⟨hlow, -⟩ := floorLog2_spec hpos Nat.one_pos
  rw [Nat.cast_one, div_one] at hlow
  refine (zpow_lt_zpow_iff_right₀ (by norm_num : (1 : ℚ) < 2)).mp (hlow.trans_lt ?_)
  exact_mod_cast hn

/-- The leading digit of an integer below `2 ^ 53` is among the first 53. -/
theorem floorLog2_small {n : ℕ} (hpos : 0 < n) (hn : n < 2 ^ 53) :
    ∃ k : ℕ, k ≤ 52 ∧ floorLog2 n 1 = 52 - k := by
  obtain ⟨-, hhigh⟩ := floorLog2_spec hpos Nat.one_pos
  rw [Nat.cast_one, div_one] at hhigh
  have hbelow : floorLog2 n 1 < 53 := floorLog2_lt hpos hn
  have habove : 0 < floorLog2 n 1 + 1 := by
    refine (zpow_lt_zpow_iff_right₀ (by norm_num : (1 : ℚ) < 2)).mp (lt_of_le_of_lt ?_ hhigh)
    rw [zpow_zero]
    exact_mod_cast hpos
  exact ⟨(52 - floorLog2 n 1).toNat, by omega, by omega⟩

/-- **A positive integer below `2 ^ 53` has all its digits**: its significand is it with zeros
behind, and its exponent counts these. -/
theorem toNat_bits_ofNat {n : ℕ} (hpos : 0 < n) (hn : n < 2 ^ 53) :
    ∃ k : ℕ, k ≤ 52 ∧ fractions ≤ n * 2 ^ k ∧ n * 2 ^ k < 2 * fractions ∧
      (ofNat n).bits.toNat = (1074 - k) * fractions + n * 2 ^ k := by
  obtain ⟨k, hk, hlog⟩ := floorLog2_small hpos hn
  have hstep : stepExponent n 1 = -k := by
    unfold stepExponent
    omega
  -- an integral number of steps is rounded to itself
  have hsteps : steps n 1 = n * 2 ^ k := by
    obtain ⟨num, den, hden, hsteps, hq⟩ := exists_steps_eq n Nat.one_pos
    have hquotient : (num : ℚ) / den = (n * 2 ^ k : ℕ) / (1 : ℕ) := by
      rw [hq, hstep, zpow_neg, zpow_natCast, div_inv_eq_mul]
      push_cast
      ring
    rw [hsteps]
    refine le_antisymm ?_ ?_
    · exact (roundHalfEven_le_of_div_le hden Nat.one_pos hquotient.le).trans_eq
        (roundHalfEven_one _)
    · exact (roundHalfEven_one _).symm.trans_le
        (roundHalfEven_le_of_div_le Nat.one_pos hden hquotient.ge)
  have hlow : fractions ≤ n * 2 ^ k := hsteps ▸ le_steps hpos Nat.one_pos (by omega)
  have hhigh : n * 2 ^ k < 2 * fractions := by
    have hdigits : (n : ℚ) < 2 ^ (53 - k) := by
      have hspec := (floorLog2_spec hpos Nat.one_pos).2
      have hexponent : (52 : ℤ) - k + 1 = (53 - k : ℕ) := by omega
      rwa [Nat.cast_one, div_one, hlog, hexponent, zpow_natCast] at hspec
    calc n * 2 ^ k < 2 ^ (53 - k) * 2 ^ k :=
          Nat.mul_lt_mul_of_pos_right (by exact_mod_cast hdigits) (Nat.two_pow_pos k)
      _ = 2 * fractions := by rw [← pow_add, Nat.sub_add_cancel (by omega)]; rfl
  have hpacked : packed n 1 = (1074 - k) * fractions + n * 2 ^ k := by
    rw [packed, hsteps, hstep]
    congr 2
    omega
  refine ⟨k, hk, hlow, hhigh, ?_⟩
  rw [ofNat, toNat_bits_ofRatio hpos, hpacked]
  have hinfinity : infinity.bits.toNat = 2047 * fractions := rfl
  refine min_eq_left ?_
  have hexponent : (1074 - k) * fractions ≤ 1074 * fractions := Nat.mul_le_mul_right _ (by omega)
  omega

/-- What patterns with these fields stand for. -/
theorem size_of_fields {e s : ℕ} (hx : x.bits.toNat % 0x8000000000000000 = e * fractions + s)
    (hlow : fractions ≤ s) (hhigh : s < 2 * fractions) (he : e < 2046) :
    x.isFinite = true ∧ x.size = s * 2 ^ ((e : ℤ) - 1074) := by
  have hexponentField : x.exponentField = e + 1 := by
    unfold exponentField fractions at *
    omega
  have hfractionField : x.fractionField = s - fractions := by
    unfold fractionField fractions at *
    omega
  constructor
  · unfold isFinite
    rw [hexponentField, decide_eq_true_eq]
    omega
  · have hsignificand : x.significand = s := by
      rw [significand, hexponentField, hfractionField, if_neg (by omega)]
      omega
    have hexponent : x.exponent = (e : ℤ) - 1074 := by
      unfold exponent
      omega
    rw [size, hsignificand, hexponent]

/-- The sign bit is added to a number without one. -/
theorem toNat_bits_negative (h : x.bits.toNat < 0x8000000000000000) :
    x.negative.bits.toNat = x.bits.toNat + 0x8000000000000000 := by
  have hor := Nat.two_pow_add_eq_or_of_lt (i := 63) h 1
  rw [negative, UInt64.toNat_or, Nat.or_comm]
  exact hor.symm.trans (Nat.add_comm _ _)

/-- **Small integers are doubles**: nothing is rounded. -/
theorem ofInt_exact (hi : i.natAbs < 2 ^ 53) : (ofInt i).quantity = .finite i := by
  rcases Nat.eq_zero_or_pos i.natAbs with hzero | hpos
  · obtain rfl := Int.natAbs_eq_zero.mp hzero
    rw [Int.cast_zero]
    exact IsZero.quantity_eq (.inl rfl)
  · obtain ⟨k, hk, hlow, hhigh, hbits⟩ := toNat_bits_ofNat hpos hi
    have hunsigned : (ofNat i.natAbs).bits.toNat < 0x8000000000000000 := by
      have hexponent : (1074 - k) * fractions ≤ 1074 * fractions :=
        Nat.mul_le_mul_right _ (by omega)
      unfold fractions at *
      omega
    have hsize {x : Binary64}
        (hx : x.bits.toNat % 0x8000000000000000 = (1074 - k) * fractions + i.natAbs * 2 ^ k) :
        x.isFinite = true ∧ x.size = i.natAbs := by
      obtain ⟨hfinite, hsize⟩ := size_of_fields hx hlow hhigh (by omega)
      refine ⟨hfinite, hsize.trans ?_⟩
      have hexponent : ((1074 - k : ℕ) : ℤ) - 1074 = -k := by omega
      rw [hexponent, zpow_neg, zpow_natCast]
      push_cast
      exact mul_inv_cancel_right₀ (by positivity) _
    rw [quantity_eq_finite_iff, ofInt]
    split_ifs with hsign
    · have hbits' := toNat_bits_negative hunsigned
      obtain ⟨hfinite, hvalue⟩ := hsize (x := (ofNat i.natAbs).negative) (by omega)
      have hnegative : (ofNat i.natAbs).negative.isNegative = true := by
        rw [isNegative, hbits', decide_eq_true_eq]
        omega
      refine ⟨hfinite, ?_⟩
      rw [value, if_pos hnegative, hvalue, ← Int.cast_natCast, ← Int.cast_neg]
      congr 1
      omega
    · obtain ⟨hfinite, hvalue⟩ := hsize (x := ofNat i.natAbs) (by omega)
      have hnegative : (ofNat i.natAbs).isNegative = false := by
        rw [isNegative, decide_eq_false_iff_not]
        omega
      refine ⟨hfinite, ?_⟩
      rw [value, hnegative, if_neg (by decide), hvalue, ← Int.cast_natCast]
      congr 1
      omega

/-! ## 4. Converting to 32 bits and back -/

/-- The integer part, toward zero. -/
def truncated (x : Binary64) : ℤ :=
  if x.isNegative then -(x.magnitude.1 / x.magnitude.2 : ℕ) else (x.magnitude.1 / x.magnitude.2 : ℕ)

/-- **A conversion to 32 bits that never fails**: the fractional part is dropped, what is out of
bounds becomes the bound, and a NaN becomes 0. -/
def clamped (x : Binary64) : Int32 :=
  if x.isNaN then 0
  else if x.isFinite then Int32.ofInt (max (-0x80000000) (min x.truncated 0x7fffffff))
  else if x.isNegative then Int32.minValue
  else Int32.maxValue

/-- **Equality of numbers**, which no NaN has with anything. -/
def Equals (x y : Binary64) : Prop := x.quantity = y.quantity ∧ x.quantity ≠ .nan

theorem truncated_of_toInt? (h : x.toInt? = some i) : x.truncated = i := by
  unfold toInt? at h
  simp only [Option.ite_none_right_eq_some, Option.some.injEq] at h
  exact h.2.2

/-- A number that equals a 32-bit integer is converted to it. -/
theorem clamped_of_quantity {j : Int32} (h : x.quantity = .finite j.toInt) : x.clamped = j := by
  have hfinite := (quantity_eq_finite_iff.mp h).1
  have hnan : x.isNaN = false := by
    unfold isFinite at hfinite
    unfold isNaN
    simp only [decide_eq_true_eq, decide_eq_false_iff_not] at hfinite ⊢
    exact fun hones => hfinite hones.1
  have hlow := j.le_toInt
  have hhigh := j.toInt_lt
  unfold clamped
  rw [hnan, if_neg (by decide), if_pos hfinite, truncated_of_toInt? (toInt?_eq_some_iff.mpr h),
    min_eq_left (by omega), max_eq_right (by omega), Int32.ofInt_toInt]

/-- An integer of 32 bits, converted to a double, equals what stands for it. -/
theorem ofInt_equals_iff {j : Int32} : (ofInt j.toInt).Equals x ↔ x.quantity = .finite j.toInt := by
  have hlow := j.le_toInt
  have hhigh := j.toInt_lt
  rw [Equals, ofInt_exact (by omega)]
  exact ⟨fun h => h.1.symm, fun h => ⟨h.symm, fun hnan => (nomatch hnan)⟩⟩

/-- **Converting there and back**: the conversion that never fails gives the integer that a number
equals, if that converts back to the number. -/
theorem toInt32?_eq_some_iff_roundTrip {j : Int32} :
    x.toInt32? = some j ↔ x.clamped = j ∧ (ofInt j.toInt).Equals x := by
  rw [toInt32?_eq_some_iff, toInt?_eq_some_iff, ofInt_equals_iff]
  exact ⟨fun h => ⟨clamped_of_quantity h, h⟩, And.right⟩

/-- **Numbers are told apart** unless they are the two zeros. -/
theorem toInt32?_eq_some_inj {j : Int32} (hx : x.toInt32? = some j) (hy : y.toInt32? = some j) :
    x = y ∨ x.IsZero ∧ y.IsZero :=
  eq_or_isZero (toInt?_eq_some_iff.mp (toInt32?_eq_some_iff.mp hx))
    (toInt?_eq_some_iff.mp (toInt32?_eq_some_iff.mp hy))

theorem toInt32?_of_isZero (h : x.IsZero) : x.toInt32? = some 0 := by
  rw [toInt32?_eq_some_iff, toInt?_eq_some_iff, h.quantity_eq]
  simp

/-! ## 5. The bytes of a number -/

/-- The bytes of a number after its tag. -/
def payload (x : Binary64) : List UInt8 :=
  match x.toInt32? with
  | some i => Write.word32 i.toUInt32
  | none => Write.word64 x.bits

/-- **The payload tells numbers apart** as their slots do: the two widths have two lengths, and
bytes of one width stand for one word. -/
theorem payload_eq_iff : x.payload = y.payload ↔ x = y ∨ x.IsZero ∧ y.IsZero := by
  constructor
  · intro h
    unfold payload at h
    cases hx : x.toInt32? with
    | some i =>
      cases hy : y.toInt32? with
      | some j =>
        rw [hx, hy] at h
        have hint : i.toInt = j.toInt := by
          rw [← Write.littleEndian_int32 i, ← Write.littleEndian_int32 j]
          exact congrArg (fun bytes => (littleEndian bytes : ℤ).bmod (2 ^ 32)) h
        exact toInt32?_eq_some_inj hx (Int32.toInt_inj.mp hint ▸ hy)
      | none =>
        rw [hx, hy] at h
        exact nomatch congrArg List.length h
    | none =>
      cases hy : y.toInt32? with
      | some j =>
        rw [hx, hy] at h
        exact nomatch congrArg List.length h
      | none =>
        rw [hx, hy] at h
        refine .inl (eq_of_toNat_bits ?_)
        rw [← Write.littleEndian_word64, ← Write.littleEndian_word64]
        exact congrArg littleEndian h
  · rintro (rfl | ⟨hx, hy⟩)
    · rfl
    · rw [payload, payload, toInt32?_of_isZero hx, toInt32?_of_isZero hy]

end Binary64

namespace Slot

variable {S N : Type} {x y : Binary64}

theorem ofNumber_eq_int32_iff {j : Int32} :
    (ofNumber x : Slot S N) = .int32 j ↔ x.toInt32? = some j := by
  unfold ofNumber
  cases x.toInt32? <;> simp

theorem ofNumber_eq_float64_iff {z : Binary64} :
    (ofNumber x : Slot S N) = .float64 z ↔ z = x ∧ x.toInt32? = none := by
  unfold ofNumber
  cases x.toInt32? <;> simp [eq_comm]

theorem ofNumber_inj :
    (ofNumber x : Slot S N) = ofNumber y ↔ x = y ∨ x.IsZero ∧ y.IsZero := by
  constructor
  · intro h
    cases hx : x.toInt32? with
    | some j =>
      rw [ofNumber_eq_int32_iff.mpr hx] at h
      exact Binary64.toInt32?_eq_some_inj hx (ofNumber_eq_int32_iff.mp h.symm)
    | none =>
      rw [ofNumber_eq_float64_iff.mpr ⟨rfl, hx⟩] at h
      exact .inl (ofNumber_eq_float64_iff.mp h.symm).1
  · rintro (rfl | ⟨hx, hy⟩)
    · rfl
    · rw [ofNumber_eq_int32_iff.mpr (Binary64.toInt32?_of_isZero hx),
        ofNumber_eq_int32_iff.mpr (Binary64.toInt32?_of_isZero hy)]

end Slot

/-! ## 6. How numbers are told apart -/

/-- The integer that a number equals is one of 32 bits. -/
def Binary64.IsInt32 (x : Binary64) (i : ℤ) : Prop :=
  x.quantity = .finite i ∧ -2 ^ 31 ≤ i ∧ i ≤ 2 ^ 31 - 1

theorem Binary64.isInt32_iff {x : Binary64} {i : ℤ} :
    x.IsInt32 i ↔ ∃ j : Int32, j.toInt = i ∧ x.toInt32? = some j := by
  simp only [toInt32?_eq_some_iff, toInt?_eq_some_iff]
  constructor
  · rintro ⟨h, hlow, hhigh⟩
    have hi : (Int32.ofInt i).toInt = i := Int32.toInt_ofInt_of_le hlow (by omega)
    exact ⟨Int32.ofInt i, hi, hi.symm ▸ h⟩
  · rintro ⟨j, rfl, h⟩
    exact ⟨h, j.le_toInt, Int.le_sub_one_of_lt j.toInt_lt⟩

/-- A number is written as its tag and its payload. -/
theorem Write.appends_number {encoding : IntEncoding} (x : Binary64) :
    Appends encoding (cell (Slot.ofNumber x))
      ((Slot.ofNumber x : Cell).tag.byte :: x.payload) := by
  unfold Slot.ofNumber Binary64.payload
  cases x.toInt32? with
  | some j => exact (appends_tag _).bind (appends_chunk _)
  | none => exact (appends_tag _).bind (appends_chunk _)

/-- **Numbers are told apart exactly.**

A number is kept as a 32-bit integer exactly if it equals that integer, and else as its own pattern;
converting it to 32 bits and back decides the same.  So two numbers are kept alike only if their
patterns are the same or the two zeros.  The payload is the integer in two's complement or the
pattern, the least significant byte first, and it tells numbers apart in the same way. -/
theorem Slot.ofNumber_exact {S N : Type} (x y : Binary64) :
    (∀ i : ℤ, (∃ j : Int32, j.toInt = i ∧ (ofNumber x : Slot S N) = .int32 j) ↔ x.IsInt32 i) ∧
    (∀ z, (ofNumber x : Slot S N) = .float64 z ↔ z = x ∧ ¬∃ i, x.IsInt32 i) ∧
    (∀ j, (ofNumber x : Slot S N) = .int32 j ↔
      x.clamped = j ∧ (Binary64.ofInt j.toInt).Equals x) ∧
    ((ofNumber x : Slot S N) = .int32 0 ↔ x = .zero ∨ x = Binary64.zero.negative) ∧
    ((ofNumber x : Slot S N) = ofNumber y ↔ x = y ∨ x.IsZero ∧ y.IsZero) ∧
    (∀ w : Writer, ∃ w', Write.cell (ofNumber x) { w with limit := none } = .ok () w' ∧
      w'.bytes.data.toList = w.bytes.data.toList ++ (ofNumber x : Cell).tag.byte :: x.payload) ∧
    (∀ encoding, Write.Appends encoding (Write.cell (ofNumber x))
      ((ofNumber x : Cell).tag.byte :: x.payload)) ∧
    (match (ofNumber x : Slot S N) with
      | .int32 j =>
        x.payload.length = 4 ∧ (littleEndian x.payload : ℤ).bmod (2 ^ 32) = j.toInt
      | .float64 z => x.payload.length = 8 ∧ littleEndian x.payload = z.bits.toNat
      | _ => False) ∧
    (x.payload = y.payload ↔ x = y ∨ x.IsZero ∧ y.IsZero) := by
  refine ⟨fun i => ?integers, fun z => ?others, fun j => ?roundTrip, ?zeros, ofNumber_inj,
    fun w => ?written, fun encoding => Write.appends_number x, ?bytes, Binary64.payload_eq_iff⟩
  case integers => simp only [ofNumber_eq_int32_iff, Binary64.isInt32_iff]
  case others =>
    have hnone : (¬∃ i, x.IsInt32 i) ↔ x.toInt32? = none := by
      simp only [Binary64.isInt32_iff, Option.eq_none_iff_forall_ne_some]
      exact ⟨fun h j hj => h ⟨_, j, rfl, hj⟩, fun h ⟨_, j, _, hj⟩ => h j hj⟩
    rw [ofNumber_eq_float64_iff, hnone]
  case roundTrip => rw [ofNumber_eq_int32_iff, Binary64.toInt32?_eq_some_iff_roundTrip]
  case zeros =>
    have hzero : ((0 : Int32).toInt : ℚ) = 0 := by exact_mod_cast Int32.toInt_zero
    rw [ofNumber_eq_int32_iff, Binary64.toInt32?_eq_some_iff, Binary64.toInt?_eq_some_iff, hzero]
    exact Binary64.isZero_iff.symm
  case written =>
    obtain ⟨w', hw'⟩ := (Write.sized_cell (ofNumber x) { w with limit := none } rfl rfl).2 trivial
    exact ⟨w', hw', (Write.appends_number x _ w' rfl hw').2⟩
  case bytes =>
    unfold ofNumber Binary64.payload
    cases x.toInt32? with
    | some j => exact ⟨rfl, Write.littleEndian_int32 j⟩
    | none => exact ⟨rfl, Write.littleEndian_word64 x.bits⟩

/-- The greatest integer of 32 bits, and the number after it. -/
example : (Slot.ofNumber ⟨0x41dfffffffc00000⟩ : Cell) = .int32 0x7fffffff ∧
    (Slot.ofNumber ⟨0x41e0000000000000⟩ : Cell) = .float64 ⟨0x41e0000000000000⟩ := by decide

end PackedTree
