/-
# Double-precision numbers, by their bits

A number of the tree is one of the 2^64 patterns of a double.  Nothing here computes with the
processor's floating-point unit: a pattern is taken apart into sign, significand and exponent,
and everything else is integer arithmetic.

* `Binary64.significand` and `Binary64.exponent` give a finite number as
  `significand * 2 ^ exponent`, up to the sign.
* `Binary64.toInt?` is the integer that a number equals, if there is one.
* `Binary64.toInt32?` keeps those that fit 32 bits: they are the numbers written as integers.
-/

namespace PackedTree

/-- A double-precision number, known by its bit pattern.  Two numbers are the same only if their
patterns are: the two zeros differ, and so do two NaNs with different payloads. -/
structure Binary64 where
  bits : UInt64
deriving DecidableEq, Hashable, Repr, Inhabited

namespace Binary64

/-! ## 1. The fields of a pattern -/

/-- The number of patterns of the fifty-two fraction bits.  It is also the hidden bit. -/
def fractions : Nat := 0x10000000000000

/-- Whether the sign bit is set. -/
def isNegative (x : Binary64) : Bool := 0x8000000000000000 ≤ x.bits.toNat

/-- The eleven exponent bits. -/
def exponentField (x : Binary64) : Nat := x.bits.toNat / fractions % 2048

/-- The fifty-two fraction bits. -/
def fractionField (x : Binary64) : Nat := x.bits.toNat % fractions

/-- Neither an infinity nor a NaN. -/
def isFinite (x : Binary64) : Bool := x.exponentField ≠ 2047

/-- An exponent field of ones with a fraction: no number at all. -/
def isNaN (x : Binary64) : Bool := x.exponentField = 2047 ∧ x.fractionField ≠ 0

/-! ## 2. The value of a finite number -/

/-- The integer that the exponent scales: numbers with exponent field zero have no hidden bit. -/
def significand (x : Binary64) : Nat :=
  if x.exponentField = 0 then x.fractionField else fractions + x.fractionField

/-- The power of two that scales the significand. -/
def exponent (x : Binary64) : Int := (max x.exponentField 1 : Nat) - 1075

/-- The magnitude of a finite number as a quotient of two naturals, the second a power of two. -/
def magnitude (x : Binary64) : Nat × Nat :=
  if 0 ≤ x.exponent then (x.significand <<< x.exponent.toNat, 1)
  else (x.significand, 1 <<< (-x.exponent).toNat)

/-- **The integer a number equals.**  Infinities, NaNs and numbers with a fractional part have
none; both zeros have 0. -/
def toInt? (x : Binary64) : Option Int :=
  if x.isFinite then
    let (above, below) := x.magnitude
    if above % below = 0 then
      some (if x.isNegative then -(above / below : Nat) else (above / below : Nat))
    else none
  else none

/-- The 32-bit integer a number equals. -/
def toInt32? (x : Binary64) : Option Int32 :=
  match x.toInt? with
  | some i => if -0x80000000 ≤ i ∧ i < 0x80000000 then some (Int32.ofInt i) else none
  | none => none

/-! ## 3. Particular numbers -/

def zero : Binary64 := ⟨0⟩

def infinity : Binary64 := ⟨0x7ff0000000000000⟩

/-- The same magnitude with the sign bit set. -/
def negative (x : Binary64) : Binary64 := ⟨x.bits ||| 0x8000000000000000⟩

end Binary64

end PackedTree
