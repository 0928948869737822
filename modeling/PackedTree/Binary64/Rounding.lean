/-
# Rounding to the nearest double

`Binary64.ofRatio` is the one rounding step of the library: it gives the double nearest to a
quotient of naturals, a tie going to the even neighbour, and infinity from half a step above the
largest finite number.  Integers, products and quotients of doubles are instances of it, because
all of them are exact quotients before they are rounded.
-/
import PackedTree.Binary64

namespace PackedTree

/-- The integer nearest to `num / den`; a tie goes to the even neighbour. -/
def roundHalfEven (num den : Nat) : Nat :=
  let q := num / den
  let r := num % den
  if 2 * r < den then q
  else if den < 2 * r then q + 1
  else if q % 2 = 0 then q else q + 1

/-- The greatest `e` with `2 ^ e ≤ num / den`, for positive `num` and `den`. -/
def floorLog2 (num den : Nat) : Int :=
  let l : Int := (num.log2 : Int) - den.log2
  let below := if 0 ≤ l then num < den <<< l.toNat else num <<< (-l).toNat < den
  if below then l - 1 else l

namespace Binary64

/-- **The double nearest to a quotient.**  The quotient is rounded at the step `2 ^ e` of the
doubles around it, where `e` is at least -1074.  Adding the rounded count of steps to the
exponent field also carries: a significand rounded up to `2 ^ 53` is the next power of two. -/
def ofRatio (num den : Nat) : Binary64 :=
  if num = 0 then zero
  else
    let e := max (floorLog2 num den - 52) (-1074)
    let steps :=
      if 0 ≤ e then roundHalfEven num (den <<< e.toNat)
      else roundHalfEven (num <<< (-e).toNat) den
    let packed := (e + 1074).toNat * fractions + steps
    if infinity.bits.toNat ≤ packed then infinity else ⟨UInt64.ofNat packed⟩

def ofNat (n : Nat) : Binary64 := ofRatio n 1

def ofInt (i : Int) : Binary64 :=
  if i < 0 then (ofNat i.natAbs).negative else ofNat i.natAbs

/-- The rounded product of the magnitudes of two finite numbers. -/
def mul (x y : Binary64) : Binary64 :=
  ofRatio (x.magnitude.1 * y.magnitude.1) (x.magnitude.2 * y.magnitude.2)

/-- The rounded quotient of the magnitudes of two finite numbers, the second not zero. -/
def div (x y : Binary64) : Binary64 :=
  ofRatio (x.magnitude.1 * y.magnitude.2) (x.magnitude.2 * y.magnitude.1)

/-- A part of a whole in percent, rounded after the division and after the multiplication; of
nothing it is zero. -/
def percent (part whole : Nat) : Binary64 :=
  if whole = 0 then zero else ((ofNat part).div (ofNat whole)).mul (ofNat 100)

end Binary64

end PackedTree
