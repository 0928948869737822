/-
# The fewest digits that read back

A finite positive double stands for every real that rounds to it.  `Decimal.shortest` gives the
shortest decimal among these reals, and of several the one nearest to the double itself.  Where
two are equally near, the caller's rule decides.

For 1, 2, … 17 digits the two neighbours of the double on that decimal grid are tested in exact
integer arithmetic.  The first grid with a hit wins.  Testing the neighbours is enough: the reals
that round to a double form an interval around it, so an interval that holds some point of a grid
holds one of the two next to the double.
-/
import PackedTree.Binary64

namespace PackedTree

/-- A positive decimal `digits * 10 ^ scale`. -/
structure Decimal where
  digits : Nat
  scale : Int
deriving DecidableEq, Repr, Inhabited

namespace Decimal

def powerOfTen (k : Nat) : Nat := Nat.pow 10 k

/-- How many decimal digits a natural has; zero has one. -/
def length (n : Nat) : Nat := (Nat.toDigits 10 n).length

/-- The greatest `k` with `10 ^ k ≤ num / den`, for positive `num` and `den`. -/
def floorLog10 (num den : Nat) : Int :=
  if den ≤ num then (length (num / den) : Int) - 1
  else -(length ((den + num - 1) / num - 1) : Int)

/-! ## 1. The reals that round to a double -/

/-- The reals from `low / den` to `high / den` around `mid / den`, the ends included or not. -/
structure Interval where
  low : Nat
  mid : Nat
  high : Nat
  den : Nat
  closed : Bool

/-- Half a step to either side; the step below a power of two is half as long.  The ends round
to the double exactly if its significand is even. -/
def Interval.ofBinary64 (x : Binary64) : Interval :=
  let m := x.significand
  let below := if m = Binary64.fractions then 1 else 2
  let e := x.exponent - 2
  let (up, den) := if 0 ≤ e then (1 <<< e.toNat, 1) else (1, 1 <<< (-e).toNat)
  { low := (4 * m - below) * up, mid := 4 * m * up, high := (4 * m + 2) * up, den
    closed := m % 2 = 0 }

/-- Whether the decimal `d * 10 ^ k` lies in the interval. -/
def Interval.holds (i : Interval) (d : Nat) (k : Int) : Bool :=
  let (p, q) :=
    if 0 ≤ k then (d * powerOfTen k.toNat * i.den, 1) else (d * i.den, powerOfTen (-k).toNat)
  if i.closed then i.low * q ≤ p ∧ p ≤ i.high * q else i.low * q < p ∧ p < i.high * q

/-! ## 2. The search -/

/-- Which of two equally near neighbours is taken. -/
inductive Tie where
  /-- The greater one. -/
  | up
  /-- The one with an even last digit. -/
  | even
deriving DecidableEq, Repr

/-- Whether the remainder `r` of a division by `q`, whose quotient is `d`, rounds up. -/
def Tie.roundsUp (tie : Tie) (d r q : Nat) : Bool :=
  q < 2 * r || (q == 2 * r && (tie == up || d % 2 == 1))

/-- The hit on the grid of `n` digits.  Of two hits the nearer wins. -/
def Interval.onGrid (tie : Tie) (i : Interval) (n : Nat) : Option Decimal :=
  let k := floorLog10 i.mid i.den - n + 1
  let (p, q) :=
    if 0 ≤ k then (i.mid, i.den * powerOfTen k.toNat) else (i.mid * powerOfTen (-k).toNat, i.den)
  let d := p / q
  match i.holds d k, i.holds (d + 1) k with
  | true, true => some ⟨if tie.roundsUp d (p % q) q then d + 1 else d, k⟩
  | true, false => some ⟨d, k⟩
  | false, true => some ⟨d + 1, k⟩
  | false, false => none

/-- The same decimal without trailing zeros. -/
def trim (d : Decimal) : Decimal :=
  if 0 < d.digits ∧ d.digits % 10 = 0 then trim ⟨d.digits / 10, d.scale + 1⟩ else d
termination_by d.digits
decreasing_by omega

/-- **The shortest decimal** that reads back to a finite positive double.  Seventeen digits
always read back, so the search ends on a grid. -/
def shortest (tie : Tie) (x : Binary64) : Decimal :=
  let i := Interval.ofBinary64 x
  match (List.range 17).findSome? fun n => i.onGrid tie (n + 1) with
  | some d => d.trim
  | none => ⟨0, 0⟩

end Decimal

end PackedTree
