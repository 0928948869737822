/-
# How a number is laid out as text

Digits and layout are separate decisions.  `Decimal.Layout` collects the second kind: where the
positional form ends, whether an exponent has a plus sign, which way a tie goes.
`Binary64.render` writes the shortest digits in a layout.  `Binary64.renderTenths` writes a
number with exactly one digit after the point.
-/
import PackedTree.Binary64.Rounding
import PackedTree.Decimal.Shortest

namespace PackedTree

/-- The choices left open by the digits of a number. -/
structure Decimal.Layout where
  /-- The least power of ten, of the first digit, that is written positionally. -/
  leastPositional : Int
  /-- The greatest such power. -/
  greatestPositional : Int
  /-- Whether a positive exponent has a sign. -/
  plusSign : Bool
  /-- Which of two equally near shortest decimals is written. -/
  tie : Decimal.Tie

namespace Decimal

/-- The digits with a point after the first `whole` of them, zeros filling either side, and at
least one digit on each. -/
def positional (digits : List Char) (whole : Int) : List Char :=
  if whole ≤ 0 then
    '0' :: '.' :: (List.replicate (-whole).toNat '0' ++ digits)
  else
    let n := whole.toNat
    if digits.length ≤ n then
      digits ++ List.replicate (n - digits.length) '0' ++ ['.', '0']
    else
      digits.take n ++ '.' :: digits.drop n

/-- One digit before the point and the others after it, then the power of ten. -/
def scientific (layout : Layout) (digits : List Char) (power : Int) : List Char :=
  let fraction := if digits.length ≤ 1 then [] else '.' :: digits.drop 1
  let sign := if power < 0 then ['-'] else if layout.plusSign then ['+'] else []
  digits.take 1 ++ fraction ++ 'e' :: (sign ++ Nat.toDigits 10 power.natAbs)

/-- The text of a positive decimal. -/
def render (layout : Layout) (d : Decimal) : List Char :=
  let digits := Nat.toDigits 10 d.digits
  let power := d.scale + digits.length - 1
  if layout.leastPositional ≤ power ∧ power ≤ layout.greatestPositional then
    positional digits (power + 1)
  else scientific layout digits power

end Decimal

namespace Binary64

/-- **The text of a number**: the shortest digits that read back, in the given layout. -/
def render (layout : Decimal.Layout) (x : Binary64) : String :=
  if x.isNaN then "NaN"
  else
    let sign := if x.isNegative then "-" else ""
    if !x.isFinite then sign ++ "inf"
    else if x.significand = 0 then sign ++ "0.0"
    else sign ++ String.ofList ((Decimal.shortest layout.tie x).render layout)

/-- A finite number that is not negative, with one digit after the point.  The exact value is
rounded, and a tie goes to the even digit. -/
def renderTenths (x : Binary64) : String :=
  let tenths := roundHalfEven (x.magnitude.1 * 10) x.magnitude.2
  toString (tenths / 10) ++ "." ++ toString (tenths % 10)

end Binary64

end PackedTree
