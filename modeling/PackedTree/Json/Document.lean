/-
# JSON documents

A document keeps the order of its object members.  Its reader keeps one member per name, the
last value at the first place.  A number is kept in the form it was read: as a natural, as a
negative integer, or as a double.
-/
import PackedTree.Binary64.Rounding

namespace PackedTree

/-- A JSON number.  Integers that fit 64 bits stay integers, all others are doubles. -/
inductive Json.Number where
  | natural (n : Nat)
  /-- The integer `-n`, for positive `n`. -/
  | negative (n : Nat)
  | real (x : Binary64)
deriving DecidableEq, Repr, Inhabited

/-- A JSON document. -/
inductive Json where
  | null
  | bool (b : Bool)
  | number (n : Json.Number)
  | string (s : String)
  | array (items : List Json)
  | object (members : List (String × Json))
deriving Repr, Inhabited

/-- The nearest double. -/
def Json.Number.toBinary64 : Json.Number → Binary64
  | .natural n => .ofNat n
  | .negative n => (Binary64.ofNat n).negative
  | .real x => x

end PackedTree
