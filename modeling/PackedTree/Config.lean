/-
# Configurations
-/
import PackedTree.Wire.IntEncoding

namespace PackedTree

/-- The choices for one encoding. -/
structure Config where
  /-- How integers of variable width are written. -/
  intEncoding : IntEncoding := .varint
  /-- Number the tables in discovery order, which makes the artifact reproducible. -/
  ordered : Bool := true
  /-- Merge objects with equal content. -/
  dedup : Bool := true
  /-- Report progress after every so many nodes; 0 for never. -/
  progressInterval : Nat := 10000
  /-- The greatest size of an artifact in bytes. -/
  maxSize : Option Nat := none
deriving DecidableEq, Repr, Inhabited

/-- The fixed size limit of the first encoders, 32 MiB. -/
def Config.legacyMaxSize : Nat := 32 * 1024 * 1024

end PackedTree
