/-
# Counters of an encoding

The counters are written by the stages of an encoding and read by nobody but the caller.
-/
import PackedTree.Binary64.Rounding
import PackedTree.Json.Document
import PackedTree.Wire.Writer

namespace PackedTree

/-- What the stages of an encoding count. -/
structure Stats where
  /-- Nodes visited by the discovery. -/
  nodesVisited : Nat := 0
  strings : Nat := 0
  shapes : Nat := 0
  /-- Objects before the merge. -/
  objectsDiscovered : Nat := 0
  objectsMerged : Nat := 0
  /-- Objects written. -/
  objects : Nat := 0
  arrays : Nat := 0
  tagBytes : Nat := 0
  varintSizes : VarintSizes := Vector.replicate _ 0
  bytesWritten : Nat := 0
deriving DecidableEq, Repr

namespace Stats

/-- The part of the discovered objects that the merge removed, in percent. -/
def mergeRatio (stats : Stats) : Binary64 :=
  Binary64.percent stats.objectsMerged stats.objectsDiscovered

/-- The counters as a document. -/
def toJson (stats : Stats) : Json :=
  let count (n : Nat) : Json := .number (.natural n)
  .object
    [("nodes_visited", count stats.nodesVisited),
      ("strings", count stats.strings),
      ("shapes", count stats.shapes),
      ("objects_discovered", count stats.objectsDiscovered),
      ("objects_merged", count stats.objectsMerged),
      ("objects", count stats.objects),
      ("arrays", count stats.arrays),
      ("tag_bytes", count stats.tagBytes),
      ("varint_sizes", .array (stats.varintSizes.toList.map count)),
      ("bytes_written", count stats.bytesWritten)]

end Stats

end PackedTree
