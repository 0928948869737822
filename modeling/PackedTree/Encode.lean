/-
# Encoding a tree

The whole way from a tree to its bytes: discover, merge equal objects if the configuration asks
for it, number, and write.
-/
import PackedTree.Artifact.Bytes
import PackedTree.Catalog.Discovery
import PackedTree.Catalog.Merge

namespace PackedTree

/-- The catalog of a tree, with equal objects merged if the configuration asks for it. -/
def Catalog.build (tree : Tree) (config : Config) : Pass Catalog := do
  let c ← Catalog.discover tree config
  if config.dedup then
    let (_, merged) ← c.mergeObjects
    return merged
  else return c

/-- **Encodes a tree**, with counters and events. -/
def Tree.encodePass (tree : Tree) (config : Config) : Pass ByteArray := do
  let c ← Catalog.build tree config
  (c.serialize config).1

/-- **Encodes a tree.** -/
def Tree.encode (tree : Tree) (config : Config) : Except EncodeError ByteArray :=
  (tree.encodePass config).outcome.1

end PackedTree
