/-
# Catalogs

A catalog holds the tables of one tree: its texts, shapes, objects and arrays.  The discovery
fills it, the merge redirects objects in it, and numbering it fixes the indices of an artifact.
-/
import PackedTree.InternTable
import PackedTree.Shape

namespace PackedTree

/-- The tables of a tree. -/
structure Catalog where
  tree : Tree
  strings : InternTable String := .empty
  objects : InternTable NodeId := .empty
  arrays : InternTable NodeId := .empty
  shapes : ShapeRegistry := {}
  /-- The identity of the root object. -/
  root : Option Identity := none

/-- An order for the identities of each table. -/
structure Catalog.Order where
  strings : List Identity
  objects : List Identity
  arrays : List Identity

namespace Catalog

/-- Every identity in the order of discovery. -/
def discoveryOrder (c : Catalog) : Order :=
  ⟨c.strings.identities, c.objects.identities, c.arrays.identities⟩

/-- Every identity in the order of the look-up maps, which is not specified. -/
def lookupOrder (c : Catalog) : Order :=
  ⟨c.strings.lookupOrder, c.objects.lookupOrder, c.arrays.lookupOrder⟩

/-- The order that a configuration asks for. -/
def order (c : Catalog) (ordered : Bool) : Order :=
  if ordered then c.discoveryOrder else c.lookupOrder

/-- **Numbers the three tables** in an order of their identities: the live identities in that
order, and the numbered catalog. -/
def finalize (c : Catalog) (enumeration : Order) : Order × Catalog :=
  let (strings, stringTable) := c.strings.finalize enumeration.strings
  let (objects, objectTable) := c.objects.finalize enumeration.objects
  let (arrays, arrayTable) := c.arrays.finalize enumeration.arrays
  (⟨strings, objects, arrays⟩,
    { c with strings := stringTable, objects := objectTable, arrays := arrayTable })

end Catalog

end PackedTree
