/-
# Merging equal objects

Every live object is signed, and an object whose signature was seen before is redirected onto the
first object with that signature.  Signatures describe content and never identities, so a merge
cannot change another object's signature, and one run finds every merge.
-/
import PackedTree.Catalog.Signature
import PackedTree.Pass

namespace PackedTree

/-- The first object of each signature, and the pairs to merge. -/
structure Groups where
  firsts : Std.HashMap Signature Identity := ∅
  /-- Each later object with the first one of its signature. -/
  merges : Array (Identity × Identity) := #[]

/-- Puts an object with its signature into its group. -/
def Groups.add (g : Groups) (id : Identity) (signature : Signature) : Groups :=
  match g.firsts[signature]? with
  | some first => { g with merges := g.merges.push (id, first) }
  | none => { g with firsts := g.firsts.insert signature id }

namespace Catalog

/-- Signs objects one after the other and groups them. -/
def groupObjects (tree : Tree) (shapes : ShapeRegistry) (s : Signer) (g : Groups) :
    List (Identity × NodeId) → Except EncodeError Groups
  | [] => .ok g
  | (id, node) :: rest =>
    match s.sign tree shapes node with
    | .error e => .error e
    | .ok (signature, s) => groupObjects tree shapes s (g.add id signature) rest

/-- Redirects the first of each pair onto the second. -/
def mergeAll (table : InternTable NodeId) :
    List (Identity × Identity) → Except EncodeError (InternTable NodeId)
  | [] => .ok table
  | (id, first) :: rest =>
    match table.redirect id first with
    | .error e => .error (.ofIntern e)
    | .ok table => mergeAll table rest

/-- The pairs of live objects to merge. -/
def merges (c : Catalog) : Except EncodeError (List (Identity × Identity)) :=
  (groupObjects c.tree c.shapes {} {} c.objects.liveEntries).map (·.merges.toList)

/-- **Merges the live objects with equal signatures**: how many were merged, and the catalog. -/
def mergeObjects (c : Catalog) : Pass (Nat × Catalog) := do
  let objects := c.objects.count
  let pairs ← Pass.ofExcept c.merges
  let table ← Pass.ofExcept (mergeAll c.objects pairs)
  Pass.count fun stats => { stats with objectsMerged := pairs.length }
  Pass.report (.merged pairs.length objects)
  return (pairs.length, { c with objects := table })

end Catalog

end PackedTree
