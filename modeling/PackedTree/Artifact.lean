/-
# Artifacts

An artifact is what is written of a catalog: its tables with every reference replaced by an
index.  The live entries of a table stand in the order of their indices, and an object's values
in the order of its shape's keys.
-/
import PackedTree.Catalog.Signature

namespace PackedTree

/-- A value whose references are indices into the tables. -/
abbrev Cell := Slot Nat Nat

/-- An object: the index of its shape, and its values in the order of the shape's keys. -/
structure ObjectEntry where
  shape : Nat
  values : List Cell
deriving DecidableEq, Repr

/-- The numbered tables. -/
structure Artifact where
  /-- The index of the root object. -/
  root : Option Nat
  strings : List String
  shapes : List Shape
  objects : List ObjectEntry
  arrays : List (List Cell)

namespace Catalog

/-- The index that something has in a numbered table. -/
def index {K : Type} [DecidableEq K] [Hashable K] (table : InternTable K) (value : K)
    (missing : EncodeError) : Except EncodeError Nat :=
  match table.indexOfValue? value with
  | some i => .ok i
  | none => .error missing

/-- A value of the tree with indices for its references. -/
def cell (c : Catalog) (v : Value) : Except EncodeError Cell :=
  match Slot.ofValue c.tree v with
  | .error e => .error e
  | .ok (.text s) => (index c.strings s (.unresolved .string (.text s))).map .text
  | .ok (.object id) => (index c.objects id (.unresolved .object (.node id))).map .object
  | .ok (.array id) => (index c.arrays id (.unresolved .array (.node id))).map .array
  | .ok (.int32 i) => .ok (.int32 i)
  | .ok (.float64 x) => .ok (.float64 x)
  | .ok (.bool b) => .ok (.bool b)
  | .ok .null => .ok .null

def stringEntry (c : Catalog) (id : Identity) : Except EncodeError String :=
  match c.strings.getValue? id with
  | some s => .ok s
  | none => .error (.unresolved .string (.identity id))

def objectEntry (c : Catalog) (id : Identity) : Except EncodeError ObjectEntry :=
  match c.objects.getValue? id with
  | none => .error (.unresolved .object (.identity id))
  | some node =>
    match c.tree.node? node with
    | some (.object fields) =>
      match c.shapes.arrange node fields with
      | .error e => .error e
      | .ok (shape, values) => (values.mapM c.cell).map fun cells => ⟨shape, cells⟩
    | _ => .error (.unresolved .node (.node node))

def arrayEntry (c : Catalog) (id : Identity) : Except EncodeError (List Cell) :=
  match c.arrays.getValue? id with
  | none => .error (.unresolved .array (.identity id))
  | some node =>
    match c.tree.node? node with
    | some (.array items) => items.mapM c.cell
    | _ => .error (.unresolved .node (.node node))

/-- **The artifact of a numbered catalog**, whose live identities are given in the order of their
indices. -/
def artifact (c : Catalog) (order : Order) : Except EncodeError Artifact := do
  let strings ← order.strings.mapM c.stringEntry
  let objects ← order.objects.mapM c.objectEntry
  let arrays ← order.arrays.mapM c.arrayEntry
  return { root := c.root.bind c.objects.indexOf?
           strings, shapes := c.shapes.shapes.toList, objects, arrays }

end Catalog

end PackedTree
