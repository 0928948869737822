/-
# The listing of an artifact

A listing shows the tables in the order of their indices, with the indices that the bytes carry:

```text
root O0
strings (1)
  S0 "x"
shapes (1)
  K0 ["a","b"]
objects (1)
  O0 K0 { a: 1, b: S0 }
arrays (0)
```

`Catalog.listing` lists the artifact of a catalog.  `Catalog.render` writes the same lines while it
walks the catalog, and makes no artifact.
-/
import PackedTree.Artifact
import PackedTree.Decimal.Layout
import PackedTree.Text.Quoted

namespace PackedTree

/-- Doubles are listed positionally from `1e-4` to below `1e16`, and a tie goes up. -/
def Cell.layout : Decimal.Layout :=
  { leastPositional := -4, greatestPositional := 15, plusSign := false, tie := .up }

/-- A value as a listing shows it: a reference by its table's letter and its index. -/
def Cell.listing : Cell → String
  | .text i => "S" ++ toString i
  | .int32 i => toString i.toInt
  | .float64 x => x.render Cell.layout
  | .object i => "O" ++ toString i
  | .array i => "A" ++ toString i
  | .bool b => if b then "true" else "false"
  | .null => "null"

/-- The pairs of an object between braces. -/
def braced (pairs : List String) : String :=
  if pairs.isEmpty then "\x7b\x7d" else "\x7b " ++ ", ".intercalate pairs ++ " \x7d"

/-! ## 1. The lines of an artifact -/

namespace Artifact

/-- The heading of a table and its entries, each after its index. -/
def tableLines {α : Type} (title letter : String) (entries : List α) (entry : α → String) :
    List String :=
  (title ++ " (" ++ toString entries.length ++ ")") ::
    entries.zipIdx.map fun (e, i) => "  " ++ letter ++ toString i ++ " " ++ entry e

/-- An object's shape, and its values after their keys. -/
def objectLine (shapes : Array Shape) (entry : ObjectEntry) : String :=
  let keys := (shapes[entry.shape]?.map Shape.keys).getD []
  let pairs := (keys.zip entry.values).map fun (key, cell) => key ++ ": " ++ cell.listing
  "K" ++ toString entry.shape ++ " " ++ braced pairs

def arrayLine (cells : List Cell) : String :=
  "[" ++ ", ".intercalate (cells.map Cell.listing) ++ "]"

def rootLine (root : Option Nat) : String :=
  "root " ++ match root with
    | some index => "O" ++ toString index
    | none => "-"

/-- The lines of a listing. -/
def lines (a : Artifact) : List String :=
  let shapes := a.shapes.toArray
  rootLine a.root ::
    (tableLines "strings" "S" a.strings Text.quote ++
      tableLines "shapes" "K" a.shapes Shape.canonicalText ++
      tableLines "objects" "O" a.objects (objectLine shapes) ++
      tableLines "arrays" "A" a.arrays arrayLine)

/-- **The listing of an artifact**, in which every line ends. -/
def listing (a : Artifact) : String := String.join (a.lines.map (· ++ "\n"))

end Artifact

namespace Catalog

/-- **Numbers a catalog and lists it.** -/
def listing (c : Catalog) (ordered : Bool) : Except EncodeError String × Catalog :=
  let (order, c) := c.finalize (c.order ordered)
  ((c.artifact order).map Artifact.listing, c)

/-! ## 2. The walk that writes texts -/

/-- A value, with the index that its table has for it. -/
def valueText (c : Catalog) (v : Value) : Except EncodeError String :=
  match Slot.ofValue c.tree v with
  | .error e => .error e
  | .ok (.text s) =>
    (index c.strings s (.unresolved .string (.text s))).map fun i => "S" ++ toString i
  | .ok (.object id) =>
    (index c.objects id (.unresolved .object (.node id))).map fun i => "O" ++ toString i
  | .ok (.array id) =>
    (index c.arrays id (.unresolved .array (.node id))).map fun i => "A" ++ toString i
  | .ok (.int32 i) => .ok (toString i.toInt)
  | .ok (.float64 x) => .ok (x.render Cell.layout)
  | .ok (.bool b) => .ok (if b then "true" else "false")
  | .ok .null => .ok "null"

/-- A key of a shape and the value of the field with this name. -/
def pairText (c : Catalog) (node : NodeId) (fields : Fields) (key : String) :
    Except EncodeError String :=
  match fields.get? key with
  | none => .error (.unknownShape node)
  | some v => (c.valueText v).map fun text => key ++ ": " ++ text

/-- An object: its shape is looked up, then one field for each of the keys. -/
def objectText (c : Catalog) (id : Identity) : Except EncodeError String :=
  match c.objects.getValue? id with
  | none => .error (.unresolved .object (.identity id))
  | some node =>
    match c.tree.node? node with
    | some (.object fields) =>
      match c.shapes.find? fields with
      | none => .error (.unknownShape node)
      | some index =>
        match c.shapes.get? index with
        | none => .error (.unknownShape node)
        | some shape => (shape.keys.mapM (c.pairText node fields)).map fun pairs =>
          "K" ++ toString index ++ " " ++ braced pairs
    | _ => .error (.unresolved .node (.node node))

def arrayText (c : Catalog) (id : Identity) : Except EncodeError String :=
  match c.arrays.getValue? id with
  | none => .error (.unresolved .array (.identity id))
  | some node =>
    match c.tree.node? node with
    | some (.array items) => (items.mapM c.valueText).map fun texts =>
      "[" ++ ", ".intercalate texts ++ "]"
    | _ => .error (.unresolved .node (.node node))

/-- The heading of a table, and a line for each of its identities. -/
def walkTable (title letter : String) (ids : List Identity)
    (entry : Identity → Except EncodeError String) : Except EncodeError (List String) :=
  (ids.zipIdx.mapM fun p => (entry p.1).map fun text =>
    "  " ++ letter ++ toString p.2 ++ " " ++ text).map fun lines =>
      (title ++ " (" ++ toString ids.length ++ ")") :: lines

/-- **Numbers a catalog and writes its lines**, table by table, as it comes to them. -/
def render (c : Catalog) (ordered : Bool) : Except EncodeError String := do
  let (order, c) := c.finalize (c.order ordered)
  let root := Artifact.rootLine (c.root.bind c.objects.indexOf?)
  let strings ← walkTable "strings" "S" order.strings fun id => (c.stringEntry id).map Text.quote
  let shapes := Artifact.tableLines "shapes" "K" c.shapes.shapes.toList Shape.canonicalText
  let objects ← walkTable "objects" "O" order.objects c.objectText
  let arrays ← walkTable "arrays" "A" order.arrays c.arrayText
  return String.join ((root :: (strings ++ shapes ++ objects ++ arrays)).map (· ++ "\n"))

end Catalog

end PackedTree
