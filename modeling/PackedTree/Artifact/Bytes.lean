/-
# The bytes of an artifact

```text
magic      4 bytes
format     length in groups of seven bits, then the name
root       u32
counts     u32 for each of texts, shapes, objects, arrays
texts      u32 count, then for each a length and its bytes
shapes     u32 count, then for each its canonical text in the same way
objects    u32 count, then for each its shape and its tagged values
arrays     u32 count, then for each its length and its tagged values
```

Lengths, shapes and references are integers of variable width.  The number of an object's values
is not written: it is the number of its shape's keys.
-/
import PackedTree.Artifact
import PackedTree.Config
import PackedTree.Pass

namespace PackedTree

/-- Writes a tag and what belongs to it. -/
def Write.cell (cell : Cell) : Write Unit := do
  Write.tag cell.tag
  match cell with
  | .text i | .object i | .array i => Write.integer (UInt32.ofNat i)
  | .int32 i => Write.int32 i
  | .float64 x => Write.float64 x
  | .bool _ | .null => pure ()

/-- Writes how many entries a table has, then the entries. -/
def Write.table {α : Type} (entries : List α) (entry : α → Write Unit) : Write Unit := do
  Write.uint32 (UInt32.ofNat entries.length)
  entries.forM entry

namespace Artifact

/-- What comes before the first fixed-width integer. -/
def preamble (encoding : IntEncoding) : Write Unit := do
  Write.bytes IntEncoding.magic
  Write.varintText encoding.formatName

/-- The root, the counts and the tables. -/
def body (a : Artifact) (root : Nat) : Write Unit := do
  Write.uint32 (UInt32.ofNat root)
  Write.uint32 (UInt32.ofNat a.strings.length)
  Write.uint32 (UInt32.ofNat a.shapes.length)
  Write.uint32 (UInt32.ofNat a.objects.length)
  Write.uint32 (UInt32.ofNat a.arrays.length)
  Write.table a.strings Write.text
  Write.table a.shapes fun shape => Write.text shape.canonicalText
  Write.table a.objects fun entry => do
    Write.integer (UInt32.ofNat entry.shape)
    entry.values.forM Write.cell
  Write.table a.arrays fun cells => do
    Write.integer (UInt32.ofNat cells.length)
    cells.forM Write.cell

/-- The writer that a configuration asks for. -/
def writer (config : Config) : Writer :=
  { limit := config.maxSize, encoding := config.intEncoding }

/-- The result of a writing step, with the writer it leaves. -/
def runWrite (step : Write Unit) (w : Writer) : Except EncodeError Writer :=
  match step w with
  | .ok _ w => .ok w
  | .error e _ => .error (.capacityExceeded e)

/-- **Writes an artifact**: the writer with all its bytes.  An artifact without a root is refused
after its preamble. -/
def write (a : Artifact) (config : Config) : Except EncodeError Writer := do
  let w ← runWrite (preamble config.intEncoding) (writer config)
  match a.root with
  | none => throw (.unresolved .object (.text "root"))
  | some root => runWrite (a.body root) w

end Artifact

namespace Catalog

/-- Writes a numbered catalog. -/
def writeNumbered (c : Catalog) (order : Order) (config : Config) : Pass ByteArray := do
  let a ← Pass.ofExcept (c.artifact order)
  let w ← Pass.ofExcept (a.write config)
  Pass.report (.written w.tagBytes w.varintSizes w.position)
  Pass.count fun stats =>
    { stats with
      objects := a.objects.length
      arrays := a.arrays.length
      strings := a.strings.length
      shapes := a.shapes.length
      tagBytes := w.tagBytes
      varintSizes := w.varintSizes
      bytesWritten := w.position }
  return w.bytes

/-- **Numbers a catalog and writes it.**  The catalog is numbered whatever comes of the writing. -/
def serialize (c : Catalog) (config : Config) : Pass ByteArray × Catalog :=
  let (order, c) := c.finalize (c.order config.ordered)
  (c.writeNumbered order config, c)

end Catalog

end PackedTree
