/-
# Reading an artifact back

`Image.read` follows the layout of an artifact and nothing else: it takes the magic, the name of
the format, the root, the counts and the four tables off the bytes, and refuses anything after
them.  The number of an object's values is that of its shape's keys.

`Artifact.read_prefix_of_write`: what was written of an artifact is read back, whatever follows it,
if its numbers fit the 32 bits they are written in.
-/
import PackedTree.Proofs.Json.Texts
import PackedTree.Proofs.Traversal
import PackedTree.Proofs.Wire.Reader

namespace PackedTree

/-- The numbers of entries that a header announces. -/
structure Image.Counts where
  strings : Nat
  shapes : Nat
  objects : Nat
  arrays : Nat

/-- **What a reader finds in an artifact.**  A shape is the list of its keys. -/
structure Image where
  encoding : IntEncoding
  root : Nat
  counts : Image.Counts
  strings : List String
  shapes : List (List String)
  objects : List ObjectEntry
  arrays : List (List Cell)

/-! ## 1. The reader -/

def Json.text? : Json → Option String
  | .string s => some s
  | _ => none

/-- The texts of a list of texts. -/
def Json.texts? : Json → Option (List String)
  | .array items => items.mapM Json.text?
  | _ => none

namespace Read

/-- The encoding that the magic and the name of the format tell. -/
def preamble : Read IntEncoding := do
  let magic ← bytes 4
  if magic = IntEncoding.magic then
    let name ← varintText
    match IntEncoding.ofFormatName? name with
    | some encoding => return encoding
    | none => failure
  else failure

/-- The keys of a shape, from its canonical text. -/
def keys (encoding : IntEncoding) : Read (List String) := do
  let line ← text encoding
  match (Json.parse line).toOption.bind Json.texts? with
  | some keys => return keys
  | none => failure

/-- An object, with as many values as its shape has keys. -/
def object (encoding : IntEncoding) (shapes : List (List String)) : Read ObjectEntry := do
  let shape ← integer encoding
  match shapes[shape]? with
  | some keys =>
    let values ← many (cell encoding) keys.length
    return ⟨shape, values⟩
  | none => failure

def array (encoding : IntEncoding) : Read (List Cell) := do
  let count ← integer encoding
  many (cell encoding) count

/-- What follows the preamble. -/
def body (encoding : IntEncoding) : Read Image := do
  let root ← word32
  let stringCount ← word32
  let shapeCount ← word32
  let objectCount ← word32
  let arrayCount ← word32
  let counts : Image.Counts :=
    ⟨stringCount.toNat, shapeCount.toNat, objectCount.toNat, arrayCount.toNat⟩
  let strings ← table (text encoding)
  let shapes ← table (keys encoding)
  let objects ← table (object encoding shapes)
  let arrays ← table (array encoding)
  return { encoding, root := root.toNat, counts, strings, shapes, objects, arrays }

end Read

/-- **Reads an artifact** as a whole: nothing may follow it. -/
def Image.read (input : ByteArray) : Option Image :=
  match (Read.preamble >>= Read.body) input.data.toList with
  | some (image, []) => some image
  | _ => none

/-! ## 2. The parts of an artifact -/

theorem Json.texts?_array (ss : List String) :
    Json.texts? (.array (ss.map .string)) = some ss := by
  simp only [texts?, mapM_eq_some_iff]
  rw [List.forall₂_map_left_iff, List.forall₂_same]
  exact fun s _ => rfl

namespace Codes

variable {encoding : IntEncoding}

theorem preamble : Codes encoding (Artifact.preamble encoding) Read.preamble encoding := by
  have hmagic : Codes encoding (Write.bytes IntEncoding.magic) (Read.bytes 4)
      IntEncoding.magic := .bytes fun rest => by simp [Read.bytes, IntEncoding.magic]
  refine hmagic.bind ?_
  rw [if_pos rfl]
  refine (varintText encoding.formatName).finish ?_
  rw [IntEncoding.ofFormatName?_formatName]

/-- A shape is read back as its keys. -/
theorem keys (shape : Shape) :
    Codes encoding (Write.text shape.canonicalText) (Read.keys encoding) shape.keys := by
  refine (text shape.canonicalText).finish ?_
  rw [Shape.canonicalText, Json.parse_compact_texts]
  simp only [Except.toOption, Option.bind_some, Json.texts?_array]

theorem cells {values : List Cell} (h : ∀ cell ∈ values, cell.Fits) :
    Codes encoding (values.forM Write.cell) (Read.many (Read.cell encoding) values.length)
      values := by
  have hmany : Codes encoding _ _ (values.map id) := Codes.many fun c hc => cell (h c hc)
  rw [List.map_id] at hmany
  exact hmany

theorem object {shapes : List (List String)} {entry : ObjectEntry}
    (hshape : entry.shape < UInt32.size)
    (hkeys : ∃ keys, shapes[entry.shape]? = some keys ∧ keys.length = entry.values.length)
    (hcells : ∀ cell ∈ entry.values, cell.Fits) :
    Codes encoding
      (do Write.integer (UInt32.ofNat entry.shape); entry.values.forM Write.cell)
      (Read.object encoding shapes) entry := by
  obtain ⟨keys, hk, hlen⟩ := hkeys
  refine (integer hshape).bind ?_
  rw [hk]
  simp only [hlen]
  exact (cells hcells).finish rfl

theorem array {cells : List Cell} (hlen : cells.length < UInt32.size)
    (hcells : ∀ cell ∈ cells, cell.Fits) :
    Codes encoding
      (do Write.integer (UInt32.ofNat cells.length); cells.forM Write.cell)
      (Read.array encoding) cells :=
  (integer hlen).bind (Codes.cells hcells)

end Codes

/-! ## 3. Whole artifacts -/

namespace Artifact

/-- The image of an artifact with a root. -/
def image (a : Artifact) (encoding : IntEncoding) (root : Nat) : Image where
  encoding := encoding
  root := root
  counts := ⟨a.strings.length, a.shapes.length, a.objects.length, a.arrays.length⟩
  strings := a.strings
  shapes := a.shapes.map Shape.keys
  objects := a.objects
  arrays := a.arrays

/-- **The numbers of an artifact fit** the 32 bits they are written in, and every object has a
shape with as many keys as it has values. -/
structure Fits (a : Artifact) : Prop where
  root : ∀ root, a.root = some root → root < UInt32.size
  strings : a.strings.length < UInt32.size
  shapes : a.shapes.length < UInt32.size
  objects : a.objects.length < UInt32.size
  arrays : a.arrays.length < UInt32.size
  entry : ∀ entry ∈ a.objects, (∃ shape, a.shapes[entry.shape]? = some shape ∧
    shape.keys.length = entry.values.length) ∧ ∀ cell ∈ entry.values, cell.Fits
  items : ∀ cells ∈ a.arrays, cells.length < UInt32.size ∧ ∀ cell ∈ cells, cell.Fits

theorem codes_body {a : Artifact} {encoding : IntEncoding} {root : Nat} (h : a.Fits)
    (hroot : a.root = some root) :
    Codes encoding (a.body root) (Read.body encoding) (a.image encoding root) := by
  have hnat {n : Nat} (hn : n < UInt32.size) : (UInt32.ofNat n).toNat = n :=
    UInt32.toNat_ofNat_of_lt hn
  have hobject : ∀ entry ∈ a.objects, Codes encoding
      (do Write.integer (UInt32.ofNat entry.shape); entry.values.forM Write.cell)
      (Read.object encoding (a.shapes.map Shape.keys)) entry := by
    intro entry he
    obtain ⟨⟨shape, hs, hlen⟩, hcells⟩ := h.entry entry he
    have hlt : entry.shape < UInt32.size :=
      Nat.lt_trans (List.getElem?_eq_some_iff.mp hs).1 h.shapes
    refine Codes.object hlt ⟨shape.keys, ?_, hlen⟩ hcells
    rw [List.getElem?_map, hs]
    rfl
  unfold body Read.body
  refine (Codes.word32 _).bind ?_
  refine (Codes.word32 _).bind ?_
  refine (Codes.word32 _).bind ?_
  refine (Codes.word32 _).bind ?_
  refine (Codes.word32 _).bind ?_
  refine (Codes.table_self h.strings fun s _ => Codes.text s).bind ?_
  refine (Codes.table h.shapes fun shape _ => Codes.keys shape).bind ?_
  refine (Codes.table_self h.objects hobject).bind ?_
  refine (Codes.table_self h.arrays fun cells hc =>
    Codes.array (h.items cells hc).1 (h.items cells hc).2).finish ?_
  simp only [hnat (h.root root hroot), hnat h.strings, hnat h.shapes, hnat h.objects,
    hnat h.arrays]
  rfl

/-- **What was written of an artifact is read back**, whatever follows it, and what follows is
left. -/
theorem read_prefix_of_write {a : Artifact} {config : Config} {w : Writer} (h : a.Fits)
    (hw : a.write config = .ok w) :
    ∃ root, a.root = some root ∧ ∀ rest,
      (Read.preamble >>= Read.body) (w.bytes.data.toList ++ rest) =
        some (a.image config.intEncoding root, rest) := by
  have hrun {step : Write Unit} {v v' : Writer} (hs : runWrite step v = .ok v') :
      step v = .ok () v' := by
    unfold runWrite at hs
    cases he : step v with
    | ok _ v'' =>
      rw [he, Except.ok.injEq] at hs
      rw [hs]
    | error e v'' => simp [he] at hs
  unfold write at hw
  cases hpre : runWrite (preamble config.intEncoding) (writer config) with
  | error e => simp [hpre, bind, Except.bind] at hw
  | ok v =>
    cases hroot : a.root with
    | none => simp [hpre, hroot, bind, Except.bind, throw, throwThe, MonadExceptOf.throw] at hw
    | some root =>
      simp only [hpre, hroot, bind, Except.bind] at hw
      obtain ⟨hv, chunk, hchunk, hread⟩ := Codes.preamble (writer config) v rfl (hrun hpre)
      obtain ⟨-, chunk', hchunk', hread'⟩ := codes_body h hroot v w hv (hrun hw)
      refine ⟨root, rfl, fun rest => ?_⟩
      have hbytes : w.bytes.data.toList ++ rest = chunk ++ (chunk' ++ rest) := by
        rw [hchunk', hchunk]
        simp [writer]
      simp only [hbytes, Bind.bind, StateT.bind, hread, Option.bind_some, hread']
      rfl

/-- Nothing is left of the bytes themselves. -/
theorem read_of_write {a : Artifact} {config : Config} {w : Writer} (h : a.Fits)
    (hw : a.write config = .ok w) :
    ∃ root, a.root = some root ∧
      Image.read w.bytes = some (a.image config.intEncoding root) := by
  obtain ⟨root, hroot, hread⟩ := read_prefix_of_write h hw
  refine ⟨root, hroot, ?_⟩
  have hall := hread []
  rw [List.append_nil] at hall
  rw [Image.read, hall]

end Artifact

end PackedTree
