/-
# Writing bytes

A writer appends to its bytes and never takes one back.  It may have a limit: a chunk that would
pass the limit is refused and leaves no trace, and the writer can go on.  A text is two chunks,
its length and its bytes, so a refused text may have left its length.

Sizes are words of 64 bits.  A chunk is in memory when it is written, and so are the bytes before
it, so their lengths add up to less than a word can hold.  Zeros to be overwritten are not in memory
yet, and there may be any number of them: the limit is checked against a sum that stops at the
greatest word, and the bytes are then resized to a sum that wraps.

The writer also counts the tags and, by their sizes, the integers of variable width that it wrote.
-/
import PackedTree.Wire.IntEncoding
import PackedTree.Wire.Tag
import PackedTree.Wire.Varint
import PackedTree.Binary64

namespace PackedTree

/-- How many integers were written in 1, 2, 3, 4 and 5 bytes. -/
abbrev VarintSizes := Vector Nat Varint.maxSize

/-- Counts one integer of `size` bytes. -/
def VarintSizes.count (sizes : VarintSizes) (size : Nat) : VarintSizes :=
  Vector.ofFn fun i => if i.val + 1 = size then sizes[i] + 1 else sizes[i]

/-- The bytes written so far and what is counted about them. -/
structure Writer where
  bytes : ByteArray := .empty
  limit : Option Nat := none
  encoding : IntEncoding := .varint
  tagBytes : Nat := 0
  varintSizes : VarintSizes := Vector.replicate _ 0

/-- The size that a refused chunk would have led to, and the limit it passes. -/
structure CapacityExceeded where
  needed : Nat
  limit : Nat
deriving DecidableEq, Repr

def CapacityExceeded.message (e : CapacityExceeded) : String :=
  "writer capacity exceeded: need " ++ toString e.needed ++ " bytes, limit is " ++
    toString e.limit

/-- A writing step.  A step that fails keeps what it wrote before. -/
abbrev Write := EStateM CapacityExceeded Writer

namespace Writer

/-- The number of bytes written. -/
def position (w : Writer) : Nat := w.bytes.size

/-- The greatest size that there is a word for, and so the greatest that is reported. -/
def maxReported : Nat := UInt64.size - 1

/-- Whether so many bytes in all pass the limit, and then which size is reported. -/
def over? (w : Writer) (needed : Nat) : Option CapacityExceeded :=
  match w.limit with
  | none => none
  | some limit => if limit < needed then some ⟨min needed maxReported, limit⟩ else none

/-- Whether a chunk of `count` bytes passes the limit. -/
def excess? (w : Writer) (count : Nat) : Option CapacityExceeded := w.over? (w.position + count)

/-- Whether `count` more bytes pass the limit, if the sum stops at the greatest word. -/
def saturatedExcess? (w : Writer) (count : Nat) : Option CapacityExceeded :=
  w.over? (min (w.position + count) maxReported)

def append (w : Writer) (chunk : ByteArray) : Writer := { w with bytes := w.bytes ++ chunk }

/-- Makes the bytes `size` many: zeros are added, or bytes dropped, at the end. -/
def resize (w : Writer) (size : Nat) : Writer :=
  { w with bytes := w.bytes.extract 0 size ++ ⟨Array.replicate (size - w.position) 0⟩ }

def countTag (w : Writer) : Writer := { w with tagBytes := w.tagBytes + 1 }

def countVarint (w : Writer) (size : Nat) : Writer :=
  { w with varintSizes := w.varintSizes.count size }

/-- Overwrites four bytes that are there. -/
def patch? (w : Writer) (start : Nat) (value : List UInt8) : Option Writer :=
  if start + value.length ≤ w.position then
    some { w with bytes := (ByteArray.mk value.toArray).copySlice 0 w.bytes start value.length }
  else none

end Writer

namespace Write

/-! ## 1. Chunks -/

/-- Makes room for a chunk of `count` bytes, or fails. -/
def reserve (count : Nat) : Write Unit := fun w =>
  match w.excess? count with
  | none => .ok () w
  | some e => .error e w

/-- **Writes a chunk** whole or not at all. -/
def chunk (bytes : ByteArray) : Write Unit := do
  reserve bytes.size
  modify (·.append bytes)

def bytes (bytes : List UInt8) : Write Unit := chunk (ByteArray.mk bytes.toArray)

def byte (b : UInt8) : Write Unit := bytes [b]

/-- Writes zeros, to be overwritten later.  Past the greatest word the new size wraps; a build that
checks additions stops there instead. -/
def skip (count : Nat) : Write Unit := fun w =>
  match w.saturatedExcess? count with
  | none => .ok () (w.resize ((w.position + count) % UInt64.size))
  | some e => .error e w

/-! ## 2. Numbers -/

/-- The bytes of a 32-bit word, the least significant first. -/
def word32 (v : UInt32) : List UInt8 :=
  [v.toUInt8, (v >>> 8).toUInt8, (v >>> 16).toUInt8, (v >>> 24).toUInt8]

/-- The bytes of a 64-bit word, the least significant first. -/
def word64 (v : UInt64) : List UInt8 :=
  word32 v.toUInt32 ++ word32 (v >>> 32).toUInt32

def uint32 (v : UInt32) : Write Unit := bytes (word32 v)

def int32 (v : Int32) : Write Unit := uint32 v.toUInt32

def float64 (x : Binary64) : Write Unit := bytes (word64 x.bits)

/-- Writes an integer in groups of seven bits, whatever the encoding. -/
def varint (v : UInt32) : Write Unit := do
  let encoded := Varint.encode v
  bytes encoded
  modify (·.countVarint encoded.length)

/-- Writes an integer as the encoding says. -/
def integer (v : UInt32) : Write Unit := do
  match (← get).encoding with
  | .varint => varint v
  | .fixed32 => uint32 v

/-- The encoding of the writer decides how an integer is written. -/
theorem integer_apply (v : UInt32) (w : Writer) :
    integer v w = (match w.encoding with
      | .varint => varint v
      | .fixed32 => uint32 v) w := rfl

/-! ## 3. Tags and texts -/

def tag (t : Tag) : Write Unit := do
  byte t.byte
  modify (·.countTag)

/-- The greatest length of a text. -/
def maxLength : Nat := UInt32.size - 1

/-- Writes the length of a text with the given step, then its bytes. -/
def textWith (length : UInt32 → Write Unit) (s : String) : Write Unit := do
  if maxLength < s.utf8ByteSize then
    throw ⟨s.utf8ByteSize, maxLength⟩
  length (UInt32.ofNat s.utf8ByteSize)
  chunk s.toUTF8

/-- Writes a text with its length as the encoding says. -/
def text (s : String) : Write Unit := textWith integer s

/-- Writes a text with its length in groups of seven bits. -/
def varintText (s : String) : Write Unit := textWith varint s

end Write

end PackedTree
