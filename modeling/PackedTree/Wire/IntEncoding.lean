/-
# The names of the format

An artifact starts with four magic bytes and the name of its format.  The name tells how the
integers of variable width are written, so it comes before the first of them.
-/

namespace PackedTree

/-- How the integers of variable width are written. -/
inductive IntEncoding where
  /-- Seven bits to a byte, the least significant first. -/
  | varint
  /-- Four bytes, the least significant first. -/
  | fixed32
deriving DecidableEq, Repr, Inhabited

namespace IntEncoding

/-- The bytes at the start of every artifact. -/
def magic : List UInt8 := [0x41, 0x53, 0x54, 0x50]

/-- The name under which a configuration selects an encoding. -/
def name : IntEncoding → String
  | varint => "varint"
  | fixed32 => "fixed32"

/-- The name of the format in the header of an artifact. -/
def formatName : IntEncoding → String
  | varint => "astpack-v1"
  | fixed32 => "astpack-v1-fixed32"

def ofFormatName? (name : String) : Option IntEncoding :=
  if name = varint.formatName then some varint
  else if name = fixed32.formatName then some fixed32
  else none

theorem ofFormatName?_formatName (encoding : IntEncoding) :
    ofFormatName? encoding.formatName = some encoding := by
  cases encoding <;> decide

end IntEncoding

end PackedTree
