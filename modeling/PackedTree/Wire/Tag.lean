/-
# Tags

Every value of an artifact starts with a byte that tells its kind.
-/

namespace PackedTree

/-- The kind of a written value. -/
inductive Tag where
  | string
  | int32
  | float64
  | object
  | array
  | null
  | true
  | false
deriving DecidableEq, Repr, Inhabited

namespace Tag

/-- Every tag once. -/
def all : List Tag := [string, int32, float64, object, array, null, true, false]

/-- The byte of a tag, a letter that recalls its kind. -/
def byte : Tag → UInt8
  | string => 0x73
  | int32 => 0x69
  | float64 => 0x64
  | object => 0x6f
  | array => 0x61
  | null => 0x4e
  | true => 0x54
  | false => 0x46

def ofByte? (b : UInt8) : Option Tag := all.find? (·.byte = b)

/-- The name of a kind in messages. -/
def name : Tag → String
  | string => "string"
  | int32 => "int"
  | float64 => "double"
  | object => "object"
  | array => "array"
  | null => "null"
  | true => "true"
  | false => "false"

/-- Whether the value is an index into a table. -/
def isReference : Tag → Bool
  | string | object | array => Bool.true
  | _ => Bool.false

theorem ofByte?_byte (tag : Tag) : ofByte? tag.byte = some tag := by
  cases tag <;> decide

end Tag

end PackedTree
