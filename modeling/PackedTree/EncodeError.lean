/-
# Why a tree cannot be encoded
-/
import PackedTree.InternTable
import PackedTree.Text.Quoted
import PackedTree.Tree
import PackedTree.Wire.Writer

namespace PackedTree

/-- What a reference was looked up in. -/
inductive Lookup where
  | node
  | identity
  | string
  | object
  | array
deriving DecidableEq, Repr

def Lookup.name : Lookup → String
  | node => "node"
  | identity => "identity"
  | string => "string"
  | object => "object"
  | array => "array"

/-- What was looked up. -/
inductive Reference where
  | node (id : NodeId)
  | identity (id : Identity)
  | text (s : String)
deriving DecidableEq, Repr

def Reference.show : Reference → String
  | node id => id.show
  | identity id => id.show
  | text s => Text.quote s

/-- The cause that ends an encoding.  Nothing is encoded in part. -/
inductive EncodeError where
  /-- The artifact would pass its size limit. -/
  | capacityExceeded (cause : CapacityExceeded)
  /-- A value of a kind that has no encoding. -/
  | unsupportedKind (kind : String)
  /-- An object whose names are no registered shape. -/
  | unknownShape (node : NodeId)
  /-- A reference to something that is not there or has no index. -/
  | unresolved (lookup : Lookup) (reference : Reference)
  /-- An identity was to be redirected onto itself. -/
  | selfRedirect (id : Identity)
  /-- The root is missing or is not an object. -/
  | invalidRoot (found : String)
deriving DecidableEq, Repr

namespace EncodeError

/-- The wording of a cause. -/
def message : EncodeError → String
  | capacityExceeded cause => cause.message
  | unsupportedKind kind => "unsupported value kind: " ++ kind
  | unknownShape node => "no shape matches the fields of node " ++ node.show
  | unresolved lookup reference =>
    "unresolved " ++ lookup.name ++ " reference: " ++ reference.show
  | selfRedirect id => "identity " ++ id.show ++ " redirected onto itself"
  | invalidRoot found => "root must be an object node, found " ++ found

/-- A failed merge as the cause that ends an encoding. -/
def ofIntern : InternError → EncodeError
  | .selfRedirect id => selfRedirect id
  | .unknownIdentity id => unresolved .identity (.identity id)

end EncodeError

end PackedTree
