/-
# Trees

A tree is an arena of nodes and a root value.  A node is an object, which is a list of uniquely
named fields, or an array.  A value may refer to a node by its place in the arena, so two values
can share a node and a node can reach itself.

The edits follow the places: a node gets the next free place and keeps it, and a field or element
is added to a node that exists and has the right kind.  An edit that is refused names its cause.
-/
import PackedTree.Binary64
import PackedTree.Named

namespace PackedTree

/-- The place of a node in its arena. -/
structure NodeId where
  index : Nat
deriving DecidableEq, Hashable, Repr, Inhabited

/-- How a place is shown in messages. -/
def NodeId.show (id : NodeId) : String := "NodeId(" ++ toString id.index ++ ")"

/-- A field's or an element's value. -/
inductive Value where
  | null
  | bool (b : Bool)
  | number (x : Binary64)
  | text (s : String)
  /-- A reference to a node, which need not exist. -/
  | node (id : NodeId)
  /-- A value of a kind that has no encoding, with the name of that kind. -/
  | foreign (kind : String)
deriving DecidableEq, Repr, Inhabited

/-- The node that a value refers to. -/
def Value.node? : Value → Option NodeId
  | .node id => some id
  | _ => none

/-! ## 1. Fields -/

/-- The fields of an object in the order of their first mention, each name once. -/
structure Fields where
  entries : List (String × Value)
  names_nodup : (Named.names entries).Nodup

namespace Fields

def empty : Fields := ⟨[], List.nodup_nil⟩

def names (fields : Fields) : List String := Named.names fields.entries

def values (fields : Fields) : List Value := fields.entries.map Prod.snd

def size (fields : Fields) : Nat := fields.entries.length

def get? (fields : Fields) (name : String) : Option Value := Named.get? name fields.entries

def contains (fields : Fields) (name : String) : Bool := (fields.get? name).isSome

/-- Puts a value under a name; a name that is there keeps its place. -/
def set (fields : Fields) (name : String) (value : Value) : Fields :=
  ⟨Named.set name value fields.entries, Named.nodup_set name value fields.names_nodup⟩

/-- The fields of a list: the last value of a name counts, at the place of the first. -/
def ofList (entries : List (String × Value)) : Fields :=
  entries.foldl (fun fields entry => fields.set entry.1 entry.2) empty

end Fields

/-! ## 2. Nodes -/

inductive Node where
  | object (fields : Fields)
  | array (items : List Value)

namespace Node

/-- The values a node holds, in the order of its fields or elements. -/
def values : Node → List Value
  | object fields => fields.values
  | array items => items

def isArray : Node → Bool
  | object _ => false
  | array _ => true

def kindName : Node → String
  | object _ => "object"
  | array _ => "array"

end Node

/-! ## 3. Trees -/

/-- An arena of nodes with a root value. -/
structure Tree where
  nodes : Array Node := #[]
  root : Option Value := none

namespace Tree

def empty : Tree := {}

def size (tree : Tree) : Nat := tree.nodes.size

def isEmpty (tree : Tree) : Bool := tree.nodes.isEmpty

def node? (tree : Tree) (id : NodeId) : Option Node := tree.nodes[id.index]?

/-- The values that a node holds; a missing node holds none. -/
def children (tree : Tree) (id : NodeId) : List Value :=
  match tree.node? id with
  | some node => node.values
  | none => []

/-- Puts a node at the next free place.  A place is a word of 32 bits as long as the arena has no
more nodes than there are such words. -/
def add (tree : Tree) (node : Node) : NodeId × Tree :=
  (⟨tree.nodes.size⟩, { tree with nodes := tree.nodes.push node })

def addObject (tree : Tree) (fields : List (String × Value)) : NodeId × Tree :=
  tree.add (.object (.ofList fields))

def addArray (tree : Tree) (items : List Value) : NodeId × Tree :=
  tree.add (.array items)

def setRoot (tree : Tree) (root : Value) : Tree := { tree with root := some root }

/-- Why an edit is refused. -/
inductive EditError where
  | noSuchNode (id : NodeId)
  | fieldOfArray (id : NodeId)
  | elementOfObject (id : NodeId)
deriving DecidableEq, Repr

/-- The wording of a refusal; a missing node is refused without one. -/
def EditError.message? : EditError → Option String
  | noSuchNode _ => none
  | fieldOfArray id => some ("set_field on array node " ++ id.show)
  | elementOfObject id => some ("push_element on object node " ++ id.show)

/-- Puts a value under a name of an object node. -/
def setField (tree : Tree) (id : NodeId) (name : String) (value : Value) :
    Except EditError Tree :=
  match tree.node? id with
  | none => .error (.noSuchNode id)
  | some (.array _) => .error (.fieldOfArray id)
  | some (.object fields) =>
    .ok { tree with nodes := tree.nodes.setIfInBounds id.index (.object (fields.set name value)) }

/-- Puts a value at the end of an array node. -/
def pushElement (tree : Tree) (id : NodeId) (value : Value) : Except EditError Tree :=
  match tree.node? id with
  | none => .error (.noSuchNode id)
  | some (.object _) => .error (.elementOfObject id)
  | some (.array items) =>
    .ok { tree with nodes := tree.nodes.setIfInBounds id.index (.array (items ++ [value])) }

end Tree

end PackedTree
