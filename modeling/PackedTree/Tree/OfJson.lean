/-
# The tree of a JSON document

Every list and object of the document becomes a node, the inner ones before the outer, and the
document itself becomes the root.  Numbers become doubles.
-/
import PackedTree.Json.Document
import PackedTree.Tree

namespace PackedTree.Tree

mutual

/-- Adds the nodes of a document and gives the value that stands for it. -/
def addJson : Json → Tree → Value × Tree
  | .null, tree => (.null, tree)
  | .bool b, tree => (.bool b, tree)
  | .number n, tree => (.number n.toBinary64, tree)
  | .string s, tree => (.text s, tree)
  | .array items, tree =>
    let (values, tree) := addItems items tree
    let (id, tree) := tree.addArray values
    (.node id, tree)
  | .object members, tree =>
    let (fields, tree) := addMembers members tree
    let (id, tree) := tree.addObject fields
    (.node id, tree)

/-- Adds the nodes of several documents, from left to right. -/
def addItems : List Json → Tree → List Value × Tree
  | [], tree => ([], tree)
  | item :: rest, tree =>
    let (value, tree) := addJson item tree
    let (values, tree) := addItems rest tree
    (value :: values, tree)

/-- Adds the nodes of an object's members, from left to right. -/
def addMembers : List (String × Json) → Tree → List (String × Value) × Tree
  | [], tree => ([], tree)
  | (name, item) :: rest, tree =>
    let (value, tree) := addJson item tree
    let (fields, tree) := addMembers rest tree
    ((name, value) :: fields, tree)

end

/-- **The tree of a document.** -/
def ofJson (document : Json) : Tree :=
  let (root, tree) := addJson document empty
  tree.setRoot root

end PackedTree.Tree
