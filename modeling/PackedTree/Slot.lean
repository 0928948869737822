/-
# Slots

A slot is a field's or an element's value as an artifact holds it: a constant, a number in one of
two widths, or a reference to a text, an object or an array.  What a reference is depends on the
stage: a text or a node of the tree at first, an index into a table in the end.

* `Slot.ofValue` decides the kind of a value once, for every stage.
* `Slot.ofNumber` keeps a number that equals a 32-bit integer as that integer, so negative zero
  becomes 0; every other number keeps its bits.
-/
import PackedTree.EncodeError

namespace PackedTree

/-- A value whose texts are given as `S` and whose nodes are given as `N`. -/
inductive Slot (S N : Type) where
  | text (s : S)
  | int32 (i : Int32)
  | float64 (x : Binary64)
  | object (n : N)
  | array (n : N)
  | bool (b : Bool)
  | null
deriving DecidableEq, Repr

namespace Slot

variable {S N : Type}

def tag : Slot S N → Tag
  | text _ => .string
  | int32 _ => .int32
  | float64 _ => .float64
  | object _ => .object
  | array _ => .array
  | bool true => .true
  | bool false => .false
  | null => .null

/-- The node of a slot that refers to one. -/
def node? : Slot S N → Option N
  | object n | array n => some n
  | text _ | int32 _ | float64 _ | bool _ | null => none

/-- The slot of a number. -/
def ofNumber (x : Binary64) : Slot S N :=
  match x.toInt32? with
  | some i => .int32 i
  | none => .float64 x

/-- **The slot of a value** of a tree. -/
def ofValue (tree : Tree) : Value → Except EncodeError (Slot String NodeId)
  | .null => .ok .null
  | .bool b => .ok (.bool b)
  | .number x => .ok (ofNumber x)
  | .text s => .ok (.text s)
  | .node id =>
    match tree.node? id with
    | some (.object _) => .ok (.object id)
    | some (.array _) => .ok (.array id)
    | none => .error (.unresolved .node (.node id))
  | .foreign kind => .error (.unsupportedKind kind)

/-- A node that a value refers to is there. -/
theorem exists_of_node?_ofValue {tree : Tree} {v : Value} {slot : Slot String NodeId} {id : NodeId}
    (h : ofValue tree v = .ok slot) (hid : slot.node? = some id) :
    v = .node id ∧ ∃ node, tree.node? id = some node := by
  cases v with
  | node child =>
    rw [ofValue] at h
    split at h
    · rename_i fields hn
      rw [← Except.ok.inj h] at hid
      obtain rfl := Option.some.inj hid
      exact ⟨rfl, _, hn⟩
    · rename_i items hn
      rw [← Except.ok.inj h] at hid
      obtain rfl := Option.some.inj hid
      exact ⟨rfl, _, hn⟩
    · cases h
  | number x =>
    have hslot : slot = ofNumber x := (Except.ok.inj h).symm
    rw [hslot, ofNumber] at hid
    split at hid <;> cases hid
  | foreign kind => cases h
  | null | bool b | text s =>
    rw [← Except.ok.inj h] at hid
    cases hid

end Slot

end PackedTree
