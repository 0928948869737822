/-
# Shapes

A shape is the set of field names shared by a class of objects.  An object is written as the
index of its shape and its values in the order of the shape's keys, so a name appears once per
shape and not once per object.

* `Shape.keys_sorted`: the keys of a shape ascend strictly, so a set of names has one shape.
* `ShapeRegistry.register` gives every set of names the index of its first registration.
-/
import PackedTree.Json.Printer
import PackedTree.Tree

namespace PackedTree

/-- A set of field names.  A shape does not store its index: a registry only adds shapes at its end,
so the position of a shape is the index that it was given when it was added. -/
structure Shape where
  /-- The names in ascending order of their code points, which is also the order of values. -/
  keys : List String
  keys_sorted : keys.Pairwise (· < ·)

namespace Shape

/-- Sorting names that are apart leaves them strictly ascending. -/
theorem pairwise_lt_mergeSort {names : List String} (h : names.Nodup) :
    (names.mergeSort fun a b => a ≤ b).Pairwise (· < ·) := by
  have hle : (names.mergeSort fun a b => a ≤ b).Pairwise fun a b => decide (a ≤ b) = true :=
    List.pairwise_mergeSort
      (fun a b c hab hbc => by
        simp only [decide_eq_true_eq] at *
        exact String.le_trans hab hbc)
      (fun a b => by simpa using String.le_total a b) names
  have hne : (names.mergeSort fun a b => a ≤ b).Pairwise (· ≠ ·) :=
    (List.mergeSort_perm names _).nodup_iff.mpr h
  refine (hle.and hne).imp ?_
  rintro a b ⟨hab, hneq⟩
  exact Std.lt_of_le_of_ne (by simpa using hab) hneq

/-- The shape of an object with the given fields. -/
def ofFields (fields : Fields) : Shape :=
  ⟨fields.names.mergeSort fun a b => a ≤ b, pairwise_lt_mergeSort fields.names_nodup⟩

def size (shape : Shape) : Nat := shape.keys.length

def isEmpty (shape : Shape) : Bool := shape.keys.isEmpty

/-- Whether fields have exactly the names of a shape.  Names are apart on both sides, so equal
counts and containment one way are enough. -/
def fits (shape : Shape) (fields : Fields) : Bool :=
  fields.size = shape.size && shape.keys.all fields.contains

/-- The text that stands for a shape in an artifact: its keys as a JSON list. -/
def canonicalText (shape : Shape) : String := (Json.array (shape.keys.map .string)).compact

end Shape

/-- How a shape is shown in messages. -/
def Shape.show (shape : Shape) : String := "<Shape " ++ shape.canonicalText ++ ">"

/-- The shapes met so far, in the order of their first objects.  The position of each is its
index. -/
structure ShapeRegistry where
  shapes : Array Shape := #[]

namespace ShapeRegistry

def size (registry : ShapeRegistry) : Nat := registry.shapes.size

def isEmpty (registry : ShapeRegistry) : Bool := registry.shapes.isEmpty

def get? (registry : ShapeRegistry) (index : Nat) : Option Shape := registry.shapes[index]?

/-- The index of the first shape with the names of some fields. -/
def find? (registry : ShapeRegistry) (fields : Fields) : Option Nat :=
  registry.shapes.findIdx? (·.fits fields)

/-- **The index of the shape of some fields**, which is added if it is new. -/
def register (registry : ShapeRegistry) (fields : Fields) : Nat × ShapeRegistry :=
  match registry.find? fields with
  | some index => (index, registry)
  | none => (registry.size, ⟨registry.shapes.push (.ofFields fields)⟩)

end ShapeRegistry

end PackedTree
