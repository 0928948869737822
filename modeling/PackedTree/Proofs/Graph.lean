/-
# The graph of a tree

The nodes of a tree and the references between them are a directed graph, in which nodes may be
shared and cycles may close.  This module names what the later modules say about that graph, and
takes values apart the way every stage does.

* `Slot.ofValue_eq_ok_iff`: the slot of a value is a scalar, an object or an array, as the value
  and the arena say.
* `CycleFree.below_lt`: where no cycle is reached, a reference leads to a node with fewer nodes
  below it.  This is the measure of every recursion along references.
-/
import Mathlib.Logic.Relation
import PackedTree.Counting
import PackedTree.Slot

namespace PackedTree

/-! ## 1. Scalars -/

/-- A value that is not a reference, after its number is classified. -/
inductive Scalar where
  | text (s : String)
  | int32 (i : Int32)
  | float64 (x : Binary64)
  | bool (b : Bool)
  | null
deriving DecidableEq, Repr

namespace Scalar

/-- The scalar of a number: an integer of 32 bits if it equals one, else the bits it has. -/
def ofNumber (x : Binary64) : Scalar :=
  match x.toInt32? with
  | some i => int32 i
  | none => float64 x

/-- A scalar as a slot whose texts are given as texts. -/
def slot {N : Type} : Scalar → Slot String N
  | text s => .text s
  | int32 i => .int32 i
  | float64 x => .float64 x
  | bool b => .bool b
  | null => .null

end Scalar

/-- The scalar that a value is.  References and values without an encoding are none. -/
def Value.scalar? : Value → Option Scalar
  | .null => some .null
  | .bool b => some (.bool b)
  | .number x => some (.ofNumber x)
  | .text s => some (.text s)
  | .node _ | .foreign _ => none

/-- A scalar refers to no node. -/
theorem Value.node?_of_scalar? {v : Value} {c : Scalar} (h : v.scalar? = some c) :
    v.node? = none := by
  cases v <;> simp_all [scalar?, node?]

/-- Only a text is a scalar with that text. -/
theorem Value.eq_text_of_scalar? {v : Value} {s : String} (h : v.scalar? = some (.text s)) :
    v = .text s := by
  cases v <;> simp only [scalar?, Scalar.ofNumber, Option.some.injEq, Scalar.text.injEq,
    reduceCtorEq] at h
  · split at h <;> simp at h
  · rw [h]

theorem Slot.ofNumber_eq_slot {N : Type} (x : Binary64) :
    (Slot.ofNumber x : Slot String N) = (Scalar.ofNumber x).slot := by
  unfold Slot.ofNumber Scalar.ofNumber
  cases x.toInt32? <;> rfl

theorem Slot.ofValue_of_scalar? {tree : Tree} {v : Value} {c : Scalar} (h : v.scalar? = some c) :
    Slot.ofValue tree v = .ok c.slot := by
  cases v <;> simp only [Value.scalar?, Option.some.injEq, reduceCtorEq] at h
  all_goals subst h
  case number x => exact congrArg Except.ok (Slot.ofNumber_eq_slot x)
  all_goals rfl

/-- **What a slot is made from**: a scalar value, or a reference to a node that is there. -/
theorem Slot.ofValue_eq_ok_iff {tree : Tree} {v : Value} {slot : Slot String NodeId} :
    Slot.ofValue tree v = .ok slot ↔
      (∃ c, v.scalar? = some c ∧ slot = c.slot) ∨
      (∃ id fields, v = .node id ∧ tree.node? id = some (.object fields) ∧ slot = .object id) ∨
      (∃ id items, v = .node id ∧ tree.node? id = some (.array items) ∧ slot = .array id) := by
  constructor
  · intro h
    cases hv : v.scalar? with
    | some c =>
      rw [Slot.ofValue_of_scalar? hv, Except.ok.injEq] at h
      exact .inl ⟨c, rfl, h.symm⟩
    | none =>
      right
      cases v <;> simp only [Value.scalar?, reduceCtorEq] at hv
      case node id =>
        simp only [Slot.ofValue] at h
        split at h
        · rename_i fields hn
          exact .inl ⟨id, fields, rfl, hn, (Except.ok.inj h).symm⟩
        · rename_i items hn
          exact .inr ⟨id, items, rfl, hn, (Except.ok.inj h).symm⟩
        · simp at h
      case foreign kind => simp [Slot.ofValue] at h
  · rintro (⟨c, hc, rfl⟩ | ⟨id, fields, rfl, hn, rfl⟩ | ⟨id, items, rfl, hn, rfl⟩)
    · exact Slot.ofValue_of_scalar? hc
    · simp [Slot.ofValue, hn]
    · simp [Slot.ofValue, hn]

/-! ## 2. References -/

namespace Tree

variable (tree : Tree)

/-- A node holds a reference to another. -/
def Points (a b : NodeId) : Prop := .node b ∈ tree.children a

/-- References lead from a node to another, or it is that node. -/
def Reaches : NodeId → NodeId → Prop := Relation.ReflTransGen tree.Points

/-- References lead from the root to a node. -/
def Reachable (id : NodeId) : Prop := ∃ root, tree.root = some (.node root) ∧ tree.Reaches root id

def IsObject (id : NodeId) : Prop := ∃ fields, tree.node? id = some (.object fields)

def IsArray (id : NodeId) : Prop := ∃ items, tree.node? id = some (.array items)

/-- References lead from a node back to it. -/
def OnCycle (id : NodeId) : Prop := Relation.TransGen tree.Points id id

/-- No node on a cycle is reached from a node. -/
def CycleFree (id : NodeId) : Prop := ∀ other, tree.Reaches id other → ¬tree.OnCycle other

/-- **The part of a tree that its root reaches has no cycle.**  Nodes may be shared. -/
def Acyclic : Prop := ∀ id, tree.Reachable id → ¬tree.OnCycle id

variable {tree} {a b c : NodeId}

theorem Reachable.tail (ha : tree.Reachable a) (h : tree.Points a b) : tree.Reachable b := by
  obtain ⟨root, hr, hra⟩ := ha
  exact ⟨root, hr, hra.tail h⟩

/-- A set with the root that is closed under references holds all that is reachable. -/
theorem Reachable.of_closed {D : NodeId → Prop} (h : tree.Reachable a)
    (hroot : ∀ root, tree.root = some (.node root) → D root)
    (hpoints : ∀ a b, D a → tree.Points a b → D b) : D a := by
  obtain ⟨root, hr, hreach⟩ := h
  induction hreach with
  | refl => exact hroot root hr
  | tail _ hab ih => exact hpoints _ _ ih hab

/-- A node reaches no cycle if those that it refers to reach none. -/
theorem cycleFree_of_points (h : ∀ b, tree.Points a b → tree.CycleFree b) : tree.CycleFree a := by
  intro other hreach hcycle
  rcases Relation.ReflTransGen.cases_head hreach with rfl | ⟨b, hab, hb⟩
  · rcases Relation.TransGen.head'_iff.mp hcycle with ⟨b, hab, hba⟩
    exact h b hab a hba hcycle
  · exact h b hab other hb hcycle

/-- A node without values reaches no cycle. -/
theorem cycleFree_of_children_nil (h : tree.children a = []) : tree.CycleFree a := by
  refine cycleFree_of_points ?_
  intro b hab
  simp [Points, h] at hab

theorem CycleFree.of_points (ha : tree.CycleFree a) (h : tree.Points a b) : tree.CycleFree b :=
  fun other hb => ha other (.head h hb)

theorem CycleFree.acyclic {root : NodeId} (h : tree.CycleFree root)
    (hr : tree.root = some (.node root)) : tree.Acyclic := by
  rintro id ⟨root', hr', hreach⟩
  rw [hr, Option.some.injEq, Value.node.injEq] at hr'
  subst hr'
  exact h id hreach

theorem Acyclic.cycleFree (h : tree.Acyclic) (ha : tree.Reachable a) : tree.CycleFree a := by
  intro other hreach
  obtain ⟨root, hr, hra⟩ := ha
  exact h other ⟨root, hr, hra.trans hreach⟩

theorem children_of_node? {node : Node} (h : tree.node? a = some node) :
    tree.children a = node.values := by
  simp [children, h]

theorem mem_nodes_of_node? {node : Node} (h : tree.node? a = some node) :
    node ∈ tree.nodes.toList :=
  Array.mem_toList_iff.mpr (Array.mem_of_getElem? h)

/-- A node with values is there. -/
theorem isSome_of_mem_children {v : Value} (h : v ∈ tree.children a) : (tree.node? a).isSome := by
  unfold children at h
  cases hn : tree.node? a with
  | none => simp [hn] at h
  | some node => rfl

/-- The values of a node are among those of the arena. -/
theorem exists_mem_nodes_of_mem_children {v : Value} (h : v ∈ tree.children a) :
    ∃ node ∈ tree.nodes.toList, v ∈ node.values := by
  unfold children at h
  cases hn : tree.node? a with
  | none => simp [hn] at h
  | some node =>
    rw [hn] at h
    exact ⟨node, mem_nodes_of_node? hn, h⟩

theorem index_lt_size {node : Node} (h : tree.node? a = some node) : a.index < tree.size :=
  (Array.getElem?_eq_some_iff.mp h).1

/-! ## 3. The nodes below a node -/

open Classical in
/-- How many nodes of the arena are reached from a node by at least one reference. -/
noncomputable def below (tree : Tree) (id : NodeId) : Nat :=
  (List.range tree.size).countP fun i => Relation.TransGen tree.Points id ⟨i⟩

/-- **Where no cycle is reached, a reference leads to a node with fewer nodes below it**: the
node itself is no longer counted. -/
theorem CycleFree.below_lt (ha : tree.CycleFree a) (h : tree.Points a b)
    (hb : b.index < tree.size) : tree.below b < tree.below a := by
  classical
  apply countP_lt_countP (a := b.index)
  · intro i _ hi
    simp only [decide_eq_true_eq] at hi ⊢
    exact .head h hi
  · exact List.mem_range.mpr hb
  · simpa using Relation.TransGen.single h
  · exact decide_eq_false (ha b (.single h))

end Tree

end PackedTree
