/-
# Trees that differ in the numbers of their nodes

Where a node stands in its arena is no part of what a tree says.  A renaming takes the nodes that
one root reaches to those that another root reaches, and keeps everything else: kinds, names,
order and scalars.

* `Tree.Renames`: the nodes reached from the root correspond one to one.
* `Tree.Renames.ofValue`: values that correspond have slots that correspond.
* `Fields.ofFields_rename`, `ShapeRegistry.arrange_rename`: shapes do not see the nodes at all.
* `Tree.renames_of_same`: what the root does not reach may be there or not.
-/
import Mathlib.Data.Set.Function
import PackedTree.Proofs.Graph
import PackedTree.Proofs.Shape

namespace PackedTree

/-! ## 1. Values and nodes under other numbers -/

/-- A value whose reference follows a renaming. -/
def Value.rename (f : NodeId → NodeId) : Value → Value
  | .node id => .node (f id)
  | v => v

/-- Fields with the same names in the same order. -/
def Fields.rename (f : NodeId → NodeId) (fields : Fields) : Fields where
  entries := fields.entries.map fun entry => (entry.1, entry.2.rename f)
  names_nodup := by
    have hnames : Named.names (fields.entries.map fun entry => (entry.1, entry.2.rename f)) =
        Named.names fields.entries := List.map_map
    rw [hnames]
    exact fields.names_nodup

/-- A node of the same kind. -/
def Node.rename (f : NodeId → NodeId) : Node → Node
  | .object fields => .object (fields.rename f)
  | .array items => .array (items.map (Value.rename f))

/-- A slot whose reference follows a renaming. -/
def Slot.rename (f : NodeId → NodeId) : Slot String NodeId → Slot String NodeId
  | .object id => .object (f id)
  | .array id => .array (f id)
  | slot => slot

variable {f : NodeId → NodeId}

/-- A scalar is not renamed. -/
theorem Value.rename_of_scalar? {v : Value} {s : Scalar} (h : v.scalar? = some s) :
    v.rename f = v := by
  cases v with
  | node id => simp [scalar?] at h
  | _ => rfl

theorem Scalar.rename_slot (s : Scalar) : (s.slot : Slot String NodeId).rename f = s.slot := by
  cases s <;> rfl

/-- The value under a name among changed values. -/
theorem Named.get?_map {α β : Type} (g : α → β) (name : String) (entries : List (String × α)) :
    Named.get? name (entries.map fun entry => (entry.1, g entry.2)) =
      (Named.get? name entries).map g := by
  induction entries with
  | nil => rfl
  | cons entry entries ih =>
    simp only [List.map_cons, Named.get?]
    split
    · rfl
    · exact ih

namespace Fields

variable {fields : Fields}

theorem names_rename : (fields.rename f).names = fields.names := List.map_map

theorem values_rename : (fields.rename f).values = fields.values.map (Value.rename f) := by
  simp [values, rename, List.map_map, Function.comp_def]

theorem get?_rename (fields : Fields) (name : String) :
    (fields.rename f).get? name = (fields.get? name).map (Value.rename f) :=
  Named.get?_map (Value.rename f) name fields.entries

/-- **A shape is made from names alone.** -/
theorem ofFields_rename : Shape.ofFields (fields.rename f) = Shape.ofFields fields := by
  refine Shape.eq_of_mem_iff fun name => ?_
  rw [Shape.mem_keys_ofFields, Shape.mem_keys_ofFields, names_rename]

end Fields

theorem Node.values_rename (node : Node) :
    (node.rename f).values = node.values.map (Value.rename f) := by
  cases node with
  | object fields => exact Fields.values_rename
  | array items => rfl

namespace ShapeRegistry

variable {registry : ShapeRegistry} {fields : Fields}

theorem find?_rename : registry.find? (fields.rename f) = registry.find? fields :=
  registry.find?_congr Fields.ofFields_rename

theorem register_rename : registry.register (fields.rename f) = registry.register fields := by
  unfold register
  rw [find?_rename, Fields.ofFields_rename]

/-- An object is arranged in the same shape, and its values in the same order. -/
theorem arrange_rename {id id' : NodeId} {index : Nat} {values : List Value}
    (h : registry.arrange id fields = .ok (index, values)) :
    registry.arrange id' (fields.rename f) = .ok (index, values.map (Value.rename f)) := by
  rw [arrange_eq_ok_iff] at h ⊢
  rw [find?_rename, Fields.ofFields_rename]
  refine ⟨h.1, ?_⟩
  have hvalues := mapM_eq_some_iff.mp h.2
  refine mapM_eq_some_iff.mpr ?_
  rw [List.forall₂_map_right_iff]
  exact hvalues.imp fun name v hv => by rw [Fields.get?_rename, hv]; rfl

end ShapeRegistry

/-! ## 2. Trees under other numbers -/

/-- **A renaming of a tree**: the nodes that the root reaches correspond one to one to those of
another tree, the root to the root, and nodes that correspond are the same up to the numbers of
the nodes they refer to. -/
structure Tree.Renames (f : NodeId → NodeId) (tree other : Tree) : Prop where
  root : other.root = tree.root.map (Value.rename f)
  bijOn : Set.BijOn f {a | tree.Reachable a} {b | other.Reachable b}
  node : ∀ a, tree.Reachable a → other.node? (f a) = (tree.node? a).map (Node.rename f)

/-- A value refers to nothing that the root does not reach. -/
def Value.Inside (tree : Tree) (v : Value) : Prop := ∀ id, v = .node id → tree.Reachable id

theorem Tree.Reachable.inside {tree : Tree} {a : NodeId} (ha : tree.Reachable a) {v : Value}
    (hv : v ∈ tree.children a) : v.Inside tree := by
  rintro id rfl
  exact ha.tail hv

/-- The values of a node that is reached refer to nodes that are. -/
theorem Tree.Reachable.all_inside {tree : Tree} {a : NodeId} (ha : tree.Reachable a) {node : Node}
    (hn : tree.node? a = some node) : ∀ v ∈ node.values, v.Inside tree := by
  intro v hv
  refine ha.inside (v := v) ?_
  rw [Tree.children_of_node? hn]
  exact hv

namespace Tree.Renames

variable {tree other : Tree}

/-- Nodes with the same new number are the same. -/
theorem eq_of_eq (h : tree.Renames f other) {a b : NodeId} (ha : tree.Reachable a)
    (hb : tree.Reachable b) (he : f a = f b) : a = b := h.bijOn.injOn ha hb he

theorem node?_eq (h : tree.Renames f other) {a : NodeId} (ha : tree.Reachable a) {node : Node}
    (hn : tree.node? a = some node) : other.node? (f a) = some (node.rename f) := by
  rw [h.node a ha, hn]
  rfl

/-- **Values that correspond have slots that correspond.** -/
theorem ofValue (h : tree.Renames f other) {v : Value} (hv : v.Inside tree)
    {slot : Slot String NodeId} (hs : Slot.ofValue tree v = .ok slot) :
    Slot.ofValue other (v.rename f) = .ok (slot.rename f) := by
  rcases Slot.ofValue_eq_ok_iff.mp hs with ⟨s, hsc, rfl⟩ | ⟨id, fields, rfl, hn, rfl⟩ |
    ⟨id, items, rfl, hn, rfl⟩
  · rw [Value.rename_of_scalar? hsc, Scalar.rename_slot]
    exact Slot.ofValue_of_scalar? hsc
  · exact Slot.ofValue_eq_ok_iff.mpr
      (.inr (.inl ⟨f id, _, rfl, h.node?_eq (hv id rfl) hn, rfl⟩))
  · exact Slot.ofValue_eq_ok_iff.mpr
      (.inr (.inr ⟨f id, _, rfl, h.node?_eq (hv id rfl) hn, rfl⟩))

end Tree.Renames

/-- A slot refers to nothing that the root does not reach. -/
def Slot.Inside (tree : Tree) : Slot String NodeId → Prop
  | .object id | .array id => tree.Reachable id
  | .text _ | .int32 _ | .float64 _ | .bool _ | .null => True

theorem Slot.inside_of_ofValue {tree : Tree} {v : Value} (hv : v.Inside tree)
    {slot : Slot String NodeId} (hs : Slot.ofValue tree v = .ok slot) : slot.Inside tree := by
  rcases Slot.ofValue_eq_ok_iff.mp hs with ⟨s, hsc, rfl⟩ | ⟨id, fields, rfl, hn, rfl⟩ |
    ⟨id, items, rfl, hn, rfl⟩
  · cases s <;> trivial
  · exact hv id rfl
  · exact hv id rfl

/-! ## 3. How renamings come about -/

/-- The values of nodes that correspond. -/
theorem Tree.children_eq_map {tree other : Tree} {a b : NodeId}
    (h : other.node? b = (tree.node? a).map (Node.rename f)) :
    other.children b = (tree.children a).map (Value.rename f) := by
  unfold children
  rw [h]
  cases tree.node? a with
  | none => rfl
  | some node => exact node.values_rename

/-- A renamed value is a reference only if the value is one. -/
theorem Value.eq_node_of_rename {v : Value} {b : NodeId} (h : v.rename f = .node b) :
    ∃ a, v = .node a ∧ f a = b := by
  cases v with
  | node a => exact ⟨a, rfl, Value.node.inj h⟩
  | _ => exact nomatch h

/-- **A renaming needs to be looked at from one side only**: if the nodes that are reached keep
apart and correspond, the other root reaches the renamed nodes and no others. -/
theorem Tree.renames_of_injOn {tree other : Tree}
    (hroot : other.root = tree.root.map (Value.rename f))
    (hnode : ∀ a, tree.Reachable a → other.node? (f a) = (tree.node? a).map (Node.rename f))
    (hinj : Set.InjOn f {a | tree.Reachable a}) : tree.Renames f other where
  root := hroot
  node := hnode
  bijOn := by
    refine ⟨?_, hinj, ?_⟩
    · intro a ha
      have hboth : tree.Reachable a ∧ other.Reachable (f a) := by
        refine ha.of_closed (D := fun a => tree.Reachable a ∧ other.Reachable (f a)) ?_ ?_
        · intro root hr
          refine ⟨⟨root, hr, .refl⟩, f root, ?_, .refl⟩
          rw [hroot, hr]
          rfl
        · rintro b c ⟨hb, hfb⟩ hbc
          refine ⟨hb.tail hbc, hfb.tail ?_⟩
          unfold Points
          rw [children_eq_map (hnode b hb)]
          exact List.mem_map_of_mem (f := Value.rename f) hbc
      exact hboth.2
    · intro b hb
      refine hb.of_closed (D := fun b => b ∈ f '' {a | tree.Reachable a}) ?_ ?_
      · intro root hr
        rw [hroot] at hr
        obtain ⟨v, hv, he⟩ := Option.map_eq_some_iff.mp hr
        obtain ⟨a, rfl, rfl⟩ := Value.eq_node_of_rename he
        exact ⟨a, ⟨a, hv, .refl⟩, rfl⟩
      · rintro _ c ⟨a, ha, rfl⟩ hc
        unfold Points at hc
        rw [children_eq_map (hnode a ha)] at hc
        obtain ⟨v, hv, he⟩ := List.mem_map.mp hc
        obtain ⟨d, rfl, rfl⟩ := Value.eq_node_of_rename he
        exact ⟨d, ha.tail hv, rfl⟩

theorem Value.rename_id (v : Value) : v.rename id = v := by
  cases v <;> rfl

theorem Node.rename_id (node : Node) : node.rename id = node := by
  have hvalue : Value.rename id = id := funext Value.rename_id
  cases node with
  | object fields =>
    cases fields
    simp [rename, Fields.rename, hvalue]
  | array items => simp [rename, hvalue]

/-- **Nothing but the nodes that the root reaches matters**: the same nodes in another arena are a
renaming that changes no number. -/
theorem Tree.renames_of_same {tree other : Tree} (hroot : other.root = tree.root)
    (hnode : ∀ a, tree.Reachable a → other.node? a = tree.node? a) : tree.Renames id other := by
  refine renames_of_injOn ?_ ?_ (Set.injOn_id _)
  · rw [hroot]
    cases tree.root with
    | none => rfl
    | some v => exact congrArg some v.rename_id.symm
  · intro a ha
    rw [id_eq, hnode a ha]
    cases tree.node? a with
    | none => rfl
    | some node => exact congrArg some node.rename_id.symm

end PackedTree
