/-
# Trees without sharing

An arena may hold any graph.  This module says when the part that the root reaches is a tree in the
usual sense, and shows it of every document.

* `Tree.TreeShaped`: no reachable node is referred to twice, and the root not at all.
* `Tree.Grafts`: what adding documents to an arena leaves to refer to.  Each of the two edits that a
  document is built by keeps it (`Grafts.close`), and so do the three mutual functions
  (`grafts_addJson`, `grafts_addItems`, `grafts_addMembers`).
* `Tree.treeShaped_ofJson`: the tree of a document is tree-shaped.

A document with two members of one name gives nodes that nothing refers to, since the later value
counts.  So what is said here is that nodes are referred to at most once, not that all of them are.
-/
import Mathlib.Data.List.Nodup
import Mathlib.Data.List.Perm.Subperm
import PackedTree.Proofs.Graph
import PackedTree.Tree.OfJson

open scoped List

namespace PackedTree

/-! ## 1. Tree-shaped arenas -/

namespace Tree

/-- The nodes that a node refers to, in the order of its fields or elements. -/
def references (tree : Tree) (id : NodeId) : List NodeId :=
  (tree.children id).filterMap Value.node?

/-- **The part of an arena that its root reaches is a tree.**  No node of it is referred to twice,
neither by one node nor by two, and nothing refers to the root. -/
structure TreeShaped (tree : Tree) : Prop where
  references_nodup : ∀ a, tree.Reachable a → (tree.references a).Nodup
  referrer_unique : ∀ a b c, tree.Reachable a → tree.Reachable b → tree.Points a c →
    tree.Points b c → a = b
  root_unreferenced : ∀ root a, tree.root = some (.node root) → tree.Reachable a →
    ¬tree.Points a root

/-- All references of an arena, node by node. -/
def allReferences (tree : Tree) : List NodeId :=
  tree.nodes.toList.flatMap fun node => node.values.filterMap Value.node?

variable {tree : Tree} {a b : NodeId}

theorem mem_references_iff : b ∈ tree.references a ↔ tree.Points a b := by
  unfold references Points
  rw [List.mem_filterMap]
  constructor
  · rintro ⟨v, hv, hb⟩
    cases v with
    | node id => rwa [← Option.some.inj hb]
    | _ => cases hb
  · intro h
    exact ⟨.node b, h, rfl⟩

theorem references_of_node? {node : Node} (h : tree.node? a = some node) :
    tree.references a = node.values.filterMap Value.node? := by
  rw [references, children_of_node? h]

/-- A node with references is there. -/
theorem exists_node?_of_points (h : tree.Points a b) :
    ∃ node, tree.node? a = some node ∧ b ∈ node.values.filterMap Value.node? := by
  obtain ⟨node, hn⟩ := Option.isSome_iff_exists.mp (isSome_of_mem_children h)
  refine ⟨node, hn, ?_⟩
  rw [← references_of_node? hn]
  exact mem_references_iff.mpr h

end Tree

/-- What two members of a list map to is apart if the images of all members are. -/
theorem eq_of_mem_flatMap_nodup {α β : Type} {f : α → List β} :
    ∀ {l : List α}, (l.flatMap f).Nodup → ∀ {i j : Nat} {x y : α} {b : β},
      l[i]? = some x → l[j]? = some y → b ∈ f x → b ∈ f y → i = j
  | [], _, i, _, _, _, _, hi, _, _, _ => by simp at hi
  | z :: l, h, i, j, x, y, b, hi, hj, hx, hy => by
    rw [List.flatMap_cons, List.nodup_append] at h
    obtain ⟨-, hl, hapart⟩ := h
    have hlater {k : Nat} {w : α} (hk : l[k]? = some w) (hw : b ∈ f w) : b ∈ l.flatMap f :=
      List.mem_flatMap.mpr ⟨w, List.mem_of_getElem? hk, hw⟩
    cases i with
    | zero =>
      obtain rfl := Option.some.inj hi
      cases j with
      | zero => rfl
      | succ j => exact absurd rfl (hapart b hx b (hlater hj hy))
    | succ i =>
      cases j with
      | zero =>
        obtain rfl := Option.some.inj hj
        exact absurd rfl (hapart b hy b (hlater hi hx))
      | succ j => exact congrArg Nat.succ (eq_of_mem_flatMap_nodup hl hi hj hx hy)

namespace Tree

variable {tree : Tree}

/-- An arena is tree-shaped if its references and its root are all different nodes. -/
theorem treeShaped_of_nodup
    (h : (tree.allReferences ++ tree.root.toList.filterMap Value.node?).Nodup) :
    tree.TreeShaped := by
  rw [List.nodup_append] at h
  obtain ⟨hnodup, -, hroot⟩ := h
  have hat {id : NodeId} {node : Node} (hn : tree.node? id = some node) :
      tree.nodes.toList[id.index]? = some node := by
    rw [Array.getElem?_toList]
    exact hn
  refine ⟨fun a _ => ?_, fun a b c _ _ ha hb => ?_, fun root a hr _ ha => ?_⟩
  · cases hn : tree.node? a with
    | none => simp [references, children, hn]
    | some node =>
      rw [references_of_node? hn]
      exact (List.nodup_flatMap.mp hnodup).1 node (mem_nodes_of_node? hn)
  · obtain ⟨node, hn, hc⟩ := exists_node?_of_points ha
    obtain ⟨node', hn', hc'⟩ := exists_node?_of_points hb
    have hindex : a.index = b.index := eq_of_mem_flatMap_nodup hnodup (hat hn) (hat hn') hc hc'
    cases a
    cases b
    exact congrArg NodeId.mk hindex
  · obtain ⟨node, hn, hc⟩ := exists_node?_of_points ha
    refine hroot root (List.mem_flatMap.mpr ⟨node, mem_nodes_of_node? hn, hc⟩) root ?_ rfl
    rw [hr]
    exact List.mem_singleton_self root

end Tree

/-! ## 2. The values of named fields -/

/-- Setting a name adds its value, and may drop another. -/
theorem Named.values_set_subperm {α : Type} (name : String) (value : α) :
    ∀ entries : List (String × α),
      (Named.set name value entries).map Prod.snd <+~ entries.map Prod.snd ++ [value]
  | [] => List.Subperm.refl _
  | (n, v) :: rest => by
    unfold Named.set
    split
    · have hperm : value :: rest.map Prod.snd <+~ rest.map Prod.snd ++ [value] :=
        (List.perm_append_singleton value _).symm.subperm
      exact hperm.trans (List.sublist_cons_self v _).subperm
    · exact (List.subperm_cons v).mpr (values_set_subperm name value rest)

/-- The fields of a list hold none but its values, and each of them at most as often. -/
theorem Fields.values_ofList_subperm (entries : List (String × Value)) :
    (Fields.ofList entries).values <+~ entries.map Prod.snd := by
  have hfold (fields : Fields) :
      (entries.foldl (fun fields entry => fields.set entry.1 entry.2) fields).values <+~
        fields.values ++ entries.map Prod.snd := by
    induction entries generalizing fields with
    | nil =>
      rw [List.map_nil, List.append_nil]
      exact List.Subperm.refl _
    | cons entry rest ih =>
      refine (ih (fields.set entry.1 entry.2)).trans ?_
      have hset := Named.values_set_subperm entry.1 entry.2 fields.entries
      rw [List.map_cons, ← List.singleton_append, ← List.append_assoc]
      exact (List.subperm_append_right _).mpr hset
  exact hfold .empty

theorem subperm_filterMap {α β : Type} (f : α → Option β) {l l' : List α} (h : l <+~ l') :
    l.filterMap f <+~ l'.filterMap f := by
  obtain ⟨m, hperm, hsub⟩ := h
  exact ⟨m.filterMap f, hperm.filterMap f, hsub.filterMap f⟩

/-! ## 3. Documents -/

namespace Tree

/-- **What adding documents leaves to refer to.**  The references of the arena, together with the
values that stand for the documents, are those from before and new ones: all different, and to
places that the documents took. -/
structure Grafts (before after : Tree) (values : List Value) : Prop where
  size_le : before.size ≤ after.size
  references : ∃ new : List NodeId, new.Nodup ∧
    (∀ id ∈ new, before.size ≤ id.index ∧ id.index < after.size) ∧
    after.allReferences ++ values.filterMap Value.node? <+~ before.allReferences ++ new

variable {before after : Tree} {values : List Value}

/-- Values that are no references leave an arena as it is. -/
theorem grafts_of_node?_none (h : values.filterMap Value.node? = []) :
    Grafts before before values where
  size_le := Nat.le_refl _
  references := by
    refine ⟨[], List.nodup_nil, fun id hid => absurd hid List.not_mem_nil, ?_⟩
    rw [h]

/-- One document after another. -/
theorem Grafts.append {middle : Tree} {values' : List Value} (h : Grafts before middle values)
    (h' : Grafts middle after values') : Grafts before after (values ++ values') where
  size_le := Nat.le_trans h.size_le h'.size_le
  references := by
    obtain ⟨new, hnodup, hbounds, hsub⟩ := h.references
    obtain ⟨new', hnodup', hbounds', hsub'⟩ := h'.references
    have hle := h.size_le
    have hle' := h'.size_le
    refine ⟨new ++ new', List.nodup_append.mpr ⟨hnodup, hnodup', ?_⟩, fun id hid => ?_, ?_⟩
    · rintro id hid _ hid' rfl
      have := (hbounds id hid).2
      have := (hbounds' id hid').1
      omega
    · rcases List.mem_append.mp hid with hid | hid
      · have := hbounds id hid
        omega
      · have := hbounds' id hid
        omega
    · have hswap (l m n : List NodeId) : (l ++ m) ++ n <+~ (l ++ n) ++ m := by
        rw [List.append_assoc, List.append_assoc]
        exact (List.perm_append_comm.append_left l).subperm
      have hlater := (List.subperm_append_right (values.filterMap Value.node?)).mpr hsub'
      have hearlier := (List.subperm_append_right new').mpr hsub
      rw [List.filterMap_append, ← List.append_assoc, ← List.append_assoc]
      exact (hswap _ _ _).trans (hlater.trans ((hswap _ _ _).trans hearlier))

theorem size_add (tree : Tree) (node : Node) : (tree.add node).2.size = tree.size + 1 :=
  Array.size_push node

theorem allReferences_add (tree : Tree) (node : Node) : (tree.add node).2.allReferences =
    tree.allReferences ++ node.values.filterMap Value.node? := by
  simp [allReferences, add]

/-- A node takes in the values that wait for one, and stands for them. -/
theorem Grafts.close (h : Grafts before after values) {node : Node}
    (hnode : node.values <+~ values) :
    Grafts before (after.add node).2 [.node (after.add node).1] where
  size_le := by
    rw [size_add]
    exact Nat.le_succ_of_le h.size_le
  references := by
    obtain ⟨new, hnodup, hbounds, hsub⟩ := h.references
    refine ⟨new ++ [⟨after.size⟩], List.nodup_append.mpr ⟨hnodup, List.nodup_singleton _, ?_⟩,
      fun id hid => ?_, ?_⟩
    · rintro id hid _ hlast rfl
      rw [List.mem_singleton.mp hlast] at hid
      exact Nat.lt_irrefl _ (hbounds _ hid).2
    · have hle := h.size_le
      rw [size_add]
      rcases List.mem_append.mp hid with hid | hid
      · have := hbounds id hid
        omega
      · rw [List.mem_singleton.mp hid]
        exact ⟨hle, Nat.lt_succ_self _⟩
    · rw [allReferences_add, ← List.append_assoc]
      refine (List.subperm_append_right _).mpr (List.Subperm.trans ?_ hsub)
      exact (List.subperm_append_left _).mpr (subperm_filterMap _ hnode)

mutual

/-- **A document** is grafted onto any arena. -/
theorem grafts_addJson : ∀ (document : Json) (tree : Tree),
    Grafts tree (addJson document tree).2 [(addJson document tree).1]
  | .null, _ | .bool _, _ | .number _, _ | .string _, _ => grafts_of_node?_none rfl
  | .array items, tree => (grafts_addItems items tree).close (List.Subperm.refl _)
  | .object members, tree =>
    (grafts_addMembers members tree).close (Fields.values_ofList_subperm _)

theorem grafts_addItems : ∀ (items : List Json) (tree : Tree),
    Grafts tree (addItems items tree).2 (addItems items tree).1
  | [], _ => grafts_of_node?_none rfl
  | item :: rest, tree => (grafts_addJson item tree).append (grafts_addItems rest _)

theorem grafts_addMembers : ∀ (members : List (String × Json)) (tree : Tree),
    Grafts tree (addMembers members tree).2 ((addMembers members tree).1.map Prod.snd)
  | [], _ => grafts_of_node?_none rfl
  | (_, item) :: rest, tree => (grafts_addJson item tree).append (grafts_addMembers rest _)

end

/-- **The tree of a document is tree-shaped.** -/
theorem treeShaped_ofJson (document : Json) : (ofJson document).TreeShaped := by
  obtain ⟨new, hnodup, -, hperm, hequiv, hsub⟩ := (grafts_addJson document empty).references
  exact treeShaped_of_nodup (hequiv.nodup_iff.mp (hnodup.sublist hsub))

end Tree

end PackedTree
