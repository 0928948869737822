/-
# How many keys a tree needs

A signer gives a key to every scalar that it reads, to the signature of every signed child, and to
every node that it meets again on a cycle.  A key is a word of 32 bits, so the signatures of a tree
can be told apart only as long as there are no more of these than words (`Tree.KeysFit`).

* `Signer.AtRest.size_keys_le`: the signer at the end of any calls has no more keys than the tree
  holds values and has nodes on cycles, each counted once.
* `Tree.keysFit_of_length`: a tree that is given with fewer values and nodes has enough keys.
-/
import PackedTree.Proofs.InternTable
import PackedTree.Proofs.Signature

namespace PackedTree

/-! ## 1. What a key is for -/

/-- The values that the nodes reached hold, each counted once. -/
def Tree.heldValues (tree : Tree) : Set Value :=
  {v | ∃ id, tree.Reachable id ∧ v ∈ tree.children id}

/-- The nodes reached that are on a cycle. -/
def Tree.cycleNodes (tree : Tree) : Set NodeId :=
  {id | tree.Reachable id ∧ tree.OnCycle id}

/-- **32 bits are enough for the keys of a tree**: it has no more different values and nodes on
cycles than there are words.  Without cycles only the values count. -/
def Tree.KeysFit (tree : Tree) : Prop :=
  tree.heldValues.encard + tree.cycleNodes.encard ≤ UInt32.size

namespace Signer

variable {tree : Tree} {shapes : ShapeRegistry} {s : Signer}

/-- What a key can be for: a value of a node, or a node on a cycle. -/
def origins (tree : Tree) : Set (Value ⊕ NodeId) :=
  Sum.inl '' tree.heldValues ∪ Sum.inr '' tree.cycleNodes

/-- A key comes from a value or a node. -/
inductive ComesFrom (s : Signer) : SignatureKey → Value ⊕ NodeId → Prop where
  | scalar {v : Value} {c : Scalar} {k : SignatureKey} (hc : v.scalar? = some c)
      (hk : c.key? = some k) : ComesFrom s k (.inl v)
  | child {child : NodeId} {σ : Signature} (hm : s.marks[child]? = some (.signed σ)) :
      ComesFrom s (.content σ) (.inl (.node child))
  | cycle (child : NodeId) : ComesFrom s (.node child) (.inr child)

/-- Nothing comes with two keys: a value is one scalar, and a node has one signature. -/
theorem ComesFrom.unique {k l : SignatureKey} {o : Value ⊕ NodeId} (hk : ComesFrom s k o)
    (hl : ComesFrom s l o) : k = l := by
  cases hk with
  | scalar hc hk =>
    cases hl with
    | scalar hc' hl =>
      rw [hc, Option.some.injEq] at hc'
      subst hc'
      rw [hk, Option.some.injEq] at hl
      exact hl
    | child _ => simp [Value.scalar?] at hc
  | child hm =>
    cases hl with
    | scalar hc _ => simp [Value.scalar?] at hc
    | child hm' =>
      rw [hm, Option.some.injEq, Mark.signed.injEq] at hm'
      rw [hm']
  | cycle child =>
    cases hl
    rfl

/-- **Every key that is given out** comes from something in the tree. -/
theorem KeyFor.exists_origin {k : SignatureKey} (h : KeyFor tree tree.Reachable s k) :
    ∃ o ∈ origins tree, ComesFrom s k o := by
  cases h with
  | scalar howner hv hc hk => exact ⟨_, .inl ⟨_, ⟨_, howner, hv⟩, rfl⟩, .scalar hc hk⟩
  | child howner hv hm => exact ⟨_, .inl ⟨_, ⟨_, howner, hv⟩, rfl⟩, .child hm⟩
  | cycle hchild hcycle => exact ⟨_, .inr ⟨_, ⟨hchild, hcycle⟩, rfl⟩, .cycle _⟩

/-! ## 2. Counting keys -/

theorem encard_origins (tree : Tree) :
    (origins tree).encard = tree.heldValues.encard + tree.cycleNodes.encard := by
  have hapart : Disjoint (Sum.inl '' tree.heldValues) (Sum.inr '' tree.cycleNodes) :=
    Set.disjoint_image_inl_image_inr
  rw [origins, Set.encard_union_eq hapart, Sum.inl_injective.encard_image,
    Sum.inr_injective.encard_image]

/-- **A signer has no more keys than its tree holds values and has nodes on cycles.** -/
theorem AtRest.size_keys_le (h : AtRest tree shapes tree.Reachable s) (hfits : tree.KeysFit) :
    s.keys.size ≤ UInt32.size := by
  have hmem {k : SignatureKey} (hk : k ∈ s.keys.keys) : ∃ o ∈ origins tree, ComesFrom s k o := by
    obtain ⟨n, hn⟩ := Option.isSome_iff_exists.mp
      (Std.HashMap.isSome_getElem?_iff_mem.mpr (Std.HashMap.mem_keys.mp hk))
    exact (h.named hn).exists_origin
  choose! origin horigin hcomes using fun k (hk : k ∈ s.keys.keys) => hmem hk
  have hd : (s.keys.keys.map origin).Nodup := by
    refine s.keys.nodup_keys.map_on fun k hk l hl he => ?_
    exact (hcomes k hk).unique (he ▸ hcomes l hl)
  have hle := length_le_encard hd (S := origins tree) fun o ho => by
    obtain ⟨k, hk, rfl⟩ := List.mem_map.mp ho
    exact horigin k hk
  rw [List.length_map, Std.HashMap.length_keys, encard_origins] at hle
  exact Nat.cast_le.mp (hle.trans hfits)

end Signer

/-! ## 3. Trees as they are given -/

/-- **The keys fit** if the arena has few enough nodes and values. -/
theorem Tree.keysFit_of_length {tree : Tree}
    (hfew : (tree.nodes.toList.flatMap Node.values).length + tree.size ≤ UInt32.size) :
    tree.KeysFit := by
  have hvalues : tree.heldValues.encard ≤ (tree.nodes.toList.flatMap Node.values).length := by
    refine encard_le_length ?_
    rintro v ⟨id, -, hv⟩
    obtain ⟨node, hnode, hv⟩ := exists_mem_nodes_of_mem_children hv
    exact List.mem_flatMap.mpr ⟨node, hnode, hv⟩
  have hnodes : tree.cycleNodes.encard ≤ ((List.range tree.size).map NodeId.mk).length := by
    refine encard_le_length ?_
    rintro id ⟨-, hcycle⟩
    obtain ⟨child, hpoints, -⟩ := Relation.TransGen.head'_iff.mp hcycle
    obtain ⟨node, hn⟩ := Option.isSome_iff_exists.mp (isSome_of_mem_children hpoints)
    exact List.mem_map.mpr ⟨id.index, List.mem_range.mpr (index_lt_size hn), rfl⟩
  rw [List.length_map, List.length_range] at hnodes
  refine (add_le_add hvalues hnodes).trans ?_
  rw [← Nat.cast_add]
  exact Nat.cast_le.mpr hfew

end PackedTree
