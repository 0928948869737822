/-
# Merged objects and their content

* `Catalog.bisimilar_or_clashes_of_resolve`: an object and the one it was merged onto are
  bisimilar, unless the key of some scalar reads like the token of a cycle.
* `Catalog.resolve_eq_iff_sameContent`: objects that reach no cycle are merged exactly if they have
  the same content, whatever the rest of the tree holds; and where no object reaches a cycle, a
  second merge finds nothing.

Both ask for enough keys.  That equal content is merged does not need them
(`Catalog.MergedAs.resolve_eq_of_sameContent`).
-/
import PackedTree.Proofs.Merge
import PackedTree.Proofs.Signature.Keys

namespace PackedTree

/-! ## 1. When keys clash -/

theorem twelve_le_of_toDigits {n : Nat} {ds : List Char} (h : Nat.toDigits 16 n = 'c' :: ds) :
    12 ≤ n := by
  rw [Nat.toDigits_eq_if (by decide)] at h
  split at h
  · rename_i hn
    obtain ⟨hc, -⟩ := List.cons.inj h
    have hall : ∀ n < 16, n.digitChar = 'c' → 12 ≤ n := by decide
    exact hall n hn hc
  · omega

/-- **The least key that clashes** is `c0`. -/
theorem Clash.le {n m : UInt32} (h : Clash n m) : 0xc0 ≤ n.toNat := by
  have hl := congrArg String.toList h
  rw [String.toList_append, Text.toList_hex] at hl
  obtain ⟨d, ds, hm, -⟩ := Text.exists_hex_eq_cons m.toNat
  rw [hm] at hl
  have hl : Nat.toDigits 16 n.toNat = 'c' :: d :: ds := hl
  rw [Nat.toDigits_eq_if (by decide)] at hl
  split at hl
  · simp at hl
  · cases hq : Nat.toDigits 16 (n.toNat / 16) with
    | nil => exact absurd hq Nat.toDigits_ne_nil
    | cons e es =>
      rw [hq] at hl
      obtain ⟨rfl, -⟩ := List.cons.inj hl
      have := twelve_le_of_toDigits hq
      omega

/-- Keys clash only once more than 192 are given out. -/
theorem Signer.Clashes.lt_size {s : Signer} (h : s.Clashes) (hk : s.KeysApart)
    (hfew : s.keys.size ≤ UInt32.size) : 0xc0 < s.keys.size := by
  obtain ⟨c, k, n, id, m, -, hn, -, hclash⟩ := h
  exact Nat.lt_of_le_of_lt hclash.le (hk.lt hfew hn)

/-- Two values have the same content. -/
def Tree.SameContent (tree : Tree) (v w : Value) : Prop :=
  ∃ d, tree.Unfolds v d ∧ tree.Unfolds w d

namespace Catalog

variable {tree : Tree} {c : Catalog} {a b : NodeId}

/-! ## 2. Merged objects are bisimilar -/

theorem discovered_eq_of_outcome {config : Config}
    (h : ((discover tree config).outcome).1 = .ok c) : discovered tree = .ok c :=
  ((gives_discover tree config).eq h).symm

/-- **An object and the one it was merged onto** are bisimilar exactly if they do not diverge.
They diverge only if the keys of the merge clash, and so not before it has given out 192 keys. -/
theorem bisimilar_or_clashes_of_resolve (config : Config) (hkeys : tree.KeysFit)
    (h : ((discover tree config).outcome).1 = .ok c) :
    ∃ count merged, (c.mergeObjects.outcome).1 = .ok (count, merged) ∧
      ∀ x y, x.rank < c.objects.size → merged.objects.resolve x = y →
        ∃ a b, c.objects.getValue? x = some a ∧ c.objects.getValue? y = some b ∧
          (tree.Bisimilar a b ↔ ¬tree.Diverges a b) ∧
          (tree.Diverges a b → c.signing.Clashes ∧ 0xc0 < c.signing.keys.size) := by
  obtain ⟨hlists, hfresh⟩ := lists_of_discovered (discovered_eq_of_outcome h)
  obtain ⟨hrest, count, merged, hgives, hm⟩ := hlists.merge_spec hfresh
  have hfew := hrest.size_keys_le hkeys
  refine ⟨count, merged, hgives _, ?_⟩
  intro x y hx hxy
  obtain ⟨a, ha⟩ := Option.isSome_iff_exists.mp (InternTable.getValue?_isSome_iff.mpr hx)
  have hlive := hm.isLive_resolve x a ha
  rw [hxy] at hlive
  have hy : y.rank < c.objects.size := hm.size_eq ▸ (InternTable.isLive_iff.mp hlive).1
  obtain ⟨b, hb⟩ := Option.isSome_iff_exists.mp (InternTable.getValue?_isSome_iff.mpr hy)
  have hsame : c.signing.SameSignature a b := by
    refine (hm.resolve_eq_iff ha hb).mp ?_
    rw [hxy, InternTable.resolve_of_isLive hlive]
  refine ⟨a, b, ha, hb, Signer.bisimilar_iff_not_diverges hrest hfew hsame, ?_⟩
  intro hd
  obtain ⟨hclash, -⟩ := Signer.clashes_of_diverges hrest hfew hd hsame
  exact ⟨hclash, hclash.lt_size hrest.keys hfew⟩

/-! ## 3. Merging is exact where no cycle is reached -/

/-- A node that reaches no cycle has a content. -/
theorem Lists.exists_unfolds (h : c.Lists tree) (ha : tree.CycleFree a) (hra : tree.Reachable a) :
    ∃ d, tree.Unfolds (.node a) d := by
  obtain ⟨root, hr, hroot⟩ := hra
  obtain ⟨d, hd⟩ := Tree.exists_unfoldNode a ha fun other ho =>
    h.encodable other ⟨root, hr, hroot.trans ho⟩
  exact ⟨d, tree.below a + 1, hd⟩

/-- So a node that is bisimilar to it has the same. -/
theorem Lists.sameContent_of_bisimilar (h : c.Lists tree) (ha : tree.CycleFree a)
    (hra : tree.Reachable a) (hbis : tree.Bisimilar a b) :
    tree.SameContent (.node a) (.node b) := by
  obtain ⟨d, hd⟩ := h.exists_unfolds ha hra
  exact ⟨d, hd, hbis.unfolds hd⟩

/-- Nodes that reach no cycle and have the same content have the same signature. -/
theorem sameSignature_of_sameContent {s : Signer}
    (hs : Signer.AtRest tree c.shapes tree.Reachable s) (ha : tree.CycleFree a)
    (hb : tree.CycleFree b) {σ τ : Signature} (hσ : s.marks[a]? = some (.signed σ))
    (hτ : s.marks[b]? = some (.signed τ)) (h : tree.SameContent (.node a) (.node b)) :
    s.SameSignature a b := by
  obtain ⟨d, ⟨n, hn⟩, m, hm⟩ := h
  have hda := Tree.unfold_mono (Nat.le_max_left n m) hn
  have hdb := Tree.unfold_mono (Nat.le_max_right n m) hm
  have he := Signer.sameSignature_of_unfoldNode hs _ ha hb hσ hτ hda hdb
  exact ⟨σ, hσ, he ▸ hτ⟩

/-- With enough keys, nodes that reach no cycle have the same content if they have the same
signature. -/
theorem Lists.sameContent_of_sameSignature (h : c.Lists tree) {s : Signer}
    (hs : Signer.AtRest tree c.shapes tree.Reachable s) (hkeys : tree.KeysFit)
    (ha : tree.CycleFree a) (hb : tree.CycleFree b) (hra : tree.Reachable a)
    (hsame : s.SameSignature a b) : tree.SameContent (.node a) (.node b) :=
  h.sameContent_of_bisimilar ha hra
    (Signer.bisimilar_of_cycleFree hs (hs.size_keys_le hkeys) hsame ha hb)

/-- After a merge, identities stand for the same if their nodes have the same content. -/
theorem MergedAs.resolve_eq_of_sameContent {merged : Catalog} (h : MergedAs c merged)
    (hrest : Signer.AtRest tree c.shapes tree.Reachable c.signing) {x y : Identity}
    (hx : c.objects.getValue? x = some a) (hy : c.objects.getValue? y = some b)
    (ha : tree.CycleFree a) (hb : tree.CycleFree b)
    (hsame : tree.SameContent (.node a) (.node b)) :
    merged.objects.resolve x = merged.objects.resolve y := by
  -- every identity stands for what it stands for, so its node has a signature
  obtain ⟨σ, hσ, -⟩ := (h.resolve_eq_iff hx hx).mp rfl
  obtain ⟨τ, hτ, -⟩ := (h.resolve_eq_iff hy hy).mp rfl
  exact (h.resolve_eq_iff hx hy).mpr (sameSignature_of_sameContent hrest ha hb hσ hτ hsame)

/-- With enough keys, they stand for the same only then. -/
theorem MergedAs.sameContent_iff {merged : Catalog} (h : MergedAs c merged) (hc : c.Lists tree)
    (hrest : Signer.AtRest tree c.shapes tree.Reachable c.signing) (hkeys : tree.KeysFit)
    {x y : Identity} (hx : c.objects.getValue? x = some a) (hy : c.objects.getValue? y = some b)
    (ha : tree.CycleFree a) (hb : tree.CycleFree b) :
    merged.objects.resolve x = merged.objects.resolve y ↔
      tree.SameContent (.node a) (.node b) := by
  refine ⟨fun he => ?_, h.resolve_eq_of_sameContent hrest hx hy ha hb⟩
  exact hc.sameContent_of_sameSignature hrest hkeys ha hb (hc.of_getValue? hx).1
    ((h.resolve_eq_iff hx hy).mp he)

/-- **Objects that reach no cycle** stand for the same after a merge exactly if they have the same
content.  If no object reaches a cycle, a second merge finds nothing. -/
theorem resolve_eq_iff_sameContent (config : Config) (hkeys : tree.KeysFit)
    (h : ((discover tree config).outcome).1 = .ok c) :
    ∃ count merged, (c.mergeObjects.outcome).1 = .ok (count, merged) ∧
      (∀ a b, tree.Reachable a → tree.IsObject a → tree.CycleFree a →
        tree.Reachable b → tree.IsObject b → tree.CycleFree b →
        ∃ x y, c.objects.getId? a = some x ∧ c.objects.getId? b = some y ∧
          (merged.objects.resolve x = merged.objects.resolve y ↔
            tree.SameContent (.node a) (.node b))) ∧
      ((∀ a, tree.Reachable a → tree.IsObject a → tree.CycleFree a) →
        (merged.mergeObjects.outcome).1 = .ok (0, merged)) := by
  obtain ⟨hlists, hfresh⟩ := lists_of_discovered (discovered_eq_of_outcome h)
  obtain ⟨hrest, count, merged, hgives, hm⟩ := hlists.merge_spec hfresh
  refine ⟨count, merged, hgives _, ?_, ?_⟩
  · intro a b hra hoa ha hrb hob hb
    obtain ⟨x, hx⟩ := hlists.getId?_of_isObject hra hoa
    obtain ⟨y, hy⟩ := hlists.getId?_of_isObject hrb hob
    exact ⟨x, y, hx, hy, hm.sameContent_iff hlists hrest hkeys
      (InternTable.getValue?_of_getId? hx) (InternTable.getValue?_of_getId? hy) ha hb⟩
  · intro hfree
    have hml := hm.lists hlists
    obtain ⟨-, -, -, -, hrest', -, -⟩ := hml.groups_spec
    refine hml.merge_nothing ?_ _
    intro x y a b hx hy ha hb hsame
    obtain ⟨hra, hoa⟩ := hml.of_getValue? ha
    obtain ⟨hrb, hob⟩ := hml.of_getValue? hb
    have hcontent := hml.sameContent_of_sameSignature hrest' hkeys (hfree a hra hoa)
      (hfree b hrb hob) hra hsame
    rw [hm.getValue?_eq] at ha hb
    have hxy := hm.resolve_eq_of_sameContent hrest ha hb (hfree a hra hoa) (hfree b hrb hob)
      hcontent
    rw [InternTable.resolve_of_isLive hx, InternTable.resolve_of_isLive hy] at hxy
    exact hxy

end Catalog

/-! ## 4. Two empty objects -/

/-- A root with two empty objects. -/
def twins : Tree where
  nodes := #[.object .empty, .object .empty,
    .object (.ofList [("left", .node ⟨0⟩), ("right", .node ⟨1⟩)])]
  root := some (.node ⟨2⟩)

theorem reachable_twins : twins.Reachable ⟨0⟩ ∧ twins.Reachable ⟨1⟩ := by
  have hchild (i : Nat) (h : .node ⟨i⟩ ∈ twins.children ⟨2⟩) : twins.Reachable ⟨i⟩ :=
    ⟨⟨2⟩, rfl, .single h⟩
  exact ⟨hchild 0 (by decide), hchild 1 (by decide)⟩

theorem keysFit_twins : twins.KeysFit := Tree.keysFit_of_length (by decide)

theorem sameContent_twins : twins.SameContent (.node ⟨0⟩) (.node ⟨1⟩) := by
  have hempty {id : NodeId} (hn : twins.node? id = some (.object .empty)) :
      twins.Unfolds (.node id) (.object []) := by
    refine ⟨1, (Tree.unfoldNode_object hn).mpr ⟨[], rfl, ?_⟩⟩
    simp [Fields.sortedNames, Fields.names, Fields.empty]
  exact ⟨_, hempty rfl, hempty rfl⟩

namespace Catalog

theorem exists_discover_twins : ∃ c, ((discover twins {}).outcome).1 = .ok c := by
  have hall : ∀ node ∈ twins.nodes.toList, ∀ v ∈ node.values,
      (Slot.ofValue twins v).isOk = true := by decide
  obtain ⟨c, hc⟩ := exists_discovered_of_nodes rfl ⟨_, rfl⟩ hall
  exact ⟨c, (gives_discover twins {} _).trans hc⟩

/-- Whatever the two are merged onto is bisimilar or clashes. -/
theorem bisimilar_or_clashes_of_twins : ∃ c count merged,
    ((discover twins {}).outcome).1 = .ok c ∧ (c.mergeObjects.outcome).1 = .ok (count, merged) ∧
      ∀ x y, x.rank < c.objects.size → merged.objects.resolve x = y →
        ∃ a b, c.objects.getValue? x = some a ∧ c.objects.getValue? y = some b ∧
          (twins.Bisimilar a b ↔ ¬twins.Diverges a b) ∧
          (twins.Diverges a b → c.signing.Clashes ∧ 0xc0 < c.signing.keys.size) := by
  obtain ⟨c, hc⟩ := exists_discover_twins
  obtain ⟨count, merged, hm, hall⟩ := bisimilar_or_clashes_of_resolve {} keysFit_twins hc
  exact ⟨c, count, merged, hc, hm, hall⟩

/-- One of the two is merged onto the other. -/
theorem resolve_eq_of_twins : ∃ c count merged x y,
    ((discover twins {}).outcome).1 = .ok c ∧ (c.mergeObjects.outcome).1 = .ok (count, merged) ∧
      c.objects.getId? ⟨0⟩ = some x ∧ c.objects.getId? ⟨1⟩ = some y ∧ x ≠ y ∧
      merged.objects.resolve x = merged.objects.resolve y := by
  obtain ⟨c, hc⟩ := exists_discover_twins
  obtain ⟨count, merged, hm, hexact, -⟩ := resolve_eq_iff_sameContent {} keysFit_twins hc
  obtain ⟨x, y, hx, hy, hxy⟩ := hexact ⟨0⟩ ⟨1⟩
    reachable_twins.1 ⟨_, rfl⟩ (Tree.cycleFree_of_children_nil rfl)
    reachable_twins.2 ⟨_, rfl⟩ (Tree.cycleFree_of_children_nil rfl)
  have hne : x ≠ y := by
    rintro rfl
    have h := InternTable.getValue?_of_getId? hx
    rw [InternTable.getValue?_of_getId? hy] at h
    simp at h
  exact ⟨c, count, merged, x, y, hc, hm, hx, hy, hne, hxy.mpr sameContent_twins⟩

end Catalog

end PackedTree
