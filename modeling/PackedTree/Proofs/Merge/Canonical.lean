/-
# The object that stands for its group

After a merge every object stands for one object of its group, and which one that is does not depend
on the pairs or on their order: it is the first that was discovered.

* `Catalog.MergedAs.sameNames_resolve`: an object and the one that stands for it have the same names,
  because a signature begins with the shape.
* `Catalog.MergedAs.exists_live_of_shape`: so no shape is left without an object.
* `Catalog.compacted_of_discover`: what a merge makes of a discovered catalog.

None of this asks whether the tree has cycles.  Whether the merged objects have the same content is
another matter, which `PackedTree.Proofs.Merge.Exact` settles.
-/
import PackedTree.Proofs.Merge.Descent

namespace PackedTree

/-! ## 1. Objects with the same names -/

/-- **Two nodes are objects with the same set of names.** -/
def Tree.SameNames (tree : Tree) (a b : NodeId) : Prop :=
  ∃ f g, tree.node? a = some (.object f) ∧ tree.node? b = some (.object g) ∧
    ∀ name, name ∈ f.names ↔ name ∈ g.names

/-- Objects that agree up to anything have the same names. -/
theorem Tree.NodesAgree.sameNames {tree : Tree} {P : Value → Value → Prop} {a b : NodeId}
    (h : tree.NodesAgree P a b) (ha : tree.IsObject a) : tree.SameNames a b := by
  cases h with
  | object hf hg hnames _ => exact ⟨_, _, hf, hg, hnames⟩
  | array hitems _ _ =>
    obtain ⟨fields, hfields⟩ := ha
    rw [hfields, Option.some.injEq] at hitems
    exact nomatch hitems

/-- What an identity stands for, stands for itself. -/
theorem InternTable.Flat.resolve_resolve {K : Type} [DecidableEq K] [Hashable K]
    {table : InternTable K} (h : table.Flat) {x : Identity} (hx : x.rank < table.size) :
    table.resolve (table.resolve x) = table.resolve x :=
  resolve_of_isLive (h.grounded.isLive_resolve hx)

namespace Catalog

variable {tree : Tree} {config : Config} {c merged : Catalog} {x y : Identity} {a b : NodeId}

/-! ## 2. What a merge makes of a catalog -/

/-- An identity of the table has a node. -/
theorem exists_getValue? (hx : x.rank < c.objects.size) : ∃ a, c.objects.getValue? x = some a :=
  Option.isSome_iff_exists.mp (InternTable.getValue?_isSome_iff.mpr hx)

/-- What an identity stands for has a node too. -/
theorem MergedAs.exists_getValue?_resolve (h : MergedAs c merged) (hx : x.rank < c.objects.size) :
    ∃ b, c.objects.getValue? (merged.objects.resolve x) = some b := by
  have hlive := h.flat.grounded.isLive_resolve (h.size_eq ▸ hx)
  exact exists_getValue? (h.size_eq ▸ (InternTable.isLive_iff.mp hlive).1)

/-- **The first of its group stands for an object**: no earlier one stands for the same. -/
theorem MergedAs.resolve_least (h : MergedAs c merged) (hy : y.rank < c.objects.size)
    (hxy : merged.objects.resolve y = merged.objects.resolve x) :
    (merged.objects.resolve x).rank ≤ y.rank := by
  obtain ⟨b, hb⟩ := exists_getValue? hy
  rw [← hxy]
  exact h.resolve_le y b hb

/-- **An object and the one that stands for it** have the same names: their signatures are the same,
and a signature begins with the shape. -/
theorem MergedAs.sameNames_resolve (h : MergedAs c merged) (hc : c.Lists tree)
    (hrest : Signer.AtRest tree c.shapes tree.Reachable c.signing)
    (hx : c.objects.getValue? x = some a)
    (hb : c.objects.getValue? (merged.objects.resolve x) = some b) : tree.SameNames a b := by
  have hknown : x.rank < merged.objects.size :=
    h.size_eq ▸ InternTable.getValue?_isSome_iff.mp (Option.isSome_of_eq_some hx)
  have hsame : c.signing.SameSignature a b :=
    (h.resolve_eq_iff hx hb).mp (h.flat.resolve_resolve hknown).symm
  exact (hsame.agree hrest).sameNames (hc.of_getValue? hx).2

/-- **No shape is left without an object**: the one that stands for its first object has it. -/
theorem MergedAs.exists_live_of_shape (h : MergedAs c merged) (hc : c.Lists tree)
    (hrest : Signer.AtRest tree c.shapes tree.Reachable c.signing) {shape : Shape}
    (hshape : shape ∈ c.shapes.shapes) :
    ∃ x b fields, merged.objects.isLive x = true ∧ merged.objects.getValue? x = some b ∧
      tree.node? b = some (.object fields) ∧ ∀ name, name ∈ shape.keys ↔ name ∈ fields.names := by
  obtain ⟨a, fields, hreach, hn, rfl⟩ := (hc.shapes shape).mp hshape
  obtain ⟨x, hx⟩ := hc.getId?_of_isObject hreach ⟨fields, hn⟩
  have hxvalue := InternTable.getValue?_of_getId? hx
  obtain ⟨b, hb⟩ := h.exists_getValue?_resolve (InternTable.rank_lt_of_getId? hx)
  obtain ⟨f, g, hf, hg, hnames⟩ := h.sameNames_resolve hc hrest hxvalue hb
  rw [hn, Option.some.injEq, Node.object.injEq] at hf
  subst hf
  refine ⟨_, b, g, h.isLive_resolve x a hxvalue, (h.getValue?_eq _).trans hb, hg, fun name => ?_⟩
  rw [Shape.mem_keys_ofFields]
  exact hnames name

/-- **What a merge makes of a catalog** of a tree, beside the number it gives.

Only the objects are changed, and none of them loses its identity.  Each stands for a live one that
is the first of all that stand for it, and is redirected onto it at once.  Names and shapes are
kept. -/
structure Compacted (tree : Tree) (c merged : Catalog) (count : Nat) : Prop where
  count_eq : count + merged.objects.count = c.objects.count
  objects_only : merged = { c with objects := merged.objects }
  getValue?_eq : ∀ x, merged.objects.getValue? x = c.objects.getValue? x
  isLive_resolve : ∀ x, x.rank < c.objects.size →
    merged.objects.isLive (merged.objects.resolve x) = true
  resolve_le : ∀ x, x.rank < c.objects.size → (merged.objects.resolve x).rank ≤ x.rank
  resolve_resolve : ∀ x, x.rank < c.objects.size →
    merged.objects.resolve (merged.objects.resolve x) = merged.objects.resolve x
  resolve_least : ∀ x y, x.rank < c.objects.size → y.rank < c.objects.size →
    merged.objects.resolve y = merged.objects.resolve x → (merged.objects.resolve x).rank ≤ y.rank
  redirects : ∀ x y, merged.objects.target? x = some y → merged.objects.isLive y = true
  names : ∀ x, x.rank < c.objects.size → ∃ a b, c.objects.getValue? x = some a ∧
    c.objects.getValue? (merged.objects.resolve x) = some b ∧ tree.SameNames a b
  shapes_live : ∀ shape ∈ merged.shapes.shapes, ∃ x b fields, merged.objects.isLive x = true ∧
    merged.objects.getValue? x = some b ∧ tree.node? b = some (.object fields) ∧
    ∀ name, name ∈ shape.keys ↔ name ∈ fields.names

theorem MergedAs.compacted (h : MergedAs c merged) (hc : c.Lists tree)
    (hrest : Signer.AtRest tree c.shapes tree.Reachable c.signing) {count : Nat}
    (hm : c.mergedObjects = .ok (count, merged)) : Compacted tree c merged count where
  count_eq := (hc.count_of_merged hm).1
  objects_only := h.objects_only
  getValue?_eq := h.getValue?_eq
  isLive_resolve := fun x hx => h.flat.grounded.isLive_resolve (h.size_eq ▸ hx)
  resolve_le := fun x hx => by
    obtain ⟨a, ha⟩ := exists_getValue? hx
    exact h.resolve_le x a ha
  resolve_resolve := fun x hx => h.flat.resolve_resolve (h.size_eq ▸ hx)
  resolve_least := fun x y _ hy hxy => h.resolve_least hy hxy
  redirects := fun x y => h.flat x y
  names := fun x hx => by
    obtain ⟨a, ha⟩ := exists_getValue? hx
    obtain ⟨b, hb⟩ := h.exists_getValue?_resolve hx
    exact ⟨a, b, ha, hb, h.sameNames_resolve hc hrest ha hb⟩
  shapes_live := fun shape hshape => by
    rw [h.objects_only] at hshape
    exact h.exists_live_of_shape hc hrest hshape

/-- **The merge of a discovered catalog** succeeds, from any counters on, and gives as many merges as
there are live objects less, which is what it counts. -/
theorem compacted_of_discover (h : ((discover tree config).outcome).1 = .ok c)
    (progress : Progress) :
    ∃ count merged after, c.mergeObjects progress = .ok (count, merged) after ∧
      after.stats = { progress.stats with objectsMerged := count } ∧
      Compacted tree c merged count := by
  obtain ⟨hlists, hfresh⟩ := lists_of_discovered (discovered_eq_of_outcome h)
  obtain ⟨hrest, count, merged, hgives, hmerged⟩ := hlists.merge_spec hfresh
  have hm : c.mergedObjects = .ok (count, merged) :=
    (c.gives_mergedObjects {}).symm.trans (hgives {})
  obtain ⟨after, hafter, hstats⟩ := counts_mergeObjects hm progress
  exact ⟨count, merged, after, hafter, hstats, hmerged.compacted hlists hrest hm⟩

/-- Of two equal objects only the first is left. -/
theorem compacted_of_discover_twins : ∃ c count merged after,
    ((discover twins {}).outcome).1 = .ok c ∧ c.mergeObjects {} = .ok (count, merged) after ∧
      0 < count ∧ after.stats.objectsMerged = count ∧ Compacted twins c merged count := by
  obtain ⟨c, hc⟩ := exists_discover_twins
  obtain ⟨count, merged, after, hm, hstats, hcompacted⟩ := compacted_of_discover hc {}
  obtain ⟨hlists, hfresh⟩ := lists_of_discovered (discovered_eq_of_outcome hc)
  have hgiven : c.mergedObjects = .ok (count, merged) :=
    (c.gives_mergedObjects.eq (congrArg Prod.fst (Pass.outcome_of_ok hm))).symm
  refine ⟨c, count, merged, after, hc, hm, ?_, by rw [hstats], hcompacted⟩
  exact hlists.count_pos hfresh hgiven (by decide) reachable_twins.1 ⟨_, rfl⟩
    (Tree.cycleFree_of_children_nil rfl) reachable_twins.2 ⟨_, rfl⟩
    (Tree.cycleFree_of_children_nil rfl) sameContent_twins

end Catalog

end PackedTree
