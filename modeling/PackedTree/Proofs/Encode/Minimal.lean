/-
# No dead entry and none twice

After a merge, references still name the nodes of the tree, also those that were merged away, and
arrays are not merged at all.  So an object that stands for others may have been discovered under
one that is gone.  Its entry is reached all the same: along any way through the tree, the entries
on the way show nodes that are bisimilar to those of the tree.

* `Catalog.Built.resolve_eq_iff`: in a merged catalog of a tree without cycles, objects stand for
  the same exactly if they have the same content.
* `Catalog.Stores.exists_reached`: what a way through the tree comes to is reached in the image, up
  to bisimilarity.  The proof is by induction on the way.
* `Tree.minimal_of_encode`: every object of the image is reached, and the objects are one for each
  content of an object in the tree.
-/
import PackedTree.Proofs.Encode.Lossless

namespace PackedTree

/-! ## 1. Minimal images -/

namespace Image

/-- The cells of an object or of an array. -/
def cells (image : Image) : Cell → List Cell
  | .object i => (image.objects[i]?.map ObjectEntry.values).getD []
  | .array i => image.arrays[i]?.getD []
  | .text _ | .int32 _ | .float64 _ | .bool _ | .null => []

/-- References to objects and arrays lead from one to the other. -/
def Reaches (image : Image) : Cell → Cell → Prop :=
  Relation.ReflTransGen fun x y => y ∈ image.cells x

theorem cells_object {image : Image} {i : Nat} {entry : ObjectEntry}
    (h : image.objects[i]? = some entry) : image.cells (.object i) = entry.values := by
  simp [cells, h]

theorem cells_array {image : Image} {i : Nat} {items : List Cell}
    (h : image.arrays[i]? = some items) : image.cells (.array i) = items := by
  simp [cells, h]

end Image

/-- What the objects stand for that the root of a tree reaches. -/
def Tree.objectContents (tree : Tree) : Set Datum :=
  {d | ∃ n, tree.Reachable n ∧ tree.IsObject n ∧ tree.Unfolds (.node n) d}

/-- **An image is minimal for a tree** if the root reaches all its objects, and they stand for the
contents of the tree's objects, one for each. -/
structure Image.Minimal (image : Image) (tree : Tree) : Prop where
  reached : ∀ i < image.objects.length, image.Reaches (.object image.root) (.object i)
  length_eq : image.objects.length = tree.objectContents.ncard
  unfolds : ∀ i < image.objects.length, ∃ d ∈ tree.objectContents, image.Unfolds (.object i) d
  existsUnique : ∀ d ∈ tree.objectContents,
    ∃! i, i < image.objects.length ∧ image.Unfolds (.object i) d

namespace Catalog

variable {tree : Tree} {config : Config} {b : Catalog} {a : Artifact} {encoding : IntEncoding}
  {root : Nat} {n m : NodeId} {x y : Identity}

/-! ## 2. Merged objects are the bisimilar ones -/

/-- **In a merged catalog of a tree without cycles** objects stand for the same exactly if they have
the same content, and then they are bisimilar. -/
theorem Built.resolve_eq_iff (h : Built tree config b) (hdedup : config.dedup = true)
    (hacyclic : tree.Acyclic) (hkeys : tree.KeysFit) (hx : b.objects.getValue? x = some n)
    (hy : b.objects.getValue? y = some m) :
    (b.objects.resolve x = b.objects.resolve y ↔ tree.SameContent (.node n) (.node m)) ∧
      (b.objects.resolve x = b.objects.resolve y → tree.Bisimilar n m) := by
  have hn := (h.lists.of_getValue? hx).1
  have hm := (h.lists.of_getValue? hy).1
  cases h with
  | discovered hkept _ _ => simp [hdedup] at hkept
  | @merged c _ _ hc hrest hmerged =>
    rw [hmerged.getValue?_eq] at hx hy
    have hfreen := hacyclic.cycleFree hn
    have hfreem := hacyclic.cycleFree hm
    refine ⟨hmerged.sameContent_iff hc hrest hkeys hx hy hfreen hfreem, fun hsame => ?_⟩
    exact Signer.bisimilar_of_cycleFree hrest (hrest.size_keys_le hkeys)
      ((hmerged.resolve_eq_iff hx hy).mp hsame) hfreen hfreem

/-- The live identity that stands for an object has a bisimilar node. -/
theorem Built.exists_resolve (h : Built tree config b) (hdedup : config.dedup = true)
    (hacyclic : tree.Acyclic) (hkeys : tree.KeysFit) (hx : b.objects.getId? n = some x) :
    ∃ m, b.objects.getValue? (b.objects.resolve x) = some m ∧ tree.Bisimilar n m := by
  have hn := InternTable.getValue?_of_getId? hx
  have hlive := h.lists.objects_grounded.isLive_resolve (InternTable.rank_lt_of_getId? hx)
  obtain ⟨m, hm⟩ := InternTable.exists_getValue?_of_mem_live (InternTable.mem_live.mpr hlive)
  refine ⟨m, hm, (h.resolve_eq_iff hdedup hacyclic hkeys hn hm).2 ?_⟩
  exact (InternTable.resolve_of_isLive hlive).symm

/-! ## 3. Entries and their nodes -/

/-- **The node of an entry**: the value of the live identity that stands at its index. -/
inductive EntryOf (b : Catalog) : NodeId → Cell → Prop where
  | object {x : Identity} {n : NodeId} {i : Nat} (hi : b.objects.live[i]? = some x)
      (hx : b.objects.getValue? x = some n) : EntryOf b n (.object i)
  | array {x : Identity} {n : NodeId} {i : Nat} (hi : b.arrays.live[i]? = some x)
      (hx : b.arrays.getValue? x = some n) : EntryOf b n (.array i)

/-- An entry has a cell for everything that its node holds. -/
theorem Stores.exists_cell (h : b.Stores tree a) (encoding : IntEncoding) {cell : Cell}
    (he : b.EntryOf n cell) {v : Value} (hv : v ∈ tree.children n) :
    ∃ cell' ∈ (a.image encoding root).cells cell, Shows tree b.places a.strings v cell' := by
  cases he with
  | object hi hx =>
    obtain ⟨entry, hentry, n', fields, hx', hn, keys, -, -, hmem, hcells⟩ :=
      exists_getElem?_of_forall₂ h.objects hi
    rw [hx, Option.some.injEq] at hx'
    subst hx'
    rw [Tree.children_of_node? hn] at hv
    obtain ⟨name, hname⟩ := Fields.exists_get?_of_mem_values hv
    have hkey := (hmem name).mpr (Fields.mem_names_iff.mpr ⟨v, hname⟩)
    obtain ⟨j, hj⟩ := List.mem_iff_getElem?.mp hkey
    obtain ⟨cell', hcell, w, hw, hshows⟩ := exists_getElem?_of_forall₂ hcells hj
    rw [hname, Option.some.injEq] at hw
    subst hw
    refine ⟨cell', ?_, hshows⟩
    rw [Image.cells_object hentry]
    exact List.mem_of_getElem? hcell
  | array hi hx =>
    obtain ⟨cells, hentry, n', items, hx', hn, hcells⟩ := exists_getElem?_of_forall₂ h.arrays hi
    rw [hx, Option.some.injEq] at hx'
    subst hx'
    rw [Tree.children_of_node? hn] at hv
    obtain ⟨j, hj⟩ := List.mem_iff_getElem?.mp hv
    obtain ⟨cell', hcell, hshows⟩ := exists_getElem?_of_forall₂ hcells hj
    refine ⟨cell', ?_, hshows⟩
    rw [Image.cells_array hentry]
    exact List.mem_of_getElem? hcell

/-- The entry that a reference leads to has a node that is bisimilar to whatever the reference's
node is bisimilar to. -/
theorem Built.exists_entryOf (h : Built tree config b) (hdedup : config.dedup = true)
    (hacyclic : tree.Acyclic) (hkeys : tree.KeysFit) {strings : List String} {cell : Cell}
    (hbis : tree.Bisimilar n m) (hm : tree.Reachable m)
    (hs : Shows tree b.places strings (.node m) cell) :
    ∃ m', tree.Reachable m' ∧ tree.Bisimilar n m' ∧ b.EntryOf m' cell := by
  cases hs with
  | scalar hv _ => simp [Value.scalar?] at hv
  | object _ hp =>
    obtain ⟨x, hx, hi⟩ := hp
    obtain ⟨m', hm', hbis'⟩ := h.exists_resolve hdedup hacyclic hkeys hx
    exact ⟨m', (h.lists.of_getValue? hm').1, hbis.trans hbis', .object hi hm'⟩
  | array _ hp =>
    obtain ⟨x, hi, hx⟩ := h.lists.arrays_fresh.placed_iff.mp hp
    exact ⟨m, hm, hbis, .array hi hx⟩

/-! ## 4. Every object is reached -/

/-- **What a way through the tree comes to is reached in the image**, up to bisimilarity. -/
theorem Stores.exists_reached (hs : b.Stores tree a) (h : Built tree config b)
    (hdedup : config.dedup = true) (hacyclic : tree.Acyclic) (hkeys : tree.KeysFit)
    (hroot : a.root = some root) (encoding : IntEncoding) (hn : tree.Reachable n) :
    ∃ m cell, tree.Reachable m ∧ tree.Bisimilar n m ∧ b.EntryOf m cell ∧
      (a.image encoding root).Reaches (.object root) cell := by
  obtain ⟨top, hr, hreach⟩ := hn
  induction hreach with
  | refl =>
    obtain ⟨top', i, hr', ⟨x, hx, hi⟩, hi'⟩ := hs.root
    rw [hr, Option.some.injEq, Value.node.injEq] at hr'
    rw [hroot, Option.some.injEq] at hi'
    subst hr' hi'
    obtain ⟨m, hm, hbis⟩ := h.exists_resolve hdedup hacyclic hkeys hx
    exact ⟨m, _, (h.lists.of_getValue? hm).1, hbis, .object hi hm, .refl⟩
  | tail _ hpoints ih =>
    obtain ⟨m, cell, hm, hbis, hentry, hreached⟩ := ih
    obtain ⟨m', hm', hbis'⟩ := hbis.exists_points hpoints
    obtain ⟨cell', hcell', hshows⟩ := hs.exists_cell encoding hentry hm'
    obtain ⟨m'', hreach, hbis'', hentry'⟩ :=
      h.exists_entryOf hdedup hacyclic hkeys hbis' (hm.tail hm') hshows
    exact ⟨m'', cell', hreach, hbis'', hentry', hreached.tail hcell'⟩

/-- Entries of objects with the same content are the same. -/
theorem Built.index_eq (h : Built tree config b) (hdedup : config.dedup = true)
    (hacyclic : tree.Acyclic) (hkeys : tree.KeysFit) {i j : Nat} (hi : b.EntryOf n (.object i))
    (hj : b.EntryOf m (.object j)) (hsame : tree.SameContent (.node n) (.node m)) : i = j := by
  cases hi with
  | object hi hx =>
    cases hj with
    | object hj hy =>
      have hxy := (h.resolve_eq_iff hdedup hacyclic hkeys hx hy).1.mpr hsame
      rw [InternTable.resolve_of_isLive (InternTable.mem_live.mp (List.mem_of_getElem? hi)),
        InternTable.resolve_of_isLive (InternTable.mem_live.mp (List.mem_of_getElem? hj))] at hxy
      have hlt := (List.getElem?_eq_some_iff.mp hi).1
      exact (List.getElem?_inj hlt b.objects.live_nodup).mp (hi.trans (hxy ▸ hj.symm))

/-- The nodes of object entries are objects of the tree. -/
theorem Lists.of_entryOf (h : b.Lists tree) {i : Nat} (hi : b.EntryOf n (.object i)) :
    tree.Reachable n ∧ tree.IsObject n := by
  cases hi with
  | object _ hx => exact h.of_getValue? hx

/-- **Every object entry is reached.** -/
theorem Stores.reaches_object (hs : b.Stores tree a) (h : Built tree config b)
    (hdedup : config.dedup = true) (hacyclic : tree.Acyclic) (hkeys : tree.KeysFit)
    (hroot : a.root = some root) {i : Nat} (hi : b.EntryOf n (.object i)) :
    (a.image encoding root).Reaches (.object root) (.object i) := by
  obtain ⟨hn, hobj⟩ := h.lists.of_entryOf hi
  obtain ⟨m, cell, -, hbis, hentry, hreached⟩ :=
    hs.exists_reached h hdedup hacyclic hkeys hroot encoding hn
  cases hentry with
  | object hj hy =>
    have hsame := h.lists.sameContent_of_bisimilar (hacyclic.cycleFree hn) hn hbis
    rw [h.index_eq hdedup hacyclic hkeys hi (.object hj hy) hsame]
    exact hreached
  | array _ hy =>
    have hcontains := InternTable.contains_iff_exists_getId?.mpr
      ⟨_, InternTable.getId?_of_getValue? hy⟩
    obtain ⟨fields, hfields⟩ := hbis.isObject hobj
    obtain ⟨-, items, hitems⟩ := (h.lists.arrays m).mp hcontains
    simp [hfields] at hitems

/-! ## 5. One object for each content -/

/-- An entry stands for what its node stands for. -/
theorem Stores.unfolds_object (hs : b.Stores tree a) (h : Built tree config b)
    (hacyclic : tree.Acyclic) (hkeys : tree.KeysFit) {i : Nat} {d : Datum}
    (hi : b.EntryOf n (.object i)) (hd : tree.Unfolds (.node n) d) :
    (a.image encoding root).Unfolds (.object i) d := by
  obtain ⟨hn, hobj⟩ := h.lists.of_entryOf hi
  have hplaced : b.objects.Placed n i := by
    cases hi with
    | object hi hx =>
      have hlive := InternTable.mem_live.mp (List.mem_of_getElem? hi)
      exact ⟨_, InternTable.getId?_of_getValue? hx, (InternTable.resolve_of_isLive hlive).symm ▸ hi⟩
  obtain ⟨depth, hd⟩ := hd
  refine ⟨depth, Image.unfold_of_shows (p := b.places) ?_ ?_ depth (.node n) _ d
    (.object hobj hplaced) ?_ hd⟩
  · intro n i _ hp
    obtain ⟨x, m, hx, hm, hshows⟩ := hs.showsObject hp
    exact ⟨m, (h.lists.of_getValue? hm).1, h.unfoldNode_eq hacyclic hkeys hx hm, hshows⟩
  · intro n i _ hp
    exact hs.showsArray h.lists.arrays_fresh hp
  · intro n' hn'
    obtain rfl := Value.node.inj hn'
    exact hn

/-- Every index of an object is that of an entry whose node has a content. -/
theorem Lists.exists_entryOf (h : b.Lists tree) (hacyclic : tree.Acyclic) {i : Nat}
    (hi : i < b.objects.live.length) :
    ∃ n, b.EntryOf n (.object i) ∧ ∃ d, tree.Unfolds (.node n) d := by
  have hget := List.getElem?_eq_getElem hi
  obtain ⟨n, hx⟩ := InternTable.exists_getValue?_of_mem_live (List.mem_of_getElem? hget)
  have hn := (h.of_getValue? hx).1
  exact ⟨n, .object hget hx, h.exists_unfolds (hacyclic.cycleFree hn) hn⟩

/-- **Entries with the same content are the same.** -/
theorem Stores.eq_of_unfolds (hs : b.Stores tree a) (h : Built tree config b)
    (hdedup : config.dedup = true) (hacyclic : tree.Acyclic) (hkeys : tree.KeysFit) {i j : Nat}
    {d : Datum} (hi : i < b.objects.live.length) (hj : j < b.objects.live.length)
    (hdi : (a.image encoding root).Unfolds (.object i) d)
    (hdj : (a.image encoding root).Unfolds (.object j) d) : i = j := by
  have hcontent {i : Nat} (hi : i < b.objects.live.length)
      (hd : (a.image encoding root).Unfolds (.object i) d) :
      ∃ n, b.EntryOf n (.object i) ∧ tree.Unfolds (.node n) d := by
    obtain ⟨n, hn, e, he⟩ := h.lists.exists_entryOf hacyclic hi
    rw [hd.unique (hs.unfolds_object h hacyclic hkeys hn he)]
    exact ⟨n, hn, he⟩
  obtain ⟨n, hn, hdn⟩ := hcontent hi hdi
  obtain ⟨m, hm, hdm⟩ := hcontent hj hdj
  exact h.index_eq hdedup hacyclic hkeys hn hm ⟨d, hdn, hdm⟩

/-- Every content of an object in the tree is that of an entry. -/
theorem Stores.exists_index (hs : b.Stores tree a) (h : Built tree config b)
    (hdedup : config.dedup = true) (hacyclic : tree.Acyclic) (hkeys : tree.KeysFit) {d : Datum}
    (hd : d ∈ tree.objectContents) :
    ∃ i < b.objects.live.length, (a.image encoding root).Unfolds (.object i) d := by
  obtain ⟨n, hn, hobj, hd⟩ := hd
  obtain ⟨x, hx⟩ := h.lists.getId?_of_isObject hn hobj
  obtain ⟨m, hm, hbis⟩ := h.exists_resolve hdedup hacyclic hkeys hx
  have hlive := h.lists.objects_grounded.isLive_resolve (InternTable.rank_lt_of_getId? hx)
  obtain ⟨i, hi⟩ := List.mem_iff_getElem?.mp (InternTable.mem_live.mpr hlive)
  refine ⟨i, (List.getElem?_eq_some_iff.mp hi).1, ?_⟩
  exact hs.unfolds_object h hacyclic hkeys (.object hi hm) (hbis.unfolds hd)

/-- **The objects of a merged artifact** are reached and stand for one content each. -/
theorem Stores.minimal (hs : b.Stores tree a) (h : Built tree config b)
    (hdedup : config.dedup = true) (hacyclic : tree.Acyclic) (hkeys : tree.KeysFit)
    (hroot : a.root = some root) : (a.image encoding root).Minimal tree := by
  have hlength : b.objects.live.length = (a.image encoding root).objects.length :=
    hs.objects.length_eq
  have hcontent : ∀ i < b.objects.live.length, ∃ d ∈ tree.objectContents,
      (a.image encoding root).Unfolds (.object i) d := by
    intro i hi
    obtain ⟨n, hn, d, hd⟩ := h.lists.exists_entryOf hacyclic hi
    obtain ⟨hreach, hobj⟩ := h.lists.of_entryOf hn
    exact ⟨d, ⟨n, hreach, hobj, hd⟩, hs.unfolds_object h hacyclic hkeys hn hd⟩
  have : Nonempty Datum := ⟨.scalar .null⟩
  choose! content hmem hunfolds using hcontent
  have hbij : Set.BijOn content {i | i < b.objects.live.length} tree.objectContents := by
    refine ⟨hmem, ?_, ?_⟩
    · intro i hi j hj hij
      exact hs.eq_of_unfolds h hdedup hacyclic hkeys hi hj (hunfolds i hi) (hij ▸ hunfolds j hj)
    · intro d hd
      obtain ⟨i, hi, hdi⟩ := hs.exists_index h hdedup hacyclic hkeys hd
      exact ⟨i, hi, (hunfolds i hi).unique hdi⟩
  refine ⟨?_, ?_, ?_, ?_⟩
  · intro i hi
    obtain ⟨n, hn, -⟩ := h.lists.exists_entryOf hacyclic (hlength ▸ hi)
    exact hs.reaches_object h hdedup hacyclic hkeys hroot hn
  · have hcard : {i | i < b.objects.live.length}.ncard = b.objects.live.length := by
      have hrange := Set.ncard_coe_finset (Finset.range b.objects.live.length)
      rw [Finset.coe_range, Finset.card_range] at hrange
      exact hrange
    rw [← hlength, ← hbij.image_eq, hbij.injOn.ncard_image]
    exact hcard.symm
  · intro i hi
    rw [← hlength] at hi
    exact ⟨content i, hmem i hi, hunfolds i hi⟩
  · intro d hd
    obtain ⟨i, hi, hdi⟩ := hs.exists_index h hdedup hacyclic hkeys hd
    refine ⟨i, ⟨hlength ▸ hi, hdi⟩, ?_⟩
    rintro j ⟨hj, hdj⟩
    exact hs.eq_of_unfolds h hdedup hacyclic hkeys (hlength ▸ hj) hi hdj hdi

end Catalog

/-! ## 6. From a tree to a minimal image -/

namespace Tree

/-- **A merge leaves no dead object and none twice**: of a tree without cycles, the image that is
read back from the bytes of an ordered encoding is minimal. -/
theorem minimal_of_encode {tree : Tree} {config : Config} {bytes : ByteArray}
    (hacyclic : tree.Acyclic) (hfits : tree.Fits) (hkeys : tree.KeysFit)
    (hdedup : config.dedup = true) (hordered : config.ordered = true)
    (h : tree.encode config = .ok bytes) :
    ∃ image, Image.read bytes = some image ∧ image.Minimal tree := by
  obtain ⟨b, a, i, hb, hstores, hi, hread⟩ := read_of_encode hfits hordered h
  exact ⟨_, hread, hstores.minimal hb hdedup hacyclic hkeys hi⟩

/-- Of two equal objects and their root, two entries are left. -/
theorem minimal_of_encode_twins : ∃ bytes image, twins.encode {} = .ok bytes ∧
    Image.read bytes = some image ∧ image.Minimal twins := by
  obtain ⟨bytes, h⟩ := exists_encode_twins
  have hfits : twins.Fits := fits_of_length (by decide) (by decide)
  obtain ⟨image, hread, hminimal⟩ :=
    minimal_of_encode acyclic_twins hfits keysFit_twins rfl rfl h
  exact ⟨bytes, image, h, hread, hminimal⟩

end Tree

end PackedTree
