/-
# Nothing is lost

Unfolding what is read back from the bytes gives what the tree unfolds to, if the part of the tree
that the root reaches has no cycle.  Nodes may be shared, and objects may have been merged: a merged
object has the content of the one that stands for it.

* `Image.unfold` follows the references of an image, to a depth.
* `Image.unfold_of_shows`: where entries show nodes, cells unfold to what their values unfold to.
* `Tree.unfolds_of_encode`: the whole way from a tree to its bytes and back.
-/
import PackedTree.Proofs.Encode
import PackedTree.Proofs.Merge.Exact

namespace PackedTree

namespace Image

/-! ## 1. Unfolding an image -/

/-- What a cell stands for, if at most `depth` references have to be followed one after the
other.  An object is the list of its shape's keys with what its values stand for. -/
def unfold (image : Image) : (depth : Nat) → Cell → Option Datum
  | depth + 1, .object i =>
    match image.objects[i]? with
    | none => none
    | some entry =>
      match image.shapes[entry.shape]? with
      | none => none
      | some keys =>
        ((keys.zip entry.values).mapM fun (entry : String × Cell) =>
          (image.unfold depth entry.2).map (entry.1, ·)).map .object
  | depth + 1, .array i =>
    match image.arrays[i]? with
    | none => none
    | some cells => (cells.mapM (image.unfold depth)).map .array
  | _, cell => (cell.scalar? image.strings).map .scalar

/-- A cell stands for a datum. -/
def Unfolds (image : Image) (cell : Cell) (d : Datum) : Prop :=
  ∃ depth, image.unfold depth cell = some d

theorem unfold_of_scalar? {image : Image} {cell : Cell} {s : Scalar}
    (h : cell.scalar? image.strings = some s) (depth : Nat) :
    image.unfold depth cell = some (.scalar s) := by
  cases cell with
  | object i | array i => simp [Cell.scalar?] at h
  | _ => cases depth <;> simp [unfold, h]

/-- A greater depth keeps an unfolding. -/
theorem unfold_succ {image : Image} {depth : Nat} :
    ∀ {cell : Cell} {d : Datum}, image.unfold depth cell = some d →
      image.unfold (depth + 1) cell = some d := by
  induction depth with
  | zero =>
    intro cell d h
    cases cell with
    | object i | array i => simp [unfold, Cell.scalar?] at h
    | _ => exact h
  | succ depth ih =>
    intro cell d h
    cases cell with
    | object i =>
      unfold unfold at h ⊢
      cases hi : image.objects[i]? with
      | none => simp [hi] at h
      | some entry =>
        cases hk : image.shapes[entry.shape]? with
        | none => simp [hi, hk] at h
        | some keys =>
          simp only [hi, hk, Option.map_eq_some_iff, mapM_eq_some_iff] at h ⊢
          rcases h with ⟨ds, hds, rfl⟩
          refine ⟨ds, hds.imp ?_, rfl⟩
          rintro _ _ ⟨d, hd, rfl⟩
          exact ⟨d, ih hd, rfl⟩
    | array i =>
      unfold unfold at h ⊢
      cases hi : image.arrays[i]? with
      | none => simp [hi] at h
      | some cells =>
        simp only [hi, Option.map_eq_some_iff, mapM_eq_some_iff] at h ⊢
        rcases h with ⟨ds, hds, rfl⟩
        exact ⟨ds, hds.imp fun _ _ hd => ih hd, rfl⟩
    | _ => exact h

theorem unfold_mono {image : Image} {cell : Cell} {d : Datum} {n m : Nat} (hnm : n ≤ m)
    (h : image.unfold n cell = some d) : image.unfold m cell = some d := by
  induction hnm with
  | refl => exact h
  | step _ ih => exact unfold_succ ih

/-- A cell stands for at most one datum. -/
theorem Unfolds.unique {image : Image} {cell : Cell} {d e : Datum} (hd : image.Unfolds cell d)
    (he : image.Unfolds cell e) : d = e := by
  rcases hd with ⟨n, hn⟩
  rcases he with ⟨m, hm⟩
  have hmax := unfold_mono (Nat.le_max_left n m) hn
  rw [unfold_mono (Nat.le_max_right n m) hm] at hmax
  exact (Option.some.inj hmax).symm

/-! ## 2. Entries that show nodes unfold alike -/

variable {image : Image} {tree : Tree} {p : Places}

/-- An entry of an image shows an object node. -/
def ShowsObject (image : Image) (tree : Tree) (p : Places) (n : NodeId) (i : Nat) : Prop :=
  ∃ fields entry, tree.node? n = some (.object fields) ∧ image.objects[i]? = some entry ∧
    ShowsFields tree p image.strings image.shapes fields entry

/-- An entry of an image shows an array node. -/
def ShowsArray (image : Image) (tree : Tree) (p : Places) (n : NodeId) (i : Nat) : Prop :=
  ∃ items cells, tree.node? n = some (.array items) ∧ image.arrays[i]? = some cells ∧
    List.Forall₂ (Shows tree p image.strings) items cells

/-- An object entry unfolds to what its node unfolds to, if that is so for the values. -/
theorem ShowsObject.unfold {n : NodeId} {i depth : Nat} {d : Datum}
    (h : ShowsObject image tree p n i) (hd : tree.unfoldNode (depth + 1) n = some d)
    (hvalues : ∀ v ∈ tree.children n, ∀ cell d, Shows tree p image.strings v cell →
      tree.unfold depth v = some d → image.unfold depth cell = some d) :
    image.unfold (depth + 1) (.object i) = some d := by
  obtain ⟨fields, entry, hn, hi, keys, hk, hsorted, hmem, hcells⟩ := h
  obtain ⟨ds, rfl, hds⟩ := (Tree.unfoldNode_object hn).mp hd
  rw [← Fields.eq_sortedNames hsorted hmem] at hds
  have hmapM : ((keys.zip entry.values).mapM fun (entry : String × Cell) =>
      (image.unfold depth entry.2).map (entry.1, ·)) = some ds := by
    refine mapM_eq_some_iff.mpr ((forall₂_zip hcells hds).imp ?_)
    rintro ⟨name, cell⟩ ⟨_, e⟩ ⟨⟨v, hv, hs⟩, rfl, w, hw, he⟩
    rw [hv, Option.some.injEq] at hw
    subst hw
    have hchild : v ∈ tree.children n := by
      rw [Tree.children_of_node? hn]
      exact Fields.mem_values_of_get? hv
    simp only [hvalues v hchild cell e hs he, Option.map_some]
  simp only [Image.unfold, hi, hk, hmapM, Option.map_some]

/-- An array entry unfolds to what its node unfolds to, if that is so for the items. -/
theorem ShowsArray.unfold {n : NodeId} {i depth : Nat} {d : Datum}
    (h : ShowsArray image tree p n i) (hd : tree.unfoldNode (depth + 1) n = some d)
    (hvalues : ∀ v ∈ tree.children n, ∀ cell d, Shows tree p image.strings v cell →
      tree.unfold depth v = some d → image.unfold depth cell = some d) :
    image.unfold (depth + 1) (.array i) = some d := by
  obtain ⟨items, cells, hn, hi, hcells⟩ := h
  obtain ⟨ds, rfl, hds⟩ := (Tree.unfoldNode_array hn).mp hd
  have hmapM : cells.mapM (image.unfold depth) = some ds := by
    refine mapM_eq_some_iff.mpr ((forall₂_through hcells hds).imp ?_)
    rintro cell e ⟨v, hv, hs, he⟩
    refine hvalues v ?_ cell e hs he
    rw [Tree.children_of_node? hn]
    exact hv
  simp only [Image.unfold, hi, hmapM, Option.map_some]

/-- **Cells unfold to what their values unfold to**, where the entry at the place of a node shows
some node with the same unfoldings. -/
theorem unfold_of_shows
    (hobject : ∀ n i, tree.Reachable n → p.object n i → ∃ m, tree.Reachable m ∧
      (∀ depth, tree.unfoldNode depth n = tree.unfoldNode depth m) ∧ ShowsObject image tree p m i)
    (harray : ∀ n i, tree.Reachable n → p.array n i → ShowsArray image tree p n i) :
    ∀ (depth : Nat) (v : Value) (cell : Cell) (d : Datum), Shows tree p image.strings v cell →
      (∀ n, v = .node n → tree.Reachable n) → tree.unfold depth v = some d →
        image.unfold depth cell = some d := by
  intro depth
  induction depth with
  | zero =>
    intro v cell d hs _ hd
    cases hs with
    | scalar hv hc =>
      rw [Tree.unfold_of_scalar? hv] at hd
      rw [unfold_of_scalar? hc]
      exact hd
    | object | array => simp [Tree.unfoldNode] at hd
  | succ depth ih =>
    intro v cell d hs hreach hd
    have hvalues {m : NodeId} (hm : tree.Reachable m) (v : Value) (hv : v ∈ tree.children m)
        (cell : Cell) (d : Datum) (hs : Shows tree p image.strings v cell)
        (hd : tree.unfold depth v = some d) : image.unfold depth cell = some d := by
      refine ih v cell d hs ?_ hd
      intro n hn
      subst hn
      exact hm.tail hv
    cases hs with
    | scalar hv hc =>
      rw [Tree.unfold_of_scalar? hv] at hd
      rw [unfold_of_scalar? hc]
      exact hd
    | @object n i hn hi =>
      obtain ⟨m, hm, heq, hshows⟩ := hobject n i (hreach n rfl) hi
      rw [Tree.unfold_node, heq] at hd
      exact hshows.unfold hd (hvalues hm)
    | @array n i hn hi =>
      have hn := hreach n rfl
      exact (harray n i hn hi).unfold hd (hvalues hn)

end Image

/-! ## 3. Built catalogs -/

namespace Catalog

variable {tree : Tree} {config : Config} {b : Catalog}

/-- In a tree without cycles, the node that stands for another has the same unfoldings. -/
theorem Built.unfoldNode_eq (h : Built tree config b) (hacyclic : tree.Acyclic)
    (hkeys : tree.KeysFit) {x : Identity} {n m : NodeId} (hx : b.objects.getId? n = some x)
    (hm : b.objects.getValue? (b.objects.resolve x) = some m) (depth : Nat) :
    tree.unfoldNode depth n = tree.unfoldNode depth m := by
  have hn := InternTable.getValue?_of_getId? hx
  have hfree {x : Identity} {n : NodeId} (hn : b.objects.getValue? x = some n) :
      tree.CycleFree n := hacyclic.cycleFree (h.lists.of_getValue? hn).1
  have hfreen := hfree hn
  have hfreem := hfree hm
  cases h with
  | discovered _ _ hfresh =>
    rw [hfresh.resolve_eq, hn, Option.some.injEq] at hm
    rw [hm]
  | @merged c _ _ hlists hrest hmerged =>
    rw [hmerged.getValue?_eq] at hn hm
    have hsame : c.signing.SameSignature n m := by
      refine (hmerged.resolve_eq_iff hn hm).mp ?_
      exact (InternTable.resolve_of_isLive (hmerged.isLive_resolve x n hn)).symm
    have hbis := Signer.bisimilar_of_cycleFree hrest (hrest.size_keys_le hkeys) hsame hfreen hfreem
    exact Tree.unfoldNode_eq_of_bisimilar hbis depth

variable {a : Artifact} {encoding : IntEncoding} {root : Nat}

/-- The entry at the place of an object shows the node that stands for it. -/
theorem Stores.showsObject (h : b.Stores tree a) {n : NodeId} {i : Nat}
    (hi : b.objects.Placed n i) : ∃ x m, b.objects.getId? n = some x ∧
      b.objects.getValue? (b.objects.resolve x) = some m ∧
      (a.image encoding root).ShowsObject tree b.places m i := by
  obtain ⟨x, hx, hi⟩ := hi
  obtain ⟨entry, he, m, fields, hm, hn, hshows⟩ := exists_getElem?_of_forall₂ h.objects hi
  exact ⟨x, m, hx, hm, fields, entry, hn, he, hshows⟩

/-- The entry at the place of an array shows it. -/
theorem Stores.showsArray (h : b.Stores tree a) (hfresh : b.arrays.Fresh) {n : NodeId} {i : Nat}
    (hi : b.arrays.Placed n i) : (a.image encoding root).ShowsArray tree b.places n i := by
  obtain ⟨x, hi, hx⟩ := hfresh.placed_iff.mp hi
  obtain ⟨cells, hc, m, items, hm, hn, hshows⟩ := exists_getElem?_of_forall₂ h.arrays hi
  rw [hx, Option.some.injEq] at hm
  exact ⟨items, cells, hm ▸ hn, hc, hshows⟩

end Catalog

/-! ## 4. From a tree to its bytes and back -/

/-- **Nothing is lost**: what is read back from the bytes of an ordered encoding unfolds, from its
root, to what the tree unfolds to from its root and to nothing else, if no cycle is reached. -/
theorem Tree.unfolds_of_encode {tree : Tree} {config : Config} {bytes : ByteArray}
    (hacyclic : tree.Acyclic) (hfits : tree.Fits) (hkeys : tree.KeysFit)
    (hordered : config.ordered = true) (h : tree.encode config = .ok bytes) :
    ∃ image, Image.read bytes = some image ∧ image.encoding = config.intEncoding ∧
      ∃ root d, tree.root = some root ∧ (∀ e, tree.Unfolds root e ↔ e = d) ∧
        ∀ e, image.Unfolds (.object image.root) e ↔ e = d := by
  rcases Tree.read_of_encode hfits hordered h with ⟨b, a, i, hb, hstores, hi, hread⟩
  rcases hstores.root with ⟨root, j, hr, hplaced, hj⟩
  rw [hi, Option.some.injEq] at hj
  subst hj
  have hreach : tree.Reachable root := ⟨root, hr, .refl⟩
  have hobj : tree.IsObject root := by
    rcases hplaced with ⟨x, hx, -⟩
    exact (hb.lists.of_getValue? (InternTable.getValue?_of_getId? hx)).2
  have hencodable : ∀ other, tree.Reaches root other → tree.Encodable other := fun other ho =>
    hb.lists.encodable other ⟨root, hr, ho⟩
  rcases exists_unfoldNode root (hacyclic.cycleFree hreach) hencodable with ⟨d, hd⟩
  have htree : tree.Unfolds (.node root) d := ⟨tree.below root + 1, hd⟩
  have himage : (a.image config.intEncoding i).Unfolds (.object i) d := by
    refine ⟨tree.below root + 1, Image.unfold_of_shows (p := b.places) ?_ ?_ _ (.node root) _ d
      (.object hobj hplaced) ?_ hd⟩
    · intro n i _ hp
      rcases hstores.showsObject hp with ⟨x, m, hx, hm, hshows⟩
      exact ⟨m, (hb.lists.of_getValue? hm).1, hb.unfoldNode_eq hacyclic hkeys hx hm, hshows⟩
    · intro n i _ hp
      exact hstores.showsArray hb.lists.arrays_fresh hp
    · intro n hn
      obtain rfl := Value.node.inj hn
      exact hreach
  refine ⟨_, hread, rfl, .node root, d, hr, fun e => ⟨?_, ?_⟩, fun e => ⟨?_, ?_⟩⟩
  · intro he
    exact he.unique htree
  · rintro rfl
    exact htree
  · intro he
    exact he.unique himage
  · rintro rfl
    exact himage

/-! ## 5. Two empty objects -/

namespace Tree

theorem acyclic_twins : twins.Acyclic := by
  have hroot : twins.CycleFree ⟨2⟩ := by
    refine cycleFree_of_points ?_
    intro b hb
    have hchildren : twins.children ⟨2⟩ = [.node ⟨0⟩, .node ⟨1⟩] := by decide
    have hcases : b = ⟨0⟩ ∨ b = ⟨1⟩ := by simpa [Points, hchildren] using hb
    rcases hcases with rfl | rfl
    · exact cycleFree_of_children_nil rfl
    · exact cycleFree_of_children_nil rfl
  exact hroot.acyclic rfl

theorem exists_encode_twins : ∃ bytes, twins.encode {} = .ok bytes := by
  refine exists_encode_of_nodes rfl ⟨_, rfl⟩ rfl (by decide) ?_
  intro fields hmem
  unfold Shape.canonicalText
  simp only [twins, List.mem_cons, Node.object.injEq, List.not_mem_nil, or_false] at hmem
  rcases hmem with rfl | rfl | rfl
  · rw [Shape.keys_ofFields_of_pairwise (by decide)]
    decide
  · rw [Shape.keys_ofFields_of_pairwise (by decide)]
    decide
  · rw [Shape.keys_ofFields_of_pairwise (by decide)]
    decide

/-- The tree with the two is read back, although one is merged onto the other. -/
theorem unfolds_of_encode_twins : ∃ bytes image root d, twins.encode {} = .ok bytes ∧
    Image.read bytes = some image ∧ twins.root = some root ∧
      (∀ e, twins.Unfolds root e ↔ e = d) ∧
      ∀ e, image.Unfolds (.object image.root) e ↔ e = d := by
  rcases exists_encode_twins with ⟨bytes, h⟩
  have hfits : twins.Fits := fits_of_length (by decide) (by decide)
  rcases unfolds_of_encode acyclic_twins hfits keysFit_twins rfl h with
    ⟨image, hread, -, root, d, hr, htree, himage⟩
  exact ⟨bytes, image, root, d, h, hread, hr, htree, himage⟩

end Tree

end PackedTree
