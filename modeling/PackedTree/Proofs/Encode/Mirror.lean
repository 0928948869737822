/-
# The image of a graph

Without merging, what is read back from the bytes is the part of the tree that the root reaches,
cycles and shared nodes included: one entry for each node, and a reference to the entry of a node
wherever the tree refers to the node.  The layout writes counts and indices in 32 bits, so those of
the tree have to fit (`Tree.Fits`).

* `Image.Mirrors` says so for an image, by the index that each node has.
* `Tree.mirrors_of_encode`: the image that is read back mirrors the tree.
-/
import PackedTree.Proofs.Encode.Lossless

namespace PackedTree

/-- **An image mirrors a tree** if the reachable objects and arrays stand for its entries one to
one, the root for the entry at the root index, and every entry shows its node: the shape of an
object is the set of its names, values stand in the order of the shape's sorted keys and items in
their own order, and references lead to the entries of the nodes that the tree refers to. -/
structure Image.Mirrors (image : Image) (tree : Tree) (objectAt arrayAt : NodeId → Nat) :
    Prop where
  root : ∃ root, tree.root = some (.node root) ∧ tree.IsObject root ∧ image.root = objectAt root
  nodes : ∀ n, tree.Reachable n → tree.IsObject n ∨ tree.IsArray n
  objects : Set.BijOn objectAt {n | tree.Reachable n ∧ tree.IsObject n}
    {i | i < image.objects.length}
  arrays : Set.BijOn arrayAt {n | tree.Reachable n ∧ tree.IsArray n}
    {i | i < image.arrays.length}
  fields : ∀ n, tree.Reachable n → tree.IsObject n →
    image.ShowsObject tree ⟨(objectAt · = ·), (arrayAt · = ·)⟩ n (objectAt n)
  items : ∀ n, tree.Reachable n → tree.IsArray n →
    image.ShowsArray tree ⟨(objectAt · = ·), (arrayAt · = ·)⟩ n (arrayAt n)

variable {tree : Tree} {config : Config} {c : Catalog} {a : Artifact} {encoding : IntEncoding}

theorem Image.ShowsObject.imp {image : Image} {p q : Places} {n : NodeId} {i : Nat}
    (h : image.ShowsObject tree p n i) (hobject : ∀ n i, p.object n i → q.object n i)
    (harray : ∀ n i, p.array n i → q.array n i) : image.ShowsObject tree q n i := by
  obtain ⟨fields, entry, hn, hi, hshows⟩ := h
  exact ⟨fields, entry, hn, hi, hshows.imp hobject harray⟩

theorem Image.ShowsArray.imp {image : Image} {p q : Places} {n : NodeId} {i : Nat}
    (h : image.ShowsArray tree p n i) (hobject : ∀ n i, p.object n i → q.object n i)
    (harray : ∀ n i, p.array n i → q.array n i) : image.ShowsArray tree q n i := by
  obtain ⟨items, cells, hn, hi, hshows⟩ := h
  exact ⟨items, cells, hn, hi, hshows.imp fun _ _ hs => hs.imp hobject harray⟩

/-- The nodes that are reached are objects and arrays. -/
theorem Catalog.Lists.isObject_or_isArray (h : c.Lists tree) {n : NodeId}
    (hn : tree.Reachable n) : tree.IsObject n ∨ tree.IsArray n := by
  obtain ⟨node, hnode⟩ := Option.isSome_iff_exists.mp (h.encodable n hn).1
  cases node with
  | object fields => exact .inl ⟨fields, hnode⟩
  | array items => exact .inr ⟨items, hnode⟩

/-- **The artifact of a catalog without merged objects mirrors the tree**, by the places in its
tables. -/
theorem Catalog.Stores.mirrors (hs : c.Stores tree a) (h : c.Lists tree)
    (hfresh : c.objects.Fresh) {i : Nat} (hi : a.root = some i) :
    (a.image encoding i).Mirrors tree c.objects.position c.arrays.position := by
  have hobject (n : NodeId) (i : Nat) (hp : c.objects.Placed n i) : c.objects.position n = i :=
    hp.position_eq
  have harray (n : NodeId) (i : Nat) (hp : c.arrays.Placed n i) : c.arrays.position n = i :=
    hp.position_eq
  refine ⟨?_, ?_, ?_, ?_, ?_, ?_⟩
  · rcases h.root with ⟨root, hr, hobj, -⟩
    rcases hs.root with ⟨root', j, hr', hj, hroot⟩
    rw [hr, Option.some.injEq, Value.node.injEq] at hr'
    rw [hi, Option.some.injEq] at hroot
    subst hr' hroot
    have hplaced : c.objects.Placed root i := InternTable.placed_iff_placedIn.mpr hj
    exact ⟨root, hr, hobj, hplaced.position_eq.symm⟩
  · intro n hn
    exact h.isObject_or_isArray hn
  · have hlen : c.objects.live.length = (a.image encoding i).objects.length :=
      hs.objects.length_eq
    rw [← hlen]
    exact hfresh.bijOn_position h.objects
  · have hlen : c.arrays.live.length = (a.image encoding i).arrays.length := hs.arrays.length_eq
    rw [← hlen]
    exact h.arrays_fresh.bijOn_position h.arrays
  · intro n hn ho
    have hp := h.objects_grounded.placed_position ((h.objects n).mpr ⟨hn, ho⟩)
    rcases hs.showsObject hp with ⟨x, m, hx, hm, hshows⟩
    rw [hfresh.resolve_eq, InternTable.getValue?_of_getId? hx, Option.some.injEq] at hm
    subst hm
    exact hshows.imp hobject harray
  · intro n hn ha
    have hp := h.arrays_fresh.grounded.placed_position ((h.arrays n).mpr ⟨hn, ha⟩)
    exact (hs.showsArray h.arrays_fresh hp).imp hobject harray

/-- **Without merging, the graph is kept**: what is read back from the bytes of an ordered encoding
mirrors the tree. -/
theorem Tree.mirrors_of_encode {bytes : ByteArray} (hfits : tree.Fits)
    (hdedup : config.dedup = false) (hordered : config.ordered = true)
    (h : tree.encode config = .ok bytes) :
    ∃ image, Image.read bytes = some image ∧ image.encoding = config.intEncoding ∧
      ∃ objectAt arrayAt, image.Mirrors tree objectAt arrayAt := by
  obtain ⟨c, a, i, hb, hstores, hi, hread⟩ := Tree.read_of_encode hfits hordered h
  cases hb with
  | discovered _ hlists hfresh =>
    exact ⟨_, hread, rfl, _, _, hstores.mirrors hlists hfresh hi⟩
  | merged hmerging => simp [hdedup] at hmerging

/-- An object that refers to itself. -/
def loop : Tree where
  nodes := #[.object (.ofList [("self", .node ⟨0⟩)])]
  root := some (.node ⟨0⟩)

theorem Tree.exists_encode_loop : ∃ bytes, loop.encode { dedup := false } = .ok bytes := by
  refine exists_encode_of_nodes rfl ⟨_, rfl⟩ rfl (by decide) ?_
  intro fields hmem
  unfold Shape.canonicalText
  simp only [loop, List.mem_cons, Node.object.injEq, List.not_mem_nil, or_false] at hmem
  rw [hmem, Shape.keys_ofFields_of_pairwise (by decide)]
  decide

/-- The cycle is kept. -/
theorem Tree.mirrors_of_encode_loop : ∃ bytes image objectAt arrayAt,
    loop.encode { dedup := false } = .ok bytes ∧ Image.read bytes = some image ∧
      image.Mirrors loop objectAt arrayAt := by
  rcases Tree.exists_encode_loop with ⟨bytes, h⟩
  have hfits : loop.Fits := Tree.fits_of_length (by decide) (by decide)
  rcases Tree.mirrors_of_encode hfits rfl rfl h with ⟨image, hread, -, objectAt, arrayAt, hmirrors⟩
  exact ⟨bytes, image, objectAt, arrayAt, h, hread, hmirrors⟩

end PackedTree
