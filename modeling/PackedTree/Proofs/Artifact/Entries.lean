/-
# What the tables of an artifact hold

A catalog that lists a tree has an artifact, and its entries show the nodes of the tree.

* `Shows` says when a cell shows a value: they are the same scalar, or the cell is the place of the
  node that the value refers to.
* `Catalog.StoresIn`: the artifact holds the live entries of the tables in the order in which they
  were numbered, and every entry shows its node field by field.  `Catalog.Stores` is the case of
  the order of discovery.
* `Catalog.Lists.artifact_spec`: numbering a listed tree in any order gives an artifact that stores
  it.
* `Catalog.StoresIn.fits`: its numbers fit 32 bits if those of the tree do.
-/
import PackedTree.Proofs.Artifact.Image
import PackedTree.Proofs.Discovery

namespace PackedTree

/-! ## 1. Cells and values -/

/-- The scalar that a cell stands for, given the table of texts. -/
def Cell.scalar? (strings : List String) : Cell → Option Scalar
  | .text i => strings[i]?.map .text
  | .int32 i => some (.int32 i)
  | .float64 x => some (.float64 x)
  | .bool b => some (.bool b)
  | .null => some .null
  | .object _ | .array _ => none

/-- Where the nodes of a tree stand: the indices of objects, and those of arrays. -/
structure Places where
  object : NodeId → Nat → Prop
  array : NodeId → Nat → Prop

/-- **A cell shows a value** if they are the same scalar, or the cell is the place of the node. -/
inductive Shows (tree : Tree) (p : Places) (strings : List String) : Value → Cell → Prop where
  | scalar {v : Value} {cell : Cell} {s : Scalar} (hv : v.scalar? = some s)
      (hc : cell.scalar? strings = some s) : Shows tree p strings v cell
  | object {n : NodeId} {i : Nat} (hn : tree.IsObject n) (h : p.object n i) :
      Shows tree p strings (.node n) (.object i)
  | array {n : NodeId} {i : Nat} (hn : tree.IsArray n) (h : p.array n i) :
      Shows tree p strings (.node n) (.array i)

/-- **An entry shows the fields of an object**: its shape is the set of their names in ascending
order, and its values show the fields' values in the order of the shape's keys. -/
def ShowsFields (tree : Tree) (p : Places) (strings : List String) (shapes : List (List String))
    (fields : Fields) (entry : ObjectEntry) : Prop :=
  ∃ keys, shapes[entry.shape]? = some keys ∧ keys.Pairwise (· < ·) ∧
    (∀ name, name ∈ keys ↔ name ∈ fields.names) ∧
    List.Forall₂ (fun name cell => ∃ v, fields.get? name = some v ∧ Shows tree p strings v cell)
      keys entry.values

theorem Shows.imp {tree : Tree} {p q : Places} {strings : List String} {v : Value} {cell : Cell}
    (h : Shows tree p strings v cell) (hobject : ∀ n i, p.object n i → q.object n i)
    (harray : ∀ n i, p.array n i → q.array n i) : Shows tree q strings v cell := by
  cases h with
  | scalar hv hc => exact .scalar hv hc
  | object hn h => exact .object hn (hobject _ _ h)
  | array hn h => exact .array hn (harray _ _ h)

/-- A cell that shows a value fits, if all places do and the texts are few enough. -/
theorem Shows.fits {tree : Tree} {p : Places} {strings : List String} {v : Value} {cell : Cell}
    (h : Shows tree p strings v cell) (hstrings : strings.length < UInt32.size)
    (hobject : ∀ n i, p.object n i → i < UInt32.size)
    (harray : ∀ n i, p.array n i → i < UInt32.size) : cell.Fits := by
  cases h with
  | scalar _ hc =>
    cases cell with
    | text i =>
      rcases Option.map_eq_some_iff.mp hc with ⟨t, ht, -⟩
      exact Nat.lt_trans (List.getElem?_eq_some_iff.mp ht).1 hstrings
    | object i | array i => simp [Cell.scalar?] at hc
    | int32 _ | float64 _ | bool _ | null => trivial
  | object _ hi => exact hobject _ _ hi
  | array _ hi => exact harray _ _ hi

theorem ShowsFields.imp {tree : Tree} {p q : Places} {strings : List String}
    {shapes : List (List String)} {fields : Fields} {entry : ObjectEntry}
    (h : ShowsFields tree p strings shapes fields entry)
    (hobject : ∀ n i, p.object n i → q.object n i)
    (harray : ∀ n i, p.array n i → q.array n i) :
    ShowsFields tree q strings shapes fields entry := by
  obtain ⟨keys, hk, hsorted, hmem, hvalues⟩ := h
  refine ⟨keys, hk, hsorted, hmem, hvalues.imp ?_⟩
  rintro name cell ⟨v, hv, hs⟩
  exact ⟨v, hv, hs.imp hobject harray⟩

namespace Catalog

variable {tree : Tree} {c : Catalog}

/-- **An order lists every identity** of each table once. -/
structure Enumerates (c : Catalog) (o : Order) : Prop where
  strings : c.strings.Enumerates o.strings
  objects : c.objects.Enumerates o.objects
  arrays : c.arrays.Enumerates o.arrays

/-- Both orders that a configuration can ask for list every identity. -/
theorem enumerates_order (c : Catalog) (ordered : Bool) : c.Enumerates (c.order ordered) := by
  cases ordered with
  | true => exact ⟨c.strings.enumerates_identities, c.objects.enumerates_identities,
      c.arrays.enumerates_identities⟩
  | false => exact ⟨c.strings.enumerates_lookupOrder, c.objects.enumerates_lookupOrder,
      c.arrays.enumerates_lookupOrder⟩

/-- The indices that the nodes of a catalog will have in an order. -/
def placesIn (c : Catalog) (o : Order) : Places :=
  ⟨c.objects.PlacedIn o.objects, c.arrays.PlacedIn o.arrays⟩

/-- The indices that the nodes of a catalog will have. -/
def places (c : Catalog) : Places := ⟨c.objects.Placed, c.arrays.Placed⟩

/-- **What an artifact of a catalog holds**, in an order of the identities. -/
structure StoresIn (tree : Tree) (c : Catalog) (o : Order) (a : Artifact) : Prop where
  root : ∃ root i, tree.root = some (.node root) ∧ c.objects.PlacedIn o.objects root i ∧
    a.root = some i
  shapes : a.shapes = c.shapes.shapes.toList
  strings : List.Forall₂ (fun x s => c.strings.getValue? x = some s) (c.finalize o).1.strings
    a.strings
  objects : List.Forall₂ (fun x entry => ∃ n fields, c.objects.getValue? x = some n ∧
    tree.node? n = some (.object fields) ∧
    ShowsFields tree (c.placesIn o) a.strings (a.shapes.map Shape.keys) fields entry)
      (c.finalize o).1.objects a.objects
  arrays : List.Forall₂ (fun x cells => ∃ n items, c.arrays.getValue? x = some n ∧
    tree.node? n = some (.array items) ∧
    List.Forall₂ (Shows tree (c.placesIn o) a.strings) items cells) (c.finalize o).1.arrays a.arrays

/-- What an artifact of a catalog holds in order of discovery. -/
abbrev Stores (tree : Tree) (c : Catalog) (a : Artifact) : Prop := c.StoresIn tree c.discoveryOrder a

/-! ## 2. One cell, one entry -/

theorem index_eq_ok {K : Type} [DecidableEq K] [Hashable K] {table : InternTable K} {k : K}
    {enumeration : List Identity} {i : Nat} (he : table.Enumerates enumeration)
    (h : table.PlacedIn enumeration k i) (missing : EncodeError) :
    index (table.finalize enumeration).2 k missing = .ok i := by
  unfold index
  rw [(InternTable.indexOfValue?_finalize he.nodup).mpr h]

section

variable {o : Order} {strings : List String}

/-- **Every value of a listed node has a cell** that shows it. -/
theorem Lists.exists_cell (h : c.Lists tree) (he : c.Enumerates o)
    (hstrings : ∀ s i, c.strings.PlacedIn o.strings s i → strings[i]? = some s) {id : NodeId}
    (hid : tree.Reachable id) {v : Value} (hv : v ∈ tree.children id) :
    ∃ cell, (c.finalize o).2.cell v = .ok cell ∧ Shows tree (c.placesIn o) strings v cell := by
  obtain ⟨slot, hs⟩ := (h.encodable id hid).2 v hv
  have htree : (c.finalize o).2.tree = tree := h.tree_eq
  unfold cell
  rw [htree, hs]
  rcases Slot.ofValue_eq_ok_iff.mp hs with ⟨s, hsc, rfl⟩ | ⟨n, fields, rfl, hn, rfl⟩ |
    ⟨n, items, rfl, hn, rfl⟩
  · cases s with
    | text s =>
      have hvs : v = .text s := Value.eq_text_of_scalar? hsc
      obtain ⟨i, hi⟩ := h.strings_fresh.grounded.exists_placedIn he.strings
        ((h.strings s).mpr ⟨id, hid, hvs ▸ hv⟩)
      refine ⟨.text i, ?_, .scalar hsc ?_⟩
      · exact congrArg (Except.map Slot.text) (index_eq_ok he.strings hi _)
      · rw [Cell.scalar?, hstrings s i hi]
        rfl
    | int32 _ | float64 _ | bool _ | null => exact ⟨_, rfl, .scalar hsc rfl⟩
  · obtain ⟨i, hi⟩ := h.objects_grounded.exists_placedIn he.objects
      ((h.objects n).mpr ⟨hid.tail hv, fields, hn⟩)
    refine ⟨.object i, ?_, .object ⟨fields, hn⟩ hi⟩
    exact congrArg (Except.map Slot.object) (index_eq_ok he.objects hi _)
  · obtain ⟨i, hi⟩ := h.arrays_fresh.grounded.exists_placedIn he.arrays
      ((h.arrays n).mpr ⟨hid.tail hv, items, hn⟩)
    refine ⟨.array i, ?_, .array ⟨items, hn⟩ hi⟩
    exact congrArg (Except.map Slot.array) (index_eq_ok he.arrays hi _)

/-- The values of a listed node have cells. -/
theorem Lists.exists_cells (h : c.Lists tree) (he : c.Enumerates o)
    (hstrings : ∀ s i, c.strings.PlacedIn o.strings s i → strings[i]? = some s) {id : NodeId}
    (hid : tree.Reachable id) {values : List Value} (hvs : ∀ v ∈ values, v ∈ tree.children id) :
    ∃ cells, values.mapM (c.finalize o).2.cell = .ok cells ∧
      List.Forall₂ (Shows tree (c.placesIn o) strings) values cells := by
  have hall : ∀ v ∈ values, ∃ cell, (c.finalize o).2.cell v = .ok cell ∧
      Shows tree (c.placesIn o) strings v cell :=
    fun v hv => h.exists_cell he hstrings hid (hvs v hv)
  obtain ⟨cells, hcells⟩ := exists_forall₂ hall
  exact ⟨cells, mapM_eq_ok_iff.mpr (hcells.imp fun _ _ hc => hc.1), hcells.imp fun _ _ hc => hc.2⟩

/-- **Every live object has an entry** that shows its fields. -/
theorem Lists.exists_objectEntry (h : c.Lists tree) (he : c.Enumerates o)
    (hstrings : ∀ s i, c.strings.PlacedIn o.strings s i → strings[i]? = some s) {x : Identity}
    (hx : x ∈ c.objects.live) :
    ∃ entry, (c.finalize o).2.objectEntry x = .ok entry ∧
      ∃ n fields, c.objects.getValue? x = some n ∧ tree.node? n = some (.object fields) ∧
        ShowsFields tree (c.placesIn o) strings (c.shapes.shapes.toList.map Shape.keys) fields
          entry := by
  obtain ⟨n, hxn⟩ := InternTable.exists_getValue?_of_mem_live hx
  obtain ⟨hid, fields, hn⟩ := h.of_getValue? hxn
  obtain ⟨index, hindex⟩ := Option.isSome_iff_exists.mp
    (ShapeRegistry.find?_isSome_iff.mpr ((h.shapes _).mpr ⟨n, fields, hid, hn, rfl⟩))
  obtain ⟨values, hvalues⟩ := Shape.exists_values fields
  have hall := mapM_eq_some_iff.mp hvalues
  have hchildren : ∀ v ∈ values, v ∈ tree.children n := fun v hv => by
    obtain ⟨name, -, hname⟩ := exists_left_of_forall₂ hall hv
    rw [Tree.children_of_node? hn]
    exact Fields.mem_values_of_get? hname
  obtain ⟨cells, hcells, hshows⟩ := h.exists_cells he hstrings hid hchildren
  have harrange : (c.finalize o).2.shapes.arrange n fields = .ok (index, values) :=
    ShapeRegistry.arrange_eq_ok_iff.mpr ⟨hindex, hvalues⟩
  have hvalue : (c.finalize o).2.objects.getValue? x = some n := hxn
  have htree : (c.finalize o).2.tree = tree := h.tree_eq
  refine ⟨⟨index, cells⟩, ?_, n, fields, hxn, hn, (Shape.ofFields fields).keys, ?_, ?_, ?_, ?_⟩
  · unfold objectEntry
    simp only [hvalue, htree, hn, harrange, hcells]
    rfl
  · have hshape := ShapeRegistry.find?_eq_some hindex
    rw [List.getElem?_map, Array.getElem?_toList, hshape]
    rfl
  · exact (Shape.ofFields fields).keys_sorted
  · exact fun name => Shape.mem_keys_ofFields
  · refine (forall₂_through (List.Forall₂.flip hall) hshows).imp ?_
    rintro name cell ⟨v, -, hv, hs⟩
    exact ⟨v, hv, hs⟩

/-- **Every live array has an entry** that shows its items. -/
theorem Lists.exists_arrayEntry (h : c.Lists tree) (he : c.Enumerates o)
    (hstrings : ∀ s i, c.strings.PlacedIn o.strings s i → strings[i]? = some s) {x : Identity}
    (hx : x ∈ c.arrays.live) :
    ∃ cells, (c.finalize o).2.arrayEntry x = .ok cells ∧
      ∃ n items, c.arrays.getValue? x = some n ∧ tree.node? n = some (.array items) ∧
        List.Forall₂ (Shows tree (c.placesIn o) strings) items cells := by
  obtain ⟨n, hxn⟩ := InternTable.exists_getValue?_of_mem_live hx
  obtain ⟨hid, items, hn⟩ := (h.arrays n).mp (InternTable.contains_iff_exists_getId?.mpr
    ⟨x, InternTable.getId?_of_getValue? hxn⟩)
  have hchildren : ∀ v ∈ items, v ∈ tree.children n := fun v hv => by
    rw [Tree.children_of_node? hn]
    exact hv
  obtain ⟨cells, hcells, hshows⟩ := h.exists_cells he hstrings hid hchildren
  have hvalue : (c.finalize o).2.arrays.getValue? x = some n := hxn
  have htree : (c.finalize o).2.tree = tree := h.tree_eq
  refine ⟨cells, ?_, n, items, hxn, hn, hshows⟩
  unfold arrayEntry
  simp only [hvalue, htree, hn, hcells]

/-! ## 3. Whole artifacts -/

/-- **A numbered catalog that lists a tree has an artifact** that stores the tree, whatever the
order of the numbers. -/
theorem Lists.artifact_spec (h : c.Lists tree) (he : c.Enumerates o) :
    ∃ a, (c.finalize o).2.artifact (c.finalize o).1 = .ok a ∧ c.StoresIn tree o a := by
  have htext : ∀ x ∈ (c.finalize o).1.strings, ∃ s, (c.finalize o).2.stringEntry x = .ok s ∧
      c.strings.getValue? x = some s := by
    intro x hx
    obtain ⟨s, hs⟩ := InternTable.exists_getValue?_of_mem_live (he.strings.perm_live.mem_iff.mp hx)
    have hvalue : (c.finalize o).2.strings.getValue? x = some s := hs
    refine ⟨s, ?_, hs⟩
    unfold stringEntry
    rw [hvalue]
  obtain ⟨strings, hstrings⟩ := exists_forall₂ htext
  have hplaced : ∀ s i, c.strings.PlacedIn o.strings s i → strings[i]? = some s := by
    intro s i hsi
    obtain ⟨x, hx, hs⟩ := h.strings_fresh.placedIn_iff.mp hsi
    obtain ⟨t, ht, -, hxt⟩ := exists_getElem?_of_forall₂ hstrings hx
    rw [hs, Option.some.injEq] at hxt
    rw [hxt]
    exact ht
  obtain ⟨objects, hobjects⟩ := exists_forall₂ fun x hx =>
    h.exists_objectEntry he hplaced (he.objects.perm_live.mem_iff.mp hx)
  obtain ⟨arrays, harrays⟩ := exists_forall₂ fun x hx =>
    h.exists_arrayEntry he hplaced (he.arrays.perm_live.mem_iff.mp hx)
  obtain ⟨root, hr, hobj, hroot⟩ := h.root
  obtain ⟨i, hi⟩ := h.objects_grounded.exists_placedIn he.objects
    ((h.objects root).mpr ⟨⟨root, hr, .refl⟩, hobj⟩)
  have hindex : (c.finalize o).2.root.bind (c.finalize o).2.objects.indexOf? = some i := by
    have hroot' : (c.finalize o).2.root = c.objects.getId? root := hroot
    rw [hroot']
    exact (InternTable.indexOfValue?_finalize he.objects.nodup).mpr hi
  have h₁ : (c.finalize o).1.strings.mapM (c.finalize o).2.stringEntry = .ok strings :=
    mapM_eq_ok_iff.mpr (hstrings.imp fun _ _ hx => hx.1)
  have h₂ : (c.finalize o).1.objects.mapM (c.finalize o).2.objectEntry = .ok objects :=
    mapM_eq_ok_iff.mpr (hobjects.imp fun _ _ hx => hx.1)
  have h₃ : (c.finalize o).1.arrays.mapM (c.finalize o).2.arrayEntry = .ok arrays :=
    mapM_eq_ok_iff.mpr (harrays.imp fun _ _ hx => hx.1)
  refine ⟨⟨some i, strings, c.shapes.shapes.toList, objects, arrays⟩, ?_, ?_⟩
  · unfold artifact
    simp only [h₁, h₂, h₃, hindex, bind, Except.bind, pure, Except.pure]
    rfl
  · exact
      { root := ⟨root, i, hr, hi, rfl⟩
        shapes := rfl
        strings := hstrings.imp fun _ _ hx => hx.2
        objects := hobjects.imp fun _ _ hx => hx.2
        arrays := harrays.imp fun _ _ hx => hx.2 }

end

end Catalog

/-- **The numbers that an artifact writes fit 32 bits**: the counts of the tree's objects, arrays and
texts, and the lengths of its arrays, as far as the root reaches.  An artifact does not write how
many other values there are, so that is not bounded here; the keys of a signer are
(`Tree.KeysFit`). -/
structure Tree.Fits (tree : Tree) : Prop where
  objects : {id | tree.Reachable id ∧ tree.IsObject id}.encard < UInt32.size
  arrays : {id | tree.Reachable id ∧ tree.IsArray id}.encard < UInt32.size
  texts : {s | ∃ id, tree.Reachable id ∧ Value.text s ∈ tree.children id}.encard < UInt32.size
  items : ∀ id items, tree.Reachable id → tree.node? id = some (.array items) →
    items.length < UInt32.size

/-- **The counts fit** if the arena has few enough nodes, which hold few enough values. -/
theorem Tree.fits_of_length {tree : Tree} (hnodes : tree.nodes.size < UInt32.size)
    (hvalues : (tree.nodes.toList.flatMap Node.values).length < UInt32.size) : tree.Fits := by
  have hnode : {id : NodeId | id.index < tree.size}.encard < UInt32.size := by
    refine encard_lt_of_mem (l := (List.range tree.size).map NodeId.mk) ?_ ?_
    · intro id hid
      exact List.mem_map.mpr ⟨id.index, List.mem_range.mpr hid, rfl⟩
    · rw [List.length_map, List.length_range]
      exact hnodes
  have hitems {id : NodeId} {node : Node} (hn : tree.node? id = some node) :
      node.values.length < UInt32.size := by
    have hmem := List.mem_map_of_mem (f := Node.values) (Tree.mem_nodes_of_node? hn)
    exact Nat.lt_of_le_of_lt (List.sublist_flatten_of_mem hmem).length_le hvalues
  refine ⟨?_, ?_, ?_, ?_⟩
  · refine lt_of_le_of_lt (Set.encard_le_encard ?_) hnode
    rintro id ⟨-, fields, hn⟩
    exact Tree.index_lt_size hn
  · refine lt_of_le_of_lt (Set.encard_le_encard ?_) hnode
    rintro id ⟨-, items, hn⟩
    exact Tree.index_lt_size hn
  · have htext : {v | v ∈ tree.nodes.toList.flatMap Node.values}.encard < UInt32.size :=
      encard_lt_of_mem (fun _ hv => hv) hvalues
    have hinjective : Function.Injective Value.text := fun s t h => Value.text.inj h
    rw [← hinjective.encard_image]
    refine lt_of_le_of_lt (Set.encard_le_encard ?_) htext
    rintro _ ⟨s, ⟨id, -, hs⟩, rfl⟩
    rcases Tree.exists_mem_nodes_of_mem_children hs with ⟨node, hnode, hv⟩
    exact List.mem_flatMap.mpr ⟨node, hnode, hv⟩
  · intro id items _ hn
    exact hitems hn

/-- The shape of a node: that of its fields, if it is an object. -/
def Tree.shapeAt (tree : Tree) (id : NodeId) : Shape :=
  match tree.node? id with
  | some (.object fields) => .ofFields fields
  | _ => .ofFields .empty

theorem Tree.shapeAt_of_node? {tree : Tree} {id : NodeId} {fields : Fields}
    (h : tree.node? id = some (.object fields)) : tree.shapeAt id = .ofFields fields := by
  rw [shapeAt, h]

namespace Catalog

variable {tree : Tree} {c : Catalog}

/-- There are no more shapes than objects. -/
theorem Lists.length_shapes_lt (h : c.Lists tree) (hfits : tree.Fits) :
    c.shapes.shapes.toList.length < UInt32.size := by
  have hcount := lt_of_le_of_lt (Set.encard_image_le tree.shapeAt _) hfits.objects
  refine length_lt_of_encard_lt h.distinct ?_ hcount
  intro shape hs
  rcases (h.shapes shape).mp (Array.mem_toList_iff.mp hs) with ⟨id, fields, hid, hn, rfl⟩
  exact ⟨id, ⟨hid, fields, hn⟩, Tree.shapeAt_of_node? hn⟩

/-- **The numbers of an artifact fit** if the counts of the tree do. -/
theorem StoresIn.fits {o : Order} {a : Artifact} (hs : c.StoresIn tree o a) (he : c.Enumerates o)
    (h : c.Lists tree) (hfits : tree.Fits) : a.Fits := by
  have hstrings : a.strings.length < UInt32.size := by
    rw [← hs.strings.length_eq]
    exact he.strings.length_lt hfits.texts fun s hc => (h.strings s).mp hc
  have hobjects : (c.finalize o).1.objects.length < UInt32.size :=
    he.objects.length_lt hfits.objects fun n hc => (h.objects n).mp hc
  have harrays : (c.finalize o).1.arrays.length < UInt32.size :=
    he.arrays.length_lt hfits.arrays fun n hc => (h.arrays n).mp hc
  have hcell {v : Value} {cell : Cell} (hv : Shows tree (c.placesIn o) a.strings v cell) :
      cell.Fits :=
    hv.fits hstrings (fun _ _ hi => Nat.lt_trans hi.lt_length hobjects)
      fun _ _ hi => Nat.lt_trans hi.lt_length harrays
  refine ⟨?_, hstrings, ?_, ?_, ?_, ?_, ?_⟩
  · intro i hi
    obtain ⟨root, j, -, hj, hroot⟩ := hs.root
    rw [hroot, Option.some.injEq] at hi
    exact hi ▸ Nat.lt_trans hj.lt_length hobjects
  · rw [hs.shapes]
    exact h.length_shapes_lt hfits
  · rw [← hs.objects.length_eq]
    exact hobjects
  · rw [← hs.arrays.length_eq]
    exact harrays
  · intro entry he
    obtain ⟨x, -, n, fields, -, -, keys, hk, -, -, hvalues⟩ :=
      exists_left_of_forall₂ hs.objects he
    rw [List.getElem?_map] at hk
    obtain ⟨shape, hshape, rfl⟩ := Option.map_eq_some_iff.mp hk
    refine ⟨⟨shape, hshape, hvalues.length_eq⟩, ?_⟩
    intro cell hcell'
    obtain ⟨name, -, v, -, hv⟩ := exists_left_of_forall₂ hvalues hcell'
    exact hcell hv
  · intro cells hc
    obtain ⟨x, hx, n, items, hxn, hn, hitems⟩ := exists_left_of_forall₂ hs.arrays hc
    have hid : tree.Reachable n := ((h.arrays n).mp (InternTable.contains_iff_exists_getId?.mpr
      ⟨x, InternTable.getId?_of_getValue? hxn⟩)).1
    refine ⟨hitems.length_eq ▸ hfits.items n items hid hn, ?_⟩
    intro cell hcell'
    obtain ⟨v, -, hv⟩ := exists_left_of_forall₂ hitems hcell'
    exact hcell hv

end Catalog

end PackedTree
