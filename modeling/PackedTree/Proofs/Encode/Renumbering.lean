/-
# Another order only renumbers

A catalog may be numbered in any order of its identities; the order of the look-up maps is one that
nobody knows beforehand.  Whatever it is, what is written is the ordered artifact with other
indices.

* `InternTable.renumber`: where an index goes.  It is a permutation of the indices
  (`InternTable.bijOn_renumber`), and the index of every value follows it
  (`InternTable.indexOfValue?_renumber`), also that of a value that was merged away.
* `Catalog.cell_renumber`, `Catalog.objectEntry_renumber`, `Catalog.arrayEntry_renumber`: entries
  follow it, reference by reference.
* `Image.Renumbered`: two images that are one graph up to the numbering.
* `Catalog.Obtained.renumbers`: the artifacts in two orders are, and where no reference changes its
  width they are equally long.

The lengths may differ where a table has more than 128 entries and integers have variable width: an
index below 128 takes one byte, and a later one more.
-/
import PackedTree.Proofs.Encode.Traceless

namespace PackedTree

/-! ## 1. The indices of a table in another order -/

namespace InternTable

variable {K : Type} [DecidableEq K] [Hashable K] {table : InternTable K}
  {enumeration : List Identity}

/-- **Where an index goes** when the live identities are listed in another order. -/
def renumber (table : InternTable K) (enumeration : List Identity) (i : Nat) : Nat :=
  match table.live[i]? with
  | some x => (table.finalize enumeration).1.idxOf x
  | none => i

/-- The live identity of an index stands where the index goes. -/
theorem getElem?_renumber (he : table.Enumerates enumeration) {i : Nat} {x : Identity}
    (hi : table.live[i]? = some x) :
    (table.finalize enumeration).1[table.renumber enumeration i]? = some x := by
  have hx : x ∈ (table.finalize enumeration).1 :=
    he.perm_live.mem_iff.mpr (List.mem_of_getElem? hi)
  simp only [renumber, hi]
  exact List.getElem?_idxOf hx

/-- **Indices are permuted.** -/
theorem bijOn_renumber (he : table.Enumerates enumeration) :
    Set.BijOn (table.renumber enumeration) {i | i < table.live.length}
      {i | i < table.live.length} := by
  have hlength : (table.finalize enumeration).1.length = table.live.length :=
    he.perm_live.length_eq
  have hnodup : (table.finalize enumeration).1.Nodup := he.nodup.filter _
  refine ⟨?_, ?_, ?_⟩
  · intro i hi
    have hplace := getElem?_renumber he (List.getElem?_eq_getElem hi)
    exact hlength ▸ (List.getElem?_eq_some_iff.mp hplace).1
  · intro i hi j hj hij
    have hplace := getElem?_renumber he (List.getElem?_eq_getElem hi)
    rw [hij, getElem?_renumber he (List.getElem?_eq_getElem hj)] at hplace
    refine (List.getElem?_inj hi table.live_nodup).mp ?_
    rw [List.getElem?_eq_getElem hi, List.getElem?_eq_getElem hj, hplace]
  · intro j hj
    have hj' : j < (table.finalize enumeration).1.length := hlength ▸ hj
    have hx := he.perm_live.mem_iff.mp (List.getElem_mem hj')
    obtain ⟨i, hi⟩ := List.mem_iff_getElem?.mp hx
    refine ⟨i, (List.getElem?_eq_some_iff.mp hi).1, ?_⟩
    refine ((List.getElem?_inj hj' hnodup).mp ?_).symm
    rw [getElem?_renumber he hi, List.getElem?_eq_getElem hj']

/-- **The index of every identity follows**, also that of one that was merged away. -/
theorem indexOf?_renumber (he : table.Enumerates enumeration) (id : Identity) :
    (table.finalize enumeration).2.indexOf? id =
      ((table.finalize table.identities).2.indexOf? id).map (table.renumber enumeration) := by
  have hplace {i : Nat} : (table.finalize table.identities).2.indexOf? id = some i ↔
      table.live[i]? = some (table.resolve id) := indexOf?_finalize table.identities_nodup
  cases hi : (table.finalize table.identities).2.indexOf? id with
  | some i =>
    rw [Option.map_some, indexOf?_finalize he.nodup]
    exact getElem?_renumber he (hplace.mp hi)
  | none =>
    rw [Option.map_none, Option.eq_none_iff_forall_ne_some]
    intro j hj
    have hx := List.mem_of_getElem? ((indexOf?_finalize he.nodup).mp hj)
    obtain ⟨i, hi'⟩ := List.mem_iff_getElem?.mp (he.perm_live.mem_iff.mp hx)
    rw [hplace.mpr hi'] at hi
    exact Option.some_ne_none _ hi

theorem indexOfValue?_renumber (he : table.Enumerates enumeration) (k : K) :
    (table.finalize enumeration).2.indexOfValue? k =
      ((table.finalize table.identities).2.indexOfValue? k).map (table.renumber enumeration) := by
  have hget (e : List Identity) : (table.finalize e).2.getId? k = table.getId? k := rfl
  unfold indexOfValue?
  rw [hget, hget]
  cases table.getId? k with
  | none => rfl
  | some x => exact indexOf?_renumber he x

end InternTable

/-! ## 2. Cells and entries in another order -/

/-- Where the indices of texts, objects and arrays go. -/
structure Renumbering where
  strings : Nat → Nat
  objects : Nat → Nat
  arrays : Nat → Nat

/-- A cell with its reference renumbered.  A scalar stays as it is. -/
def Cell.renumber (σ : Renumbering) : Cell → Cell
  | .text i => .text (σ.strings i)
  | .object i => .object (σ.objects i)
  | .array i => .array (σ.arrays i)
  | cell => cell

/-- An object with its references renumbered.  Its shape stays. -/
def ObjectEntry.renumber (σ : Renumbering) (entry : ObjectEntry) : ObjectEntry :=
  ⟨entry.shape, entry.values.map (Cell.renumber σ)⟩

namespace Catalog

variable {tree : Tree} {c : Catalog} {o : Order}

/-- Where the indices of a catalog go when it is numbered in another order. -/
def renumbering (c : Catalog) (o : Order) : Renumbering :=
  ⟨c.strings.renumber o.strings, c.objects.renumber o.objects, c.arrays.renumber o.arrays⟩

theorem index_renumber {K : Type} [DecidableEq K] [Hashable K] {table : InternTable K}
    {enumeration : List Identity} (he : table.Enumerates enumeration) (k : K)
    (missing : EncodeError) :
    index (table.finalize enumeration).2 k missing =
      (index (table.finalize table.identities).2 k missing).map (table.renumber enumeration) := by
  unfold index
  rw [InternTable.indexOfValue?_renumber he]
  cases (table.finalize table.identities).2.indexOfValue? k with
  | none => rfl
  | some i => rfl

/-- **A value's cell follows the renumbering**, or it fails for the same cause. -/
theorem cell_renumber (he : c.Enumerates o) (v : Value) :
    (c.finalize o).2.cell v =
      ((c.finalize c.discoveryOrder).2.cell v).map (Cell.renumber (c.renumbering o)) := by
  have hmap (f : Nat → Cell) (g : Nat → Nat) (h : ∀ i, (f i).renumber (c.renumbering o) = f (g i))
      (r : Except EncodeError Nat) :
      (r.map g).map f = (r.map f).map (Cell.renumber (c.renumbering o)) := by
    cases r with
    | error e => rfl
    | ok i => exact congrArg Except.ok (h i).symm
  have htree (o : Order) : (c.finalize o).2.tree = c.tree := rfl
  unfold cell
  rw [htree, htree]
  cases Slot.ofValue c.tree v with
  | error e => rfl
  | ok slot =>
    cases slot with
    | text s =>
      exact (congrArg (Except.map Slot.text) (index_renumber he.strings s _)).trans
        (hmap Slot.text _ (fun _ => rfl) _)
    | object id =>
      exact (congrArg (Except.map Slot.object) (index_renumber he.objects id _)).trans
        (hmap Slot.object _ (fun _ => rfl) _)
    | array id =>
      exact (congrArg (Except.map Slot.array) (index_renumber he.arrays id _)).trans
        (hmap Slot.array _ (fun _ => rfl) _)
    | int32 _ | float64 _ | bool _ | null => rfl

theorem cells_renumber (he : c.Enumerates o) (values : List Value) :
    values.mapM (c.finalize o).2.cell =
      (values.mapM (c.finalize c.discoveryOrder).2.cell).map
        (List.map (Cell.renumber (c.renumbering o))) := by
  rw [← mapM_map]
  exact mapM_congr_of_mem fun v _ => cell_renumber he v

/-- A text has no references. -/
theorem stringEntry_renumber (c : Catalog) (o : Order) (x : Identity) :
    (c.finalize o).2.stringEntry x =
      ((c.finalize c.discoveryOrder).2.stringEntry x).map id := by
  show c.stringEntry x = (c.stringEntry x).map id
  cases c.stringEntry x with
  | error e => rfl
  | ok s => rfl

theorem objectEntry_renumber (he : c.Enumerates o) (x : Identity) :
    (c.finalize o).2.objectEntry x =
      ((c.finalize c.discoveryOrder).2.objectEntry x).map
        (ObjectEntry.renumber (c.renumbering o)) := by
  have hvalue (o : Order) : (c.finalize o).2.objects.getValue? x = c.objects.getValue? x := rfl
  have htree (o : Order) : (c.finalize o).2.tree = c.tree := rfl
  have hshapes (o : Order) : (c.finalize o).2.shapes = c.shapes := rfl
  unfold objectEntry
  rw [hvalue, hvalue, htree, htree, hshapes, hshapes]
  cases c.objects.getValue? x with
  | none => rfl
  | some node =>
    cases hn : c.tree.node? node with
    | none => simp only [hn]; rfl
    | some found =>
      cases found with
      | array items => simp only [hn]; rfl
      | object fields =>
        simp only [hn]
        cases c.shapes.arrange node fields with
        | error e => rfl
        | ok arranged =>
          simp only [cells_renumber he]
          cases arranged.2.mapM (c.finalize c.discoveryOrder).2.cell with
          | error e => rfl
          | ok cells => rfl

theorem arrayEntry_renumber (he : c.Enumerates o) (x : Identity) :
    (c.finalize o).2.arrayEntry x =
      ((c.finalize c.discoveryOrder).2.arrayEntry x).map
        (List.map (Cell.renumber (c.renumbering o))) := by
  have hvalue (o : Order) : (c.finalize o).2.arrays.getValue? x = c.arrays.getValue? x := rfl
  have htree (o : Order) : (c.finalize o).2.tree = c.tree := rfl
  unfold arrayEntry
  rw [hvalue, hvalue, htree, htree]
  cases c.arrays.getValue? x with
  | none => rfl
  | some node =>
    cases hn : c.tree.node? node with
    | none => simp only [hn]; rfl
    | some found =>
      cases found with
      | object fields => simp only [hn]; rfl
      | array items => simp only [hn, cells_renumber he]

end Catalog

/-! ## 3. Tables in another order -/

/-- **Answers in another order** are the answers rearranged, if each follows. -/
theorem perm_of_mapM {α : Type} {xs ys : List Identity} {f g : Identity → Except EncodeError α}
    {h : α → α} {r r' : List α} (hp : ys.Perm xs) (hg : ∀ x, g x = (f x).map h)
    (hr : xs.mapM f = .ok r) (hr' : ys.mapM g = .ok r') : r'.Perm (r.map h) := by
  have hxs : xs.mapM g = .ok (r.map h) := by
    rw [mapM_congr_of_mem (g := fun x => (f x).map h) fun x _ => hg x, Catalog.mapM_map, hr]
    rfl
  obtain ⟨t, ht, hperm⟩ := List.perm_comp_forall₂ hp (mapM_eq_ok_iff.mp hxs)
  rw [mapM_eq_ok_iff.mpr ht, Except.ok.injEq] at hr'
  exact hr' ▸ hperm

/-- Each answer stands where its index goes. -/
theorem getElem?_of_mapM {α : Type} {xs ys : List Identity} {f g : Identity → Except EncodeError α}
    {h : α → α} {r r' : List α} (hg : ∀ x, g x = (f x).map h) (hr : xs.mapM f = .ok r)
    (hr' : ys.mapM g = .ok r') {i j : Nat} (hij : ∀ x, xs[i]? = some x → ys[j]? = some x) {a : α}
    (ha : r[i]? = some a) : r'[j]? = some (h a) := by
  obtain ⟨x, hx, hxa⟩ := exists_getElem?_of_forall₂ (mapM_eq_ok_iff.mp hr).flip ha
  obtain ⟨b, hb, hxb⟩ := exists_getElem?_of_forall₂ (mapM_eq_ok_iff.mp hr') (hij x hx)
  have hxa' : f x = .ok a := hxa
  have hfollows : Except.ok b = (f x).map h := hxb.symm.trans (hg x)
  rw [hxa'] at hfollows
  rw [hb, Except.ok.inj hfollows]

/-! ## 4. Sizes in another order -/

theorem totalSize_perm {α : Type} {size : α → Nat} {l l' : List α} (h : l.Perm l') :
    totalSize size l = totalSize size l' := by
  induction h with
  | nil => rfl
  | cons x _ ih => rw [totalSize, totalSize, ih]
  | swap x y l =>
    simp only [totalSize]
    omega
  | trans _ _ ih ih' => exact ih.trans ih'

theorem totalSize_map {α : Type} {size : α → Nat} {f : α → α} {l : List α}
    (h : ∀ x ∈ l, size (f x) = size x) : totalSize size (l.map f) = totalSize size l := by
  induction l with
  | nil => rfl
  | cons x l ih =>
    obtain ⟨hx, hl⟩ := List.forall_mem_cons.mp h
    rw [List.map_cons, totalSize, totalSize, hx, ih hl]

/-- **No reference changes its width** when it is renumbered. -/
structure Renumbering.KeepsWidths (σ : Renumbering) (encoding : IntEncoding)
    (counts : Image.Counts) : Prop where
  strings : ∀ i < counts.strings,
    encoding.byteSize (UInt32.ofNat (σ.strings i)) = encoding.byteSize (UInt32.ofNat i)
  objects : ∀ i < counts.objects,
    encoding.byteSize (UInt32.ofNat (σ.objects i)) = encoding.byteSize (UInt32.ofNat i)
  arrays : ∀ i < counts.arrays,
    encoding.byteSize (UInt32.ofNat (σ.arrays i)) = encoding.byteSize (UInt32.ofNat i)

/-- An index below 128 takes one byte. -/
theorem Varint.length_encode_of_lt {n : Nat} (h : n < 128) :
    (encode (UInt32.ofNat n)).length = 1 := by
  have hn : (UInt32.ofNat n).toNat = n := UInt32.toNat_ofNat_of_lt (Nat.lt_trans h (by decide))
  rw [encode, hn, groups.eq_def, if_pos h]
  rfl

section

variable {σ : Renumbering} {encoding : IntEncoding} {counts : Image.Counts}

/-- Fixed widths never change. -/
theorem Renumbering.keepsWidths_fixed32 (σ : Renumbering) (counts : Image.Counts) :
    σ.KeepsWidths .fixed32 counts :=
  ⟨fun _ _ => rfl, fun _ _ => rfl, fun _ _ => rfl⟩

/-- Variable widths do not change in tables with at most 128 entries. -/
theorem Renumbering.keepsWidths_of_le (hstrings : counts.strings ≤ 128)
    (hobjects : counts.objects ≤ 128) (harrays : counts.arrays ≤ 128)
    (hs : Set.MapsTo σ.strings {i | i < counts.strings} {i | i < counts.strings})
    (ho : Set.MapsTo σ.objects {i | i < counts.objects} {i | i < counts.objects})
    (ha : Set.MapsTo σ.arrays {i | i < counts.arrays} {i | i < counts.arrays}) :
    σ.KeepsWidths encoding counts := by
  have hone (f : Nat → Nat) (n : Nat) (hn : n ≤ 128) (hf : Set.MapsTo f {i | i < n} {i | i < n}) :
      ∀ i < n, encoding.byteSize (UInt32.ofNat (f i)) = encoding.byteSize (UInt32.ofNat i) := by
    intro i hi
    cases encoding with
    | fixed32 => rfl
    | varint =>
      have hfi : f i < n := hf hi
      show (Varint.encode _).length = (Varint.encode _).length
      rw [Varint.length_encode_of_lt (Nat.lt_of_lt_of_le hi hn),
        Varint.length_encode_of_lt (Nat.lt_of_lt_of_le hfi hn)]
  exact ⟨hone _ _ hstrings hs, hone _ _ hobjects ho, hone _ _ harrays ha⟩

theorem Cell.byteSize_renumber (hσ : σ.KeepsWidths encoding counts) {cell : Cell}
    (hc : cell.Within counts) : (cell.renumber σ).byteSize encoding = cell.byteSize encoding := by
  cases cell with
  | text i => exact congrArg (1 + ·) (hσ.strings i hc)
  | object i => exact congrArg (1 + ·) (hσ.objects i hc)
  | array i => exact congrArg (1 + ·) (hσ.arrays i hc)
  | int32 _ | float64 _ | bool _ | null => rfl

theorem ObjectEntry.objectSize_renumber (hσ : σ.KeepsWidths encoding counts) {entry : ObjectEntry}
    (hc : ∀ cell ∈ entry.values, cell.Within counts) :
    Artifact.objectSize encoding (entry.renumber σ) = Artifact.objectSize encoding entry :=
  congrArg (encoding.byteSize (UInt32.ofNat entry.shape) + ·)
    (totalSize_map fun cell hcell => Cell.byteSize_renumber hσ (hc cell hcell))

theorem arraySize_renumber (hσ : σ.KeepsWidths encoding counts) {cells : List Cell}
    (hc : ∀ cell ∈ cells, cell.Within counts) :
    Artifact.arraySize encoding (cells.map (Cell.renumber σ)) =
      Artifact.arraySize encoding cells := by
  unfold Artifact.arraySize
  rw [List.length_map, totalSize_map fun cell hcell => Cell.byteSize_renumber hσ (hc cell hcell)]

end

/-! ## 5. Whole artifacts -/

/-- **One image is the other with its indices renumbered.**  The numbers of texts, objects and
arrays are permuted; the root, the tables and every reference in them follow; and the counts, the
shapes and all scalars are the same. -/
structure Image.Renumbered (σ : Renumbering) (image image' : Image) : Prop where
  bijOn_strings : Set.BijOn σ.strings {i | i < image.strings.length}
    {i | i < image.strings.length}
  bijOn_objects : Set.BijOn σ.objects {i | i < image.objects.length}
    {i | i < image.objects.length}
  bijOn_arrays : Set.BijOn σ.arrays {i | i < image.arrays.length} {i | i < image.arrays.length}
  encoding : image'.encoding = image.encoding
  counts : image'.counts = image.counts
  shapes : image'.shapes = image.shapes
  root : image'.root = σ.objects image.root
  lengths : image'.strings.length = image.strings.length ∧
    image'.objects.length = image.objects.length ∧ image'.arrays.length = image.arrays.length
  strings : ∀ i s, image.strings[i]? = some s → image'.strings[σ.strings i]? = some s
  objects : ∀ i entry, image.objects[i]? = some entry →
    image'.objects[σ.objects i]? = some (entry.renumber σ)
  arrays : ∀ i cells, image.arrays[i]? = some cells →
    image'.arrays[σ.arrays i]? = some (cells.map (Cell.renumber σ))

/-- **Widths are kept** with fixed widths, or if no table has more than 128 entries. -/
theorem Image.Renumbered.keepsWidths {σ : Renumbering} {image image' : Image}
    (h : image.Renumbered σ image') (hcoherent : image.Coherent) {encoding : IntEncoding}
    (hsmall : encoding = .fixed32 ∨ image.strings.length ≤ 128 ∧ image.objects.length ≤ 128 ∧
      image.arrays.length ≤ 128) : σ.KeepsWidths encoding image.counts := by
  rcases hsmall with rfl | ⟨hstrings, hobjects, harrays⟩
  · exact σ.keepsWidths_fixed32 _
  · refine Renumbering.keepsWidths_of_le ?_ ?_ ?_ ?_ ?_ ?_
    · rw [hcoherent.strings]
      exact hstrings
    · rw [hcoherent.objects]
      exact hobjects
    · rw [hcoherent.arrays]
      exact harrays
    · rw [hcoherent.strings]
      exact h.bijOn_strings.mapsTo
    · rw [hcoherent.objects]
      exact h.bijOn_objects.mapsTo
    · rw [hcoherent.arrays]
      exact h.bijOn_arrays.mapsTo

namespace Catalog

variable {tree : Tree} {c : Catalog} {o : Order} {config : Config} {a a' : Artifact}

/-- The artifact of a catalog that is numbered in some order. -/
def tablesIn (c : Catalog) (o : Order) : Except EncodeError Artifact :=
  (c.finalize o).2.artifact (c.finalize o).1

/-- **Writing in some order gives the bytes of the artifact in that order.** -/
theorem gives_serializeIn (ha : c.tablesIn o = .ok a) (config : Config) :
    (c.serializeIn o config).1.Gives ((a.write config).map Writer.bytes) := by
  have hgives := (c.finalize o).2.gives_writeNumbered (c.finalize o).1 config
  rw [show (c.finalize o).2.artifact (c.finalize o).1 = .ok a from ha] at hgives
  exact hgives

/-- The tables of an artifact, one by one. -/
theorem mapM_of_tablesIn (h : c.tablesIn o = .ok a) :
    (c.finalize o).1.strings.mapM (c.finalize o).2.stringEntry = .ok a.strings ∧
      (c.finalize o).1.objects.mapM (c.finalize o).2.objectEntry = .ok a.objects ∧
      (c.finalize o).1.arrays.mapM (c.finalize o).2.arrayEntry = .ok a.arrays ∧
      a.shapes = c.shapes.shapes.toList ∧
      a.root = c.root.bind (c.finalize o).2.objects.indexOf? := by
  obtain ⟨strings, hs, h⟩ := bind_eq_ok_iff.mp h
  obtain ⟨objects, ho, h⟩ := bind_eq_ok_iff.mp h
  obtain ⟨arrays, hr, h⟩ := bind_eq_ok_iff.mp h
  obtain rfl := Except.ok.inj h
  exact ⟨hs, ho, hr, rfl, rfl⟩

/-- **The tables in another order** are the ordered ones rearranged and renumbered. -/
structure Rearranged (σ : Renumbering) (a a' : Artifact) : Prop where
  root : a'.root = a.root.map σ.objects
  shapes : a'.shapes = a.shapes
  strings : a'.strings.Perm a.strings
  objects : a'.objects.Perm (a.objects.map (ObjectEntry.renumber σ))
  arrays : a'.arrays.Perm (a.arrays.map (List.map (Cell.renumber σ)))

theorem rearranged_of_tablesIn (he : c.Enumerates o) (ha : c.tablesIn c.discoveryOrder = .ok a)
    (ha' : c.tablesIn o = .ok a') : Rearranged (c.renumbering o) a a' := by
  obtain ⟨hs, ho, hr, hshapes, hroot⟩ := mapM_of_tablesIn ha
  obtain ⟨hs', ho', hr', hshapes', hroot'⟩ := mapM_of_tablesIn ha'
  refine ⟨?_, hshapes'.trans hshapes.symm, ?_, ?_, ?_⟩
  · rw [hroot, hroot']
    cases c.root with
    | none => rfl
    | some x => exact InternTable.indexOf?_renumber he.objects x
  · have hperm := perm_of_mapM he.strings.perm_live (c.stringEntry_renumber o) hs hs'
    exact List.map_id a.strings ▸ hperm
  · exact perm_of_mapM he.objects.perm_live (objectEntry_renumber he) ho ho'
  · exact perm_of_mapM he.arrays.perm_live (arrayEntry_renumber he) hr hr'

/-- Texts are short enough in every order or in none. -/
theorem Rearranged.textsFit_iff {σ : Renumbering} (h : Rearranged σ a a') :
    a'.TextsFit ↔ a.TextsFit := by
  have hshapes := h.shapes
  constructor
  · rintro ⟨htexts, hkeys⟩
    exact ⟨fun s hs => htexts s (h.strings.mem_iff.mpr hs), fun k hk => hkeys k (hshapes ▸ hk)⟩
  · rintro ⟨htexts, hkeys⟩
    exact ⟨fun s hs => htexts s (h.strings.mem_iff.mp hs), fun k hk => hkeys k (hshapes ▸ hk)⟩

/-- **The length stays** where no reference changes its width. -/
theorem Rearranged.byteSize_eq {σ : Renumbering} (h : Rearranged σ a a') {encoding : IntEncoding}
    {root : Nat} (hcoherent : (a.image encoding root).Coherent)
    (hσ : σ.KeepsWidths encoding (a.image encoding root).counts) :
    a'.byteSize encoding = a.byteSize encoding := by
  have hobjects : totalSize (Artifact.objectSize encoding) a'.objects =
      totalSize (Artifact.objectSize encoding) a.objects := by
    rw [totalSize_perm h.objects, totalSize_map]
    exact fun entry hentry => entry.objectSize_renumber hσ (hcoherent.entry entry hentry).2.2
  have harrays : totalSize (Artifact.arraySize encoding) a'.arrays =
      totalSize (Artifact.arraySize encoding) a.arrays := by
    rw [totalSize_perm h.arrays, totalSize_map]
    exact fun cells hcells => arraySize_renumber hσ (hcoherent.items cells hcells)
  unfold Artifact.byteSize
  rw [totalSize_perm h.strings, h.shapes, hobjects, harrays]

/-- The tables of an artifact are as long as there are live identities. -/
theorem lengths_of_tablesIn (he : c.Enumerates o) (h : c.tablesIn o = .ok a) :
    a.strings.length = c.strings.count ∧ a.objects.length = c.objects.count ∧
      a.arrays.length = c.arrays.count := by
  obtain ⟨hs, ho, hr, -⟩ := mapM_of_tablesIn h
  exact ⟨(mapM_eq_ok_iff.mp hs).length_eq.symm.trans he.strings.perm_live.length_eq,
    (mapM_eq_ok_iff.mp ho).length_eq.symm.trans he.objects.perm_live.length_eq,
    (mapM_eq_ok_iff.mp hr).length_eq.symm.trans he.arrays.perm_live.length_eq⟩

/-- **The image in another order** is the ordered one with its indices renumbered. -/
theorem renumbered_of_tablesIn (he : c.Enumerates o) (ha : c.tablesIn c.discoveryOrder = .ok a)
    (ha' : c.tablesIn o = .ok a') {root root' : Nat} (hroot : a.root = some root)
    (hroot' : a'.root = some root') (encoding : IntEncoding) :
    Image.Renumbered (c.renumbering o) (a.image encoding root) (a'.image encoding root') := by
  obtain ⟨hs, ho, hr, -⟩ := mapM_of_tablesIn ha
  obtain ⟨hs', ho', hr', -⟩ := mapM_of_tablesIn ha'
  obtain ⟨hstrings, hobjects, harrays⟩ := lengths_of_tablesIn (c.enumerates_order true) ha
  obtain ⟨hstrings', hobjects', harrays'⟩ := lengths_of_tablesIn he ha'
  have hrearranged := rearranged_of_tablesIn he ha ha'
  have hrootσ : root' = (c.renumbering o).objects root := by
    have h := hrearranged.root
    rw [hroot, hroot'] at h
    exact Option.some.inj h
  exact
    { bijOn_strings := by
        show Set.BijOn _ {i | i < a.strings.length} {i | i < a.strings.length}
        rw [hstrings]
        exact InternTable.bijOn_renumber he.strings
      bijOn_objects := by
        show Set.BijOn _ {i | i < a.objects.length} {i | i < a.objects.length}
        rw [hobjects]
        exact InternTable.bijOn_renumber he.objects
      bijOn_arrays := by
        show Set.BijOn _ {i | i < a.arrays.length} {i | i < a.arrays.length}
        rw [harrays]
        exact InternTable.bijOn_renumber he.arrays
      encoding := rfl
      counts := by
        simp only [Artifact.image, hrearranged.shapes, hstrings, hstrings', hobjects, hobjects',
          harrays, harrays']
      shapes := congrArg (List.map Shape.keys) hrearranged.shapes
      root := hrootσ
      lengths := ⟨hstrings'.trans hstrings.symm, hobjects'.trans hobjects.symm,
        harrays'.trans harrays.symm⟩
      strings := fun i s hi => getElem?_of_mapM (c.stringEntry_renumber o) hs hs'
        (fun x hx => InternTable.getElem?_renumber he.strings hx) hi
      objects := fun i entry hi => getElem?_of_mapM (objectEntry_renumber he) ho ho'
        (fun x hx => InternTable.getElem?_renumber he.objects hx) hi
      arrays := fun i cells hi => getElem?_of_mapM (arrayEntry_renumber he) hr hr'
        (fun x hx => InternTable.getElem?_renumber he.arrays hx) hi }

/-! ## 6. What is written in another order -/

/-- **What is written without a limit** in some order: the artifact in that order, if its texts are
short enough. -/
theorem serializeIn_unlimited (ha : c.tablesIn o = .ok a) {root : Nat} (hroot : a.root = some root)
    (hlimit : config.maxSize = none) :
    ((∃ bytes, (c.serializeIn o config).1.Gives (.ok bytes)) ↔ a.TextsFit) ∧
      ∀ bytes, (c.serializeIn o config).1.Gives (.ok bytes) →
        bytes.size = a.byteSize config.intEncoding ∧
          (a.Fits → Image.read bytes = some (a.image config.intEncoding root)) := by
  have hgives := gives_serializeIn ha config
  obtain ⟨hsize, hwrite⟩ := Artifact.write_sized hlimit hroot
  have hwritten {bytes : ByteArray} (h : (c.serializeIn o config).1.Gives (.ok bytes)) :
      ∃ w, a.write config = .ok w ∧ bytes = w.bytes :=
    Artifact.exists_write_of_bytes (hgives.eq (h {})).symm
  refine ⟨⟨?_, ?_⟩, ?_⟩
  · rintro ⟨bytes, h⟩
    obtain ⟨w, hw, -⟩ := hwritten h
    exact (hsize w hw).1
  · intro htexts
    obtain ⟨w, hw⟩ := hwrite htexts
    refine ⟨w.bytes, ?_⟩
    rw [hw] at hgives
    exact hgives
  · intro bytes h
    obtain ⟨w, hw, rfl⟩ := hwritten h
    refine ⟨(hsize w hw).2, fun hfits => ?_⟩
    obtain ⟨root', hroot', hread⟩ := Artifact.read_of_write hfits hw
    obtain rfl : root = root' := Option.some.inj (hroot.symm.trans hroot')
    exact hread

/-- **Another order only renumbers.**  A catalog that comes of a tree is written without a limit in
any order of its identities exactly if it is written in order, which it is if its texts are short
enough.  Both artifacts read back to the same graph up to the numbering, and they are equally long
with fixed widths, or if no table has more than 128 entries. -/
theorem Obtained.renumbers (hc : c.Obtained tree) (he : c.Enumerates o)
    (hlimit : config.maxSize = none) :
    (tree.TextsFit → ∃ bytes, (c.serialize { config with ordered := true }).1.Gives (.ok bytes)) ∧
      ((∃ bytes', (c.serializeIn o { config with ordered := false }).1.Gives (.ok bytes')) ↔
        ∃ bytes, (c.serialize { config with ordered := true }).1.Gives (.ok bytes)) ∧
      ∀ bytes bytes', (c.serialize { config with ordered := true }).1.Gives (.ok bytes) →
        (c.serializeIn o { config with ordered := false }).1.Gives (.ok bytes') →
          (tree.Fits → ∃ image image', Image.read bytes = some image ∧
            Image.read bytes' = some image' ∧ image.Renumbered (c.renumbering o) image') ∧
          (config.intEncoding = .fixed32 ∨ (c.strings.count ≤ 128 ∧ c.objects.count ≤ 128 ∧
            c.arrays.count ≤ 128) → bytes'.size = bytes.size) := by
  have hlists := hc.lists
  have hordered := c.enumerates_order true
  obtain ⟨a, ha, hstores⟩ := hlists.artifact_spec hordered
  obtain ⟨a', ha', hstores'⟩ := hlists.artifact_spec he
  obtain ⟨n, root, -, -, hroot⟩ := hstores.root
  obtain ⟨n', root', -, -, hroot'⟩ := hstores'.root
  have hrearranged := rearranged_of_tablesIn he ha ha'
  have hrenumbered := renumbered_of_tablesIn he ha ha' hroot hroot' config.intEncoding
  have hserialize : c.serialize { config with ordered := true } =
      c.serializeIn c.discoveryOrder { config with ordered := true } := rfl
  have hlimit' (ordered : Bool) : ({ config with ordered := ordered } : Config).maxSize = none :=
    hlimit
  obtain ⟨hiff, hwritten⟩ := serializeIn_unlimited ha hroot (hlimit' true)
  obtain ⟨hiff', hwritten'⟩ := serializeIn_unlimited ha' hroot' (hlimit' false)
  rw [hserialize]
  refine ⟨fun htexts => ?_, hiff'.trans (hrearranged.textsFit_iff.trans hiff.symm), ?_⟩
  · obtain ⟨w, hw⟩ := htexts.exists_write hlists hstores (hlimit' true)
    refine hiff.mpr ?_
    exact ((Artifact.write_sized (hlimit' true) hroot).1 w hw).1
  intro bytes bytes' h h'
  obtain ⟨hsize, hread⟩ := hwritten bytes h
  obtain ⟨hsize', hread'⟩ := hwritten' bytes' h'
  refine ⟨fun hfits => ?_, fun hsmall => ?_⟩
  · exact ⟨_, _, hread (hstores.fits hordered hlists hfits), hread' (hstores'.fits he hlists hfits),
      hrenumbered⟩
  · have hcoherent := hstores.coherent hroot config.intEncoding
    obtain ⟨hstrings, hobjects, harrays⟩ := lengths_of_tablesIn hordered ha
    rw [hsize, hsize']
    refine hrearranged.byteSize_eq hcoherent (hrenumbered.keepsWidths hcoherent ?_)
    rw [← hstrings, ← hobjects, ← harrays] at hsmall
    exact hsmall

/-- The two equal objects, one merged onto the other, in the order of the look-up maps. -/
theorem renumbers_twins : ∃ (c : Catalog) (bytes bytes' : ByteArray) (image image' : Image),
    c.Obtained twins ∧ (c.serialize { intEncoding := .fixed32 }).1.Gives (.ok bytes) ∧
      (c.serialize { intEncoding := .fixed32, ordered := false }).1.Gives (.ok bytes') ∧
      Image.read bytes = some image ∧ Image.read bytes' = some image' ∧
      image.Renumbered (c.renumbering c.lookupOrder) image' ∧ bytes'.size = bytes.size := by
  obtain ⟨bytes₀, h₀⟩ := Tree.exists_encode_twins
  obtain ⟨c, hc, hgives₀⟩ := Tree.exists_obtained_of_encode h₀
  have hfits : twins.Fits := Tree.fits_of_length (by decide) (by decide)
  -- the texts are short enough, whatever the encoding of integers
  obtain ⟨a, ha, hstores⟩ := hc.lists.artifact_spec (c.enumerates_order true)
  obtain ⟨n, root, -, -, hroot⟩ := hstores.root
  have htexts : a.TextsFit := (serializeIn_unlimited ha hroot rfl).1.mp ⟨bytes₀, hgives₀⟩
  have hfixed : ({ intEncoding := .fixed32 } : Config).maxSize = none := rfl
  obtain ⟨bytes, h⟩ := (serializeIn_unlimited ha hroot hfixed).1.mpr htexts
  obtain ⟨-, hiff, hboth⟩ := hc.renumbers (c.enumerates_order false) hfixed
  obtain ⟨bytes', h'⟩ := hiff.mpr ⟨bytes, h⟩
  obtain ⟨hread, hsize⟩ := hboth bytes bytes' h h'
  obtain ⟨image, image', himage, himage', hrenumbered⟩ := hread hfits
  exact ⟨c, bytes, bytes', image, image', hc, h, h', himage, himage', hrenumbered,
    hsize (.inl rfl)⟩

end Catalog

end PackedTree
