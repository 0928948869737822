/-
# A merge never makes an artifact longer

Merging takes entries out of the table of objects and changes references to objects, and nothing
else of an artifact.  The entries that are left keep their order, and a reference never leads to a
greater index than before, so none of them takes more bytes, in either encoding of integers.

* `Catalog.MergedAs.byteSize_le`: an artifact gets shorter by at least one byte for each object
  that is merged away.  Cells, entries and tables are compared in this order.
* `Tree.encode_shrinks`: the encodings of a tree with and without merging.

Indices are written in 32 bits, so there may be no more objects than these can count.
-/
import PackedTree.Proofs.Encode.Limit
import PackedTree.Proofs.Merge.Descent

namespace PackedTree

/-! ## 1. Sums of sizes -/

section

variable {α β : Type}

theorem totalSize_le_of_forall₂ {size : α → Nat} {l l' : List α}
    (h : List.Forall₂ (fun x x' => size x' ≤ size x) l l') :
    totalSize size l' ≤ totalSize size l := by
  induction h with
  | nil => exact Nat.le_refl _
  | cons hx _ ih => exact Nat.add_le_add hx ih

/-- **Partners of fewer members take less**: no more for each of them, and nothing for the others,
whose partners take something. -/
theorem totalSize_le_of_sublist {R R' : α → β → Prop} {size : β → Nat} {xs xs' : List α}
    (hsub : xs'.Sublist xs) (hle : ∀ x y y', R x y → R' x y' → size y' ≤ size y)
    (hpos : ∀ y, 0 < size y) : ∀ {ys ys' : List β}, List.Forall₂ R xs ys → List.Forall₂ R' xs' ys' →
      totalSize size ys' + xs.length ≤ totalSize size ys + xs'.length := by
  induction hsub with
  | slnil =>
    intro ys ys' h h'
    rw [List.forall₂_nil_left_iff.mp h, List.forall₂_nil_left_iff.mp h']
  | cons x _ ih =>
    intro ys ys' h h'
    obtain ⟨y, ys, -, hys, rfl⟩ := List.forall₂_cons_left_iff.mp h
    have hrest := ih hys h'
    have hy := hpos y
    rw [totalSize, List.length_cons]
    omega
  | cons_cons x _ ih =>
    intro ys ys' h h'
    obtain ⟨y, ys, hxy, hys, rfl⟩ := List.forall₂_cons_left_iff.mp h
    obtain ⟨y', ys', hxy', hys', rfl⟩ := List.forall₂_cons_left_iff.mp h'
    have hrest := ih hys hys'
    have hy := hle x y y' hxy hxy'
    rw [totalSize, totalSize, List.length_cons, List.length_cons]
    omega

/-- Partners of apart members are apart, if none is the partner of two. -/
theorem nodup_of_forall₂ {R : α → β → Prop} (hR : ∀ x x' y, R x y → R x' y → x = x') {xs : List α}
    {ys : List β} (h : List.Forall₂ R xs ys) (hd : xs.Nodup) : ys.Nodup := by
  induction h with
  | nil => exact List.nodup_nil
  | cons hxy h ih =>
    obtain ⟨hx, hd⟩ := List.nodup_cons.mp hd
    refine List.nodup_cons.mpr ⟨fun hy => ?_, ih hd⟩
    obtain ⟨x', hx', hxy'⟩ := exists_left_of_forall₂ h hy
    exact hx (hR _ _ _ hxy hxy' ▸ hx')

end

/-! ## 2. Cells and entries -/

/-- Equal members of a list of apart ones stand at one position. -/
theorem position_unique {α : Type} {l : List α} (hd : l.Nodup) {i j : Nat} {x : α}
    (hi : l[i]? = some x) (hj : l[j]? = some x) : i = j :=
  (List.getElem?_inj (List.getElem?_eq_some_iff.mp hi).1 hd).mp (hi.trans hj.symm)

/-- Cells for the same scalar are the same, if no text stands twice. -/
theorem Cell.eq_of_scalar? {strings : List String} (hd : strings.Nodup) {cell cell' : Cell}
    {s : Scalar} (h : cell.scalar? strings = some s) (h' : cell'.scalar? strings = some s) :
    cell = cell' := by
  cases cell with
  | text i =>
    obtain ⟨t, ht, rfl⟩ := Option.map_eq_some_iff.mp h
    cases cell' with
    | text j =>
      obtain ⟨t', ht', he⟩ := Option.map_eq_some_iff.mp h'
      obtain rfl := Scalar.text.inj he
      rw [position_unique hd ht ht']
    | _ => simp [scalar?] at h'
  | object i | array i => simp [scalar?] at h
  | int32 _ | float64 _ | bool _ | null =>
    obtain rfl := Option.some.inj h
    cases cell' <;> simp_all [scalar?]

section

variable {tree : Tree} {p p' : Places} {strings : List String} {encoding : IntEncoding}

/-- **No object has a greater index**, all indices fit, and arrays keep theirs. -/
structure Descends (p p' : Places) : Prop where
  object : ∀ n i j, p.object n i → p'.object n j → j ≤ i ∧ i < UInt32.size
  array : ∀ n i j, p.array n i → p'.array n j → i = j

/-- **A cell takes no more bytes** where no object has a greater index. -/
theorem Shows.byteSize_le {v : Value} {cell cell' : Cell} (h : Shows tree p strings v cell)
    (h' : Shows tree p' strings v cell') (hd : strings.Nodup) (hp : Descends p p') :
    cell'.byteSize encoding ≤ cell.byteSize encoding := by
  cases h with
  | @scalar _ _ s hv hc =>
    cases h' with
    | scalar hv' hc' =>
      rw [hv, Option.some.injEq] at hv'
      subst hv'
      rw [Cell.eq_of_scalar? hd hc hc']
    | object | array => simp [Value.scalar?] at hv
  | @object n i hn hi =>
    cases h' with
    | scalar hv' _ => simp [Value.scalar?] at hv'
    | object _ hj =>
      obtain ⟨hle, hlt⟩ := hp.object n i _ hi hj
      exact Nat.add_le_add_left (encoding.byteSize_le hle hlt) 1
    | array hn' _ =>
      obtain ⟨fields, hfields⟩ := hn
      obtain ⟨items, hitems⟩ := hn'
      simp [hfields] at hitems
  | @array n i hn hi =>
    cases h' with
    | scalar hv' _ => simp [Value.scalar?] at hv'
    | object hn' _ =>
      obtain ⟨items, hitems⟩ := hn
      obtain ⟨fields, hfields⟩ := hn'
      simp [hfields] at hitems
    | array _ hj => rw [hp.array n i _ hi hj]

/-- **An object's entry takes no more bytes**: it has the same shape, and its cells take no more. -/
theorem ShowsFields.objectSize_le {shapes : List (List String)} {fields : Fields}
    {entry entry' : ObjectEntry} (h : ShowsFields tree p strings shapes fields entry)
    (h' : ShowsFields tree p' strings shapes fields entry') (hd : strings.Nodup)
    (hshapes : shapes.Nodup) (hp : Descends p p') :
    Artifact.objectSize encoding entry' ≤ Artifact.objectSize encoding entry := by
  obtain ⟨keys, hk, hsorted, hmem, hcells⟩ := h
  obtain ⟨keys', hk', hsorted', hmem', hcells'⟩ := h'
  rw [Fields.eq_sortedNames hsorted' hmem', ← Fields.eq_sortedNames hsorted hmem] at hk' hcells'
  unfold Artifact.objectSize
  rw [position_unique hshapes hk' hk]
  refine Nat.add_le_add_left (totalSize_le_of_forall₂ ((forall₂_through hcells hcells').imp ?_)) _
  rintro cell cell' ⟨name, -, ⟨v, hv, hs⟩, v', hv', hs'⟩
  rw [hv, Option.some.injEq] at hv'
  subst hv'
  exact hs.byteSize_le hs' hd hp

/-- **An array's entry takes no more bytes**: it has the same length, and its cells take no more. -/
theorem arraySize_le {items : List Value} {cells cells' : List Cell}
    (h : List.Forall₂ (Shows tree p strings) items cells)
    (h' : List.Forall₂ (Shows tree p' strings) items cells') (hd : strings.Nodup)
    (hp : Descends p p') :
    Artifact.arraySize encoding cells' ≤ Artifact.arraySize encoding cells := by
  unfold Artifact.arraySize
  rw [← h'.length_eq, h.length_eq]
  refine Nat.add_le_add_left (totalSize_le_of_forall₂ ((forall₂_through h h').imp ?_)) _
  rintro cell cell' ⟨v, -, hs, hs'⟩
  exact hs.byteSize_le hs' hd hp

end

/-! ## 3. Artifacts -/

namespace Catalog

variable {tree : Tree} {c merged : Catalog} {a a' : Artifact}

/-- No text stands twice in an artifact. -/
theorem Stores.strings_nodup (h : c.Stores tree a) : a.strings.Nodup := by
  refine nodup_of_forall₂ ?_ h.strings c.strings.live_nodup
  intro x x' s hx hx'
  have hid := InternTable.getId?_of_getValue? hx
  rw [InternTable.getId?_of_getValue? hx', Option.some.injEq] at hid
  exact hid.symm

/-- Nor does a list of keys. -/
theorem Stores.keys_nodup (h : c.Stores tree a) (hlists : c.Lists tree) :
    (a.shapes.map Shape.keys).Nodup := by
  rw [h.shapes]
  refine hlists.distinct.map ?_
  intro s t hst
  cases s
  cases t
  cases hst
  rfl

/-- **A merge keeps the texts and the shapes** of an artifact. -/
theorem MergedAs.tables_eq (h : MergedAs c merged) (hs : c.Stores tree a)
    (hs' : merged.Stores tree a') : a'.strings = a.strings ∧ a'.shapes = a.shapes := by
  have hstrings : merged.strings = c.strings := by rw [h.objects_only]
  have hshapes : merged.shapes = c.shapes := by rw [h.objects_only]
  constructor
  · have htexts : List.Forall₂ (fun x s => c.strings.getValue? x = some s) c.strings.live
        a'.strings := hstrings ▸ hs'.strings
    refine List.right_unique_forall₂' ?_ htexts hs.strings
    intro x s t hx ht
    exact Option.some.inj (hx.symm.trans ht)
  · rw [hs'.shapes, hs.shapes, hshapes]

/-- So they are short enough after it if they were before. -/
theorem MergedAs.textsFit_iff (h : MergedAs c merged) (hs : c.Stores tree a)
    (hs' : merged.Stores tree a') : a'.TextsFit ↔ a.TextsFit := by
  obtain ⟨hstrings, hshapes⟩ := h.tables_eq hs hs'
  constructor
  · rintro ⟨htexts, hkeys⟩
    exact ⟨hstrings ▸ htexts, hshapes ▸ hkeys⟩
  · rintro ⟨htexts, hkeys⟩
    exact ⟨hstrings ▸ htexts, hshapes ▸ hkeys⟩

/-- **A merge gives no object a greater index.** -/
theorem MergedAs.descends (h : MergedAs c merged) (hfresh : c.objects.Fresh)
    (hle : c.objects.live.length ≤ UInt32.size) : Descends c.places merged.places where
  object := fun _ _ _ hi hj => ⟨h.place_le hfresh hi hj, Nat.lt_of_lt_of_le hi.lt_length hle⟩
  array := fun n i j hi hj => by
    have harrays : merged.arrays = c.arrays := by rw [h.objects_only]
    have hj : c.arrays.Placed n j := harrays ▸ hj
    exact InternTable.Placed.unique hi hj

section

variable (h : MergedAs c merged) (hs : c.Stores tree a) (hs' : merged.Stores tree a')
  (hp : Descends c.places merged.places) (encoding : IntEncoding)

include h hs hs' hp

/-- The table of objects gets shorter by at least one byte for each object that is gone. -/
theorem MergedAs.objects_size_le (hlists : c.Lists tree) (hfresh : c.objects.Fresh) :
    totalSize (Artifact.objectSize encoding) a'.objects + c.objects.live.length ≤
      totalSize (Artifact.objectSize encoding) a.objects + merged.objects.live.length := by
  obtain ⟨hstrings, hshapes⟩ := h.tables_eq hs hs'
  refine totalSize_le_of_sublist (h.live_sublist hfresh) ?_ ?_ hs.objects hs'.objects
  · rintro x entry entry' ⟨n, fields, hx, hn, hshows⟩ ⟨n', fields', hx', hn', hshows'⟩
    rw [h.getValue?_eq, hx, Option.some.injEq] at hx'
    subst hx'
    rw [hn, Option.some.injEq, Node.object.injEq] at hn'
    subst hn'
    rw [hstrings, hshapes] at hshows'
    exact hshows.objectSize_le hshows' hs.strings_nodup (hs.keys_nodup hlists) hp
  · intro entry
    exact Nat.add_pos_left (encoding.byteSize_pos _) _

/-- The table of arrays does not get longer. -/
theorem MergedAs.arrays_size_le :
    totalSize (Artifact.arraySize encoding) a'.arrays ≤
      totalSize (Artifact.arraySize encoding) a.arrays := by
  have harrays : merged.arrays = c.arrays := by rw [h.objects_only]
  have hlive : (merged.finalize merged.discoveryOrder).1.arrays =
      (c.finalize c.discoveryOrder).1.arrays := congrArg InternTable.live harrays
  have hs'arrays := hs'.arrays
  rw [(h.tables_eq hs hs').1, hlive] at hs'arrays
  refine totalSize_le_of_forall₂ ((forall₂_through hs.arrays hs'arrays).imp ?_)
  rintro cells cells' ⟨x, -, ⟨n, items, hx, hn, hshows⟩, n', items', hx', hn', hshows'⟩
  rw [harrays, hx, Option.some.injEq] at hx'
  subst hx'
  rw [hn, Option.some.injEq, Node.array.injEq] at hn'
  subst hn'
  exact arraySize_le hshows hshows' hs.strings_nodup hp

/-- **An artifact gets shorter by a merge**, by at least one byte for each object that is gone. -/
theorem MergedAs.byteSize_le (hlists : c.Lists tree) (hfresh : c.objects.Fresh) :
    a'.byteSize encoding + c.objects.live.length ≤
      a.byteSize encoding + merged.objects.live.length := by
  obtain ⟨hstrings, hshapes⟩ := h.tables_eq hs hs'
  have hobjects := h.objects_size_le hs hs' hp encoding hlists hfresh
  have harrays := h.arrays_size_le hs hs' hp encoding
  unfold Artifact.byteSize
  rw [hstrings, hshapes]
  omega

end

/-- A catalog holds no more objects than the root reaches. -/
theorem Lists.length_live_le (h : c.Lists tree) {n : Nat}
    (hobjects : {id | tree.Reachable id ∧ tree.IsObject id}.encard ≤ n) :
    c.objects.live.length ≤ n := by
  have hlt : {id | tree.Reachable id ∧ tree.IsObject id}.encard < (n + 1 : Nat) :=
    lt_of_le_of_lt hobjects (Nat.cast_lt.mpr (Nat.lt_succ_self n))
  exact Nat.le_of_lt_succ (InternTable.length_live_lt hlt fun id hid => (h.objects id).mp hid)

/-- **What a merge of so many objects makes of an artifact**: at least as many bytes are gone, in
either encoding of integers, and nothing changes if there are none. -/
structure Shortens (a a' : Artifact) (count : Nat) : Prop where
  texts : a'.TextsFit ↔ a.TextsFit
  bytes : ∀ encoding, a'.byteSize encoding + count ≤ a.byteSize encoding
  same : count = 0 → a' = a

theorem MergedAs.shortens (h : MergedAs c merged) (hlists : c.Lists tree)
    (hfresh : c.objects.Fresh)
    (hobjects : {id | tree.Reachable id ∧ tree.IsObject id}.encard ≤ UInt32.size) {count : Nat}
    (hm : c.mergedObjects = .ok (count, merged)) (ha : c.tables true = .ok a)
    (ha' : merged.tables true = .ok a') (hs : c.Stores tree a) (hs' : merged.Stores tree a') :
    Shortens a a' count := by
  obtain ⟨hcount, hnone⟩ := hlists.count_of_merged hm
  have hp := h.descends hfresh (hlists.length_live_le hobjects)
  refine ⟨h.textsFit_iff hs hs', fun encoding => ?_, fun hzero => ?_⟩
  · have hbytes := h.byteSize_le hs hs' hp encoding hlists hfresh
    omega
  · rw [hnone hzero] at ha'
    exact Except.ok.inj (ha'.symm.trans ha)

end Catalog

/-! ## 4. Encodings with and without merging -/

namespace Tree

variable {tree : Tree} {config : Config} {c merged : Catalog} {count : Nat} {a : Artifact}

/-- An encoding without merging writes the artifact of the discovered catalog. -/
theorem tables_of_kept (h : Catalog.discovered tree = .ok c) (hdedup : config.dedup = false) :
    tree.tables config = c.tables config.ordered := by
  simp only [tables, Catalog.built, h, hdedup, bind, Except.bind]
  rfl

/-- An encoding with merging writes the artifact of the merged one. -/
theorem tables_of_merged (h : Catalog.discovered tree = .ok c)
    (hm : c.mergedObjects = .ok (count, merged)) (hdedup : config.dedup = true) :
    tree.tables config = merged.tables config.ordered := by
  simp only [tables, Catalog.built, h, hm, hdedup, bind, Except.bind]
  rfl

/-- **What an encoding without a limit gives**: bytes exactly if the texts of the artifact are short
enough, and then those of its parts. -/
theorem encode_sized (ha : tree.tables config = .ok a) (hlimit : config.maxSize = none)
    {root : Nat} (hroot : a.root = some root) :
    (∀ bytes, tree.encode config = .ok bytes →
      a.TextsFit ∧ bytes.size = a.byteSize config.intEncoding) ∧
    (a.TextsFit → ∃ bytes, tree.encode config = .ok bytes) := by
  obtain ⟨hsize, hwrite⟩ := Artifact.write_sized hlimit hroot
  rw [encode_of_tables ha]
  constructor
  · intro bytes h
    obtain ⟨w, hw, rfl⟩ := Artifact.exists_write_of_bytes h
    exact hsize w hw
  · intro hfit
    obtain ⟨w, hw⟩ := hwrite hfit
    exact ⟨w.bytes, by rw [hw]; rfl⟩

/-- **A merge never makes an artifact longer.**  Without a limit, a tree that is encoded is encoded
with and without merging, in either encoding of integers.  With it, the bytes are no more; they are
fewer if any object was merged, and the same if none was. -/
theorem encode_shrinks (hordered : config.ordered = true) (hlimit : config.maxSize = none)
    (hobjects : {id | tree.Reachable id ∧ tree.IsObject id}.encard ≤ UInt32.size)
    {bytes : ByteArray} (h : tree.encode config = .ok bytes) :
    ∃ c count merged plain packed,
      ((Catalog.discover tree config).outcome).1 = .ok c ∧
      (c.mergeObjects.outcome).1 = .ok (count, merged) ∧
      tree.encode { config with dedup := false } = .ok plain ∧
      tree.encode { config with dedup := true } = .ok packed ∧
      packed.size ≤ plain.size ∧ (0 < count → packed.size < plain.size) ∧
      (count = 0 → packed = plain) := by
  obtain ⟨c, hc⟩ := exists_discovered_of_encode h
  obtain ⟨hlists, hfresh⟩ := Catalog.lists_of_discovered hc
  obtain ⟨-, count, merged, hgives, hm⟩ := hlists.merge_spec hfresh
  have hmerged : c.mergedObjects = .ok (count, merged) :=
    (c.gives_mergedObjects {}).symm.trans (hgives {})
  obtain ⟨a, ha, hs⟩ := hlists.exists_tables true
  obtain ⟨a', ha', hs'⟩ := (hm.lists hlists).exists_tables true
  obtain ⟨htexts, hshorter, hsame⟩ := hm.shortens hlists hfresh hobjects hmerged ha ha' hs hs'
  have hplain : tree.tables { config with dedup := false } = .ok a := by
    rw [tables_of_kept hc rfl, hordered, ha]
  have hpacked : tree.tables { config with dedup := true } = .ok a' := by
    rw [tables_of_merged hc hmerged rfl, hordered, ha']
  obtain ⟨root, _, -, -, hroot⟩ := hs.root
  obtain ⟨root', _, -, -, hroot'⟩ := hs'.root
  obtain ⟨hplainSize, hplainFit⟩ := encode_sized hplain hlimit hroot
  obtain ⟨hpackedSize, hpackedFit⟩ := encode_sized hpacked hlimit hroot'
  have hfit : a.TextsFit := by
    cases hdedup : config.dedup with
    | false =>
      rw [← hdedup] at hplainSize
      exact (hplainSize bytes h).1
    | true =>
      rw [← hdedup] at hpackedSize
      exact htexts.mp (hpackedSize bytes h).1
  obtain ⟨plain, hplainBytes⟩ := hplainFit hfit
  obtain ⟨packed, hpackedBytes⟩ := hpackedFit (htexts.mpr hfit)
  have hless : packed.size + count ≤ plain.size := by
    rw [(hplainSize plain hplainBytes).2, (hpackedSize packed hpackedBytes).2]
    exact hshorter config.intEncoding
  refine ⟨c, count, merged, plain, packed, (Catalog.gives_discover tree config {}).trans hc,
    hgives {}, hplainBytes, hpackedBytes, Nat.le_of_add_right_le hless, fun hpos => ?_,
    fun hzero => ?_⟩
  · exact Nat.lt_of_lt_of_le (Nat.lt_add_of_pos_right hpos) hless
  · obtain rfl := hsame hzero
    rw [encode_of_tables hplain] at hplainBytes
    rw [encode_of_tables hpacked] at hpackedBytes
    exact Except.ok.inj (hpackedBytes.symm.trans hplainBytes)

/-- Of two empty objects one is merged onto the other, and the artifact gets shorter. -/
theorem encode_shrinks_twins : ∃ plain packed, twins.encode { dedup := false } = .ok plain ∧
    twins.encode { dedup := true } = .ok packed ∧ packed.size < plain.size := by
  obtain ⟨bytes, h⟩ := exists_encode_twins
  have hobjects : {id | twins.Reachable id ∧ twins.IsObject id}.encard ≤ UInt32.size :=
    le_of_lt (fits_of_length (by decide) (by decide)).objects
  obtain ⟨c, count, merged, plain, packed, hc, hm, hplain, hpacked, -, hless, -⟩ :=
    encode_shrinks rfl rfl hobjects h
  refine ⟨plain, packed, hplain, hpacked, hless ?_⟩
  obtain ⟨hlists, hfresh⟩ := Catalog.lists_of_discovered (Catalog.discovered_eq_of_outcome hc)
  have hdistinct : (⟨0⟩ : NodeId) ≠ ⟨1⟩ := by decide
  exact hlists.count_pos hfresh ((c.gives_mergedObjects.eq hm).symm) hdistinct
    reachable_twins.1 ⟨_, rfl⟩ (cycleFree_of_children_nil rfl)
    reachable_twins.2 ⟨_, rfl⟩ (cycleFree_of_children_nil rfl) sameContent_twins

end Tree

end PackedTree
