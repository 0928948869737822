/-
# What an encoding writes

An encoding that succeeds has discovered its tree, merged the objects if it was asked to, and
written the artifact of the catalog that came of it.  Reading the bytes back gives that artifact.

* `Catalog.Built`: the catalogs that the passes before the writing leave.
* `Catalog.Obtained`: the catalogs that any sequence of stages leaves.
* `Tree.exists_encode`: without a limit, a discovered tree is encoded.
* `Tree.read_of_encode`: what is read back from the bytes of an encoding.
-/
import PackedTree.Artifact.Listing
import PackedTree.Encode
import PackedTree.Proofs.Artifact.Entries
import PackedTree.Proofs.Merge
import PackedTree.Proofs.Wire.Unlimited

namespace PackedTree

variable {tree : Tree} {config : Config}

namespace Catalog

/-! ## 1. The catalogs that are written -/

/-- **A catalog as the passes leave it**: discovered, and merged if the configuration asks so. -/
inductive Built (tree : Tree) (config : Config) : Catalog → Prop where
  | discovered {c : Catalog} (hdedup : config.dedup = false) (h : c.Lists tree)
      (hfresh : c.objects.Fresh) : Built tree config c
  | merged {c merged : Catalog} (hdedup : config.dedup = true) (h : c.Lists tree)
      (hrest : Signer.AtRest tree c.shapes tree.Reachable c.signing)
      (hmerged : MergedAs c merged) : Built tree config merged

theorem Built.lists {c : Catalog} (h : Built tree config c) : c.Lists tree := by
  cases h with
  | discovered _ h _ => exact h
  | merged _ h _ hmerged => exact hmerged.lists h

/-- A discovered tree is built. -/
theorem exists_built (config : Config) {c : Catalog} (h : discovered tree = .ok c) :
    ∃ b, (build tree config).Gives (.ok b) ∧ Built tree config b := by
  have hdiscover := gives_discover tree config
  rw [h] at hdiscover
  obtain ⟨hlists, hfresh⟩ := lists_of_discovered h
  cases hdedup : config.dedup with
  | false =>
    refine ⟨c, hdiscover.bind_ok ?_, .discovered hdedup hlists hfresh⟩
    rw [hdedup]
    exact Pass.gives_pure c
  | true =>
    obtain ⟨hrest, count, merged, hgives, hmerged⟩ := hlists.merge_spec hfresh
    refine ⟨merged, hdiscover.bind_ok ?_, .merged hdedup hlists hrest hmerged⟩
    rw [hdedup]
    exact hgives.bind_ok (Pass.gives_pure merged)

/-! ## 2. What the stages give -/

/-- The catalog that is written, or why there is none. -/
def built (tree : Tree) (config : Config) : Except EncodeError Catalog := do
  let c ← discovered tree
  if config.dedup then
    let (_, merged) ← c.mergedObjects
    return merged
  else return c

theorem gives_build (tree : Tree) (config : Config) :
    (build tree config).Gives (built tree config) := by
  refine (gives_discover tree config).bind fun c => ?_
  split
  · exact c.gives_mergedObjects.bind fun _ => Pass.gives_pure _
  · exact Pass.gives_pure c

/-- **The catalogs that come of a tree**: by a discovery and then any merges, listings and writings,
with whatever was counted and reported before. -/
inductive Obtained (tree : Tree) : Catalog → Prop where
  | discovered {config : Config} {progress : Progress} {c : Catalog}
      (h : ((discover tree config).outcome progress).1 = .ok c) : Obtained tree c
  | merged {progress : Progress} {c merged : Catalog} {count : Nat} (hc : Obtained tree c)
      (h : (c.mergeObjects.outcome progress).1 = .ok (count, merged)) : Obtained tree merged
  | listed {c : Catalog} (hc : Obtained tree c) (ordered : Bool) :
      Obtained tree (c.listing ordered).2
  | serialized {c : Catalog} (hc : Obtained tree c) (config : Config) :
      Obtained tree (c.serialize config).2

/-- **They all list the tree.** -/
theorem Obtained.lists {c : Catalog} (h : c.Obtained tree) : c.Lists tree := by
  induction h with
  | discovered h => exact (lists_of_discovered ((gives_discover tree _).eq h).symm).1
  | merged _ h ih => exact ih.of_mergeObjects h
  | listed _ ordered ih => exact ih.finalize _
  | serialized _ config ih => exact ih.finalize _

/-- **What is written was discovered**, and merged if the configuration asks so. -/
theorem exists_discovered_of_built {b : Catalog} (h : built tree config = .ok b) :
    ∃ c, discovered tree = .ok c ∧
      ((config.dedup = true ∧ ∃ count, c.mergedObjects = .ok (count, b)) ∨
        (¬config.dedup = true ∧ b = c)) := by
  obtain ⟨c, hc, h⟩ := bind_eq_ok_iff.mp h
  refine ⟨c, hc, ?_⟩
  by_cases hdedup : config.dedup = true
  · rw [if_pos hdedup] at h
    obtain ⟨⟨count, merged⟩, hm, h⟩ := bind_eq_ok_iff.mp h
    obtain rfl := Except.ok.inj h
    exact .inl ⟨hdedup, count, hm⟩
  · rw [if_neg hdedup] at h
    exact .inr ⟨hdedup, (Except.ok.inj h).symm⟩

/-- A catalog that is written comes of the tree. -/
theorem obtained_of_built {c : Catalog} (h : built tree config = .ok c) : c.Obtained tree := by
  obtain ⟨c₀, hd, hmerged⟩ := exists_discovered_of_built h
  have hdiscover : ((discover tree config).outcome {}).1 = .ok c₀ := by
    rw [gives_discover tree config, hd]
  have hc₀ : c₀.Obtained tree := .discovered hdiscover
  rcases hmerged with ⟨-, count, hm⟩ | ⟨-, rfl⟩
  · have hmerge : (c₀.mergeObjects.outcome {}).1 = .ok (count, c) := by
      rw [c₀.gives_mergedObjects, hm]
    exact hc₀.merged hmerge
  · exact hc₀

/-- The artifact of a catalog, numbered in the order that a configuration asks for. -/
def tables (c : Catalog) (ordered : Bool) : Except EncodeError Artifact :=
  (c.finalize (c.order ordered)).2.artifact (c.finalize (c.order ordered)).1

/-- What is written of a catalog that was numbered. -/
theorem gives_writeNumbered (c : Catalog) (o : Order) (config : Config) :
    (c.writeNumbered o config).Gives
      (c.artifact o >>= fun a => (a.write config).map Writer.bytes) := by
  refine (Pass.gives_ofExcept rfl).bind fun a => ?_
  cases a.write config with
  | error e => exact (Pass.gives_ofExcept rfl).bind_error _
  | ok w =>
    refine (Pass.gives_ofExcept rfl).bind_ok ?_
    refine (Pass.gives_report _).then ?_
    exact (Pass.gives_count _).then (Pass.gives_pure _)

/-- **Writing gives the bytes of the artifact**, whatever came before. -/
theorem gives_serialize (c : Catalog) (config : Config) :
    (c.serialize config).1.Gives
      (c.tables config.ordered >>= fun a => (a.write config).map Writer.bytes) :=
  gives_writeNumbered _ _ config

/-- Once the tables are made, all that is left is to write them. -/
theorem gives_serialize_of_tables {c : Catalog} {a : Artifact}
    (ha : c.tables config.ordered = .ok a) :
    (c.serialize config).1.Gives ((a.write config).map Writer.bytes) := by
  have hgives := c.gives_serialize config
  rw [ha] at hgives
  exact hgives

/-- **A catalog that lists a tree has tables**, in either order, and they store the tree. -/
theorem Lists.exists_tables {c : Catalog} (h : c.Lists tree) (ordered : Bool) :
    ∃ a, c.tables ordered = .ok a ∧ c.StoresIn tree (c.order ordered) a :=
  h.artifact_spec (c.enumerates_order ordered)

end Catalog

/-- The bytes of an artifact are those of its writer. -/
theorem Artifact.exists_write_of_bytes {a : Artifact} {bytes : ByteArray}
    (h : (a.write config).map Writer.bytes = .ok bytes) :
    ∃ w, a.write config = .ok w ∧ bytes = w.bytes := by
  cases hw : a.write config with
  | error e =>
    rw [hw] at h
    exact nomatch h
  | ok w =>
    rw [hw] at h
    exact ⟨w, rfl, (Except.ok.inj h).symm⟩

/-- The length of a text in bytes, and nothing for other values. -/
def Value.textSize : Value → Nat
  | .text s => s.utf8ByteSize
  | _ => 0

namespace Tree

/-! ## 3. Whole encodings -/

/-- The artifact of a tree.  It does not depend on the size limit. -/
def tables (tree : Tree) (config : Config) : Except EncodeError Artifact :=
  Catalog.built tree config >>= fun c => c.tables config.ordered

/-- **An encoding writes the artifact of its tree.** -/
theorem encode_eq_write (tree : Tree) (config : Config) :
    tree.encode config = tree.tables config >>= fun a => (a.write config).map Writer.bytes := by
  have hgives := (Catalog.gives_build tree config).bind fun c => c.gives_serialize config
  have h : tree.encode config = _ := hgives {}
  rw [h, tables]
  cases Catalog.built tree config with
  | error e => rfl
  | ok c => rfl

/-- An encoding that succeeds writes a catalog that comes of the tree. -/
theorem exists_obtained_of_encode {bytes : ByteArray} (h : tree.encode config = .ok bytes) :
    ∃ c : Catalog, c.Obtained tree ∧ (c.serialize config).1.Gives (.ok bytes) := by
  rw [encode_eq_write, tables] at h
  obtain ⟨a, ha, h⟩ := bind_eq_ok_iff.mp h
  obtain ⟨c, hb, ha⟩ := bind_eq_ok_iff.mp ha
  refine ⟨c, Catalog.obtained_of_built hb, ?_⟩
  have hgives := Catalog.gives_serialize_of_tables ha
  rw [h] at hgives
  exact hgives

/-- **An encoding writes the artifact** of the catalog that the passes leave. -/
theorem encode_of_discovered (config : Config) {c : Catalog}
    (h : Catalog.discovered tree = .ok c) :
    ∃ b a, Catalog.Built tree config b ∧ b.StoresIn tree (b.order config.ordered) a ∧
      tree.encode config = (a.write config).map Writer.bytes := by
  obtain ⟨b, hbuild, hb⟩ := Catalog.exists_built config h
  obtain ⟨a, ha, hstores⟩ := hb.lists.exists_tables config.ordered
  refine ⟨b, a, hb, hstores, ?_⟩
  exact (hbuild.bind_ok (Catalog.gives_serialize_of_tables ha)) _

/-- **The texts of a tree are short enough**: those that the root reaches, and the canonical texts
of the shapes. -/
structure TextsFit (tree : Tree) : Prop where
  texts : ∀ id, tree.Reachable id → ∀ s, .text s ∈ tree.children id →
    s.utf8ByteSize ≤ Write.maxLength
  shapes : ∀ id fields, tree.Reachable id → tree.node? id = some (.object fields) →
    (Shape.ofFields fields).canonicalText.utf8ByteSize ≤ Write.maxLength

/-- Without a limit, what stores a tree is written if the texts of the tree are short enough. -/
theorem TextsFit.exists_write {b : Catalog} {o : Catalog.Order} {a : Artifact}
    (htexts : tree.TextsFit) (hlists : b.Lists tree) (hstores : b.StoresIn tree o a)
    (hlimit : config.maxSize = none) : ∃ w, a.write config = .ok w := by
  rcases hstores.root with ⟨root, i, -, -, hroot⟩
  refine (Artifact.write_sized hlimit hroot).2 ⟨?_, ?_⟩
  · intro s hs
    rcases exists_left_of_forall₂ hstores.strings hs with ⟨x, -, hx⟩
    have hcontains : b.strings.contains s = true :=
      InternTable.contains_iff_exists_getId?.mpr ⟨x, InternTable.getId?_of_getValue? hx⟩
    rcases (hlists.strings s).mp hcontains with ⟨id, hid, hs⟩
    exact htexts.texts id hid s hs
  · intro shape hs
    rw [hstores.shapes, Array.mem_toList_iff] at hs
    rcases (hlists.shapes shape).mp hs with ⟨id, fields, hid, hn, rfl⟩
    exact htexts.shapes id fields hid hn

/-- **Without a limit, a discovered tree is encoded** if its texts are short enough. -/
theorem exists_encode {c : Catalog} (h : Catalog.discovered tree = .ok c)
    (hlimit : config.maxSize = none) (htexts : tree.TextsFit) :
    ∃ bytes, tree.encode config = .ok bytes := by
  rcases encode_of_discovered config h with ⟨b, a, hb, hstores, hencode⟩
  rcases htexts.exists_write hb.lists hstores hlimit with ⟨w, hw⟩
  exact ⟨w.bytes, by rw [hencode, hw]; rfl⟩

/-- The texts are short enough if those of the arena are. -/
theorem textsFit_of_nodes
    (htexts : ∀ node ∈ tree.nodes.toList, ∀ v ∈ node.values, v.textSize ≤ Write.maxLength)
    (hshapes : ∀ fields, .object fields ∈ tree.nodes.toList →
      (Shape.ofFields fields).canonicalText.utf8ByteSize ≤ Write.maxLength) : tree.TextsFit where
  texts := fun id _ s hs => by
    rcases exists_mem_nodes_of_mem_children hs with ⟨node, hnode, hv⟩
    exact htexts node hnode _ hv
  shapes := fun id fields _ hn => hshapes fields (mem_nodes_of_node? hn)

/-- Without a limit, a tree is encoded if the root is an object and the arena holds nothing without
an encoding and no text that is too long. -/
theorem exists_encode_of_nodes {root : NodeId} (hr : tree.root = some (.node root))
    (hobj : tree.IsObject root) (hlimit : config.maxSize = none)
    (hall : ∀ node ∈ tree.nodes.toList, ∀ v ∈ node.values,
      (Slot.ofValue tree v).isOk = true ∧ v.textSize ≤ Write.maxLength)
    (hshapes : ∀ fields, .object fields ∈ tree.nodes.toList →
      (Shape.ofFields fields).canonicalText.utf8ByteSize ≤ Write.maxLength) :
    ∃ bytes, tree.encode config = .ok bytes := by
  have hslots : ∀ node ∈ tree.nodes.toList, ∀ v ∈ node.values,
      (Slot.ofValue tree v).isOk = true := fun node hnode v hv => (hall node hnode v hv).1
  obtain ⟨c, hc⟩ := Catalog.exists_discovered_of_nodes hr hobj hslots
  refine exists_encode hc hlimit (textsFit_of_nodes ?_ hshapes)
  exact fun node hnode v hv => (hall node hnode v hv).2

/-- **A tree that is not discovered is not encoded**, whatever the configuration. -/
theorem encode_of_not_discovered {e : EncodeError} (h : Catalog.discovered tree = .error e)
    (config : Config) : tree.encode config = .error e := by
  have hdiscover := Catalog.gives_discover tree config
  rw [h] at hdiscover
  have hbuild : (Catalog.build tree config).Gives (.error e) := hdiscover.bind_error _
  exact (hbuild.bind_error fun c => (c.serialize config).1) {}

/-- An encoding that succeeds has discovered its tree. -/
theorem exists_discovered_of_encode {bytes : ByteArray} (h : tree.encode config = .ok bytes) :
    ∃ c, Catalog.discovered tree = .ok c := by
  cases hd : Catalog.discovered tree with
  | ok c => exact ⟨c, rfl⟩
  | error e => simp [encode_of_not_discovered hd] at h

/-- **What is read back from an encoding**: the artifact of a built catalog, which stores the
tree. -/
theorem read_of_encode {bytes : ByteArray} (hfits : tree.Fits) (hordered : config.ordered = true)
    (h : tree.encode config = .ok bytes) :
    ∃ b a i, Catalog.Built tree config b ∧ b.Stores tree a ∧ a.root = some i ∧
      Image.read bytes = some (a.image config.intEncoding i) := by
  obtain ⟨c, hc⟩ := exists_discovered_of_encode h
  obtain ⟨b, a, hb, hstores, he⟩ := encode_of_discovered config hc
  rw [hordered] at hstores
  obtain ⟨w, hw, rfl⟩ := Artifact.exists_write_of_bytes (he.symm.trans h)
  have hsmall := hstores.fits (b.enumerates_order true) hb.lists hfits
  obtain ⟨i, hi, hread⟩ := Artifact.read_of_write hsmall hw
  exact ⟨b, a, i, hb, hstores, hi, hread⟩

end Tree

end PackedTree
