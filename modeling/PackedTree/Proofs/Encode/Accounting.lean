/-
# The counters account for the artifact

The counters of an encoding are filled by three passes: the discovery counts its visits and its
tables, the merge counts what it redirects, and the writing overwrites the sizes of the tables by
what it wrote and adds the counters of the writer.  This module says that in the end they agree with
the tree and with what is read back from the bytes.

* `Catalog.counts_build_merged`, `Catalog.counts_serialize`: what the passes count.
* `Catalog.exists_counts_build`: nodes and objects are counted as the root reaches them, and the
  objects that are left with those that were merged are all of them.
* `Tree.accounts_of_encodePass`: the counters of a whole encoding.

Encodings start from counters that are zero.  A pass that does not run leaves its counters, so those
of an earlier encoding would stay.
-/
import PackedTree.Proofs.Discovery.Tables
import PackedTree.Proofs.Encode.Mirror
import PackedTree.Proofs.Encode.Refusal
import PackedTree.Proofs.Encode.Renumbering
import PackedTree.Proofs.Wire.Tally

namespace PackedTree

/-- A list that holds the members of a set, each once, is as long as they are many. -/
theorem encard_eq_length {α : Type} {S : Set α} {l : List α} (hd : l.Nodup)
    (hS : ∀ a, a ∈ l ↔ a ∈ S) : S.encard = l.length := by
  classical
  have hset : S = (l.toFinset : Set α) := Set.ext fun a => by
    rw [← hS, Finset.mem_coe, List.mem_toFinset]
  rw [hset, Set.encard_coe_eq_coe_finsetCard, List.toFinset_card_of_nodup hd]

/-- A fresh table counts its values. -/
theorem InternTable.Fresh.encard_eq {K : Type} [DecidableEq K] [Hashable K] {table : InternTable K}
    (h : table.Fresh) {S : Set K} (hS : ∀ k, table.contains k = true ↔ k ∈ S) :
    S.encard = table.count := by
  have hvalues : table.values.length = table.count := by
    rw [count, h.live_eq, length_identities, values, List.length_map, Array.length_toList]
    rfl
  rw [← hvalues]
  exact encard_eq_length table.values_nodup fun k => mem_values_iff.trans (hS k)

/-- The counters after an artifact was written: its tables, and what its writer counted. -/
def Stats.written (stats : Stats) (a : Artifact) (w : Writer) : Stats :=
  { stats with
    objects := a.objects.length
    arrays := a.arrays.length
    strings := a.strings.length
    shapes := a.shapes.length
    tagBytes := w.tagBytes
    varintSizes := w.varintSizes
    bytesWritten := w.position }

namespace Catalog

variable {tree : Tree} {config : Config} {c b : Catalog}

/-! ## 1. What the passes count -/

/-- A discovery and the merge after it. -/
theorem counts_build_merged {f : Stats → Stats} {count : Nat} {merged : Catalog}
    (hdiscover : (discover tree config).Counts c f) (hdedup : config.dedup = true)
    (hm : c.mergedObjects = .ok (count, merged)) :
    (build tree config).Counts merged fun stats => { f stats with objectsMerged := count } := by
  show (build tree config).Counts merged
    ((fun stats : Stats => { stats with objectsMerged := count }) ∘ f)
  refine hdiscover.bind ?_
  rw [if_pos hdedup]
  exact (counts_mergeObjects hm).before (Pass.counts_pure merged)

/-- A discovery without a merge. -/
theorem counts_build_plain {f : Stats → Stats} (hdiscover : (discover tree config).Counts c f)
    (hdedup : ¬config.dedup = true) : (build tree config).Counts c f := by
  refine hdiscover.before ?_
  rw [if_neg hdedup]
  exact Pass.counts_pure c

/-- **What the writing counts**: the tables of the artifact, and what the writer counted. -/
theorem counts_serialize {a : Artifact} {w : Writer} (ha : c.tables config.ordered = .ok a)
    (hw : a.write config = .ok w) :
    (c.serialize config).1.Counts w.bytes fun stats => stats.written a w := by
  refine (Pass.counts_ofExcept ha).after ?_
  refine (Pass.counts_ofExcept hw).after ?_
  refine (Pass.counts_report _).after ?_
  exact (Pass.counts_count _).before (Pass.counts_pure _)

/-! ## 2. Nodes and objects -/

/-- A catalog that lists a tree counts the arrays that the root reaches. -/
theorem Lists.encard_arrays (h : c.Lists tree) :
    {id | tree.Reachable id ∧ tree.IsArray id}.encard = c.arrays.count :=
  h.arrays_fresh.encard_eq h.arrays

/-- **Every node that the root reaches is an object or an array**, and none is both. -/
theorem Lists.encard_reachable (h : c.Lists tree) :
    {id | tree.Reachable id}.encard = {id | tree.Reachable id ∧ tree.IsObject id}.encard +
      {id | tree.Reachable id ∧ tree.IsArray id}.encard := by
  have hdisjoint : Disjoint {id | tree.Reachable id ∧ tree.IsObject id}
      {id | tree.Reachable id ∧ tree.IsArray id} := by
    rw [Set.disjoint_left]
    rintro id ⟨-, hobj⟩ ⟨-, harr⟩
    exact Tree.not_isArray_of_isObject hobj harr
  rw [← Set.encard_union_eq hdisjoint]
  refine congrArg Set.encard (Set.ext fun id => ⟨fun hid => ?_, ?_⟩)
  · rcases h.isObject_or_isArray hid with hobj | harr
    · exact .inl ⟨hid, hobj⟩
    · exact .inr ⟨hid, harr⟩
  · rintro (⟨hid, -⟩ | ⟨hid, -⟩)
    · exact hid
    · exact hid

/-- **What is counted before the writing**, if nothing was counted as merged before: the nodes and
the objects that the root reaches, and as many merges as there are objects gone. -/
theorem exists_counts_build (hb : built tree config = .ok b) :
    ∃ f, (build tree config).Counts b f ∧ ∀ stats : Stats, stats.objectsMerged = 0 →
      {id | tree.Reachable id}.encard = (f stats).nodesVisited ∧
        {id | tree.Reachable id ∧ tree.IsObject id}.encard = (f stats).objectsDiscovered ∧
        (f stats).objectsDiscovered = b.objects.count + (f stats).objectsMerged := by
  obtain ⟨c, hd, hmerged⟩ := exists_discovered_of_built hb
  obtain ⟨hlists, hfresh⟩ := lists_of_discovered hd
  obtain ⟨root, w, hroot, hrun, hc⟩ := exists_walk_of_discovered hd
  obtain ⟨-, -, hfinds⟩ := finds_of_walk hd hroot hrun hc
  have hdiscover := counts_discover config hroot hrun hc
  have hnodes : {id | tree.Reachable id}.encard = w.visited.size :=
    encard_eq_length hfinds.visits_nodup hfinds.visits
  have hobjects : {id | tree.Reachable id ∧ tree.IsObject id}.encard = c.objects.count :=
    hfresh.encard_eq hlists.objects
  rcases hmerged with ⟨hdedup, count, hm⟩ | ⟨hdedup, rfl⟩
  · have hcount := (hlists.count_of_merged hm).1
    refine ⟨_, counts_build_merged hdiscover hdedup hm, fun stats _ => ⟨hnodes, hobjects, ?_⟩⟩
    show c.objects.live.length = b.objects.live.length + count
    omega
  · refine ⟨_, counts_build_plain hdiscover hdedup, fun stats hnone => ⟨hnodes, hobjects, ?_⟩⟩
    show b.objects.count = b.objects.count + stats.objectsMerged
    rw [hnone, Nat.add_zero]

end Catalog

/-! ## 3. Whole encodings -/

namespace Stats

/-- **Counters agree with a tree**: the nodes and objects that its root reaches, of which those that
were merged are gone. -/
structure CountsTree (stats : Stats) (tree : Tree) : Prop where
  nodesVisited : {id | tree.Reachable id}.encard = stats.nodesVisited
  objectsDiscovered :
    {id | tree.Reachable id ∧ tree.IsObject id}.encard = stats.objectsDiscovered
  objects : stats.objectsDiscovered = stats.objects + stats.objectsMerged
  nodes : stats.nodesVisited = stats.objectsDiscovered + stats.arrays

/-- **Counters agree with an artifact**: the counts of its header, its tagged values, and its
integers of variable width by their lengths. -/
structure CountsImage (stats : Stats) (image : Image) : Prop where
  strings : stats.strings = image.counts.strings
  shapes : stats.shapes = image.counts.shapes
  objects : stats.objects = image.counts.objects
  arrays : stats.arrays = image.counts.arrays
  tagBytes : stats.tagBytes = image.taggedValues
  varintSizes : ∀ i : Fin Varint.maxSize,
    stats.varintSizes.get i = varintsOfLength (i + 1) image.varints
  fixed32 : image.encoding = .fixed32 → stats.varintSizes = #v[1, 0, 0, 0, 0]

end Stats

/-- An integer below 128 is one of one byte. -/
theorem varintsOfLength_singleton {n : Nat} (hn : n < 128) (length : Nat) :
    varintsOfLength length [n] = if length = 1 then 1 else 0 := by
  rw [varintsOfLength, List.countP_cons, List.countP_nil, Varint.length_encode_of_lt hn]
  by_cases hl : length = 1
  · simp [hl]
  · simp [hl, Ne.symm hl]

/-- With fixed widths only the name of the format has a length of variable width. -/
theorem varintSizes_fixed32 {sizes : VarintSizes} {image : Image}
    (hencoding : image.encoding = .fixed32)
    (h : ∀ i : Fin Varint.maxSize, sizes.get i = varintsOfLength (i + 1) image.varints) :
    sizes = #v[1, 0, 0, 0, 0] := by
  have hvarints : image.varints = [18] := by
    rw [Image.varints, hencoding]
    rfl
  have hone : ∀ i : Fin 5, (if i.val + 1 = 1 then 1 else 0) = #v[1, 0, 0, 0, 0].get i := by decide
  refine Vector.ext fun i hi => ?_
  have hsize := h ⟨i, hi⟩
  rw [hvarints, varintsOfLength_singleton (by decide)] at hsize
  exact hsize.trans (hone ⟨i, hi⟩)

/-- **What is written agrees with the counters** that the writing leaves. -/
theorem Artifact.countsImage_of_write {a : Artifact} {config : Config} {root : Nat} {w : Writer}
    (hroot : a.root = some root) (hw : a.write config = .ok w) (stats : Stats) :
    (stats.written a w).CountsImage (a.image config.intEncoding root) := by
  obtain ⟨htags, hsizes⟩ := write_tallied hroot hw
  exact
    { strings := rfl
      shapes := rfl
      objects := rfl
      arrays := rfl
      tagBytes := htags
      varintSizes := hsizes
      fixed32 := fun hencoding => varintSizes_fixed32 hencoding hsizes }

namespace Tree

variable {tree : Tree} {config : Config} {progress after : Progress} {bytes : ByteArray}

/-- **An encoding that succeeds** builds a catalog and writes its tables. -/
theorem exists_write_of_encodePass (h : tree.encodePass config progress = .ok bytes after) :
    ∃ b a w, Catalog.built tree config = .ok b ∧ b.tables config.ordered = .ok a ∧
      a.write config = .ok w ∧ w.bytes = bytes := by
  have hgives := (Catalog.gives_build tree config).bind fun c => c.gives_serialize config
  have hresult := (hgives.eq (congrArg Prod.fst (Pass.outcome_of_ok h))).symm
  obtain ⟨b, hb, hresult⟩ := bind_eq_ok_iff.mp hresult
  obtain ⟨a, ha, hresult⟩ := bind_eq_ok_iff.mp hresult
  obtain ⟨w, hw, rfl⟩ := Artifact.exists_write_of_bytes hresult
  exact ⟨b, a, w, hb, ha, hw, rfl⟩

/-- **The counters account for the artifact.**  An encoding that succeeds from counters that are
zero leaves the length of its bytes, counters that agree with the tree, and counters that agree with
what is read back. -/
theorem accounts_of_encodePass (h : tree.encodePass config progress = .ok bytes after)
    (hzero : progress.stats = {}) :
    after.stats.bytesWritten = bytes.size ∧ after.stats.CountsTree tree ∧
      (tree.Fits → ∃ image, Image.read bytes = some image ∧
        image.encoding = config.intEncoding ∧ after.stats.CountsImage image) := by
  obtain ⟨b, a, w, hb, ha, hw, rfl⟩ := exists_write_of_encodePass h
  obtain ⟨f, hbuild, hbefore⟩ := Catalog.exists_counts_build hb
  obtain ⟨hnodes, hobjects, hmerged⟩ := hbefore progress.stats (by rw [hzero])
  have hcounts : (Catalog.build tree config >>= fun c => (c.serialize config).1).Counts w.bytes
      ((fun stats => stats.written a w) ∘ f) := hbuild.bind (Catalog.counts_serialize ha hw)
  have hstats : after.stats = (f progress.stats).written a w := (hcounts.stats_eq h).2
  have hlists := (Catalog.obtained_of_built hb).lists
  have henumerates := b.enumerates_order config.ordered
  obtain ⟨-, hobjectCount, harrayCount⟩ := Catalog.lengths_of_tablesIn henumerates ha
  have hsum : (f progress.stats).nodesVisited =
      (f progress.stats).objectsDiscovered + b.arrays.count := by
    have hreachable := hlists.encard_reachable
    rw [hnodes, hobjects, hlists.encard_arrays] at hreachable
    exact_mod_cast hreachable
  rw [hstats]
  refine ⟨rfl, ?_, fun hfits => ?_⟩
  · exact
      { nodesVisited := hnodes
        objectsDiscovered := hobjects
        objects := by
          show (f progress.stats).objectsDiscovered =
            a.objects.length + (f progress.stats).objectsMerged
          rw [hobjectCount, hmerged]
        nodes := by
          show (f progress.stats).nodesVisited =
            (f progress.stats).objectsDiscovered + a.arrays.length
          rw [harrayCount, hsum] }
  · obtain ⟨a', ha', hstores⟩ := hlists.exists_tables config.ordered
    obtain rfl : a = a' := Except.ok.inj (ha.symm.trans ha')
    obtain ⟨root, hroot, hread⟩ :=
      Artifact.read_of_write (hstores.fits henumerates hlists hfits) hw
    exact ⟨_, hread, rfl, Artifact.countsImage_of_write hroot hw _⟩

/-- The counters of two equal objects: three nodes, of which one is merged away. -/
theorem accounts_of_encodePass_twins : ∃ bytes after image,
    twins.encodePass {} {} = .ok bytes after ∧ Image.read bytes = some image ∧
      after.stats.bytesWritten = bytes.size ∧ after.stats.CountsTree twins ∧
      after.stats.CountsImage image := by
  obtain ⟨bytes, h⟩ := exists_encode_twins
  obtain ⟨after, hpass⟩ := Pass.exists_of_outcome h
  obtain ⟨hbytes, htree, hread⟩ := accounts_of_encodePass hpass rfl
  obtain ⟨image, himage, -, hcounts⟩ := hread (fits_of_length (by decide) (by decide))
  exact ⟨bytes, after, image, hpass, himage, hbytes, htree, hcounts⟩

end Tree

end PackedTree
