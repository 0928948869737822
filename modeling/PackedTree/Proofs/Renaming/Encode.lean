/-
# What an encoding depends on

The bytes, the listing, the counters and the events of an encoding are those of the reachable graph.
The numbers of its nodes and whatever else the arena holds leave no trace in them.

* `Catalog.Renames.tables_eq`: catalogs that correspond have the same artifact.
* `Tree.encodePass_eq`: trees that differ in the numbers of their nodes are encoded alike.
* `Catalog.stages_of_renames`: and so is what every stage on the way gives.

The order of the tables is that of the discovery.  An order that is left to the look-up maps would
depend on how nodes are hashed, so on their numbers.
-/
import PackedTree.Artifact.Listing
import PackedTree.Proofs.Encode.Lossless
import PackedTree.Proofs.Renaming.Merge

namespace PackedTree

variable {f : NodeId → NodeId} {tree other : Tree}

namespace Catalog

variable {c c' : Catalog}

/-! ## 1. The same artifact -/

/-- The catalog, numbered in order of discovery. -/
def numbered (c : Catalog) : Catalog := (c.finalize c.discoveryOrder).2

/-- The cells of values that correspond are the same. -/
theorem Renames.cell_eq (h : Catalog.Renames f tree other c c') (ht : tree.Renames f other)
    {v : Value} (hv : v.Inside tree) {cell : Cell} (hc : c.numbered.cell v = .ok cell) :
    c'.numbered.cell (v.rename f) = .ok cell := by
  have htree : c.numbered.tree = tree := h.tree_eq
  have hother : c'.numbered.tree = other := h.other_eq
  have hstrings : c'.numbered.strings = c.numbered.strings :=
    congrArg (fun table => (InternTable.finalize table table.identities).2) h.strings
  unfold Catalog.cell at hc ⊢
  rw [htree] at hc
  rw [hother]
  cases hs : Slot.ofValue tree v with
  | error e => simp [hs] at hc
  | ok slot =>
    rw [hs] at hc
    rw [ht.ofValue hv hs]
    have hinside := Slot.inside_of_ofValue hv hs
    cases slot with
    | text s =>
      simp only [Slot.rename, hstrings] at hc ⊢
      exact hc
    | object a =>
      have hindex : c'.numbered.objects.indexOfValue? (f a) =
          c.numbered.objects.indexOfValue? a :=
        h.objects.indexOfValue?_finalize ht.bijOn.injOn hinside
      simp only [Slot.rename, index] at hc ⊢
      rw [hindex]
      cases hi : c.numbered.objects.indexOfValue? a with
      | none => simp [hi, Except.map] at hc
      | some i =>
        rw [hi] at hc
        exact hc
    | array a =>
      have hindex : c'.numbered.arrays.indexOfValue? (f a) =
          c.numbered.arrays.indexOfValue? a :=
        h.arrays.indexOfValue?_finalize ht.bijOn.injOn hinside
      simp only [Slot.rename, index] at hc ⊢
      rw [hindex]
      cases hi : c.numbered.arrays.indexOfValue? a with
      | none => simp [hi, Except.map] at hc
      | some i =>
        rw [hi] at hc
        exact hc
    | int32 _ | float64 _ | bool _ | null => exact hc

theorem Renames.cells_eq (h : Catalog.Renames f tree other c c') (ht : tree.Renames f other)
    {vs : List Value} (hvs : ∀ v ∈ vs, v.Inside tree) {cells : List Cell}
    (hc : vs.mapM c.numbered.cell = .ok cells) :
    (vs.map (Value.rename f)).mapM c'.numbered.cell = .ok cells := by
  rw [mapM_eq_ok_iff] at hc ⊢
  rw [List.forall₂_map_left_iff]
  induction hc with
  | nil => exact .nil
  | cons hv _ ih =>
    obtain ⟨hinside, hrest⟩ := List.forall_mem_cons.mp hvs
    exact .cons (h.cell_eq ht hinside hv) (ih hrest)

/-- The entries of an identity are the same. -/
theorem Renames.objectEntry_eq (h : Catalog.Renames f tree other c c') (ht : tree.Renames f other)
    {x : Identity} {entry : ObjectEntry} (he : c.numbered.objectEntry x = .ok entry) :
    c'.numbered.objectEntry x = .ok entry := by
  have htree : c.numbered.tree = tree := h.tree_eq
  have hother : c'.numbered.tree = other := h.other_eq
  have hshapes : c'.numbered.shapes = c.numbered.shapes := h.shapes
  have hvalue : c'.numbered.objects.getValue? x = (c.numbered.objects.getValue? x).map f :=
    h.objects.value x
  unfold Catalog.objectEntry at he ⊢
  rw [htree] at he
  rw [hother, hshapes, hvalue]
  cases hx : c.numbered.objects.getValue? x with
  | none => simp [hx] at he
  | some a =>
    have ha : tree.Reachable a := h.objects.within x a hx
    simp only [hx, Option.map_some] at he ⊢
    rw [ht.node a ha]
    cases hn : tree.node? a with
    | none => simp [hn] at he
    | some node =>
      cases node with
      | array items => simp [hn] at he
      | object fields =>
        simp only [hn] at he
        cases harr : c.numbered.shapes.arrange a fields with
        | error e => simp [harr] at he
        | ok p =>
          obtain ⟨shape, values⟩ := p
          have hinside : ∀ v ∈ values, v.Inside tree := by
            intro v hv
            have hvalues := mapM_eq_some_iff.mp (ShapeRegistry.arrange_eq_ok_iff.mp harr).2
            obtain ⟨name, -, hname⟩ := exists_left_of_forall₂ hvalues hv
            exact ha.all_inside hn v (Fields.mem_values_of_get? hname)
          simp only [harr] at he
          simp only [Option.map_some, Node.rename, ShapeRegistry.arrange_rename harr]
          cases hcells : values.mapM c.numbered.cell with
          | error e => simp [hcells, Except.map] at he
          | ok cells =>
            rw [hcells] at he
            rw [h.cells_eq ht hinside hcells]
            exact he

theorem Renames.arrayEntry_eq (h : Catalog.Renames f tree other c c') (ht : tree.Renames f other)
    {x : Identity} {cells : List Cell} (he : c.numbered.arrayEntry x = .ok cells) :
    c'.numbered.arrayEntry x = .ok cells := by
  have htree : c.numbered.tree = tree := h.tree_eq
  have hother : c'.numbered.tree = other := h.other_eq
  have hvalue : c'.numbered.arrays.getValue? x = (c.numbered.arrays.getValue? x).map f :=
    h.arrays.value x
  unfold Catalog.arrayEntry at he ⊢
  rw [htree] at he
  rw [hother, hvalue]
  cases hx : c.numbered.arrays.getValue? x with
  | none => simp [hx] at he
  | some a =>
    have ha : tree.Reachable a := h.arrays.within x a hx
    simp only [hx, Option.map_some] at he ⊢
    rw [ht.node a ha]
    cases hn : tree.node? a with
    | none => simp [hn] at he
    | some node =>
      cases node with
      | object fields => simp [hn] at he
      | array items =>
        simp only [hn] at he
        exact h.cells_eq ht (ha.all_inside hn) he

/-- **Catalogs that correspond have the same artifact**, numbered in order of discovery. -/
theorem Renames.tables_eq (h : Catalog.Renames f tree other c c') (ht : tree.Renames f other)
    {a : Artifact} (ha : c.tables true = .ok a) : c'.tables true = .ok a := by
  have hstrings : c'.numbered.strings = c.numbered.strings :=
    congrArg (fun table => (InternTable.finalize table table.identities).2) h.strings
  have hlive : c'.strings.live = c.strings.live := by rw [h.strings]
  have horder : (c'.finalize c'.discoveryOrder).1 = (c.finalize c.discoveryOrder).1 := by
    have hthis : (c.finalize c.discoveryOrder).1 = ⟨c.strings.live, c.objects.live, c.arrays.live⟩ :=
      rfl
    have hthat : (c'.finalize c'.discoveryOrder).1 =
      ⟨c'.strings.live, c'.objects.live, c'.arrays.live⟩ := rfl
    rw [hthat, hthis, hlive, h.objects.live_eq, h.arrays.live_eq]
  have hstring : c'.numbered.stringEntry = c.numbered.stringEntry := by
    funext x
    rw [stringEntry, hstrings, stringEntry]
  have hroot : c'.numbered.root.bind c'.numbered.objects.indexOf? =
      c.numbered.root.bind c.numbered.objects.indexOf? := by
    have hroots : c'.numbered.root = c.numbered.root := h.root
    rw [hroots]
    exact congrArg _ (funext h.objects.indexOf?_finalize)
  have hshapes : c'.numbered.shapes = c.numbered.shapes := h.shapes
  have hold : c.numbered.artifact (c.finalize c.discoveryOrder).1 = .ok a := ha
  have hgoal : c'.numbered.artifact (c'.finalize c'.discoveryOrder).1 = .ok a := by
    rw [horder]
    unfold artifact at hold ⊢
    rw [hstring, hroot, hshapes]
    cases hs : (c.finalize c.discoveryOrder).1.strings.mapM c.numbered.stringEntry with
    | error e => simp [hs, bind, Except.bind] at hold
    | ok strings =>
      cases ho : (c.finalize c.discoveryOrder).1.objects.mapM c.numbered.objectEntry with
      | error e => simp [hs, ho, bind, Except.bind] at hold
      | ok objects =>
        cases hr : (c.finalize c.discoveryOrder).1.arrays.mapM c.numbered.arrayEntry with
        | error e => simp [hs, ho, hr, bind, Except.bind] at hold
        | ok arrays =>
          have ho' : (c.finalize c.discoveryOrder).1.objects.mapM c'.numbered.objectEntry =
              .ok objects :=
            mapM_eq_ok_iff.mpr ((mapM_eq_ok_iff.mp ho).imp fun _ _ => h.objectEntry_eq ht)
          have hr' : (c.finalize c.discoveryOrder).1.arrays.mapM c'.numbered.arrayEntry =
              .ok arrays :=
            mapM_eq_ok_iff.mpr ((mapM_eq_ok_iff.mp hr).imp fun _ _ => h.arrayEntry_eq ht)
          simp only [hs, ho, hr, bind, Except.bind] at hold
          simp only [ho', hr', bind, Except.bind]
          exact hold
  exact hgoal

/-- **They are written and listed alike.** -/
theorem Renames.serialize_eq (h : Catalog.Renames f tree other c c') (ht : tree.Renames f other)
    (hlists : c.Lists tree) {config : Config} (hordered : config.ordered = true) :
    (c'.serialize config).1 = (c.serialize config).1 ∧ (c'.listing true).1 = (c.listing true).1 := by
  obtain ⟨a, ha, -⟩ := hlists.exists_tables true
  have ha' := h.tables_eq ht ha
  have hpure : (c.finalize (c.order true)).2.artifact (c.finalize (c.order true)).1 = .ok a := ha
  have hpure' : (c'.finalize (c'.order true)).2.artifact (c'.finalize (c'.order true)).1 =
    .ok a := ha'
  constructor
  · simp only [serialize, writeNumbered, hordered, hpure, hpure']
  · simp only [listing, hpure, hpure']

/-! ## 2. The same encoding -/

/-- The catalogs that are written correspond. -/
theorem build_agree (ht : tree.Renames f other) (config : Config) :
    Pass.Agree (fun c c' => Catalog.Renames f tree other c c' ∧ c.Lists tree) (build tree config)
      (build other config) := by
  have hdiscover : Pass.Agree (fun c c' => Catalog.Renames f tree other c c' ∧ c.Lists tree)
      (discover tree config) (discover other config) := by
    intro progress c after h
    obtain ⟨c', h', hrenames⟩ := discover_agree ht config progress c after h
    have hdiscovered := (gives_discover tree config).eq (congrArg Prod.fst (Pass.outcome_of_ok h))
    exact ⟨c', h', hrenames, (lists_of_discovered hdiscovered.symm).1⟩
  refine hdiscover.bind fun c c' ⟨hrenames, hlists⟩ => ?_
  split
  · intro progress b after h
    simp only [bind, EStateM.bind, pure, EStateM.pure] at h ⊢
    cases hm : c.mergeObjects progress with
    | error e s => simp [hm] at h
    | ok p s =>
      obtain ⟨p', hm', -, hmerged⟩ := hrenames.mergeObjects_agree ht hlists progress p s hm
      simp only [hm, EStateM.Result.ok.injEq] at h
      obtain ⟨rfl, rfl⟩ := h
      simp only [hm']
      exact ⟨p'.2, rfl, hmerged,
        hlists.of_mergeObjects (congrArg Prod.fst (Pass.outcome_of_ok hm))⟩
  · exact Pass.agree_pure (pure ()) ⟨hrenames, hlists⟩

end Catalog

/-- **Trees that differ in the numbers of their nodes are encoded alike**, with the same counters
and events. -/
theorem Tree.encodePass_eq (ht : tree.Renames f other) {config : Config}
    (hordered : config.ordered = true) {c : Catalog} (hd : Catalog.discovered tree = .ok c) :
    other.encodePass config = tree.encodePass config := by
  funext progress
  obtain ⟨b, hb, -⟩ := Catalog.exists_built config hd
  obtain ⟨after, hbuild⟩ := hb.exists_ok progress
  obtain ⟨b', hbuild', hrenames, hlists⟩ := Catalog.build_agree ht config progress b after hbuild
  simp only [encodePass, bind, EStateM.bind, hbuild, hbuild']
  rw [(hrenames.serialize_eq ht hlists hordered).1]

/-- **The output depends on the reachable graph only.**  If the nodes that two roots reach
correspond, stage for stage the same comes of both trees: the discovery finds the same shapes and
texts and gives nodes that correspond the same identities, a merge redirects the same identities,
and the listings before and after it, the bytes or the refusal of an ordered encoding, and all
counters and events are the same. -/
theorem Catalog.stages_of_renames (ht : tree.Renames f other) {config : Config}
    (hordered : config.ordered = true) {progress : Progress} {c : Catalog}
    (h : ((discover tree config).outcome progress).1 = .ok c) :
    (∃ c', (discover other config).outcome progress =
        (.ok c', ((discover tree config).outcome progress).2) ∧
      c'.shapes = c.shapes ∧ c'.strings = c.strings ∧ c'.root = c.root ∧
      (∀ a, tree.Reachable a → c'.objects.getId? (f a) = c.objects.getId? a ∧
        c'.arrays.getId? (f a) = c.arrays.getId? a) ∧
      (c'.listing true).1 = (c.listing true).1 ∧
      ∀ progress, ∃ count merged merged' after,
        c.mergeObjects.outcome progress = (.ok (count, merged), after) ∧
        c'.mergeObjects.outcome progress = (.ok (count, merged'), after) ∧
        (∀ x, merged'.objects.resolve x = merged.objects.resolve x) ∧
        (merged'.listing true).1 = (merged.listing true).1) ∧
    other.encodePass config = tree.encodePass config ∧
    other.encode config = tree.encode config := by
  have hdiscovered : discovered tree = .ok c := ((gives_discover tree config).eq h).symm
  have hlists := (lists_of_discovered hdiscovered).1
  have hencode := Tree.encodePass_eq ht hordered hdiscovered
  obtain ⟨after, hc⟩ := Pass.exists_of_outcome h
  obtain ⟨c', hc', hrenames⟩ := discover_agree ht config progress c after hc
  refine ⟨⟨c', ?_, hrenames.shapes, hrenames.strings, hrenames.root, ?_, ?_, ?_⟩, hencode, ?_⟩
  · rw [Pass.outcome_of_ok hc, Pass.outcome_of_ok hc']
  · intro a ha
    exact ⟨hrenames.objects.getId?_eq ht.bijOn.injOn ha,
      hrenames.arrays.getId?_eq ht.bijOn.injOn ha⟩
  · exact (hrenames.serialize_eq ht hlists hordered).2
  · intro progress
    obtain ⟨count, merged, hgives, hmerged⟩ := hlists.merge_again
    obtain ⟨after, hm⟩ := hgives.exists_ok progress
    obtain ⟨⟨count', merged'⟩, hm', hcount, hrenamed⟩ :=
      hrenames.mergeObjects_agree ht hlists progress _ after hm
    obtain rfl : count' = count := hcount
    exact ⟨_, merged, merged', after, Pass.outcome_of_ok hm, Pass.outcome_of_ok hm',
      hrenamed.objects.resolve_eq, (hrenamed.serialize_eq ht hmerged hordered).2⟩
  · rw [Tree.encode, hencode, Tree.encode]

/-! ## 3. The same tree in another arena -/

/-- Two empty objects in an arena with other numbers, and with a node that has no encoding and that
nothing refers to. -/
def scattered : Tree where
  nodes := #[.array [.foreign "stray"],
    .object (.ofList [("left", .node ⟨3⟩), ("right", .node ⟨2⟩)]), .object .empty, .object .empty]
  root := some (.node ⟨1⟩)

/-- Where the nodes stand in the other arena. -/
def scatter (a : NodeId) : NodeId :=
  match a.index with
  | 0 => ⟨3⟩
  | 1 => ⟨2⟩
  | 2 => ⟨1⟩
  | n + 3 => ⟨n + 4⟩

theorem scatter_injective : Function.Injective scatter := by
  rintro ⟨a⟩ ⟨b⟩ h
  unfold scatter at h
  split at h <;> split at h <;> simp_all

theorem renames_scattered : twins.Renames scatter scattered := by
  refine Tree.renames_of_injOn rfl ?_ scatter_injective.injOn
  rintro ⟨a⟩ -
  match a with
  | 0 => rfl
  | 1 => rfl
  | 2 => rfl
  | n + 3 => rfl

/-- Both arenas give the same bytes. -/
theorem Catalog.stages_of_renames_scattered :
    (∃ c c', ((discover twins {}).outcome).1 = .ok c ∧
      ((discover scattered {}).outcome).1 = .ok c' ∧ c'.strings = c.strings) ∧
      scattered.encode {} = twins.encode {} := by
  obtain ⟨c, hc⟩ := exists_discover_twins
  obtain ⟨⟨c', hc', -, hstrings, -⟩, -, hencode⟩ := stages_of_renames renames_scattered rfl hc
  exact ⟨⟨c, c', hc, congrArg Prod.fst hc', hstrings⟩, hencode⟩

end PackedTree
