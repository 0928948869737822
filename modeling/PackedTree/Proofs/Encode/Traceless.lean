/-
# Rendering and writing leave no trace

A call that lists or writes a catalog numbers its tables in place, perhaps in the order of the
look-up maps, and may fail half-way.  What it leaves are numbers, and numbers are read by nothing
but the call that made them: the next numbering starts from the entries, and a merge voids what it
finds.

* `Catalog.unnumbered` is what is left of a catalog when its numbers are forgotten.  Numbering
  depends on it alone (`Catalog.finalize_unnumbered`) and does not change it
  (`Catalog.unnumbered_finalize`).
* `Catalog.mergesAlike_of_unnumbered`: a merge depends on it alone, but for numbers.
* `Catalog.unnumbered_of_touches`: whatever is listed and written in between, it stays.
* `Catalog.noTrace_of_touches`: so nothing that follows can tell.

The order of the look-up maps is a parameter here.  Every order is allowed, and each call may have
its own.
-/
import Mathlib.Logic.Relation
import PackedTree.Proofs.Encode.Limit
import PackedTree.Proofs.Encode.Listing

namespace PackedTree

/-! ## 1. Tables without numbers -/

namespace InternTable

variable {K : Type} [DecidableEq K] [Hashable K] {table other : InternTable K}

/-- A table that was not numbered. -/
def unnumbered (table : InternTable K) : InternTable K := { table with numbering := none }

theorem resolve_unnumbered (table : InternTable K) (id : Identity) :
    table.unnumbered.resolve id = table.resolve id := by
  have hentries : table.unnumbered.entries = table.entries := rfl
  exact follow_congr hentries table.size id

/-- A merge of two identities voids the numbers, so it does not matter whether there were any. -/
theorem redirect_unnumbered (table : InternTable K) (x y : Identity) :
    table.unnumbered.redirect x y = table.redirect x y := by
  simp only [redirect, resolve_unnumbered]
  rfl

/-- **Two tables agree** on values, identities, redirects and what is live. -/
structure Agrees (table other : InternTable K) : Prop where
  getValue? : ∀ id, other.getValue? id = table.getValue? id
  getId? : ∀ k, other.getId? k = table.getId? k
  target? : ∀ id, other.target? id = table.target? id
  resolve : ∀ id, other.resolve id = table.resolve id
  live : other.live = table.live
  count : other.count = table.count

theorem agrees_of_unnumbered (h : other.unnumbered = table.unnumbered) : table.Agrees other where
  getValue? := fun id => (congrArg (fun t : InternTable K => t.getValue? id) h :)
  getId? := fun k => (congrArg (fun t : InternTable K => t.getId? k) h :)
  target? := fun id => (congrArg (fun t : InternTable K => t.target? id) h :)
  resolve := fun id => by
    rw [← resolve_unnumbered, h, resolve_unnumbered]
  live := (congrArg InternTable.live h :)
  count := (congrArg InternTable.count h :)

end InternTable

namespace Catalog

variable {c c' : Catalog}

/-- A catalog that was not numbered. -/
def unnumbered (c : Catalog) : Catalog :=
  { c with
    strings := c.strings.unnumbered
    objects := c.objects.unnumbered
    arrays := c.arrays.unnumbered }

/-- **A numbering does not read an earlier one.** -/
theorem finalize_unnumbered (c : Catalog) (o : Order) : c.unnumbered.finalize o = c.finalize o :=
  rfl

/-- **A numbering leaves nothing but numbers.** -/
theorem unnumbered_finalize (c : Catalog) (o : Order) :
    (c.finalize o).2.unnumbered = c.unnumbered := rfl

/-! ## 2. Calls in whatever order -/

/-- Numbers a catalog in some order of its identities and lists it. -/
def listingIn (c : Catalog) (o : Order) : Except EncodeError String × Catalog :=
  let (order, c) := c.finalize o
  ((c.artifact order).map Artifact.listing, c)

/-- Numbers a catalog in some order of its identities and writes it. -/
def serializeIn (c : Catalog) (o : Order) (config : Config) : Pass ByteArray × Catalog :=
  let (order, c) := c.finalize o
  (c.writeNumbered order config, c)

theorem listing_eq_listingIn (c : Catalog) (ordered : Bool) :
    c.listing ordered = c.listingIn (c.order ordered) := rfl

theorem serialize_eq_serializeIn (c : Catalog) (config : Config) :
    c.serialize config = c.serializeIn (c.order config.ordered) config := rfl

theorem listingIn_congr (h : c'.unnumbered = c.unnumbered) (o : Order) :
    c'.listingIn o = c.listingIn o := by
  unfold listingIn
  rw [← finalize_unnumbered, h, finalize_unnumbered]

theorem serializeIn_congr (h : c'.unnumbered = c.unnumbered) (o : Order) (config : Config) :
    c'.serializeIn o config = c.serializeIn o config := by
  unfold serializeIn
  rw [← finalize_unnumbered, h, finalize_unnumbered]

/-- **A failed write leaves the counters and the events as they were**: they are put in when the
bytes are there. -/
theorem progress_of_serializeIn_error {o : Order} {config : Config} {progress after : Progress}
    {e : EncodeError} (h : (c.serializeIn o config).1 progress = .error e after) :
    after = progress := by
  simp only [serializeIn, writeNumbered, Bind.bind, EStateM.bind] at h
  cases hartifact : (c.finalize o).2.artifact (c.finalize o).1 with
  | error cause =>
    rw [hartifact] at h
    exact (EStateM.Result.error.inj h).2.symm
  | ok a =>
    rw [hartifact] at h
    cases hwrite : a.write config with
    | error cause =>
      simp only [Pass.ofExcept, pure, EStateM.pure, hwrite] at h
      exact (EStateM.Result.error.inj h).2.symm
    | ok w =>
      simp only [Pass.ofExcept, pure, EStateM.pure, hwrite] at h
      exact nomatch h

/-! ## 3. A merge afterwards -/

/-- The numbers that a table comes with are in no merge, unless nothing is merged. -/
theorem mergedObjects_unnumbered (c : Catalog) :
    c.unnumbered.mergedObjects.map (Prod.map id unnumbered) =
      c.mergedObjects.map (Prod.map id unnumbered) := by
  have hmerges : c.unnumbered.merges = c.merges := rfl
  unfold mergedObjects
  rw [hmerges]
  cases c.merges with
  | error e => rfl
  | ok pairs =>
    cases pairs with
    | nil => rfl
    | cons pair rest =>
      have hsame : mergeAll c.unnumbered.objects (pair :: rest) =
          mergeAll c.objects (pair :: rest) := by
        show mergeAll c.objects.unnumbered _ = _
        unfold mergeAll
        rw [InternTable.redirect_unnumbered]
      simp only [bind, Except.bind, hsame]
      cases mergeAll c.objects (pair :: rest) with
      | error e => rfl
      | ok table => rfl

/-- **Merging two catalogs is the same**, but for the numbers they come with: it fails for the same
cause, or makes as many merges, the same redirects, and leaves the same counters and events. -/
structure MergesAlike (c c' : Catalog) : Prop where
  error : ∀ {progress after : Progress} {e : EncodeError},
    c.mergeObjects progress = .error e after → c'.mergeObjects progress = .error e after
  ok : ∀ {progress after : Progress} {count : Nat} {merged : Catalog},
    c.mergeObjects progress = .ok (count, merged) after →
      ∃ merged', c'.mergeObjects progress = .ok (count, merged') after ∧
        merged.objects.Agrees merged'.objects ∧ merged'.unnumbered = merged.unnumbered

/-- **A merge depends on what is left without numbers alone.** -/
theorem mergesAlike_of_unnumbered (h : c'.unnumbered = c.unnumbered) : c.MergesAlike c' := by
  have hsame : c'.mergedObjects.map (Prod.map id unnumbered) =
      c.mergedObjects.map (Prod.map id unnumbered) := by
    rw [← mergedObjects_unnumbered, h, mergedObjects_unnumbered]
  have hcount : c'.objects.count = c.objects.count :=
    (congrArg (fun c : Catalog => c.objects.count) h :)
  constructor
  · intro progress after e herror
    rw [mergeObjects_apply] at herror ⊢
    cases hc : c.mergedObjects with
    | ok r => simp [hc] at herror
    | error cause =>
      cases hc' : c'.mergedObjects with
      | ok r => simp [hc, hc', Except.map] at hsame
      | error cause' =>
        obtain rfl : cause' = cause := by simpa [hc, hc', Except.map] using hsame
        simpa [hc] using herror
  · intro progress after count merged hok
    rw [mergeObjects_apply] at hok ⊢
    cases hc : c.mergedObjects with
    | error cause => simp [hc] at hok
    | ok r =>
      cases hc' : c'.mergedObjects with
      | error cause' => simp [hc, hc', Except.map] at hsame
      | ok r' =>
        obtain ⟨hpairs, hmerged⟩ : r'.1 = r.1 ∧ r'.2.unnumbered = r.2.unnumbered := by
          simpa [hc, hc', Except.map, Prod.map, Prod.ext_iff] using hsame
        simp only [hc, EStateM.Result.ok.injEq, Prod.mk.injEq] at hok
        obtain ⟨⟨rfl, rfl⟩, rfl⟩ := hok
        refine ⟨r'.2, ?_, ?_, hmerged⟩
        · simp only [hpairs, hcount]
        · exact InternTable.agrees_of_unnumbered (congrArg Catalog.objects hmerged :)

/-! ## 4. Any sequence of calls -/

/-- **One call that lists or writes a catalog**, and the catalog it leaves, whether it succeeds or
fails. -/
inductive Touches (c : Catalog) : Catalog → Prop where
  | listed (o : Order) (ho : c.Enumerates o) : Touches c (c.listingIn o).2
  | serialized (o : Order) (ho : c.Enumerates o) (config : Config) :
    Touches c (c.serializeIn o config).2

theorem touches_listing (c : Catalog) (ordered : Bool) : Touches c (c.listing ordered).2 := by
  rw [listing_eq_listingIn]
  exact .listed _ (c.enumerates_order ordered)

theorem touches_serialize (c : Catalog) (config : Config) : Touches c (c.serialize config).2 := by
  rw [serialize_eq_serializeIn]
  exact .serialized _ (c.enumerates_order config.ordered) config

/-- A call leaves nothing but numbers. -/
theorem Touches.unnumbered_eq (h : Touches c c') : c'.unnumbered = c.unnumbered := by
  cases h with
  | listed o _ => exact c.unnumbered_finalize o
  | serialized o _ config => exact c.unnumbered_finalize o

/-- **Calls leave nothing but numbers**, by induction on their sequence. -/
theorem unnumbered_of_touches (h : Relation.ReflTransGen Touches c c') :
    c'.unnumbered = c.unnumbered := by
  induction h with
  | refl => rfl
  | tail _ hcall ih => exact hcall.unnumbered_eq.trans ih

/-- **Nothing tells a later catalog from an earlier one**, but for numbers that the next call
replaces. -/
structure NoTrace (c c' : Catalog) : Prop where
  serialize : ∀ config : Config, config.ordered = true →
    (c'.serialize config).1 = (c.serialize config).1
  listing : (c'.listing true).1 = (c.listing true).1
  merges : c.MergesAlike c'
  strings : c.strings.Agrees c'.strings
  objects : c.objects.Agrees c'.objects
  arrays : c.arrays.Agrees c'.arrays
  tree_eq : c'.tree = c.tree
  shapes : c'.shapes = c.shapes
  root : c'.root = c.root

/-- **Rendering and writing leave no trace**, whatever is called, in whatever order each call
numbers, and whether it succeeds or not; and a write that fails leaves the counters as they
were. -/
theorem noTrace_of_touches (h : Relation.ReflTransGen Touches c c') : NoTrace c c' ∧
    ∀ (o : Order) (config : Config) (progress after : Progress) (e : EncodeError),
      (c'.serializeIn o config).1 progress = .error e after → after = progress := by
  have heq := unnumbered_of_touches h
  have horder : c'.discoveryOrder = c.discoveryOrder := (congrArg discoveryOrder heq :)
  refine ⟨?_, fun o config progress after e => progress_of_serializeIn_error⟩
  exact
    { serialize := fun config hordered => by
        rw [serialize_eq_serializeIn, serialize_eq_serializeIn, hordered]
        show (c'.serializeIn c'.discoveryOrder config).1 = _
        rw [horder, serializeIn_congr heq]
        rfl
      listing := by
        show (c'.listingIn c'.discoveryOrder).1 = _
        rw [horder, listingIn_congr heq]
        rfl
      merges := mergesAlike_of_unnumbered heq
      strings := InternTable.agrees_of_unnumbered (congrArg Catalog.strings heq :)
      objects := InternTable.agrees_of_unnumbered (congrArg Catalog.objects heq :)
      arrays := InternTable.agrees_of_unnumbered (congrArg Catalog.arrays heq :)
      tree_eq := (congrArg Catalog.tree heq :)
      shapes := (congrArg Catalog.shapes heq :)
      root := (congrArg Catalog.root heq :) }

/-- A limit of nothing leaves no room for the first bytes. -/
theorem exists_serialize_error (c : Catalog) (progress : Progress) :
    ∃ e after, (c.serialize { maxSize := some 0 }).1 progress = .error e after := by
  have hwrite (a : Artifact) :
      a.write { maxSize := some 0 } = .error (.capacityExceeded ⟨4, 0⟩) := rfl
  cases h : (c.serialize { maxSize := some 0 }).1 progress with
  | error e after => exact ⟨e, after, rfl⟩
  | ok bytes after =>
    have hgives := c.gives_serialize { maxSize := some 0 } progress
    rw [Pass.outcome_of_ok h] at hgives
    cases ha : c.tables ({ maxSize := some 0 } : Config).ordered with
    | error e => simp [ha, bind, Except.bind] at hgives
    | ok a => simp [ha, hwrite, bind, Except.bind, Except.map] at hgives

/-- The two equal objects, listed in the order of the look-up maps and then written without
room. -/
theorem noTrace_twins : ∃ c e after,
    ((discover twins {}).outcome).1 = .ok c ∧
      ((c.listing false).2.serialize { maxSize := some 0 }).1 {} = .error e after ∧
      after.stats = {} ∧ NoTrace c ((c.listing false).2.serialize { maxSize := some 0 }).2 := by
  obtain ⟨c, hc⟩ := exists_discover_twins
  obtain ⟨e, after, h⟩ := exists_serialize_error (c.listing false).2 {}
  have hlisted : Relation.ReflTransGen Touches c (c.listing false).2 :=
    .single (c.touches_listing false)
  have hwritten := hlisted.tail (touches_serialize _ { maxSize := some 0 })
  have hafter := (noTrace_of_touches hlisted).2 _ _ _ _ _ h
  exact ⟨c, e, after, hc, h, hafter ▸ rfl, (noTrace_of_touches hwritten).1⟩

end Catalog

end PackedTree
