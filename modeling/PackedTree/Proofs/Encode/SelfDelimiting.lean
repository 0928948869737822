/-
# Artifacts delimit themselves

Whatever catalog comes of a tree, by a discovery and any number of merges, a reader that follows
the layout takes its artifact off the front of any bytes and leaves what follows.

* `Image.Coherent`: the counts of the header are those of the tables, and every index is within
  its table.
* `Catalog.StoresIn.coherent`: this holds for the artifact of any catalog that lists a tree.
* `Catalog.Obtained.reads_of_serialize`: the reader finds the tables of the catalog and nothing
  else.  So no artifact begins another one, and the encoding of integers changes no table.

The counts of the tree have to fit the 32 bits in which the layout writes them (`Tree.Fits`).
-/
import PackedTree.Proofs.Encode.Lossless

namespace PackedTree

/-! ## 1. Coherent images -/

/-- A cell refers to nothing beyond the tables. -/
def Cell.Within (counts : Image.Counts) : Cell → Prop
  | .text i => i < counts.strings
  | .object i => i < counts.objects
  | .array i => i < counts.arrays
  | .int32 _ | .float64 _ | .bool _ | .null => True

/-- **An image is coherent** if the counts of its header are the lengths of its tables, and every
index in it is within the table it belongs to. -/
structure Image.Coherent (image : Image) : Prop where
  strings : image.counts.strings = image.strings.length
  shapes : image.counts.shapes = image.shapes.length
  objects : image.counts.objects = image.objects.length
  arrays : image.counts.arrays = image.arrays.length
  root : image.root < image.counts.objects
  entry : ∀ entry ∈ image.objects, entry.shape < image.counts.shapes ∧
    (∃ keys, image.shapes[entry.shape]? = some keys ∧ entry.values.length = keys.length) ∧
    ∀ cell ∈ entry.values, cell.Within image.counts
  items : ∀ cells ∈ image.arrays, ∀ cell ∈ cells, cell.Within image.counts

theorem Shows.within {tree : Tree} {p : Places} {strings : List String} {v : Value} {cell : Cell}
    {counts : Image.Counts} (h : Shows tree p strings v cell)
    (hstrings : strings.length = counts.strings)
    (hobject : ∀ n i, p.object n i → i < counts.objects)
    (harray : ∀ n i, p.array n i → i < counts.arrays) : cell.Within counts := by
  cases h with
  | scalar _ hc =>
    cases cell with
    | text i =>
      obtain ⟨t, ht, -⟩ := Option.map_eq_some_iff.mp hc
      exact Nat.lt_of_lt_of_eq (List.getElem?_eq_some_iff.mp ht).1 hstrings
    | object i | array i => simp [Cell.scalar?] at hc
    | int32 _ | float64 _ | bool _ | null => trivial
  | object _ hi => exact hobject _ _ hi
  | array _ hi => exact harray _ _ hi

namespace Catalog

variable {tree : Tree} {c : Catalog} {config : Config}

/-- **The image of a stored tree is coherent.** -/
theorem StoresIn.coherent {o : Order} {a : Artifact} (hs : c.StoresIn tree o a) {root : Nat}
    (hroot : a.root = some root) (encoding : IntEncoding) :
    (a.image encoding root).Coherent := by
  have hobjects : (c.finalize o).1.objects.length = a.objects.length := hs.objects.length_eq
  have harrays : (c.finalize o).1.arrays.length = a.arrays.length := hs.arrays.length_eq
  have hwithin {v : Value} {cell : Cell} (hv : Shows tree (c.placesIn o) a.strings v cell) :
      cell.Within (a.image encoding root).counts :=
    hv.within rfl (fun _ _ hi => Nat.lt_of_lt_of_eq hi.lt_length hobjects)
      fun _ _ hi => Nat.lt_of_lt_of_eq hi.lt_length harrays
  refine ⟨rfl, (List.length_map _).symm, rfl, rfl, ?_, ?_, ?_⟩
  · obtain ⟨n, i, -, hi, he⟩ := hs.root
    obtain rfl : root = i := Option.some.inj (hroot.symm.trans he)
    exact Nat.lt_of_lt_of_eq hi.lt_length hobjects
  · intro entry hentry
    obtain ⟨x, -, n, fields, -, -, keys, hk, -, -, hvalues⟩ :=
      exists_left_of_forall₂ hs.objects hentry
    refine ⟨?_, ⟨keys, hk, hvalues.length_eq.symm⟩, ?_⟩
    · have hlt := (List.getElem?_eq_some_iff.mp hk).1
      rw [List.length_map] at hlt
      exact hlt
    · intro cell hcell
      obtain ⟨name, -, v, -, hv⟩ := exists_left_of_forall₂ hvalues hcell
      exact hwithin hv
  · intro cells hcells cell hcell
    obtain ⟨x, -, n, items, -, -, hitems⟩ := exists_left_of_forall₂ hs.arrays hcells
    obtain ⟨v, -, hv⟩ := exists_left_of_forall₂ hitems hcell
    exact hwithin hv

/-! ## 2. Reading what was serialized -/

/-- **Reading a serialized catalog** off the front of any bytes. -/
theorem Obtained.read_prefix (hc : c.Obtained tree) (hfits : tree.Fits) {progress : Progress}
    {bytes : ByteArray} (h : ((c.serialize config).1.outcome progress).1 = .ok bytes) :
    ∃ a root, c.tables config.ordered = .ok a ∧ c.StoresIn tree (c.order config.ordered) a ∧
      a.root = some root ∧ ∀ rest, (Read.preamble >>= Read.body) (bytes.data.toList ++ rest) =
        some (a.image config.intEncoding root, rest) := by
  obtain ⟨a, ha, hstores⟩ := hc.lists.exists_tables config.ordered
  have hbytes := (gives_serialize_of_tables ha).eq h
  obtain ⟨w, hw, rfl⟩ := Artifact.exists_write_of_bytes hbytes.symm
  have hfit := hstores.fits (c.enumerates_order config.ordered) hc.lists hfits
  obtain ⟨root, hroot, hread⟩ := Artifact.read_prefix_of_write hfit hw
  exact ⟨a, root, ha, hstores, hroot, hread⟩

/-- **The format delimits itself.**  A serialized catalog is read off the front of any bytes, and
what follows it is left.  The reader finds the tables of the catalog, which store the tree, and
every count and index in them is right.  So no artifact is the beginning of a longer one, and
whatever encoding of integers the same catalog is written in, the same tables are read. -/
theorem Obtained.reads_of_serialize (hc : c.Obtained tree) (hfits : tree.Fits)
    {progress : Progress} {bytes : ByteArray}
    (h : ((c.serialize config).1.outcome progress).1 = .ok bytes) :
    ∃ a root, c.tables config.ordered = .ok a ∧ c.StoresIn tree (c.order config.ordered) a ∧
      a.root = some root ∧ (a.image config.intEncoding root).Coherent ∧
      (∀ rest, (Read.preamble >>= Read.body) (bytes.data.toList ++ rest) =
        some (a.image config.intEncoding root, rest)) ∧
      (∀ (tree' : Tree) (c' : Catalog) (config' : Config) (progress' : Progress)
        (bytes' : ByteArray) (rest : List UInt8), c'.Obtained tree' → tree'.Fits →
          ((c'.serialize config').1.outcome progress').1 = .ok bytes' →
          bytes'.data.toList = bytes.data.toList ++ rest → rest = []) ∧
      ∀ (config' : Config) (progress' : Progress) (bytes' : ByteArray),
        config'.ordered = config.ordered →
        ((c.serialize config').1.outcome progress').1 = .ok bytes' →
          Image.read bytes' =
            some { a.image config.intEncoding root with encoding := config'.intEncoding } := by
  obtain ⟨a, root, ha, hstores, hroot, hread⟩ := hc.read_prefix hfits h
  refine ⟨a, root, ha, hstores, hroot, hstores.coherent hroot _, hread, ?_, ?_⟩
  · intro tree' c' config' progress' bytes' rest hc' hfits' h' hbytes
    obtain ⟨a', root', -, -, -, hread'⟩ := hc'.read_prefix hfits' h'
    have hwhole := hread' []
    rw [List.append_nil, hbytes, hread rest, Option.some.injEq, Prod.mk.injEq] at hwhole
    exact hwhole.2
  · intro config' progress' bytes' hordered h'
    obtain ⟨a', root', ha', -, hroot', hread'⟩ := hc.read_prefix hfits h'
    rw [hordered, ha, Except.ok.injEq] at ha'
    subst ha'
    rw [hroot, Option.some.injEq] at hroot'
    subst hroot'
    have hwhole := hread' []
    rw [List.append_nil] at hwhole
    rw [Image.read, hwhole]
    rfl

/-- The merged artifact of two equal objects is read off the front of any bytes. -/
theorem reads_of_serialize_twins : ∃ (c : Catalog) (bytes : ByteArray) (image : Image),
    c.Obtained twins ∧ (c.serialize {}).1.Gives (.ok bytes) ∧ image.Coherent ∧
      ∀ rest, (Read.preamble >>= Read.body) (bytes.data.toList ++ rest) = some (image, rest) := by
  obtain ⟨bytes, h⟩ := Tree.exists_encode_twins
  obtain ⟨c, hc, hgives⟩ := Tree.exists_obtained_of_encode h
  have hfits : twins.Fits := Tree.fits_of_length (by decide) (by decide)
  obtain ⟨a, root, -, -, -, hcoherent, hread, -⟩ := hc.reads_of_serialize hfits (hgives {})
  exact ⟨c, bytes, _, hc, hgives, hcoherent, hread⟩

end Catalog

end PackedTree
