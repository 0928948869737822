/-
# A registry numbers sets of names

Objects are registered one after the other, and a registry keeps their sets of field names in the
order of the first objects that have them.  The order in which an object declares its fields and the
values under them play no part.

* `ShapeRegistry.nameSets_registerAll`: the sets of names in a registry, by the objects registered.
* `ShapeRegistry.find?_eq_some_iff`: a set of names is found under one index, its own.
* `Shape.parse_canonicalText`: the text of a shape is read as the list of its keys, so different
  shapes have different texts.
* `ShapeRegistry.numbers_registerAll`: all of this for any sequence of objects, and that what is
  registered later changes nothing.
-/
import Mathlib.Data.Finset.Dedup
import Mathlib.Data.List.Induction
import PackedTree.Proofs.Json.Texts
import PackedTree.Proofs.Shape

namespace PackedTree

/-! ## 1. Sets of names -/

/-- The set of the names of some fields. -/
def Fields.nameSet (fields : Fields) : Finset String := fields.names.toFinset

namespace Shape

/-- The set of names that a shape stands for. -/
def nameSet (shape : Shape) : Finset String := shape.keys.toFinset

theorem nameSet_ofFields (fields : Fields) : (ofFields fields).nameSet = fields.nameSet := by
  ext name
  rw [nameSet, Fields.nameSet, List.mem_toFinset, List.mem_toFinset, mem_keys_ofFields]

/-- Ascending keys are determined by their set. -/
theorem nameSet_injective : Function.Injective nameSet := by
  intro s t h
  apply eq_of_mem_iff
  intro name
  rw [← List.mem_toFinset, ← List.mem_toFinset]
  exact Finset.ext_iff.mp h name

theorem eq_ofFields_iff_nameSet {shape : Shape} {fields : Fields} :
    shape = ofFields fields ↔ shape.nameSet = fields.nameSet := by
  rw [← nameSet_ofFields]
  exact nameSet_injective.eq_iff.symm

/-! ## 2. Texts of shapes -/

/-- **The text of a shape is read as the list of its keys.** -/
theorem parse_canonicalText (shape : Shape) :
    Json.parse shape.canonicalText = .ok (.array (shape.keys.map .string)) :=
  Json.parse_compact_texts shape.keys

/-- Different shapes have different texts. -/
theorem canonicalText_injective : Function.Injective canonicalText := by
  intro s t h
  have hread := s.parse_canonicalText
  rw [h, t.parse_canonicalText, Except.ok.injEq, Json.array.injEq] at hread
  have hkeys : t.keys = s.keys := List.map_injective_iff.mpr (fun _ _ => Json.string.inj) hread
  exact nameSet_injective (congrArg List.toFinset hkeys.symm)

end Shape

namespace ShapeRegistry

variable {registry : ShapeRegistry} {f : Fields} {i : Nat}

/-! ## 3. One registration -/

/-- **The index of some fields** is that of the first shape with their set of names. -/
theorem find?_eq_some_iff_getElem? (hd : registry.Distinct) :
    registry.find? f = some i ↔ registry.shapes[i]? = some (.ofFields f) := by
  constructor
  · exact find?_eq_some
  · intro h
    have hmem : Shape.ofFields f ∈ registry.shapes := Array.mem_of_getElem? h
    obtain ⟨j, hj⟩ := Option.isSome_iff_exists.mp (find?_isSome_iff.mpr hmem)
    rw [hj]
    have hji : registry.shapes.toList[j]? = registry.shapes.toList[i]? := by
      rw [Array.getElem?_toList, Array.getElem?_toList, find?_eq_some hj, h]
    have hlt : j < registry.shapes.toList.length := by
      rw [Array.length_toList]
      exact (Array.getElem?_eq_some_iff.mp (find?_eq_some hj)).1
    exact congrArg some ((List.getElem?_inj hlt hd).mp hji)

/-- **A set of names is found under one index, its own.** -/
theorem find?_eq_some_iff (hd : registry.Distinct) : registry.find? f = some i ↔
    ∃ shape, registry.get? i = some shape ∧ shape.nameSet = f.nameSet := by
  rw [find?_eq_some_iff_getElem? hd]
  constructor
  · exact fun h => ⟨_, h, Shape.nameSet_ofFields f⟩
  · rintro ⟨shape, hshape, hset⟩
    rw [← Shape.eq_ofFields_iff_nameSet.mpr hset]
    exact hshape

/-- The index that a registration gives is found after it. -/
theorem find?_register (registry : ShapeRegistry) (f : Fields) :
    (registry.register f).2.find? f = some (registry.register f).1 := by
  unfold register
  cases hfind : registry.find? f with
  | some i => exact hfind
  | none =>
    have hnone : registry.shapes.findIdx? (·.fits f) = none := hfind
    have hfits : (Shape.ofFields f).fits f = true := Shape.fits_iff.mpr rfl
    show (registry.shapes.push (.ofFields f)).findIdx? (·.fits f) = some registry.shapes.size
    rw [Array.findIdx?_push, hnone]
    simp [hfits]

/-! ## 4. Sequences of registrations -/

/-- The registry of some objects, registered one after the other. -/
def registerAll (calls : List Fields) : ShapeRegistry :=
  calls.foldl (fun registry f => (registry.register f).2) {}

theorem registerAll_append_singleton (calls : List Fields) (f : Fields) :
    registerAll (calls ++ [f]) = ((registerAll calls).register f).2 := by
  rw [registerAll, List.foldl_append]
  rfl

/-- No shape is registered twice. -/
theorem distinct_registerAll (calls : List Fields) : (registerAll calls).Distinct := by
  induction calls using List.reverseRecOn with
  | nil => exact List.nodup_nil
  | append_singleton calls f ih =>
    rw [registerAll_append_singleton]
    exact ih.register f

/-- **The sets of names in a registry** are those of the objects registered, in the order of their
first occurrences. -/
theorem nameSets_registerAll (calls : List Fields) :
    (registerAll calls).shapes.toList.map Shape.nameSet =
      (calls.map Fields.nameSet).eraseDups := by
  induction calls using List.reverseRecOn with
  | nil => rfl
  | append_singleton calls f ih =>
    have hmem : f.nameSet ∈ (registerAll calls).shapes.toList.map Shape.nameSet ↔
        Shape.ofFields f ∈ (registerAll calls).shapes := by
      rw [← Shape.nameSet_ofFields, List.mem_map_of_injective Shape.nameSet_injective,
        Array.mem_toList_iff]
    rw [registerAll_append_singleton, List.map_append, List.map_singleton,
      eraseDups_append_singleton, ← ih]
    rcases (registerAll calls).register_cases f with ⟨hold, he⟩ | ⟨hnew, he⟩
    · rw [he, if_pos (hmem.mpr hold)]
    · rw [he, if_neg (mt hmem.mp hnew), Array.toList_push, List.map_append, List.map_singleton,
        Shape.nameSet_ofFields]

/-- What is registered later goes to the end. -/
theorem registerAll_prefix (calls more : List Fields) :
    (registerAll calls).shapes.toList <+: (registerAll (calls ++ more)).shapes.toList := by
  induction more using List.reverseRecOn with
  | nil => simp
  | append_singleton more f ih =>
    rw [← List.append_assoc, registerAll_append_singleton]
    rcases (registerAll (calls ++ more)).register_cases f with ⟨-, he⟩ | ⟨-, he⟩
    · rw [he]
      exact ih
    · rw [he, Array.toList_push]
      exact ih.trans (List.prefix_append _ _)

/-- **A registry numbers the sets of names of some objects.**  The keys of each shape ascend, the
sets are those of the objects in the order of their first occurrences, each is found under its own
index and nothing else is, and the texts of the shapes are different lists of names. -/
structure Numbers (registry : ShapeRegistry) (calls : List Fields) : Prop where
  keys_ascend : ∀ shape ∈ registry.shapes.toList, shape.keys.Pairwise (· < ·)
  keys_nodup : (registry.shapes.toList.map Shape.keys).Nodup
  nameSets : registry.shapes.toList.map Shape.nameSet = (calls.map Fields.nameSet).eraseDups
  found_iff : ∀ f, (registry.find? f).isSome = true ↔ ∃ call ∈ calls, call.nameSet = f.nameSet
  find_iff : ∀ f i, registry.find? f = some i ↔
    ∃ shape, registry.get? i = some shape ∧ shape.nameSet = f.nameSet
  texts_nodup : (registry.shapes.toList.map Shape.canonicalText).Nodup
  texts_read : ∀ shape ∈ registry.shapes.toList,
    Json.parse shape.canonicalText = .ok (.array (shape.keys.map .string))

/-- **Registration is a canonical numbering of sets of names.**

After any sequence of objects the registry numbers their sets of names.  Later objects change neither
an index nor the shape under it, and an object is found from then on under the index that its
registration gave. -/
theorem numbers_registerAll (calls : List Fields) :
    (registerAll calls).Numbers calls ∧
      (∀ more, (registerAll calls).shapes.toList <+:
        (registerAll (calls ++ more)).shapes.toList) ∧
      ∀ f more, (registerAll (calls ++ f :: more)).find? f =
        some ((registerAll calls).register f).1 := by
  have hd := distinct_registerAll calls
  have hkeys : Function.Injective Shape.keys := fun s t h =>
    Shape.nameSet_injective (congrArg List.toFinset h)
  refine ⟨?_, registerAll_prefix calls, fun f more => ?_⟩
  · refine ⟨fun shape _ => shape.keys_sorted, hd.map hkeys, nameSets_registerAll calls,
      fun f => ?_, fun f i => find?_eq_some_iff hd, hd.map Shape.canonicalText_injective,
      fun shape _ => shape.parse_canonicalText⟩
    have hset : f.nameSet ∈ (registerAll calls).shapes.toList.map Shape.nameSet ↔
        f.nameSet ∈ calls.map Fields.nameSet := by
      rw [nameSets_registerAll, List.mem_eraseDups]
    rw [find?_isSome_iff, ← Array.mem_toList_iff,
      ← List.mem_map_of_injective Shape.nameSet_injective, Shape.nameSet_ofFields, hset,
      List.mem_map]
  · -- the shape found right after the call is still there
    have hcall : (registerAll (calls ++ [f])).find? f =
        some ((registerAll calls).register f).1 := by
      rw [registerAll_append_singleton]
      exact find?_register _ f
    have hsplit : calls ++ f :: more = (calls ++ [f]) ++ more := by simp
    rw [hsplit, find?_eq_some_iff_getElem? (distinct_registerAll _), ← Array.getElem?_toList]
    have hshape := find?_eq_some hcall
    rw [← Array.getElem?_toList] at hshape
    obtain ⟨rest, hrest⟩ := registerAll_prefix (calls ++ [f]) more
    rw [← hrest, List.getElem?_append_left (List.getElem?_eq_some_iff.mp hshape).1]
    exact hshape

end ShapeRegistry

end PackedTree
