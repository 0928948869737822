/-
# Shapes stand for sets of names

* `Fields.mem_names_iff`, `Fields.mem_values_of_get?`: names and values through the look-up.
* `Shape.fits_iff`: a shape fits fields exactly if it is the shape made from them.
* `Shape.values_perm`: the order of the keys leaves no value out.
* `ShapeRegistry.find?_congr`: the shape found for fields depends on the set of names alone.
* `ShapeRegistry.arrange_eq_ok_iff`: an object is arranged as its shape and its values in the
  order of the keys.
* `ShapeRegistry.Distinct.register`: registration keeps the shapes apart.
-/
import Mathlib.Data.List.Perm.Basic
import Mathlib.Data.List.Sort
import PackedTree.Catalog.Signature
import PackedTree.Proofs.Traversal

namespace PackedTree

/-! ## 1. Fields through their look-up -/

namespace Named

variable {α : Type}

theorem mem_of_get? {name : String} {a : α} : ∀ {entries : List (String × α)},
    get? name entries = some a → (name, a) ∈ entries
  | [], h => by simp [get?] at h
  | (n, v) :: rest, h => by
    unfold get? at h
    split at h
    · rename_i hn
      rw [hn, Option.some.inj h]
      exact List.mem_cons_self
    · exact List.mem_cons_of_mem _ (mem_of_get? h)

/-- A value that stands in a list of apart names is found under its name. -/
theorem get?_of_mem {name : String} {a : α} : ∀ {entries : List (String × α)},
    (names entries).Nodup → (name, a) ∈ entries → get? name entries = some a
  | [], _, h => nomatch h
  | (n, v) :: rest, hd, h => by
    obtain ⟨hn, hd⟩ := List.nodup_cons.mp hd
    unfold get?
    rcases List.mem_cons.mp h with he | h
    · rw [Prod.mk.injEq] at he
      rw [if_pos he.1.symm, he.2]
    · have hne : n ≠ name := by
        rintro rfl
        exact hn (List.mem_map.mpr ⟨_, h, rfl⟩)
      rw [if_neg hne]
      exact get?_of_mem hd h

end Named

namespace Fields

variable {fields : Fields} {name : String} {v : Value}

theorem mem_names_iff : name ∈ fields.names ↔ ∃ v, fields.get? name = some v := by
  rw [← Option.isSome_iff_exists, Option.isSome_iff_ne_none, ne_eq]
  exact (not_iff_comm.mp (Named.get?_eq_none_iff name fields.entries).symm).symm.trans Iff.rfl

theorem mem_values_of_get? (h : fields.get? name = some v) : v ∈ fields.values :=
  List.mem_map_of_mem (f := Prod.snd) (Named.mem_of_get? h)

/-- The names lead to the values, in the same order. -/
theorem map_get?_names (fields : Fields) : fields.names.map fields.get? = fields.values.map some := by
  unfold names values Named.names
  rw [List.map_map, List.map_map]
  refine List.map_congr_left ?_
  rintro ⟨name, v⟩ hmem
  exact Named.get?_of_mem fields.names_nodup hmem

theorem exists_get?_of_mem_values (h : v ∈ fields.values) : ∃ name, fields.get? name = some v := by
  obtain ⟨⟨name, v'⟩, hmem, rfl⟩ := List.mem_map.mp h
  exact ⟨name, Named.get?_of_mem fields.names_nodup hmem⟩

end Fields

/-! ## 2. The shape of some fields -/

namespace Shape

theorem mem_keys_ofFields {fields : Fields} {name : String} :
    name ∈ (ofFields fields).keys ↔ name ∈ fields.names :=
  (List.mergeSort_perm fields.names _).mem_iff

/-- Names in ascending order are the keys as they stand. -/
theorem keys_ofFields_of_pairwise {fields : Fields} (h : fields.names.Pairwise (· ≤ ·)) :
    (ofFields fields).keys = fields.names :=
  List.mergeSort_of_pairwise (h.imp fun hab => decide_eq_true hab)

theorem length_keys_ofFields (fields : Fields) :
    (ofFields fields).keys.length = fields.size :=
  ((List.mergeSort_perm fields.names _).length_eq).trans (List.length_map ..)

theorem keys_nodup (shape : Shape) : shape.keys.Nodup :=
  shape.keys_sorted.imp fun h => String.ne_of_lt h

/-- Ascending lists with the same members are the same list. -/
theorem eq_of_mem_iff {s t : Shape} (h : ∀ name, name ∈ s.keys ↔ name ∈ t.keys) : s = t := by
  have hp : s.keys.Perm t.keys := (List.perm_ext_iff_of_nodup s.keys_nodup t.keys_nodup).mpr h
  have hk : s.keys = t.keys := by
    refine hp.eq_of_pairwise ?_ s.keys_sorted t.keys_sorted
    intro a b _ _ hab hba
    exact absurd hab (String.lt_asymm hba)
  cases s
  cases t
  cases hk
  rfl

theorem ofFields_eq_iff {f g : Fields} :
    ofFields f = ofFields g ↔ ∀ name, name ∈ f.names ↔ name ∈ g.names := by
  constructor
  · intro h name
    rw [← mem_keys_ofFields, ← mem_keys_ofFields, h]
  · intro h
    apply eq_of_mem_iff
    intro name
    rw [mem_keys_ofFields, mem_keys_ofFields, h]

/-- **A shape fits fields exactly if it is their shape.**  Names are apart on both sides, so a
shape whose names are all there, and as many, leaves no name out. -/
theorem fits_iff {shape : Shape} {fields : Fields} :
    shape.fits fields = true ↔ shape = ofFields fields := by
  constructor
  · intro h
    simp only [fits, Bool.and_eq_true, decide_eq_true_eq, List.all_eq_true] at h
    obtain ⟨hsize, hall⟩ := h
    have hsub : shape.keys ⊆ (ofFields fields).keys := by
      intro name hn
      rw [mem_keys_ofFields, Fields.mem_names_iff, ← Option.isSome_iff_exists]
      exact hall name hn
    have hlen : (ofFields fields).keys.length ≤ shape.keys.length := by
      rw [length_keys_ofFields]
      exact Nat.le_of_eq hsize
    have hp := (List.subperm_of_subset shape.keys_nodup hsub).perm_of_length_le hlen
    exact eq_of_mem_iff fun name => hp.mem_iff
  · rintro rfl
    simp only [fits, Bool.and_eq_true, decide_eq_true_eq, List.all_eq_true]
    refine ⟨(length_keys_ofFields fields).symm, ?_⟩
    intro name hn
    rw [mem_keys_ofFields, Fields.mem_names_iff, ← Option.isSome_iff_exists] at hn
    exact hn

/-- The values of fields in the order of their shape's keys. -/
theorem exists_values (fields : Fields) :
    ∃ values, (ofFields fields).keys.mapM fields.get? = some values := by
  have h : ∀ name ∈ (ofFields fields).keys, ∃ v, fields.get? name = some v := fun name hn =>
    Fields.mem_names_iff.mp (mem_keys_ofFields.mp hn)
  obtain ⟨values, hv⟩ := exists_forall₂ h
  exact ⟨values, mapM_eq_some_iff.mpr hv⟩

/-- **The values in the order of the shape's keys** are those of the fields, each once. -/
theorem values_perm {fields : Fields} {values : List Value}
    (h : (ofFields fields).keys.mapM fields.get? = some values) : values.Perm fields.values := by
  have hvalues : (ofFields fields).keys.map fields.get? = values.map some := by
    rw [← List.forall₂_eq_eq_eq, List.forall₂_map_left_iff, List.forall₂_map_right_iff]
    exact mapM_eq_some_iff.mp h
  rw [← List.map_perm_map_iff (Option.some_injective _), ← hvalues, ← fields.map_get?_names]
  exact (List.mergeSort_perm _ _).map _

end Shape

/-! ## 3. The registry -/

namespace ShapeRegistry

variable {registry : ShapeRegistry} {f g : Fields} {i : Nat}

theorem find?_eq_some (h : registry.find? f = some i) :
    registry.shapes[i]? = some (.ofFields f) := by
  obtain ⟨hi, hfit, -⟩ := Array.findIdx?_eq_some_iff_getElem.mp h
  rw [Array.getElem?_eq_getElem hi, ← Shape.fits_iff.mp hfit]

/-- What is found depends on the set of names alone. -/
theorem find?_congr (registry : ShapeRegistry) (h : Shape.ofFields f = Shape.ofFields g) :
    registry.find? f = registry.find? g := by
  unfold find?
  congr 1
  funext shape
  rw [Bool.eq_iff_iff, Shape.fits_iff, Shape.fits_iff, h]

theorem find?_isSome_iff :
    (registry.find? f).isSome = true ↔ Shape.ofFields f ∈ registry.shapes := by
  unfold find?
  rw [Array.findIdx?_isSome, Array.any_eq_true']
  simp only [Shape.fits_iff]
  constructor
  · rintro ⟨_, hx, rfl⟩
    exact hx
  · exact fun h => ⟨_, h, rfl⟩

/-- **An object is arranged** as the index of its shape and its values in the order of the
shape's keys. -/
theorem arrange_eq_ok_iff {id : NodeId} {index : Nat} {values : List Value} :
    registry.arrange id f = .ok (index, values) ↔
      registry.find? f = some index ∧
        (Shape.ofFields f).keys.mapM f.get? = some values := by
  unfold arrange
  cases hfind : registry.find? f with
  | none => simp
  | some i =>
    have hget : registry.get? i = some (.ofFields f) := find?_eq_some hfind
    obtain ⟨vs, hvs⟩ := Shape.exists_values f
    simp [hget, hvs]

/-- Registration finds the shape, or puts it at the end. -/
theorem register_cases (registry : ShapeRegistry) (f : Fields) :
    (Shape.ofFields f ∈ registry.shapes ∧ (registry.register f).2 = registry) ∨
      (Shape.ofFields f ∉ registry.shapes ∧
        (registry.register f).2 = ⟨registry.shapes.push (.ofFields f)⟩) := by
  rw [← find?_isSome_iff]
  unfold register
  cases registry.find? f with
  | some i => exact .inl ⟨rfl, rfl⟩
  | none => exact .inr ⟨Bool.false_ne_true, rfl⟩

theorem mem_shapes_register {s : Shape} :
    s ∈ (registry.register f).2.shapes ↔ s ∈ registry.shapes ∨ s = .ofFields f := by
  rcases registry.register_cases f with ⟨hmem, h⟩ | ⟨-, h⟩
  · rw [h]
    exact ⟨.inl, fun hs => hs.elim id fun he => he ▸ hmem⟩
  · rw [h]
    exact Array.mem_push

/-- No shape is registered twice. -/
def Distinct (registry : ShapeRegistry) : Prop := registry.shapes.toList.Nodup

theorem Distinct.register (h : registry.Distinct) (f : Fields) :
    (registry.register f).2.Distinct := by
  rcases registry.register_cases f with ⟨-, he⟩ | ⟨hn, he⟩
  · rw [he]
    exact h
  · rw [he]
    unfold Distinct
    rw [Array.toList_push, List.nodup_append]
    refine ⟨h, List.nodup_singleton _, ?_⟩
    intro a ha b hb
    rw [List.mem_singleton.mp hb]
    rintro rfl
    exact hn (Array.mem_toList_iff.mp ha)

end ShapeRegistry

end PackedTree
