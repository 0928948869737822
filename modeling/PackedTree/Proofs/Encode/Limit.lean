/-
# The size limit of an encoding

The limit decides nothing but whether there is room: what is written does not depend on it.

`Tree.encode_under_limit`: an encoding under a limit gives the artifact that it gives without one if
the artifact keeps the limit.  Otherwise it is refused, with a size that passes the limit and is not
greater than that of the artifact.  A tree that is refused without a limit is refused for the same
cause under every limit.

The order of the tables is the one that the configuration asks for.  Where it asks for none, the
law compares encodings that list the look-up maps in the same order.
-/
import PackedTree.Proofs.Encode.Lossless
import PackedTree.Proofs.Wire.Limit

namespace PackedTree

namespace Tree

variable {tree : Tree} {config : Config}

/-! ## 1. The limit law -/

/-- The artifact of a tree that is encoded. -/
theorem exists_tables_of_encode {bytes : ByteArray} (h : tree.encode config = .ok bytes) :
    ∃ a w, tree.tables config = .ok a ∧ a.write config = .ok w ∧ bytes = w.bytes := by
  rw [encode_eq_write] at h
  obtain ⟨a, ha, h⟩ := bind_eq_ok_iff.mp h
  obtain ⟨w, hw, hbytes⟩ := Artifact.exists_write_of_bytes h
  exact ⟨a, w, ha, hw, hbytes⟩

/-- An artifact that is written under a limit. -/
theorem encode_of_tables {a : Artifact} (ha : tree.tables config = .ok a) :
    tree.encode config = (a.write config).map Writer.bytes := by
  rw [encode_eq_write, ha]
  rfl

/-- **The limit law.**  Under a limit an encoding gives exactly the artifact that it gives without
one if there is room for it, and is otherwise refused with a size on the way to that of the artifact.
A tree that is refused without a limit, though its texts are short enough, is refused for the same
cause under every limit. -/
theorem encode_under_limit (tree : Tree) (config : Config) (limit : Nat) :
    (∀ bytes, tree.encode { config with maxSize := none } = .ok bytes →
      (∀ bytes', tree.encode { config with maxSize := some limit } = .ok bytes' ↔
        bytes' = bytes ∧ bytes.size ≤ limit) ∧
      (limit < bytes.size → ∃ e : CapacityExceeded,
        tree.encode { config with maxSize := some limit } = .error (.capacityExceeded e) ∧
          e.OnTheWay limit bytes.size)) ∧
    (tree.TextsFit → ∀ e, tree.encode { config with maxSize := none } = .error e →
      tree.encode { config with maxSize := some limit } = .error e) := by
  constructor
  · intro bytes h
    obtain ⟨a, w, ha, hw, rfl⟩ := exists_tables_of_encode h
    -- the tables are made before the limit is looked at
    have ha' : tree.tables { config with maxSize := some limit } = .ok a := ha
    obtain ⟨hwithin, hpast⟩ := Artifact.write_under hw limit
    rw [encode_of_tables ha']
    have hrefused (hlt : limit < w.position) : ∃ e : CapacityExceeded,
        (a.write { config with maxSize := some limit }).map Writer.bytes =
          .error (.capacityExceeded e) ∧ e.OnTheWay limit w.position := by
      obtain ⟨e, he, hon⟩ := hpast hlt
      exact ⟨e, by rw [he]; rfl, hon⟩
    refine ⟨fun bytes' => ?_, hrefused⟩
    by_cases hle : w.position ≤ limit
    · rw [hwithin hle]
      constructor
      · intro he
        exact ⟨(Except.ok.inj he).symm, hle⟩
      · rintro ⟨rfl, -⟩
        rfl
    · obtain ⟨e, he, -⟩ := hrefused (Nat.not_le.mp hle)
      rw [he]
      constructor
      · intro h
        exact nomatch h
      · rintro ⟨-, hle'⟩
        exact absurd hle' hle
  · intro htexts e h
    cases hd : Catalog.discovered tree with
    | error cause =>
      rw [encode_of_not_discovered hd] at h ⊢
      exact h
    | ok c =>
      have hunlimited : ({ config with maxSize := none } : Config).maxSize = none := rfl
      obtain ⟨bytes, hbytes⟩ := exists_encode hd hunlimited htexts
      rw [hbytes] at h
      exact nomatch h

/-- What is read is not empty. -/
theorem size_pos_of_read {bytes : ByteArray} {image : Image} (h : Image.read bytes = some image) :
    0 < bytes.size := by
  refine Nat.pos_of_ne_zero fun hzero => ?_
  have hnil : bytes.data.toList = [] := by
    rw [List.eq_nil_iff_length_eq_zero]
    exact hzero
  rw [Image.read, hnil] at h
  simp [Read.preamble, Read.bytes, Bind.bind, StateT.bind] at h

/-- Two equal objects under limits with and without room, and a tree without a root. -/
theorem encode_under_limit_twins : ∃ bytes, twins.encode {} = .ok bytes ∧
    twins.encode { maxSize := some bytes.size } = .ok bytes ∧
    (∃ e : CapacityExceeded, twins.encode { maxSize := some 0 } = .error (.capacityExceeded e) ∧
      e.limit = 0 ∧ 0 < e.needed ∧ e.needed ≤ bytes.size) ∧
    ({ nodes := #[], root := none } : Tree).encode { maxSize := some 0 } =
      .error (.invalidRoot "nothing") := by
  obtain ⟨bytes, h⟩ := exists_encode_twins
  have hfits : twins.Fits := fits_of_length (by decide) (by decide)
  obtain ⟨b, a, i, -, -, -, hread⟩ := read_of_encode hfits rfl h
  obtain ⟨hroom, -⟩ := (encode_under_limit twins {} bytes.size).1 bytes h
  obtain ⟨-, hnone⟩ := (encode_under_limit twins {} 0).1 bytes h
  obtain ⟨e, he, hlimit, hlt, hle⟩ := hnone (size_pos_of_read hread)
  refine ⟨bytes, h, (hroom bytes).mpr ⟨rfl, Nat.le_refl _⟩, ⟨e, he, hlimit, hlt (by decide), hle⟩, ?_⟩
  have htexts : ({ nodes := #[], root := none } : Tree).TextsFit :=
    textsFit_of_nodes (by decide) (by simp)
  exact (encode_under_limit _ {} 0).2 htexts _ rfl

end Tree

end PackedTree
