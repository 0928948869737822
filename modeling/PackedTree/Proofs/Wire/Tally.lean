/-
# What a writer counts

A writer counts the tags it writes and, by their lengths, its integers of variable width.  The
counters do not depend on the limit or on what was written before: a step that succeeds adds a
number of tags and a list of integers.

* `Write.Tallies`: what a step adds.  Steps in sequence add what each adds (`Tallies.bind`,
  `tallies_forM`).
* `Image.varints`: the integers of variable width in an artifact, in the order of its layout.  With
  fixed widths only the length of the name of the format is one.
* `Artifact.write_tallied`: the counters of a whole artifact.
-/
import PackedTree.Proofs.Artifact.Image
import PackedTree.Proofs.Wire.Unlimited

namespace PackedTree

/-! ## 1. Counting steps -/

/-- How many of some integers take so many bytes in groups of seven bits. -/
def varintsOfLength (length : Nat) (ints : List Nat) : Nat :=
  ints.countP fun n => (Varint.encode (UInt32.ofNat n)).length = length

theorem varintsOfLength_append (length : Nat) (ints ints' : List Nat) :
    varintsOfLength length (ints ++ ints') =
      varintsOfLength length ints + varintsOfLength length ints' := List.countP_append

/-- **What a step counts** if it succeeds: so many tags, and these integers of variable width. -/
def Write.Tallies (encoding : IntEncoding) (step : Write Unit) (tags : Nat) (ints : List Nat) :
    Prop :=
  ∀ w w' : Writer, w.encoding = encoding → step w = .ok () w' →
    w'.encoding = encoding ∧ w'.tagBytes = w.tagBytes + tags ∧
      ∀ i : Fin Varint.maxSize,
        w'.varintSizes.get i = w.varintSizes.get i + varintsOfLength (i + 1) ints

/-- The integers among some that have variable width. -/
def IntEncoding.variable (encoding : IntEncoding) (ints : List Nat) : List Nat :=
  match encoding with
  | .varint => ints
  | .fixed32 => []

namespace Write

variable {encoding : IntEncoding} {step next : Write Unit} {tags tags' : Nat} {ints ints' : List Nat}

theorem Tallies.congr (h : Tallies encoding step tags ints) (htags : tags = tags')
    (hints : ints = ints') : Tallies encoding step tags' ints' := by
  rw [← htags, ← hints]
  exact h

/-- A step that only appends bytes counts nothing. -/
theorem tallies_silent (h : ∀ w w' : Writer, step w = .ok () w' → w'.encoding = w.encoding ∧
    w'.tagBytes = w.tagBytes ∧ w'.varintSizes = w.varintSizes) : Tallies encoding step 0 [] := by
  intro w w' hw hs
  obtain ⟨hencoding, htags, hsizes⟩ := h w w' hs
  exact ⟨hencoding.trans hw, htags, fun i => by rw [hsizes]; rfl⟩

theorem tallies_pure : Tallies encoding (pure ()) 0 [] :=
  tallies_silent fun w w' h => by
    obtain rfl := (EStateM.Result.ok.inj h).2
    exact ⟨rfl, rfl, rfl⟩

theorem tallies_throw (e : CapacityExceeded) : Tallies encoding (throw e) tags ints :=
  fun _ _ _ h => nomatch h

/-- **Steps in sequence** count what each counts. -/
theorem Tallies.bind (h : Tallies encoding step tags ints)
    (h' : Tallies encoding next tags' ints') :
    Tallies encoding (do step; next) (tags + tags') (ints ++ ints') := by
  intro w w'' hw hs
  simp only [Bind.bind, EStateM.bind] at hs
  cases hw' : step w with
  | error e w' => simp [hw'] at hs
  | ok _ w' =>
    simp only [hw'] at hs
    obtain ⟨hencoding, htags, hsizes⟩ := h w w' hw hw'
    obtain ⟨hencoding', htags', hsizes'⟩ := h' w' w'' hencoding hs
    refine ⟨hencoding', by omega, fun i => ?_⟩
    rw [hsizes' i, hsizes i, varintsOfLength_append, Nat.add_assoc]

theorem tallies_forM {α : Type} {write : α → Write Unit} {tags : α → Nat} {ints : α → List Nat}
    (h : ∀ x, Tallies encoding (write x) (tags x) (ints x)) (l : List α) :
    Tallies encoding (l.forM write) (totalSize tags l) (l.flatMap ints) := by
  induction l with
  | nil => exact tallies_pure
  | cons x l ih => exact ((h x).bind ih).congr rfl List.flatMap_cons.symm

/-! ## 2. Numbers, texts and cells -/

theorem tallies_chunk (bytes : ByteArray) : Tallies encoding (chunk bytes) 0 [] :=
  tallies_silent fun w w' h => by
    simp only [chunk, reserve, Bind.bind, EStateM.bind] at h
    cases hexcess : w.excess? bytes.size with
    | some e => simp [hexcess] at h
    | none =>
      simp only [hexcess] at h
      obtain rfl := (EStateM.Result.ok.inj h).2
      exact ⟨rfl, rfl, rfl⟩

/-- An integer of variable width counts under its length. -/
theorem tallies_varint (n : Nat) : Tallies encoding (varint (UInt32.ofNat n)) 0 [n] := by
  have hcount : Tallies encoding
      (modify (·.countVarint (Varint.encode (UInt32.ofNat n)).length)) 0 [n] := by
    intro w w' hw h
    obtain rfl := (EStateM.Result.ok.inj h).2
    refine ⟨hw, rfl, fun i => ?_⟩
    have hsize : (w.varintSizes.count (Varint.encode (UInt32.ofNat n)).length).get i =
        if i.val + 1 = (Varint.encode (UInt32.ofNat n)).length then w.varintSizes.get i + 1
        else w.varintSizes.get i := Vector.getElem_ofFn i.isLt
    refine hsize.trans ?_
    by_cases hi : i.val + 1 = (Varint.encode (UInt32.ofNat n)).length
    · simp [varintsOfLength, hi]
    · simp [varintsOfLength, hi, Ne.symm hi]
  exact (tallies_chunk _).bind hcount

/-- The encoding decides whether an integer has variable width. -/
theorem tallies_integer (n : Nat) :
    Tallies encoding (integer (UInt32.ofNat n)) 0 (encoding.variable [n]) := by
  intro w w' hw h
  rw [integer_apply, hw] at h
  cases encoding with
  | varint => exact tallies_varint n w w' hw h
  | fixed32 => exact tallies_chunk _ w w' hw h

theorem tallies_tag (t : Tag) : Tallies encoding (tag t) 1 [] := by
  have hcount : Tallies encoding (modify (·.countTag)) 1 [] := by
    intro w w' hw h
    obtain rfl := (EStateM.Result.ok.inj h).2
    exact ⟨hw, rfl, fun i => rfl⟩
  exact (tallies_chunk _).bind hcount

/-- **A text** counts its length. -/
theorem tallies_textWith {length : UInt32 → Write Unit} (s : String)
    (hlength : Tallies encoding (length (UInt32.ofNat s.utf8ByteSize)) 0 ints) :
    Tallies encoding (textWith length s) 0 ints := by
  have hthrow (e : CapacityExceeded) : Tallies encoding (throw e) 0 [] := tallies_throw e
  have hwrite := hlength.bind (tallies_chunk s.toUTF8)
  unfold textWith
  by_cases hs : maxLength < s.utf8ByteSize
  · rw [if_pos hs]
    exact ((hthrow _).bind hwrite).congr rfl (List.append_nil ints)
  · rw [if_neg hs]
    exact hwrite.congr rfl (List.append_nil ints)

theorem tallies_text (s : String) :
    Tallies encoding (text s) 0 (encoding.variable [s.utf8ByteSize]) :=
  tallies_textWith s (tallies_integer _)

end Write

/-! ## 3. The integers of an artifact -/

/-- The reference of a cell, which is its integer of variable width. -/
def Cell.integers : Cell → List Nat
  | .text i | .object i | .array i => [i]
  | .int32 _ | .float64 _ | .bool _ | .null => []

namespace Image

/-- How many tagged values an artifact holds: the fields of its objects and the items of its
arrays. -/
def taggedValues (image : Image) : Nat :=
  totalSize (fun entry => entry.values.length) image.objects + totalSize List.length image.arrays

/-- **The integers that the encoding decides about**: the lengths of texts and of the canonical
texts of shapes, the shape of each object, the length of each array, and all references. -/
def integers (image : Image) : List Nat :=
  image.strings.map String.utf8ByteSize ++
    image.shapes.map (fun keys => (Json.array (keys.map .string)).compact.utf8ByteSize) ++
    image.objects.flatMap (fun entry => entry.shape :: entry.values.flatMap Cell.integers) ++
    image.arrays.flatMap (fun cells => cells.length :: cells.flatMap Cell.integers)

/-- **The integers of variable width**: the length of the name of the format, and those that the
encoding decides about if it gives them variable width. -/
def varints (image : Image) : List Nat :=
  image.encoding.formatName.utf8ByteSize :: image.encoding.variable image.integers

end Image

theorem totalSize_one {α : Type} (l : List α) : totalSize (fun _ => 1) l = l.length := by
  induction l with
  | nil => rfl
  | cons x l ih =>
    rw [totalSize, ih, List.length_cons]
    omega

theorem totalSize_zero {α : Type} (l : List α) : totalSize (fun _ => 0) l = 0 := by
  induction l with
  | nil => rfl
  | cons x l ih => rw [totalSize, ih]

namespace IntEncoding

theorem variable_append (encoding : IntEncoding) (l l' : List Nat) :
    encoding.variable (l ++ l') = encoding.variable l ++ encoding.variable l' := by
  cases encoding <;> rfl

theorem variable_flatMap {α : Type} (encoding : IntEncoding) (f : α → List Nat) (l : List α) :
    encoding.variable (l.flatMap f) = l.flatMap fun x => encoding.variable (f x) := by
  cases encoding with
  | varint => rfl
  | fixed32 => exact (List.flatMap_eq_nil_iff.mpr fun _ _ => rfl).symm

theorem variable_map {α : Type} (encoding : IntEncoding) (f : α → Nat) (l : List α) :
    encoding.variable (l.map f) = l.flatMap fun x => encoding.variable [f x] := by
  rw [← variable_flatMap, List.map_eq_flatMap]

end IntEncoding

namespace Write

variable {encoding : IntEncoding}

/-- **A cell** counts its tag and its reference. -/
theorem tallies_cell (c : Cell) : Tallies encoding (cell c) 1 (encoding.variable c.integers) := by
  have hnone : encoding.variable [] = [] := by cases encoding <;> rfl
  cases c with
  | text i | object i | array i => exact (tallies_tag _).bind (tallies_integer i)
  | int32 _ | float64 _ =>
    exact ((tallies_tag _).bind (tallies_chunk _)).congr rfl hnone.symm
  | bool _ | null => exact ((tallies_tag _).bind tallies_pure).congr rfl hnone.symm

/-- An integer before some cells: their tags, and the integer before their references. -/
theorem tallies_headed (n : Nat) (cells : List Cell) :
    Tallies encoding (do integer (UInt32.ofNat n); cells.forM cell) cells.length
      (encoding.variable (n :: cells.flatMap Cell.integers)) := by
  refine ((tallies_integer n).bind (tallies_forM tallies_cell cells)).congr ?_ ?_
  · rw [totalSize_one, Nat.zero_add]
  · rw [← encoding.variable_flatMap, ← encoding.variable_append]
    rfl

/-- The length of a table has a fixed width. -/
theorem tallies_table {α : Type} {entry : α → Write Unit} {tags : α → Nat} {ints : α → List Nat}
    (h : ∀ x, Tallies encoding (entry x) (tags x) (ints x)) (entries : List α) :
    Tallies encoding (table entries entry) (totalSize tags entries) (entries.flatMap ints) :=
  ((tallies_chunk _).bind (tallies_forM h entries)).congr (Nat.zero_add _) (List.nil_append _)

end Write

/-! ## 4. Artifacts -/

namespace Artifact

open Write

theorem tallies_preamble (encoding : IntEncoding) :
    Tallies encoding (preamble encoding) 0 [encoding.formatName.utf8ByteSize] :=
  (tallies_chunk _).bind (tallies_textWith _ (tallies_varint _))

/-- **The counters of a whole artifact** are those of its parts. -/
theorem tallies_whole (a : Artifact) (encoding : IntEncoding) (root : Nat) :
    Tallies encoding (do preamble encoding; a.body root) (a.image encoding root).taggedValues
      (a.image encoding root).varints := by
  have hword {step : Write Unit} {tags : Nat} {ints : List Nat}
      (h : Tallies encoding step tags ints) (v : UInt32) :
      Tallies encoding (do uint32 v; step) tags ints :=
    ((tallies_chunk _).bind h).congr (Nat.zero_add _) (List.nil_append _)
  have hobjects := tallies_table (fun entry : ObjectEntry =>
    (tallies_headed entry.shape entry.values : Tallies encoding _ _ _)) a.objects
  have harrays := tallies_table (fun cells : List Cell =>
    (tallies_headed cells.length cells : Tallies encoding _ _ _)) a.arrays
  have htables := (tallies_table tallies_text a.strings).bind
    ((tallies_table (fun shape : Shape => tallies_text shape.canonicalText) a.shapes).bind
      (hobjects.bind harrays))
  have hbody : Tallies encoding (a.body root) _ _ :=
    hword (hword (hword (hword (hword htables _) _) _) _) _
  refine ((tallies_preamble encoding).bind hbody).congr ?_ ?_
  · simp only [totalSize_zero, Nat.zero_add]
    rfl
  · simp only [Image.varints, Image.integers, image, encoding.variable_append,
      encoding.variable_flatMap, encoding.variable_map, List.append_assoc, List.flatMap_map]
    rfl

/-- **What is counted of a written artifact**: its tagged values, and its integers of variable width
by their lengths. -/
theorem write_tallied {a : Artifact} {config : Config} {root : Nat} {w : Writer}
    (hroot : a.root = some root) (hw : a.write config = .ok w) :
    w.tagBytes = (a.image config.intEncoding root).taggedValues ∧
      ∀ i : Fin Varint.maxSize, w.varintSizes.get i =
        varintsOfLength (i + 1) (a.image config.intEncoding root).varints := by
  rw [write_of_root hroot, runWrite] at hw
  cases hs : (do preamble config.intEncoding; a.body root : Write Unit) (writer config) with
  | error e v => simp [hs] at hw
  | ok _ w' =>
    simp only [hs, Except.ok.injEq] at hw
    subst hw
    obtain ⟨-, htags, hsizes⟩ := a.tallies_whole config.intEncoding root (writer config) w' rfl hs
    refine ⟨htags.trans (Nat.zero_add _), fun i => ?_⟩
    have hzero : (writer config).varintSizes.get i = 0 := Vector.getElem_replicate i.isLt
    rw [hsizes i, hzero, Nat.zero_add]

end Artifact

end PackedTree
