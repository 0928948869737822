/-
# Writing without a limit

A writer without a limit has room for everything.  The only step that it can still refuse is a text
whose length does not fit 32 bits.  So whether a step succeeds, and how many bytes it appends, does
not depend on what was written before.

* `Write.Sized`: when a step succeeds, and its size.  Sizes of steps in sequence add up
  (`Sized.bind`, `sized_forM`), so that of an artifact is put together from those of its cells.
* `IntEncoding.byteSize_le`: a smaller integer takes no more bytes.
* `Artifact.write_sized`: an artifact with a root is written exactly if its texts and the canonical
  texts of its shapes are short enough, and then takes `Artifact.byteSize` bytes.
-/
import PackedTree.Proofs.Wire.Limit

namespace PackedTree

/-! ## 1. Sizes -/

/-- The sizes of some entries, added up. -/
def totalSize {α : Type} (size : α → Nat) : List α → Nat
  | [] => 0
  | x :: l => size x + totalSize size l

/-- How many bytes an integer takes. -/
def IntEncoding.byteSize (encoding : IntEncoding) (v : UInt32) : Nat :=
  match encoding with
  | .varint => (Varint.encode v).length
  | .fixed32 => 4

/-- How many bytes a cell takes with its tag. -/
def Cell.byteSize (encoding : IntEncoding) : Cell → Nat
  | .text i | .object i | .array i => 1 + encoding.byteSize (UInt32.ofNat i)
  | .int32 _ => 5
  | .float64 _ => 9
  | .bool _ | .null => 1

namespace Artifact

def textSize (encoding : IntEncoding) (s : String) : Nat :=
  encoding.byteSize (UInt32.ofNat s.utf8ByteSize) + s.utf8ByteSize

def objectSize (encoding : IntEncoding) (entry : ObjectEntry) : Nat :=
  encoding.byteSize (UInt32.ofNat entry.shape) + totalSize (Cell.byteSize encoding) entry.values

def arraySize (encoding : IntEncoding) (cells : List Cell) : Nat :=
  encoding.byteSize (UInt32.ofNat cells.length) + totalSize (Cell.byteSize encoding) cells

/-- How many bytes the magic and the name of the format take. -/
def preambleSize (encoding : IntEncoding) : Nat :=
  4 + (IntEncoding.varint.byteSize (UInt32.ofNat encoding.formatName.utf8ByteSize) +
    encoding.formatName.utf8ByteSize)

/-- **How many bytes an artifact takes**: the preamble, the root and four counts, and the tables
with their lengths. -/
def byteSize (a : Artifact) (encoding : IntEncoding) : Nat :=
  preambleSize encoding + 20 + (4 + totalSize (textSize encoding) a.strings) +
    (4 + totalSize (fun shape => textSize encoding shape.canonicalText) a.shapes) +
    (4 + totalSize (objectSize encoding) a.objects) +
    (4 + totalSize (arraySize encoding) a.arrays)

/-- **The texts of an artifact are short enough**, and so are the canonical texts of its shapes. -/
structure TextsFit (a : Artifact) : Prop where
  strings : ∀ s ∈ a.strings, s.utf8ByteSize ≤ Write.maxLength
  shapes : ∀ shape ∈ a.shapes, shape.canonicalText.utf8ByteSize ≤ Write.maxLength

end Artifact

/-- A smaller integer has no more groups. -/
theorem Varint.length_groups_le (n m : Nat) (h : n ≤ m) :
    (groups n).length ≤ (groups m).length := by
  induction m using Nat.strongRecOn generalizing n with
  | _ m ih =>
    rw [groups.eq_def n, groups.eq_def m]
    by_cases hm : m < 128
    · rw [if_pos hm, if_pos (Nat.lt_of_le_of_lt h hm)]
      exact Nat.le_refl _
    · have hrest := ih (m / 128) (by omega) (n / 128) (Nat.div_le_div_right h)
      rw [if_neg hm]
      split <;> simp only [List.length_cons, List.length_nil] <;> omega

theorem Varint.length_encode_pos (v : UInt32) : 0 < (encode v).length := by
  rw [encode, groups.eq_def]
  split <;> exact Nat.succ_pos _

/-- **A smaller integer takes no more bytes**, in either encoding. -/
theorem IntEncoding.byteSize_le {n m : Nat} (h : n ≤ m) (hm : m < UInt32.size)
    (encoding : IntEncoding) :
    encoding.byteSize (UInt32.ofNat n) ≤ encoding.byteSize (UInt32.ofNat m) := by
  cases encoding with
  | varint =>
    have hgroups := Varint.length_groups_le n m h
    have hn := UInt32.toNat_ofNat_of_lt (Nat.lt_of_le_of_lt h hm)
    have hm := UInt32.toNat_ofNat_of_lt hm
    rw [← hn, ← hm] at hgroups
    exact hgroups
  | fixed32 => exact Nat.le_refl _

theorem IntEncoding.byteSize_pos (encoding : IntEncoding) (v : UInt32) :
    0 < encoding.byteSize v := by
  cases encoding with
  | varint => exact Varint.length_encode_pos v
  | fixed32 => exact Nat.succ_pos _

/-! ## 2. Steps in sequence -/

/-- **What a step does to a writer without a limit**: it succeeds exactly if something fits, and
then appends so many bytes. -/
def Write.Sized (encoding : IntEncoding) (step : Write Unit) (fits : Prop) (size : Nat) : Prop :=
  ∀ w : Writer, w.limit = none → w.encoding = encoding →
    (∀ w', step w = .ok () w' → fits ∧ w'.limit = none ∧ w'.encoding = encoding ∧
      w'.position = w.position + size) ∧
    (fits → ∃ w', step w = .ok () w')

namespace Write

variable {encoding : IntEncoding} {step next : Write Unit} {fits fits' : Prop} {n m : Nat}

theorem Sized.congr (h : Sized encoding step fits n) (hfits : fits ↔ fits') (hsize : n = m) :
    Sized encoding step fits' m := by
  rw [← propext hfits, ← hsize]
  exact h

theorem sized_pure : Sized encoding (pure ()) True 0 := by
  intro w hw he
  refine ⟨fun w' h => ?_, fun _ => ⟨w, rfl⟩⟩
  obtain rfl := (EStateM.Result.ok.inj h).2
  exact ⟨trivial, hw, he, rfl⟩

theorem sized_throw (e : CapacityExceeded) : Sized encoding (throw e) False n := by
  intro w _ _
  exact ⟨fun w' h => (nomatch h), False.elim⟩

/-- **Steps in sequence**: both have to fit, and their sizes add up. -/
theorem Sized.bind (h : Sized encoding step fits n) (h' : Sized encoding next fits' m) :
    Sized encoding (do step; next) (fits ∧ fits') (n + m) := by
  intro w hw he
  obtain ⟨hstep, hfirst⟩ := h w hw he
  constructor
  · intro w'' hs
    simp only [Bind.bind, EStateM.bind] at hs
    cases hw' : step w with
    | error e w' => simp [hw'] at hs
    | ok _ w' =>
      simp only [hw'] at hs
      obtain ⟨hfits, hlimit, hencoding, hposition⟩ := hstep w' hw'
      obtain ⟨hfits', hlimit', hencoding', hposition'⟩ := (h' w' hlimit hencoding).1 w'' hs
      exact ⟨⟨hfits, hfits'⟩, hlimit', hencoding', by omega⟩
  · rintro ⟨hfits, hfits'⟩
    obtain ⟨w', hw'⟩ := hfirst hfits
    obtain ⟨-, hlimit, hencoding, -⟩ := hstep w' hw'
    obtain ⟨w'', hw''⟩ := (h' w' hlimit hencoding).2 hfits'
    refine ⟨w'', ?_⟩
    simp only [Bind.bind, EStateM.bind, hw']
    exact hw''

theorem sized_forM {α : Type} {write : α → Write Unit} {fits : α → Prop} {size : α → Nat}
    (h : ∀ x, Sized encoding (write x) (fits x) (size x)) (l : List α) :
    Sized encoding (l.forM write) (∀ x ∈ l, fits x) (totalSize size l) := by
  induction l with
  | nil => exact sized_pure.congr (by simp) rfl
  | cons x l ih => exact ((h x).bind ih).congr (by simp) rfl

/-! ## 3. Numbers, texts and cells -/

/-- A counter appends nothing. -/
theorem sized_count {f : Writer → Writer} (hbytes : ∀ w, (f w).bytes = w.bytes)
    (hlimit : ∀ w, (f w).limit = w.limit) (hencoding : ∀ w, (f w).encoding = w.encoding) :
    Sized encoding (modify f) True 0 := by
  intro w hw he
  refine ⟨fun w' h => ?_, fun _ => ⟨f w, rfl⟩⟩
  obtain rfl := (EStateM.Result.ok.inj h).2
  exact ⟨trivial, (hlimit w).trans hw, (hencoding w).trans he, congrArg ByteArray.size (hbytes w)⟩

theorem sized_chunk (bytes : ByteArray) : Sized encoding (chunk bytes) True bytes.size := by
  intro w hw he
  have hchunk : chunk bytes w = .ok () (w.append bytes) := by
    simp only [chunk, reserve, Writer.excess?, Writer.over?, hw, Bind.bind, EStateM.bind]
    rfl
  refine ⟨fun w' h => ?_, fun _ => ⟨_, hchunk⟩⟩
  rw [hchunk] at h
  obtain rfl := (EStateM.Result.ok.inj h).2
  exact ⟨trivial, hw, he, by simp [Writer.append, Writer.position]⟩

theorem sized_varint (v : UInt32) : Sized encoding (varint v) True (Varint.encode v).length := by
  have hcount : Sized encoding (modify (·.countVarint (Varint.encode v).length)) True 0 :=
    sized_count (fun _ => rfl) (fun _ => rfl) fun _ => rfl
  exact ((sized_chunk _).bind hcount).congr and_self_iff List.size_toArray

/-- The encoding decides the size of an integer. -/
theorem sized_integer (v : UInt32) :
    Sized encoding (integer v) True (encoding.byteSize v) := by
  intro w hw he
  rw [integer_apply, he]
  cases encoding with
  | varint => exact sized_varint v w hw he
  | fixed32 => exact sized_chunk _ w hw he

theorem sized_uint32 (v : UInt32) : Sized encoding (uint32 v) True 4 := sized_chunk _

theorem sized_tag (t : Tag) : Sized encoding (tag t) True 1 := by
  have hcount : Sized encoding (modify (·.countTag)) True 0 :=
    sized_count (fun _ => rfl) (fun _ => rfl) fun _ => rfl
  exact ((sized_chunk _).bind hcount).congr and_self_iff rfl

/-- **A text** can be written exactly if its length fits. -/
theorem sized_textWith {length : UInt32 → Write Unit} {size : UInt32 → Nat}
    (hlength : ∀ n, Sized encoding (length n) True (size n)) (s : String) :
    Sized encoding (textWith length s) (s.utf8ByteSize ≤ maxLength)
      (size (UInt32.ofNat s.utf8ByteSize) + s.utf8ByteSize) := by
  have hwrite := (hlength (UInt32.ofNat s.utf8ByteSize)).bind (sized_chunk s.toUTF8)
  unfold textWith
  by_cases hs : maxLength < s.utf8ByteSize
  · rw [if_pos hs]
    refine ((sized_throw (n := 0) _).bind hwrite).congr ?_ ?_
    · simp [Nat.not_le.mpr hs]
    · simp
  · rw [if_neg hs]
    refine hwrite.congr ?_ ?_
    · simp [Nat.not_lt.mp hs]
    · simp

theorem sized_text (s : String) :
    Sized encoding (text s) (s.utf8ByteSize ≤ maxLength) (Artifact.textSize encoding s) :=
  sized_textWith sized_integer s

theorem sized_cell (c : Cell) : Sized encoding (cell c) True (c.byteSize encoding) := by
  have htagged {step : Write Unit} {size : Nat} (h : Sized encoding step True size) :
      Sized encoding (do tag c.tag; step) True (1 + size) :=
    ((sized_tag _).bind h).congr and_self_iff rfl
  cases c with
  | text i | object i | array i => exact htagged (sized_integer _)
  | int32 _ | float64 _ => exact htagged (sized_chunk _)
  | bool _ | null => exact htagged sized_pure

theorem sized_cells (cells : List Cell) :
    Sized encoding (cells.forM cell) True (totalSize (Cell.byteSize encoding) cells) :=
  (sized_forM sized_cell cells).congr (by simp) rfl

theorem sized_table {α : Type} {entry : α → Write Unit} {fits : α → Prop} {size : α → Nat}
    (h : ∀ x, Sized encoding (entry x) (fits x) (size x)) (entries : List α) :
    Sized encoding (table entries entry) (∀ x ∈ entries, fits x) (4 + totalSize size entries) :=
  ((sized_uint32 _).bind (sized_forM h entries)).congr (by simp) rfl

end Write

/-! ## 4. Artifacts -/

namespace Artifact

open Write

theorem sized_preamble (encoding : IntEncoding) :
    Sized encoding (preamble encoding) True (preambleSize encoding) := by
  have hname : encoding.formatName.utf8ByteSize ≤ maxLength := by
    cases encoding <;> decide
  refine ((sized_chunk _).bind (sized_textWith sized_varint _)).congr ?_ rfl
  simp [hname]

theorem sized_objects (entries : List ObjectEntry) (encoding : IntEncoding) :
    Sized encoding (table entries fun entry => do
      integer (UInt32.ofNat entry.shape); entry.values.forM cell) True
      (4 + totalSize (objectSize encoding) entries) :=
  (sized_table (fun _ => (sized_integer _).bind (sized_cells _)) entries).congr (by simp) rfl

theorem sized_arrays (entries : List (List Cell)) (encoding : IntEncoding) :
    Sized encoding (table entries fun cells => do
      integer (UInt32.ofNat cells.length); cells.forM cell) True
      (4 + totalSize (arraySize encoding) entries) :=
  (sized_table (fun _ => (sized_integer _).bind (sized_cells _)) entries).congr (by simp) rfl

/-- **The size of a whole artifact** is that of its parts. -/
theorem sized_whole (a : Artifact) (encoding : IntEncoding) (root : Nat) :
    Sized encoding (do preamble encoding; a.body root) a.TextsFit (a.byteSize encoding) := by
  have hwords {step : Write Unit} {fits : Prop} {size : Nat} (h : Sized encoding step fits size)
      (v : UInt32) : Sized encoding (do uint32 v; step) fits (4 + size) :=
    ((sized_uint32 v).bind h).congr (by simp) rfl
  have htables := (sized_table sized_text a.strings).bind
    ((sized_table (fun shape => sized_text shape.canonicalText) a.shapes).bind
      ((sized_objects a.objects encoding).bind (sized_arrays a.arrays encoding)))
  have hbody : Sized encoding (a.body root) _ _ :=
    hwords (hwords (hwords (hwords (hwords htables _) _) _) _) _
  refine ((sized_preamble encoding).bind hbody).congr ?_ ?_
  · constructor
    · rintro ⟨-, hstrings, hshapes, -⟩
      exact ⟨hstrings, hshapes⟩
    · rintro ⟨hstrings, hshapes⟩
      exact ⟨trivial, hstrings, hshapes, trivial, trivial⟩
  · unfold byteSize
    omega

/-- **What is written without a limit**: an artifact with a root is written exactly if its texts are
short enough, and takes the bytes of its parts. -/
theorem write_sized {a : Artifact} {config : Config} {root : Nat} (hlimit : config.maxSize = none)
    (hroot : a.root = some root) :
    (∀ w, a.write config = .ok w → a.TextsFit ∧ w.position = a.byteSize config.intEncoding) ∧
      (a.TextsFit → ∃ w, a.write config = .ok w) := by
  obtain ⟨hsize, hfits⟩ := sized_whole a config.intEncoding root (writer config) hlimit rfl
  rw [write_of_root hroot, runWrite]
  constructor
  · intro w hw
    cases hs : (do preamble config.intEncoding; a.body root : Write Unit) (writer config) with
    | error e v => simp [hs] at hw
    | ok _ w' =>
      simp only [hs, Except.ok.injEq] at hw
      subst hw
      obtain ⟨htexts, -, -, hposition⟩ := hsize w' hs
      exact ⟨htexts, hposition.trans (Nat.zero_add _)⟩
  · intro htexts
    obtain ⟨w, hw⟩ := hfits htexts
    exact ⟨w, by rw [hw]⟩

end Artifact

end PackedTree
