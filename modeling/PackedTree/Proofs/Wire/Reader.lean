/-
# Reading bytes back

A reader for what a writer writes, part by part, and the round trips of the parts.

`Codes` ties a writing step to a reader: whatever the step appends, the reader takes off again, and
gives what was written.  It passes along sequences of steps (`Codes.bind`, `Codes.many`), so the
round trip of an artifact is put together from those of words, integers, texts and cells.

Nothing is assumed about the limit of the writer: the ties speak about steps that succeed.
-/
import Mathlib.Algebra.Group.Nat.Defs
import PackedTree.Artifact.Bytes

namespace PackedTree

/-- Takes a value off the front of some bytes, or fails. -/
abbrev Read := StateT (List UInt8) Option

namespace Read

variable {α : Type}

/-! ## 1. Readers -/

def byte : Read UInt8 := fun
  | [] => none
  | b :: rest => some (b, rest)

def bytes (count : Nat) : Read (List UInt8) := fun input =>
  if count ≤ input.length then some (input.take count, input.drop count) else none

/-- A 32-bit word, the least significant byte first. -/
def word32 : Read UInt32 := do
  let a ← byte
  let b ← byte
  let c ← byte
  let d ← byte
  return UInt32.ofNat (a.toNat + 0x100 * (b.toNat + 0x100 * (c.toNat + 0x100 * d.toNat)))

/-- A 64-bit word, the least significant byte first. -/
def word64 : Read UInt64 := do
  let low ← word32
  let high ← word32
  return UInt64.ofNat (low.toNat + 0x100000000 * high.toNat)

/-- An integer in groups of seven bits. -/
def varint : Read UInt32 := fun input =>
  (Varint.decode? input).map fun (v, used) => (v, input.drop used)

/-- An integer of variable width. -/
def integer (encoding : IntEncoding) : Read Nat :=
  match encoding with
  | .varint => varint.map UInt32.toNat
  | .fixed32 => word32.map UInt32.toNat

/-- A text after its length. -/
def textOfLength (count : Nat) : Read String := do
  let bs ← bytes count
  match String.fromUTF8? (ByteArray.mk bs.toArray) with
  | some s => return s
  | none => failure

def text (encoding : IntEncoding) : Read String := integer encoding >>= textOfLength

def varintText : Read String := varint.map UInt32.toNat >>= textOfLength

/-- A tagged value. -/
def cell (encoding : IntEncoding) : Read Cell := do
  let b ← byte
  match Tag.ofByte? b with
  | some .string => return .text (← integer encoding)
  | some .int32 => return .int32 (← word32).toInt32
  | some .float64 => return .float64 ⟨← word64⟩
  | some .object => return .object (← integer encoding)
  | some .array => return .array (← integer encoding)
  | some .null => return .null
  | some .true => return .bool true
  | some .false => return .bool false
  | none => failure

/-- So many entries, one after the other. -/
def many (entry : Read α) : Nat → Read (List α)
  | 0 => return []
  | count + 1 => do
    let a ← entry
    let more ← many entry count
    return a :: more

/-- The number of entries as a word, then the entries. -/
def table (entry : Read α) : Read (List α) := do
  let count ← word32
  many entry count.toNat

end Read

/-! ## 2. Steps and their readers -/

/-- **A writing step and a reader fit**: the reader takes off what the step appends, gives the
value, and leaves what follows. -/
def Codes {α : Type} (encoding : IntEncoding) (step : Write Unit) (read : Read α) (a : α) : Prop :=
  ∀ w w' : Writer, w.encoding = encoding → step w = .ok () w' →
    w'.encoding = encoding ∧ ∃ chunk, w'.bytes.data.toList = w.bytes.data.toList ++ chunk ∧
      ∀ rest, read (chunk ++ rest) = some (a, rest)

namespace Codes

variable {α β : Type} {encoding : IntEncoding} {step : Write Unit}

theorem pure (a : α) : Codes encoding (pure ()) (pure a) a := by
  intro w w' hw h
  obtain rfl := (EStateM.Result.ok.inj h).2
  exact ⟨hw, [], by simp, fun rest => rfl⟩

/-- **Steps in sequence** fit readers in sequence. -/
theorem bind {read : Read α} {a : α} (h : Codes encoding step read a) {step' : Write Unit}
    {read' : α → Read β} {b : β} (h' : Codes encoding step' (read' a) b) :
    Codes encoding (do step; step') (read >>= read') b := by
  intro w w'' hw hs
  simp only [Bind.bind, EStateM.bind] at hs
  cases hstep : step w with
  | error e w' => simp [hstep] at hs
  | ok _ w' =>
    rw [hstep] at hs
    obtain ⟨hw', chunk, hchunk, hread⟩ := h w w' hw hstep
    obtain ⟨hw'', chunk', hchunk', hread'⟩ := h' w' w'' hw' hs
    refine ⟨hw'', chunk ++ chunk', ?_, ?_⟩
    · rw [hchunk', hchunk, List.append_assoc]
    · intro rest
      have hr := hread (chunk' ++ rest)
      rw [← List.append_assoc] at hr
      simp only [Bind.bind, StateT.bind, hr, Option.bind_some]
      exact hread' rest

/-- A reader that takes off nothing more. -/
theorem finish {read : Read α} {a : α} (h : Codes encoding step read a) {next : α → Read β} {b : β}
    (hnext : next a = Pure.pure b) : Codes encoding step (read >>= next) b := by
  intro w w' hw hs
  obtain ⟨hw', chunk, hchunk, hread⟩ := h w w' hw hs
  refine ⟨hw', chunk, hchunk, ?_⟩
  intro rest
  simp only [Bind.bind, StateT.bind, hread rest, Option.bind_some, hnext]
  rfl

theorem map {read : Read α} {a : α} (h : Codes encoding step read a) (f : α → β) :
    Codes encoding step (read >>= fun a => Pure.pure (f a)) (f a) :=
  h.finish rfl

/-- **Entries one after the other** are read as many. -/
theorem many {γ : Type} {write : γ → Write Unit} {entry : Read α} {f : γ → α} {l : List γ}
    (h : ∀ x ∈ l, Codes encoding (write x) entry (f x)) :
    Codes encoding (l.forM write) (Read.many entry l.length) (l.map f) := by
  induction l with
  | nil => exact Codes.pure []
  | cons x l ih =>
    have hrest := ih fun y hy => h y (List.mem_cons_of_mem _ hy)
    exact (h x List.mem_cons_self).bind (hrest.map (f x :: ·))

/-! ## 3. Bytes and words -/

theorem bytes {chunk : List UInt8} {read : Read α} {a : α}
    (h : ∀ rest, read (chunk ++ rest) = some (a, rest)) :
    Codes encoding (Write.bytes chunk) read a := by
  intro w w' hw hs
  simp only [Write.bytes, Write.chunk, Write.reserve, Bind.bind, EStateM.bind] at hs
  cases he : w.excess? (ByteArray.mk chunk.toArray).size with
  | some e => simp [he] at hs
  | none =>
    simp only [he] at hs
    obtain rfl := (EStateM.Result.ok.inj hs).2
    refine ⟨hw, chunk, ?_, h⟩
    simp [Writer.append]

end Codes

/-- The four bytes of a word make it. -/
theorem Write.bytes_of_word32 (v : UInt32) :
    v.toUInt8.toNat + 0x100 * ((v >>> 8).toUInt8.toNat + 0x100 * ((v >>> 16).toUInt8.toNat +
      0x100 * (v >>> 24).toUInt8.toNat)) = v.toNat := by
  have hlt := v.toNat_lt
  simp only [UInt32.toNat_toUInt8, UInt32.toNat_shiftRight, UInt32.reduceToNat,
    Nat.shiftRight_eq_div_pow, Nat.reduceMod, Nat.reducePow]
  omega

/-- The two halves of a word make it. -/
theorem Write.halves_of_word64 (v : UInt64) :
    v.toUInt32.toNat + 0x100000000 * (v >>> 32).toUInt32.toNat = v.toNat := by
  have hlt := v.toNat_lt
  simp only [UInt64.toNat_toUInt32, UInt64.toNat_shiftRight, UInt64.reduceToNat,
    Nat.shiftRight_eq_div_pow, Nat.reduceMod, Nat.reducePow]
  omega

theorem Read.word32_append (v : UInt32) (rest : List UInt8) :
    Read.word32 (Write.word32 v ++ rest) = some (v, rest) := by
  have hv : UInt32.ofNat (v.toUInt8.toNat + 0x100 * ((v >>> 8).toUInt8.toNat + 0x100 *
      ((v >>> 16).toUInt8.toNat + 0x100 * (v >>> 24).toUInt8.toNat))) = v := by
    rw [Write.bytes_of_word32, UInt32.ofNat_toNat]
  exact congrArg (fun v => some (v, rest)) hv

theorem Read.word64_append (v : UInt64) (rest : List UInt8) :
    Read.word64 (Write.word64 v ++ rest) = some (v, rest) := by
  have hv : UInt64.ofNat (v.toUInt32.toNat + 0x100000000 * (v >>> 32).toUInt32.toNat) = v := by
    rw [Write.halves_of_word64, UInt64.ofNat_toNat]
  have hlow := Read.word32_append v.toUInt32 (Write.word32 (v >>> 32).toUInt32 ++ rest)
  have hhigh := Read.word32_append (v >>> 32).toUInt32 rest
  simp only [Read.word64, Write.word64, List.append_assoc, Bind.bind, StateT.bind, hlow,
    Option.bind_some, hhigh]
  exact congrArg (fun v => some (v, rest)) hv

/-- Groups are read back if they fit the room: four bits are left for the last one. -/
theorem Varint.decodeGroups_groups : ∀ (room n : Nat) (rest : List UInt8), n < 16 * 128 ^ room →
    Varint.decodeGroups (room + 1) (Varint.groups n ++ rest) =
      some (n, (Varint.groups n).length) := by
  intro room
  induction room with
  | zero =>
    intro n rest hn
    rw [Varint.groups, if_pos (by omega)]
    have hb : (UInt8.ofNat n).toNat = n := by
      rw [UInt8.toNat_ofNat']
      omega
    simp only [List.cons_append, List.nil_append, Varint.decodeGroups, hb]
    rw [if_neg (by omega), if_pos (by omega), Nat.mod_eq_of_lt (by omega)]
    rfl
  | succ room ih =>
    intro n rest hn
    rw [Varint.groups]
    split
    · rename_i hlt
      have hb : (UInt8.ofNat n).toNat = n := by
        rw [UInt8.toNat_ofNat']
        omega
      simp only [List.cons_append, List.nil_append, Varint.decodeGroups, hb]
      rw [if_neg (by omega), if_pos hlt, Nat.mod_eq_of_lt hlt]
      rfl
    · rename_i hge
      have hb : (UInt8.ofNat (n % 128 + 128)).toNat = n % 128 + 128 := by
        rw [UInt8.toNat_ofNat']
        omega
      have hrec := ih (n / 128) rest (by rw [Nat.pow_succ] at hn; omega)
      simp only [List.cons_append, Varint.decodeGroups, hb]
      rw [if_neg (by omega), if_neg (by omega)]
      rw [hrec]
      simp only [List.length_cons, Option.some.injEq, Prod.mk.injEq, and_true]
      omega

/-- **An integer is read back**, whatever bytes follow it. -/
theorem Varint.decode?_encode_append (v : UInt32) (rest : List UInt8) :
    Varint.decode? (Varint.encode v ++ rest) = some (v, (Varint.encode v).length) := by
  have h := Varint.decodeGroups_groups 4 v.toNat rest v.toNat_lt
  unfold Varint.decode? Varint.encode
  rw [Varint.maxSize, h]
  simp

theorem Read.varint_append (v : UInt32) (rest : List UInt8) :
    Read.varint (Varint.encode v ++ rest) = some (v, rest) := by
  unfold Read.varint
  rw [Varint.decode?_encode_append]
  simp

namespace Codes

variable {encoding : IntEncoding}

theorem word32 (v : UInt32) : Codes encoding (Write.uint32 v) Read.word32 v :=
  .bytes (Read.word32_append v)

theorem word64 (v : UInt64) : Codes encoding (Write.bytes (Write.word64 v)) Read.word64 v :=
  .bytes (Read.word64_append v)

/-- A step that only counts changes nothing that is read. -/
theorem counted {α : Type} {step : Write Unit} {read : Read α} {a : α}
    (h : Codes encoding step read a) {count : Writer → Writer}
    (hcount : ∀ w, (count w).encoding = w.encoding ∧ (count w).bytes = w.bytes) :
    Codes encoding (do step; modify count) read a := by
  intro w w'' hw hs
  simp only [Bind.bind, EStateM.bind] at hs
  cases hstep : step w with
  | error e w' => simp [hstep] at hs
  | ok _ w' =>
    rw [hstep] at hs
    obtain rfl := (EStateM.Result.ok.inj hs).2
    obtain ⟨hw', chunk, hchunk, hread⟩ := h w w' hw hstep
    refine ⟨(hcount w').1.trans hw', chunk, ?_, hread⟩
    rw [(hcount w').2]
    exact hchunk

theorem varint (v : UInt32) : Codes encoding (Write.varint v) Read.varint v :=
  (Codes.bytes (Read.varint_append v)).counted fun _ => ⟨rfl, rfl⟩

/-- An integer of variable width, in the encoding of the writer. -/
theorem integer {n : Nat} (h : n < UInt32.size) :
    Codes encoding (Write.integer (UInt32.ofNat n)) (Read.integer encoding) n := by
  have hn : (UInt32.ofNat n).toNat = n := UInt32.toNat_ofNat_of_lt h
  intro w w' hw hs
  rw [Write.integer_apply, hw] at hs
  cases encoding with
  | varint =>
    have hmap : Codes .varint _ _ _ := (varint (UInt32.ofNat n)).map UInt32.toNat
    rw [hn] at hmap
    exact hmap w w' hw hs
  | fixed32 =>
    have hmap : Codes .fixed32 _ _ _ := (word32 (UInt32.ofNat n)).map UInt32.toNat
    rw [hn] at hmap
    exact hmap w w' hw hs

end Codes

/-! ## 4. Texts, cells and tables -/

theorem Read.textOfLength_append (s : String) (rest : List UInt8) :
    Read.textOfLength s.utf8ByteSize (s.toUTF8.data.toList ++ rest) = some (s, rest) := by
  have hlen : s.toUTF8.data.toList.length = s.utf8ByteSize := by
    rw [Array.length_toList]
    rfl
  have hbytes : Read.bytes s.utf8ByteSize (s.toUTF8.data.toList ++ rest) =
      some (s.toUTF8.data.toList, rest) := by
    unfold Read.bytes
    rw [if_pos (by rw [List.length_append, hlen]; omega), ← hlen, List.take_left, List.drop_left]
  have hback : String.fromUTF8? s.toUTF8 = some s := by
    unfold String.fromUTF8?
    exact dif_pos s.isValidUTF8
  simp only [Read.textOfLength, Bind.bind, StateT.bind, hbytes, Option.bind_some,
    Array.toArray_toList, hback]
  rfl

namespace Codes

variable {encoding : IntEncoding}

theorem textWith {length : UInt32 → Write Unit} {read : Read Nat}
    (h : ∀ n < UInt32.size, Codes encoding (length (UInt32.ofNat n)) read n) (s : String) :
    Codes encoding (Write.textWith length s) (read >>= Read.textOfLength) s := by
  by_cases hs : Write.maxLength < s.utf8ByteSize
  · intro w w' hw hstep
    have herror : Write.textWith length s w = .error ⟨s.utf8ByteSize, Write.maxLength⟩ w := by
      unfold Write.textWith
      rw [if_pos hs]
      rfl
    simp [herror] at hstep
  · have hlen : Codes encoding (length (UInt32.ofNat s.utf8ByteSize)) read s.utf8ByteSize :=
      h _ (by simp only [Write.maxLength, UInt32.size] at hs ⊢; omega)
    have hchunk : Codes encoding (Write.chunk s.toUTF8) (Read.textOfLength s.utf8ByteSize) s :=
      .bytes (Read.textOfLength_append s)
    unfold Write.textWith
    rw [if_neg hs]
    exact hlen.bind hchunk

theorem text (s : String) : Codes encoding (Write.text s) (Read.text encoding) s :=
  .textWith (fun _ hn => .integer hn) s

theorem varintText (s : String) : Codes encoding (Write.varintText s) Read.varintText s := by
  refine .textWith ?_ s
  intro n hn
  have hv : (UInt32.ofNat n).toNat = n := UInt32.toNat_ofNat_of_lt hn
  have h : Codes encoding _ _ _ := (varint (UInt32.ofNat n)).map UInt32.toNat
  rw [hv] at h
  exact h

theorem tag (t : Tag) : Codes encoding (Write.tag t) Read.byte t.byte :=
  Codes.counted (.bytes fun _ => rfl) fun _ => ⟨rfl, rfl⟩

end Codes

/-- The index of a reference fits 32 bits. -/
def Cell.Fits (cell : Cell) : Prop :=
  match cell with
  | .text i | .object i | .array i => i < UInt32.size
  | .int32 _ | .float64 _ | .bool _ | .null => True

namespace Codes

variable {encoding : IntEncoding}

/-- **A tagged value** is read back as it was. -/
theorem cell {c : Cell} (h : c.Fits) :
    Codes encoding (Write.cell c) (Read.cell encoding) c := by
  unfold Write.cell Read.cell
  refine (tag c.tag).bind ?_
  rw [Tag.ofByte?_byte]
  cases c with
  | text i => exact (integer h).map Slot.text
  | int32 i => exact (word32 i.toUInt32).map fun v => Slot.int32 v.toInt32
  | float64 x => exact (word64 x.bits).map fun v => Slot.float64 ⟨v⟩
  | object i => exact (integer h).map Slot.object
  | array i => exact (integer h).map Slot.array
  | bool b => cases b <;> exact Codes.pure _
  | null => exact Codes.pure _

/-- **A table** is read back entry by entry. -/
theorem table {α γ : Type} {entries : List γ} {write : γ → Write Unit} {entry : Read α}
    {f : γ → α} (hlen : entries.length < UInt32.size)
    (h : ∀ x ∈ entries, Codes encoding (write x) entry (f x)) :
    Codes encoding (Write.table entries write) (Read.table entry) (entries.map f) := by
  have hn : (UInt32.ofNat entries.length).toNat = entries.length := UInt32.toNat_ofNat_of_lt hlen
  have hmany := Codes.many h
  rw [← hn] at hmany
  exact (word32 (UInt32.ofNat entries.length)).bind hmany

theorem table_self {α : Type} {entries : List α} {write : α → Write Unit} {entry : Read α}
    (hlen : entries.length < UInt32.size)
    (h : ∀ x ∈ entries, Codes encoding (write x) entry x) :
    Codes encoding (Write.table entries write) (Read.table entry) entries := by
  have ht := table (f := id) hlen h
  rw [List.map_id] at ht
  exact ht

end Codes

end PackedTree
