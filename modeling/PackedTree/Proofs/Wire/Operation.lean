/-
# What a refused operation leaves

A writer checks its limit at every chunk, and a chunk is written whole or not at all.  Most
operations are one chunk, so where they are refused nothing has happened.  A text is two, its length
and its bytes: where the length fits and the bytes do not, the length stays, and so does its count.

* `Write.chunk_apply`, `Write.integerIn_apply`, `Write.textWith_apply`: what each kind of step does,
  as an equation.
* `Write.Operation.run_cases`: an operation is one step with a counter, or a text.
* `Write.Operation.left_of_refused`: a refused operation leaves the writer as it was, unless it
  breaks off after the length of a text.

So the limit is kept by every operation, but not every operation is all or nothing.
-/
import PackedTree.Proofs.Wire.Unlimited

namespace PackedTree

/-- The bytes of an integer. -/
def IntEncoding.bytes (encoding : IntEncoding) (v : UInt32) : List UInt8 :=
  match encoding with
  | .varint => Varint.encode v
  | .fixed32 => Write.word32 v

theorem IntEncoding.length_bytes (encoding : IntEncoding) (v : UInt32) :
    (encoding.bytes v).length = encoding.byteSize v := by
  cases encoding <;> rfl

namespace Writer

/-- The writer after an integer, which is counted if its width is variable. -/
def withInteger (w : Writer) (encoding : IntEncoding) (v : UInt32) : Writer :=
  let written := w.append (ByteArray.mk (encoding.bytes v).toArray)
  match encoding with
  | .varint => written.countVarint (encoding.bytes v).length
  | .fixed32 => written

variable (w : Writer)

theorem position_append (chunk : ByteArray) :
    (w.append chunk).position = w.position + chunk.size := by
  simp [append, position]

theorem position_withInteger (encoding : IntEncoding) (v : UInt32) :
    (w.withInteger encoding v).position = w.position + encoding.byteSize v := by
  rw [← encoding.length_bytes]
  cases encoding <;> exact w.position_append _

/-- What is too much passes a limit. -/
theorem excess?_isSome_iff {count : Nat} : (w.excess? count).isSome = true ↔
    ∃ limit, w.limit = some limit ∧ limit < w.position + count := by
  unfold excess? over?
  cases w.limit with
  | none => simp
  | some limit => simp

/-- **A text breaks off**: there is room for its length, and none for its bytes after that. -/
structure BreaksOff (encoding : IntEncoding) (s : String) : Prop where
  length_le : s.utf8ByteSize ≤ Write.maxLength
  limited : ∃ limit, w.limit = some limit ∧
    w.position + encoding.byteSize (UInt32.ofNat s.utf8ByteSize) ≤ limit ∧
    limit < w.position + encoding.byteSize (UInt32.ofNat s.utf8ByteSize) + s.utf8ByteSize

theorem breaksOff_iff {encoding : IntEncoding} {s : String} : w.BreaksOff encoding s ↔
    s.utf8ByteSize ≤ Write.maxLength ∧
      w.excess? (encoding.byteSize (UInt32.ofNat s.utf8ByteSize)) = none ∧
      ((w.withInteger encoding (UInt32.ofNat s.utf8ByteSize)).excess? s.utf8ByteSize).isSome =
        true := by
  have hlimit : (w.withInteger encoding (UInt32.ofNat s.utf8ByteSize)).limit = w.limit := by
    cases encoding <;> rfl
  rw [excess?_isSome_iff, position_withInteger, hlimit, ← Option.not_isSome_iff_eq_none,
    excess?_isSome_iff]
  constructor
  · rintro ⟨hle, limit, hl, hfits, hpast⟩
    refine ⟨hle, ?_, limit, hl, hpast⟩
    rintro ⟨other, ho, hlt⟩
    rw [Option.some.inj (ho.symm.trans hl)] at hlt
    exact Nat.not_le.mpr hlt hfits
  · rintro ⟨hle, hfits, limit, hl, hpast⟩
    exact ⟨hle, limit, hl, Nat.not_lt.mp fun hlt => hfits ⟨limit, hl, hlt⟩, hpast⟩

end Writer

namespace Write

/-! ## 1. Steps as equations -/

/-- A chunk is appended if there is room for it. -/
theorem chunk_apply (bytes : ByteArray) (w : Writer) :
    chunk bytes w = match w.excess? bytes.size with
      | none => .ok () (w.append bytes)
      | some e => .error e w := by
  simp only [chunk, reserve, Bind.bind, EStateM.bind]
  cases w.excess? bytes.size <;> rfl

/-- Writes an integer in a given encoding. -/
def integerIn (encoding : IntEncoding) (v : UInt32) : Write Unit :=
  match encoding with
  | .varint => varint v
  | .fixed32 => uint32 v

/-- An integer is appended and counted if there is room for it. -/
theorem integerIn_apply (encoding : IntEncoding) (v : UInt32) (w : Writer) :
    integerIn encoding v w = match w.excess? (encoding.byteSize v) with
      | none => .ok () (w.withInteger encoding v)
      | some e => .error e w := by
  have hchunk := chunk_apply (ByteArray.mk (encoding.bytes v).toArray) w
  have hsize : (ByteArray.mk (encoding.bytes v).toArray).size = encoding.byteSize v :=
    encoding.length_bytes v
  rw [hsize] at hchunk
  cases encoding with
  | varint =>
    have hstep : integerIn .varint v =
        (chunk (ByteArray.mk (IntEncoding.varint.bytes v).toArray) >>= fun _ =>
          modify (·.countVarint (IntEncoding.varint.bytes v).length)) := rfl
    rw [hstep]
    simp only [Bind.bind, EStateM.bind, hchunk]
    cases w.excess? (IntEncoding.varint.byteSize v) <;> rfl
  | fixed32 => exact hchunk

/-- **A text** is its length and then its bytes, each if there is room for it. -/
theorem textWith_apply (encoding : IntEncoding) (s : String) (w : Writer) :
    textWith (integerIn encoding) s w =
      if maxLength < s.utf8ByteSize then .error ⟨s.utf8ByteSize, maxLength⟩ w
      else match w.excess? (encoding.byteSize (UInt32.ofNat s.utf8ByteSize)) with
        | none => chunk s.toUTF8 (w.withInteger encoding (UInt32.ofNat s.utf8ByteSize))
        | some e => .error e w := by
  unfold textWith
  by_cases hs : maxLength < s.utf8ByteSize
  · rw [if_pos hs, if_pos hs]
    rfl
  · rw [if_neg hs, if_neg hs]
    simp only [Bind.bind, EStateM.bind, integerIn_apply]
    cases w.excess? (encoding.byteSize (UInt32.ofNat s.utf8ByteSize)) <;> rfl

/-- The encoding of the writer decides how the length of a text is written. -/
theorem text_apply (s : String) (w : Writer) :
    text s w = textWith (integerIn w.encoding) s w := by
  unfold text textWith
  by_cases hs : maxLength < s.utf8ByteSize
  · rw [if_pos hs, if_pos hs]
    rfl
  · rw [if_neg hs, if_neg hs]
    rfl

/-! ## 2. Operations -/

/-- What can be asked of a writer. -/
inductive Operation where
  | byte (b : UInt8)
  | bytes (chunk : ByteArray)
  | tag (t : Tag)
  | uint32 (v : UInt32)
  | int32 (v : Int32)
  | float64 (x : Binary64)
  | integer (v : UInt32)
  | varint (v : UInt32)
  | text (s : String)
  | varintText (s : String)
  | skip (count : Nat)

namespace Operation

/-- The step that an operation takes. -/
def run : Operation → Write Unit
  | byte b => Write.byte b
  | bytes chunk => Write.chunk chunk
  | tag t => Write.tag t
  | uint32 v => Write.uint32 v
  | int32 v => Write.int32 v
  | float64 x => Write.float64 x
  | integer v => Write.integer v
  | varint v => Write.varint v
  | text s => Write.text s
  | varintText s => Write.varintText s
  | skip count => Write.skip count

/-- The text that an operation writes, and how its length is encoded by a writer with the given
encoding. -/
def text? (encoding : IntEncoding) : Operation → Option (IntEncoding × String)
  | text s => some (encoding, s)
  | varintText s => some (.varint, s)
  | _ => none

/-- **An operation is one step, or a text.**  If it is no text, it succeeds or is refused without a
trace. -/
theorem run_cases (op : Operation) (w : Writer) :
    (op.text? w.encoding = none ∧ ∃ (refusal : Option CapacityExceeded) (after : Writer), op.run w =
      match refusal with
      | none => .ok () after
      | some e => .error e w) ∨
    ∃ encoding s, op.text? w.encoding = some (encoding, s) ∧
      op.run w = textWith (integerIn encoding) s w := by
  cases op with
  | byte _ | bytes _ | uint32 _ | int32 _ | float64 _ => exact .inl ⟨rfl, _, _, chunk_apply _ w⟩
  | tag t =>
    refine .inl ⟨rfl, w.excess? 1, (w.append (ByteArray.mk #[t.byte])).countTag, ?_⟩
    have hchunk : Write.byte t.byte w = match w.excess? 1 with
        | none => .ok () (w.append (ByteArray.mk #[t.byte]))
        | some e => .error e w := chunk_apply _ w
    simp only [run, Write.tag, Bind.bind, EStateM.bind, hchunk]
    cases w.excess? 1 <;> rfl
  | integer v => exact .inl ⟨rfl, _, _, integerIn_apply w.encoding v w⟩
  | varint v => exact .inl ⟨rfl, _, _, integerIn_apply .varint v w⟩
  | skip count => exact .inl ⟨rfl, _, _, rfl⟩
  | text s => exact .inr ⟨w.encoding, s, rfl, text_apply s w⟩
  | varintText s => exact .inr ⟨.varint, s, rfl, rfl⟩

/-! ## 3. Refusals -/

/-- A refused text leaves its length if it breaks off, and else nothing. -/
theorem left_of_refused_text {encoding : IntEncoding} {s : String} {w w' : Writer}
    {e : CapacityExceeded} (h : textWith (integerIn encoding) s w = .error e w') :
    (w.BreaksOff encoding s ∧ w' = w.withInteger encoding (UInt32.ofNat s.utf8ByteSize)) ∨
      (¬w.BreaksOff encoding s ∧ w' = w) := by
  rw [textWith_apply] at h
  rw [w.breaksOff_iff]
  by_cases hs : maxLength < s.utf8ByteSize
  · rw [if_pos hs] at h
    exact .inr ⟨fun hb => Nat.not_lt.mpr hb.1 hs, (EStateM.Result.error.inj h).2.symm⟩
  · rw [if_neg hs] at h
    cases hlength : w.excess? (encoding.byteSize (UInt32.ofNat s.utf8ByteSize)) with
    | some e' =>
      rw [hlength] at h
      exact .inr ⟨fun hb => (nomatch hb.2.1), (EStateM.Result.error.inj h).2.symm⟩
    | none =>
      rw [hlength, chunk_apply] at h
      have hsize : s.toUTF8.size = s.utf8ByteSize := rfl
      rw [hsize] at h
      cases hbytes : (w.withInteger encoding (UInt32.ofNat s.utf8ByteSize)).excess?
          s.utf8ByteSize with
      | none => simp [hbytes] at h
      | some e' =>
        rw [hbytes] at h
        exact .inl ⟨⟨Nat.not_lt.mp hs, rfl, rfl⟩, (EStateM.Result.error.inj h).2.symm⟩

/-- A text that breaks off is refused. -/
theorem refused_of_breaksOff {w : Writer} {encoding : IntEncoding} {s : String}
    (h : w.BreaksOff encoding s) : ∃ e, textWith (integerIn encoding) s w =
      .error e (w.withInteger encoding (UInt32.ofNat s.utf8ByteSize)) := by
  obtain ⟨hle, hlength, hbytes⟩ := w.breaksOff_iff.mp h
  obtain ⟨e, he⟩ := Option.isSome_iff_exists.mp hbytes
  have hsize : s.toUTF8.size = s.utf8ByteSize := rfl
  refine ⟨e, ?_⟩
  rw [textWith_apply, if_neg (Nat.not_lt.mpr hle), hlength]
  simp only [chunk_apply, hsize, he]

/-- An operation that writes a text breaks off where the text does. -/
def BreaksOff (op : Operation) (w : Writer) : Prop :=
  ∃ encoding s, op.text? w.encoding = some (encoding, s) ∧ w.BreaksOff encoding s

/-- **What a refused operation leaves.**  It leaves the writer as it was exactly if it does not break
off.  Where it does, the length of its text is left, in the bytes and, if its width is variable, in
the count of integers. -/
theorem left_of_refused {op : Operation} {w w' : Writer} {e : CapacityExceeded}
    (h : op.run w = .error e w') :
    (w' = w ↔ ¬op.BreaksOff w) ∧
      ∀ encoding s, op.text? w.encoding = some (encoding, s) → w.BreaksOff encoding s →
        w' = w.withInteger encoding (UInt32.ofNat s.utf8ByteSize) := by
  rcases op.run_cases w with ⟨hnone, refusal, after, hrun⟩ | ⟨encoding, s, htext, hrun⟩
  · have hw : w' = w := by
      rw [hrun] at h
      cases refusal with
      | none => simp at h
      | some e' => exact (EStateM.Result.error.inj h).2.symm
    refine ⟨⟨fun _ ⟨encoding, s, htext, _⟩ => ?_, fun _ => hw⟩, fun encoding s htext => ?_⟩
    · exact nomatch hnone.symm.trans htext
    · exact nomatch hnone.symm.trans htext
  · have honly {encoding' : IntEncoding} {s' : String}
        (htext' : op.text? w.encoding = some (encoding', s')) : encoding' = encoding ∧ s' = s :=
      Prod.mk.inj (Option.some.inj (htext'.symm.trans htext))
    have hbreaks : op.BreaksOff w ↔ w.BreaksOff encoding s := by
      constructor
      · rintro ⟨encoding', s', htext', hb⟩
        obtain ⟨rfl, rfl⟩ := honly htext'
        exact hb
      · exact fun hb => ⟨encoding, s, htext, hb⟩
    rw [hrun] at h
    rw [hbreaks]
    rcases left_of_refused_text h with ⟨hb, hw⟩ | ⟨hb, hw⟩
    · refine ⟨⟨fun hsame => ?_, fun hnot => absurd hb hnot⟩, fun encoding' s' htext' _ => ?_⟩
      · -- a length takes at least a byte, so the writer has moved on
        have hmoved := w.position_withInteger encoding (UInt32.ofNat s.utf8ByteSize)
        have hpos := encoding.byteSize_pos (UInt32.ofNat s.utf8ByteSize)
        rw [← hw, hsame] at hmoved
        omega
      · obtain ⟨rfl, rfl⟩ := honly htext'
        exact hw
    · refine ⟨⟨fun _ => hb, fun _ => hw⟩, fun encoding' s' htext' hb' => ?_⟩
      obtain ⟨rfl, rfl⟩ := honly htext'
      exact absurd hb' hb

/-- Three letters after their length do not fit three bytes: the length is left, and counted. -/
theorem left_of_refused_letters : ∃ e w', (text "abc").run { limit := some 3 } = .error e w' ∧
    w' ≠ { limit := some 3 } ∧ w'.bytes.data.toList = [3] ∧
      w'.varintSizes.toList = [1, 0, 0, 0, 0] := by
  have hthree : Varint.encode (UInt32.ofNat "abc".utf8ByteSize) = [3] := by
    rw [Varint.encode, Varint.groups, if_pos (by decide)]
    rfl
  have hbreaks : Writer.BreaksOff { limit := some 3 } .varint "abc" := by
    refine ⟨by decide, 3, rfl, ?_, ?_⟩
    · rw [IntEncoding.byteSize, hthree]
      decide
    · rw [IntEncoding.byteSize, hthree]
      decide
  obtain ⟨e, hrun⟩ := refused_of_breaksOff hbreaks
  have hrefused : (text "abc").run { limit := some 3 } = .error e _ := hrun
  obtain ⟨hsame, hleft⟩ := left_of_refused hrefused
  have hw := hleft .varint "abc" rfl hbreaks
  refine ⟨e, _, hrefused, fun hunchanged => hsame.mp hunchanged ⟨_, _, rfl, hbreaks⟩, ?_, ?_⟩
  · rw [hw, Writer.withInteger, IntEncoding.bytes, hthree]
    rfl
  · rw [hw, Writer.withInteger, IntEncoding.bytes, hthree]
    rfl

end Operation

end Write

end PackedTree
