/-
# Writing under a limit

A writer checks its limit at every chunk.  So a writer with a limit does what the writer without one
does, chunk by chunk, until the first chunk that would pass the limit.

* `Write.Limited` says this of a writing step: within the limit it leaves the same bytes and the
  same counts, and past it it is refused with a size on the way to the whole.
* `Write.Limited.bind`, `limited_forM`: steps in sequence.  Everything a step is made of is a chunk,
  a counter, or the choice that the encoding of the writer makes.
* `Artifact.write_under`: the limit law for a whole artifact.

Sizes are reported up to `Writer.maxReported`, so a refusal under a greater limit than that
reports a size that does not pass it.
-/
import PackedTree.Artifact.Bytes

namespace PackedTree

/-- The writer with a limit. -/
def Writer.under (w : Writer) (limit : Nat) : Writer := { w with limit := some limit }

/-- **A refusal on the way to a size**: it names the limit, and a size that passes the limit but not
that size. -/
structure CapacityExceeded.OnTheWay (e : CapacityExceeded) (limit size : Nat) : Prop where
  limit_eq : e.limit = limit
  lt_needed : limit < Writer.maxReported → limit < e.needed
  needed_le : e.needed ≤ size

theorem CapacityExceeded.OnTheWay.mono {e : CapacityExceeded} {limit size size' : Nat}
    (h : e.OnTheWay limit size) (hle : size ≤ size') : e.OnTheWay limit size' :=
  { h with needed_le := Nat.le_trans h.needed_le hle }

/-- **A step obeys a limit.**  Where it succeeds without one, it does the same under a limit that
its result keeps, and is refused under any other. -/
def Write.Limited (step : Write Unit) : Prop :=
  ∀ w w' : Writer, w.limit = none → step w = .ok () w' →
    w'.limit = none ∧ w.position ≤ w'.position ∧ ∀ limit, w.position ≤ limit →
      (w'.position ≤ limit → step (w.under limit) = .ok () (w'.under limit)) ∧
      (limit < w'.position → ∃ e v, step (w.under limit) = .error e v ∧
        e.OnTheWay limit w'.position)

namespace Write

variable {step next : Write Unit}

/-! ## 1. Steps in sequence -/

theorem limited_pure : Limited (pure ()) := by
  intro w w' hw h
  obtain rfl := (EStateM.Result.ok.inj h).2
  refine ⟨hw, Nat.le_refl _, fun limit hlimit => ⟨fun _ => rfl, fun hlt => ?_⟩⟩
  exact absurd hlimit (Nat.not_le.mpr hlt)

/-- A step that always fails obeys every limit. -/
theorem limited_throw (e : CapacityExceeded) : Limited (throw e) := by
  intro w w' hw h
  exact nomatch h

/-- **Steps in sequence** obey a limit: either the first one passes it, or it does not and the
second one decides. -/
theorem Limited.bind (h : step.Limited) (h' : next.Limited) : Limited (do step; next) := by
  intro w w'' hw hs
  simp only [Bind.bind, EStateM.bind] at hs
  cases hstep : step w with
  | error e v => simp [hstep] at hs
  | ok a w' =>
    simp only [hstep] at hs
    obtain ⟨hw', hle, hlimited⟩ := h w w' hw hstep
    obtain ⟨hw'', hle', hlimited'⟩ := h' w' w'' hw' hs
    refine ⟨hw'', Nat.le_trans hle hle', fun limit hlimit => ⟨fun hwithin => ?_, fun hpast => ?_⟩⟩
    · have hfirst := (hlimited limit hlimit).1 (Nat.le_trans hle' hwithin)
      have hsecond := (hlimited' limit (Nat.le_trans hle' hwithin)).1 hwithin
      simp only [Bind.bind, EStateM.bind, hfirst, hsecond]
    · by_cases hmiddle : w'.position ≤ limit
      · obtain ⟨e, v, hv, he⟩ := (hlimited' limit hmiddle).2 hpast
        refine ⟨e, v, ?_, he⟩
        simp only [Bind.bind, EStateM.bind, (hlimited limit hlimit).1 hmiddle, hv]
      · obtain ⟨e, v, hv, he⟩ := (hlimited limit hlimit).2 (Nat.not_le.mp hmiddle)
        refine ⟨e, v, ?_, he.mono hle'⟩
        simp only [Bind.bind, EStateM.bind, hv]

theorem limited_forM {α : Type} {write : α → Write Unit} {l : List α}
    (h : ∀ x, (write x).Limited) : Limited (l.forM write) := by
  induction l with
  | nil => exact limited_pure
  | cons x l ih => exact (h x).bind ih

/-! ## 2. Chunks and counters -/

/-- **A chunk** is where the limit is checked. -/
theorem limited_chunk (bytes : ByteArray) : Limited (chunk bytes) := by
  intro w w' hw h
  have hchunk (v : Writer) (hv : v.excess? bytes.size = none) :
      chunk bytes v = .ok () (v.append bytes) := by
    simp only [chunk, reserve, Bind.bind, EStateM.bind, hv]
    rfl
  have hnone : w.excess? bytes.size = none := by
    rw [Writer.excess?, Writer.over?, hw]
  rw [hchunk w hnone] at h
  obtain rfl := (EStateM.Result.ok.inj h).2
  have hsize : (w.append bytes).position = w.position + bytes.size := by
    simp [Writer.append, Writer.position]
  have hunder (limit : Nat) : (w.under limit).excess? bytes.size =
      if limit < w.position + bytes.size then
        some ⟨min (w.position + bytes.size) Writer.maxReported, limit⟩
      else none := rfl
  rw [hsize]
  refine ⟨hw, Nat.le_add_right _ _, fun limit _ => ⟨fun hwithin => ?_, fun hpast => ?_⟩⟩
  · refine hchunk (w.under limit) ?_
    rw [hunder, if_neg (Nat.not_lt.mpr hwithin)]
  · refine ⟨⟨min (w.position + bytes.size) Writer.maxReported, limit⟩, w.under limit, ?_, ?_⟩
    · simp only [chunk, reserve, Bind.bind, EStateM.bind, hunder, if_pos hpast]
    · exact ⟨rfl, fun hlt => Nat.lt_min.mpr ⟨hpast, hlt⟩, Nat.min_le_left _ _⟩

/-- A counter does not see the limit. -/
theorem limited_count {f : Writer → Writer} (hbytes : ∀ w, (f w).bytes = w.bytes)
    (hlimit : ∀ w, (f w).limit = w.limit) (hunder : ∀ w limit, f (w.under limit) = (f w).under limit) :
    Limited (modify f) := by
  intro w w' hw h
  obtain rfl := (EStateM.Result.ok.inj h).2
  have hsize : (f w).position = w.position := congrArg ByteArray.size (hbytes w)
  refine ⟨(hlimit w).trans hw, Nat.le_of_eq hsize.symm, fun limit hle => ⟨fun _ => ?_, fun hlt => ?_⟩⟩
  · exact congrArg (EStateM.Result.ok ()) (hunder w limit)
  · rw [hsize] at hlt
    exact absurd hle (Nat.not_le.mpr hlt)

/-! ## 3. Numbers, texts and cells -/

theorem limited_varint (v : UInt32) : Limited (varint v) :=
  (limited_chunk _).bind (limited_count (fun _ => rfl) (fun _ => rfl) fun _ _ => rfl)

/-- The encoding of an integer does not depend on the limit. -/
theorem limited_integer (v : UInt32) : Limited (integer v) := by
  intro w w' hw h
  have hunder (limit : Nat) : (w.under limit).encoding = w.encoding := rfl
  rw [integer_apply] at h
  simp only [integer_apply, hunder]
  cases hencoding : w.encoding with
  | varint =>
    rw [hencoding] at h
    exact limited_varint v w w' hw h
  | fixed32 =>
    rw [hencoding] at h
    exact limited_chunk _ w w' hw h

theorem limited_tag (t : Tag) : Limited (tag t) :=
  (limited_chunk _).bind (limited_count (fun _ => rfl) (fun _ => rfl) fun _ _ => rfl)

/-- A text is two chunks, or is refused with or without a limit. -/
theorem limited_textWith {length : UInt32 → Write Unit} (hlength : ∀ n, (length n).Limited)
    (s : String) : Limited (textWith length s) := by
  unfold textWith
  by_cases hs : maxLength < s.utf8ByteSize
  · rw [if_pos hs]
    exact (limited_throw _).bind ((hlength _).bind (limited_chunk _))
  · rw [if_neg hs]
    exact (hlength _).bind (limited_chunk _)

theorem limited_text (s : String) : Limited (text s) := limited_textWith limited_integer s

theorem limited_cell (c : Cell) : Limited (cell c) := by
  refine (limited_tag _).bind ?_
  cases c with
  | text i | object i | array i => exact limited_integer _
  | int32 _ | float64 _ => exact limited_chunk _
  | bool _ | null => exact limited_pure

theorem limited_table {α : Type} {entries : List α} {entry : α → Write Unit}
    (h : ∀ x, (entry x).Limited) : Limited (table entries entry) :=
  (limited_chunk _).bind (limited_forM h)

end Write

/-! ## 4. Artifacts -/

namespace Artifact

open Write

theorem limited_preamble (encoding : IntEncoding) : Limited (preamble encoding) :=
  (limited_chunk _).bind (limited_textWith limited_varint _)

theorem limited_body (a : Artifact) (root : Nat) : Limited (a.body root) := by
  have hword (v : UInt32) : Limited (uint32 v) := limited_chunk _
  have hobjects : Limited (table a.objects fun entry => do
      integer (UInt32.ofNat entry.shape); entry.values.forM cell) :=
    limited_table fun entry => (limited_integer _).bind (limited_forM limited_cell)
  have harrays : Limited (table a.arrays fun cells => do
      integer (UInt32.ofNat cells.length); cells.forM cell) :=
    limited_table fun cells => (limited_integer _).bind (limited_forM limited_cell)
  refine (hword _).bind <| (hword _).bind <| (hword _).bind <| (hword _).bind <| (hword _).bind ?_
  refine (limited_table limited_text).bind ?_
  exact (limited_table fun shape => limited_text _).bind (hobjects.bind harrays)

/-- An artifact with a root is written in one go. -/
theorem write_of_root {a : Artifact} {root : Nat} (hroot : a.root = some root) (config : Config) :
    a.write config = runWrite (do preamble config.intEncoding; a.body root) (writer config) := by
  unfold write runWrite
  cases hpre : preamble config.intEncoding (writer config) with
  | error e w => simp only [hpre, Bind.bind, EStateM.bind, Except.bind]
  | ok u w => simp only [hpre, hroot, Bind.bind, EStateM.bind, Except.bind]

/-- **The limit law of an artifact.**  What is written without a limit is written under a limit
exactly if it keeps it, and is otherwise refused with a size on the way to its own. -/
theorem write_under {a : Artifact} {config : Config} {w : Writer}
    (h : a.write { config with maxSize := none } = .ok w) (limit : Nat) :
    (w.position ≤ limit →
      a.write { config with maxSize := some limit } = .ok (w.under limit)) ∧
    (limit < w.position → ∃ e : CapacityExceeded,
      a.write { config with maxSize := some limit } = .error (.capacityExceeded e) ∧
        e.OnTheWay limit w.position) := by
  cases hroot : a.root with
  | none =>
    unfold write at h
    rw [hroot] at h
    cases hpre : runWrite (preamble config.intEncoding) (writer { config with maxSize := none })
    all_goals simp [hpre, bind, Except.bind, throw, throwThe, MonadExceptOf.throw] at h
  | some root =>
    rw [write_of_root hroot] at h ⊢
    have hlimited := (limited_preamble config.intEncoding).bind (limited_body a root)
    have hunder : writer { config with maxSize := some limit } =
      (writer { config with maxSize := none }).under limit := rfl
    unfold runWrite at h ⊢
    rw [hunder]
    cases hs : (do preamble config.intEncoding; a.body root : Write Unit)
        (writer { config with maxSize := none }) with
    | error e v => simp [hs] at h
    | ok u w' =>
      simp only [hs, Except.ok.injEq] at h
      subst h
      obtain ⟨-, -, hlaw⟩ := hlimited _ _ rfl hs
      obtain ⟨hwithin, hpast⟩ := hlaw limit (Nat.zero_le _)
      constructor
      · intro hle
        rw [hwithin hle]
      · intro hlt
        obtain ⟨e, v, hv, he⟩ := hpast hlt
        exact ⟨e, by rw [hv], he⟩

end Artifact

end PackedTree
