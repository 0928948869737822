/-
# Content signatures

A signature is a text that describes a node by its content: its shape or length, then a token for
each of its values.  Scalars, signatures and nodes are named in tokens by keys, which are given
out in the order of first use; all kinds share one count of keys.  A child node stands in its
parent's signature as the key of its own signature, so a signature is as long as its node is wide.

A key is a word of 32 bits: the number of keys before it, which wraps once 2^32 are given out.

Nodes are signed from the leaves up on an explicit stack.  A node that is reached again while it
is being signed stands as a cycle.

* `Signer.marks_read`: reading a value marks no node.
* `Signer.run` ends because every step reads a value, closes a node, or opens one not yet marked.
-/
import PackedTree.Catalog
import PackedTree.Counting
import PackedTree.Slot

namespace PackedTree

/-- The content of a node, as text.  Equal texts mean equal content. -/
abbrev Signature := String

/-- What a token names by a key. -/
inductive SignatureKey where
  | text (s : String)
  | int32 (bits : UInt32)
  | float64 (bits : UInt64)
  | bool (b : Bool)
  | node (id : NodeId)
  | content (signature : Signature)
deriving DecidableEq, Hashable

/-- How a value stands in the signature of its node. -/
inductive Token where
  | null
  | scalar (key : UInt32)
  /-- A node that is being signed. -/
  | cycle (key : UInt32)
  /-- A node that is signed. -/
  | child (key : UInt32)
deriving DecidableEq

def Token.text : Token → String
  | null => "n"
  | scalar key => Text.hex key.toNat
  | cycle key => "c" ++ Text.hex key.toNat
  | child key => "[#" ++ Text.hex key.toNat ++ "]"

/-- How far a node is signed. -/
inductive Mark where
  | underway
  | signed (signature : Signature)

/-- The keys given out and the nodes marked so far. -/
structure Signer where
  keys : Std.HashMap SignatureKey UInt32 := ∅
  marks : Std.HashMap NodeId Mark := ∅

/-- A node that is being signed. -/
structure Frame where
  node : NodeId
  /-- Its values without a token, the next one first. -/
  unread : List Value
  /-- Its header and its tokens, the last one first. -/
  tokens : List String

namespace Frame

def push (f : Frame) (t : Token) : Frame := { f with tokens := t.text :: f.tokens }

def signature (f : Frame) : Signature := " ".intercalate f.tokens.reverse

/-- The steps that a frame still needs: one for each value and one to close it. -/
def steps (f : Frame) : Nat := f.unread.length + 1

end Frame

/-- The shape of an object and its values in the order of the shape's keys. -/
def ShapeRegistry.arrange (shapes : ShapeRegistry) (id : NodeId) (fields : Fields) :
    Except EncodeError (Nat × List Value) :=
  match shapes.find? fields with
  | none => .error (.unknownShape id)
  | some index =>
    match (shapes.get? index).bind fun shape => shape.keys.mapM fields.get? with
    | none => .error (.unknownShape id)
    | some values => .ok (index, values)

namespace Signer

/-! ## 1. One value -/

/-- The key of something, which gets the next one if it has none. -/
def key (s : Signer) (k : SignatureKey) : UInt32 × Signer :=
  match s.keys[k]? with
  | some n => (n, s)
  | none =>
    let next := UInt32.ofNat s.keys.size
    (next, { s with keys := s.keys.insert k next })

/-- What comes of reading a value: its token, or a node to sign first. -/
inductive Reading where
  | token (t : Token) (s : Signer)
  | enter (child : NodeId) (s : Signer)

def scalar (s : Signer) (k : SignatureKey) : Reading :=
  let (n, s) := s.key k
  .token (.scalar n) s

/-- Reads a reference to a node. -/
def readNode (s : Signer) (id : NodeId) : Reading :=
  match s.marks[id]? with
  | some (.signed signature) =>
    let (n, s) := s.key (.content signature)
    .token (.child n) s
  | some .underway =>
    let (n, s) := s.key (.node id)
    .token (.cycle n) s
  | none => .enter id s

/-- Reads a value. -/
def read (s : Signer) : Slot String NodeId → Reading
  | .null => .token .null s
  | .text t => s.scalar (.text t)
  | .int32 i => s.scalar (.int32 i.toUInt32)
  | .float64 x => s.scalar (.float64 x.bits)
  | .bool b => s.scalar (.bool b)
  | .object id => s.readNode id
  | .array id => s.readNode id

/-- Starts to sign a node. -/
def enter (tree : Tree) (shapes : ShapeRegistry) (s : Signer) (id : NodeId) :
    Except EncodeError (Frame × Signer) :=
  match tree.node? id with
  | none => .error (.unresolved .node (.node id))
  | some (.object fields) =>
    match shapes.arrange id fields with
    | .error e => .error e
    | .ok (index, values) =>
      .ok (⟨id, values, ["k" ++ Text.hex index]⟩, { s with marks := s.marks.insert id .underway })
  | some (.array items) =>
    .ok (⟨id, items, ["a" ++ Text.hex items.length]⟩,
      { s with marks := s.marks.insert id .underway })

/-- Ends the signing of a node. -/
def close (s : Signer) (f : Frame) : Signer :=
  { s with marks := s.marks.insert f.node (.signed f.signature) }

/-! ## 2. The nodes without a mark -/

/-- The number of nodes of a tree that are not marked. -/
def unmarked (tree : Tree) (s : Signer) : Nat :=
  (List.range tree.size).countP fun i => !s.marks.contains ⟨i⟩

theorem marks_key (s : Signer) (k : SignatureKey) : (s.key k).2.marks = s.marks := by
  unfold key
  split <;> rfl

theorem marks_read {s s' : Signer} {slot : Slot String NodeId} {t : Token}
    (h : s.read slot = .token t s') : s'.marks = s.marks := by
  have hkey (k : SignatureKey) (t' : Token) (h : Reading.token t' (s.key k).2 = .token t s') :
      s'.marks = s.marks := by
    simp only [Reading.token.injEq] at h
    rw [← h.2]
    exact marks_key s k
  unfold read at h
  split at h <;> try exact hkey _ _ h
  · simp only [Reading.token.injEq] at h
    rw [h.2]
  all_goals
    unfold readNode at h
    split at h
    · exact hkey _ _ h
    · exact hkey _ _ h
    · simp at h

/-- A node to sign first has no mark, and asking for it changes nothing. -/
theorem not_marked_of_enter {s s' : Signer} {slot : Slot String NodeId} {id : NodeId}
    (h : s.read slot = .enter id s') : s' = s ∧ s.marks.contains id = false := by
  have hnode (i : NodeId) (h : s.readNode i = .enter id s') :
      s' = s ∧ s.marks.contains id = false := by
    unfold readNode at h
    split at h
    · simp at h
    · simp at h
    · rename_i hn
      simp only [Reading.enter.injEq] at h
      obtain ⟨rfl, rfl⟩ := h
      exact ⟨rfl, by simpa using hn⟩
  unfold read at h
  split at h <;> try exact hnode _ h
  all_goals simp [scalar] at h

theorem unmarked_eq_of_marks (tree : Tree) {s s' : Signer} (h : s'.marks = s.marks) :
    s'.unmarked tree = s.unmarked tree := by
  unfold unmarked
  rw [h]

theorem unmarked_close_le (tree : Tree) (s : Signer) (f : Frame) :
    (s.close f).unmarked tree ≤ s.unmarked tree := by
  unfold unmarked
  apply List.countP_mono_left
  intro i _ h
  simp only [close, Std.HashMap.contains_insert] at h
  revert h
  cases s.marks.contains ⟨i⟩ <;> simp

theorem unmarked_enter_lt {tree : Tree} {shapes : ShapeRegistry} {s s' : Signer} {id : NodeId}
    {f : Frame} (h : s.enter tree shapes id = .ok (f, s')) (hn : s.marks.contains id = false) :
    s'.unmarked tree < s.unmarked tree := by
  have hlt (hid : id.index < tree.size) :
      ({ s with marks := s.marks.insert id .underway } : Signer).unmarked tree <
        s.unmarked tree := by
    unfold unmarked
    apply countP_lt_countP (a := id.index)
    · intro i _ h
      simp only [Std.HashMap.contains_insert] at h
      revert h
      cases s.marks.contains ⟨i⟩ <;> simp
    · exact List.mem_range.mpr hid
    · simpa using hn
    · simp
  unfold enter at h
  split at h
  · simp at h
  · rename_i hnode
    split at h
    · simp at h
    · simp only [Except.ok.injEq, Prod.mk.injEq] at h
      rw [← h.2]
      exact hlt (Array.getElem?_eq_some_iff.mp hnode).1
  · rename_i hnode
    simp only [Except.ok.injEq, Prod.mk.injEq] at h
    rw [← h.2]
    exact hlt (Array.getElem?_eq_some_iff.mp hnode).1

/-! ## 3. The stack machine -/

/-- The steps that a stack still needs. -/
def stackSteps (top : Frame) (below : List Frame) : Nat :=
  top.steps + below.foldr (fun f n => f.steps + n) 0

/-- **Signs the node on top of a stack** and, with its key, all those below it: the signature of
the lowest one. -/
def run (tree : Tree) (shapes : ShapeRegistry) (s : Signer) (top : Frame) (below : List Frame) :
    Except EncodeError (Signature × Signer) :=
  match _hu : top.unread with
  | v :: unread =>
    match Slot.ofValue tree v with
    | .error e => .error e
    | .ok slot =>
      match _hr : s.read slot with
      | .token t s' => run tree shapes s' (Frame.push { top with unread } t) below
      | .enter child s' =>
        match _he : s'.enter tree shapes child with
        | .error e => .error e
        | .ok (frame, s') => run tree shapes s' frame ({ top with unread } :: below)
  | [] =>
    let signature := top.signature
    let s := s.close top
    match below with
    | [] => .ok (signature, s)
    | next :: below =>
      match _hk : s.key (.content signature) with
      | (n, s') => run tree shapes s' (next.push (.child n)) below
termination_by (s.unmarked tree, stackSteps top below)
decreasing_by
  · have hm := unmarked_eq_of_marks tree (marks_read _hr)
    rw [hm]
    apply Prod.Lex.right
    simp only [stackSteps, Frame.push, Frame.steps, _hu, List.length_cons]
    omega
  · apply Prod.Lex.left
    obtain ⟨rfl, hn⟩ := not_marked_of_enter _hr
    exact unmarked_enter_lt _he hn
  · have hk : s'.unmarked tree = s.unmarked tree := by
      apply unmarked_eq_of_marks tree
      have := marks_key s (.content signature)
      rw [_hk] at this
      exact this
    have hle : s.unmarked tree ≤ _ := unmarked_close_le tree _ top
    rw [hk]
    rcases Nat.lt_or_eq_of_le hle with h | h
    · exact Prod.Lex.left _ _ h
    · rw [h]
      apply Prod.Lex.right
      simp only [stackSteps, Frame.push, Frame.steps, List.foldr_cons]
      omega

/-- **The signature of a node.** -/
def sign (tree : Tree) (shapes : ShapeRegistry) (s : Signer) (id : NodeId) :
    Except EncodeError (Signature × Signer) :=
  match s.marks[id]? with
  | some (.signed signature) => .ok (signature, s)
  | some .underway =>
    let (n, s) := s.key (.node id)
    .ok ((Token.cycle n).text, s)
  | none =>
    match s.enter tree shapes id with
    | .error e => .error e
    | .ok (frame, s) => s.run tree shapes frame []

end Signer

end PackedTree
