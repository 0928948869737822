/-
# What a signature says

The invariant of the signing machine, and that every run keeps it.

A token **stands** for a value (`Signer.Stands`) if its key is the key of the scalar, of the
child's signature or of the child itself.  A node is **described** by a signature if the tokens of
the signature stand for its values (`Signer.Describes`).  While the machine runs, every signed node
is described by its signature, the nodes underway are those of the frames, each frame has tokens
for the values it has read, and the next frame below waits for the frame above it
(`Signer.Running`).

* `Tree.layout_perm`: the layout of a node has every value of it once.
* `Signer.run_spec`: where every node reached is laid out and every value has a slot, the machine
  gives a signature, leaves nothing underway and forgets nothing.
* `Signer.signAll_spec`: the same for nodes signed one after the other.

The descriptions speak about keys and marks only as far as these never change, so they hold at the
end of a run exactly as they held when they were made.
-/
import PackedTree.Proofs.Graph
import PackedTree.Proofs.Shape
import PackedTree.Proofs.Signature.Words

namespace PackedTree

/-! ## 1. The layout of a node -/

/-- The header of a node and its values in the order of its signature. -/
def Tree.layout (tree : Tree) (shapes : ShapeRegistry) (id : NodeId) :
    Except EncodeError (Header × List Value) :=
  match tree.node? id with
  | none => .error (.unresolved .node (.node id))
  | some (.object fields) =>
    (shapes.arrange id fields).map fun (index, values) => (.shape index, values)
  | some (.array items) => .ok (.length items.length, items)

/-- A set of nodes in which signing cannot fail: each is laid out with values that have slots, and
what it refers to is in the set. -/
structure Tree.Signable (tree : Tree) (shapes : ShapeRegistry) (D : NodeId → Prop) : Prop where
  laid : ∀ id, D id → ∃ header values, tree.layout shapes id = .ok (header, values)
  slots : ∀ id, D id → ∀ v ∈ tree.children id, ∃ slot, Slot.ofValue tree v = .ok slot
  points : ∀ id child, D id → tree.Points id child → D child

theorem Tree.layout_object {tree : Tree} {shapes : ShapeRegistry} {id : NodeId} {fields : Fields}
    (hn : tree.node? id = some (.object fields)) {header : Header} {values : List Value} :
    tree.layout shapes id = .ok (header, values) ↔
      ∃ index, header = .shape index ∧ shapes.find? fields = some index ∧
        (Shape.ofFields fields).keys.mapM fields.get? = some values := by
  simp only [layout, hn]
  constructor
  · intro h
    cases ha : shapes.arrange id fields with
    | error e => simp [ha, Except.map] at h
    | ok p =>
      simp only [ha, Except.map, Except.ok.injEq, Prod.mk.injEq] at h
      obtain ⟨rfl, rfl⟩ := h
      exact ⟨p.1, rfl, ShapeRegistry.arrange_eq_ok_iff.mp ha⟩
  · rintro ⟨index, rfl, hv⟩
    rw [ShapeRegistry.arrange_eq_ok_iff.mpr hv]
    rfl

theorem Tree.layout_array {tree : Tree} {shapes : ShapeRegistry} {id : NodeId}
    {items : List Value} (hn : tree.node? id = some (.array items)) :
    tree.layout shapes id = .ok (.length items.length, items) := by
  simp only [layout, hn]

/-- **A layout has every value of its node** exactly once. -/
theorem Tree.layout_perm {tree : Tree} {shapes : ShapeRegistry} {id : NodeId} {header : Header}
    {values : List Value} (h : tree.layout shapes id = .ok (header, values)) :
    values.Perm (tree.children id) := by
  cases hn : tree.node? id with
  | none => simp [layout, hn] at h
  | some node =>
    rw [children_of_node? hn]
    cases node with
    | object fields =>
      obtain ⟨_, -, -, hvs⟩ := (layout_object hn).mp h
      exact Shape.values_perm hvs
    | array items =>
      rw [layout_array hn] at h
      obtain ⟨-, rfl⟩ := Prod.mk.inj (Except.ok.inj h)
      exact .refl _

theorem Tree.mem_children_of_layout {tree : Tree} {shapes : ShapeRegistry} {id : NodeId}
    {header : Header} {values : List Value} (h : tree.layout shapes id = .ok (header, values))
    {v : Value} (hv : v ∈ values) : v ∈ tree.children id :=
  (layout_perm h).mem_iff.mp hv

/-- What names a scalar.  The null has a token of its own. -/
def Scalar.key? : Scalar → Option SignatureKey
  | text s => some (.text s)
  | int32 i => some (.int32 i.toUInt32)
  | float64 x => some (.float64 x.bits)
  | bool b => some (.bool b)
  | null => none

/-- A key names one scalar, and neither a node nor a signature. -/
theorem Scalar.key?_inj {c d : Scalar} {k : SignatureKey} (hc : c.key? = some k)
    (hd : d.key? = some k) : c = d := by
  cases c <;> cases d <;> simp only [key?, Option.some.injEq, reduceCtorEq] at hc hd
  all_goals
    subst hc
    simp only [SignatureKey.text.injEq, SignatureKey.int32.injEq, SignatureKey.float64.injEq,
      SignatureKey.bool.injEq, reduceCtorEq] at hd
  case text.text => rw [hd]
  case int32.int32 i j =>
    cases i
    cases j
    cases hd
    rfl
  case float64.float64 x y =>
    cases x
    cases y
    cases hd
    rfl
  case bool.bool => rw [hd]

namespace Signer

variable {tree : Tree} {shapes : ShapeRegistry} {D : NodeId → Prop}

theorem enter_eq_ok {s : Signer} {id : NodeId} {header : Header} {values : List Value}
    (h : tree.layout shapes id = .ok (header, values)) :
    s.enter tree shapes id =
      .ok (⟨id, values, [header.text]⟩, { s with marks := s.marks.insert id .underway }) := by
  unfold Tree.layout at h
  unfold enter
  cases hn : tree.node? id with
  | none => simp [hn] at h
  | some node =>
    cases node with
    | object fields =>
      cases ha : shapes.arrange id fields with
      | error e => simp [hn, ha, Except.map] at h
      | ok p =>
        simp only [hn, ha, Except.map, Except.ok.injEq, Prod.mk.injEq] at h
        obtain ⟨rfl, rfl⟩ := h
        simp only [ha, Header.text]
    | array items =>
      simp only [hn, Except.ok.injEq, Prod.mk.injEq] at h
      obtain ⟨rfl, rfl⟩ := h
      rfl

/-! ## 2. What a signer never forgets -/

/-- A later signer: keys and signatures are kept, and marked nodes stay marked. -/
structure Le (s s' : Signer) : Prop where
  keys : ∀ {k : SignatureKey} {n : UInt32}, s.keys[k]? = some n → s'.keys[k]? = some n
  signed : ∀ {id : NodeId} {σ : Signature}, s.marks[id]? = some (.signed σ) →
    s'.marks[id]? = some (.signed σ)
  marked : ∀ {id : NodeId}, s.marks[id]?.isSome → s'.marks[id]?.isSome

theorem Le.refl (s : Signer) : s.Le s := ⟨id, id, id⟩

theorem Le.trans {s t u : Signer} (h : s.Le t) (h' : t.Le u) : s.Le u :=
  ⟨fun hk => h'.keys (h.keys hk), fun hs => h'.signed (h.signed hs),
    fun hm => h'.marked (h.marked hm)⟩

/-- **The keys are apart as long as 32 bits are enough for them**: then every key is below their
number, and no two things have the same. -/
structure KeysApart (s : Signer) : Prop where
  lt : s.keys.size ≤ UInt32.size → ∀ {k : SignatureKey} {n : UInt32}, s.keys[k]? = some n →
    n.toNat < s.keys.size
  inj : s.keys.size ≤ UInt32.size → ∀ {k k' : SignatureKey} {n : UInt32}, s.keys[k]? = some n →
    s.keys[k']? = some n → k = k'

/-- Asking for a key changes no other one. -/
theorem getElem?_keys_key (s : Signer) (k k' : SignatureKey) :
    (s.key k).2.keys[k']? = if k = k' then some (s.key k).1 else s.keys[k']? := by
  unfold key
  cases h : s.keys[k]? with
  | some n =>
    dsimp only
    split
    · rename_i he
      rw [← he, h]
    · rfl
  | none => simp only [Std.HashMap.getElem?_insert, beq_iff_eq]

/-- **Asking for a key** gives the key that is kept from then on. -/
theorem key_spec (s : Signer) (k : SignatureKey) :
    (s.key k).2.keys[k]? = some (s.key k).1 ∧ s.Le (s.key k).2 := by
  refine ⟨by rw [getElem?_keys_key, if_pos rfl], ⟨fun {k'} {n} hk => ?_, ?_, ?_⟩⟩
  · rw [getElem?_keys_key]
    split
    · rename_i he
      subst he
      unfold key
      rw [hk]
    · exact hk
  · rw [marks_key]
    exact id
  · rw [marks_key]
    exact id

/-- A new key is above every old one, unless 32 bits are too few. -/
theorem KeysApart.key {s : Signer} (hs : s.KeysApart) (k : SignatureKey) :
    (s.key k).2.KeysApart := by
  have hget := getElem?_keys_key s k
  unfold Signer.key at hget ⊢
  cases h : s.keys[k]? with
  | some n => exact hs
  | none =>
    have hnew : k ∉ s.keys := by simpa using h
    simp only [h] at hget ⊢
    have hsize : (s.keys.insert k (UInt32.ofNat s.keys.size)).size = s.keys.size + 1 := by
      rw [Std.HashMap.size_insert, if_neg hnew]
    have hnext (hfew : s.keys.size + 1 ≤ UInt32.size) :
        (UInt32.ofNat s.keys.size).toNat = s.keys.size := UInt32.toNat_ofNat_of_lt' hfew
    refine ⟨fun hfew {k'} {n} hk => ?_, fun hfew {k₁} {k₂} {n} h₁ h₂ => ?_⟩ <;>
      rw [hsize] at hfew
    · rw [hget] at hk
      rw [hsize]
      split at hk
      · rw [← Option.some.inj hk, hnext hfew]
        exact Nat.lt_succ_self _
      · exact Nat.lt_succ_of_lt (hs.lt (Nat.le_of_succ_le hfew) hk)
    · have hold {k' : SignatureKey}
          (hk : s.keys[k']? = some (UInt32.ofNat s.keys.size)) : False := by
        have hlt := hs.lt (Nat.le_of_succ_le hfew) hk
        rw [hnext hfew] at hlt
        exact Nat.lt_irrefl _ hlt
      rw [hget] at h₁ h₂
      split at h₁ <;> split at h₂
      · rename_i e₁ e₂
        exact e₁.symm.trans e₂
      · rw [← Option.some.inj h₁] at h₂
        exact (hold h₂).elim
      · rw [← Option.some.inj h₂] at h₁
        exact (hold h₁).elim
      · exact hs.inj (Nat.le_of_succ_le hfew) h₁ h₂

/-- **What a key is for**: a scalar that a node holds, a signed child of a node, or a node on a
cycle. -/
inductive KeyFor (tree : Tree) (D : NodeId → Prop) (s : Signer) : SignatureKey → Prop where
  | scalar {owner : NodeId} {v : Value} {c : Scalar} {k : SignatureKey} (howner : D owner)
      (hv : v ∈ tree.children owner) (hc : v.scalar? = some c) (hk : c.key? = some k) :
      KeyFor tree D s k
  | child {owner child : NodeId} {σ : Signature} (howner : D owner)
      (hv : .node child ∈ tree.children owner) (hm : s.marks[child]? = some (.signed σ)) :
      KeyFor tree D s (.content σ)
  | cycle {child : NodeId} (hchild : D child) (hcycle : tree.OnCycle child) :
      KeyFor tree D s (.node child)

theorem KeyFor.mono {s s' : Signer} (hle : s.Le s') {k : SignatureKey} (h : KeyFor tree D s k) :
    KeyFor tree D s' k := by
  cases h with
  | scalar howner hv hc hk => exact .scalar howner hv hc hk
  | child howner hv hm => exact .child howner hv (hle.signed hm)
  | cycle hchild hcycle => exact .cycle hchild hcycle

/-! ## 3. Tokens that stand for values -/

/-- **A token stands for a value** of a node.  A cycle stands for a child that leads back to the
node. -/
inductive Stands (tree : Tree) (s : Signer) (owner : NodeId) (v : Value) : Token → Prop where
  | null (hv : v.scalar? = some .null) : Stands tree s owner v .null
  | scalar {c : Scalar} {k : SignatureKey} {n : UInt32} (hv : v.scalar? = some c)
      (hk : c.key? = some k) (hn : s.keys[k]? = some n) : Stands tree s owner v (.scalar n)
  | cycle {child : NodeId} {n : UInt32} (hv : v = .node child) (hm : s.marks[child]?.isSome)
      (hn : s.keys[SignatureKey.node child]? = some n) (hback : tree.Reaches child owner) :
      Stands tree s owner v (.cycle n)
  | child {child : NodeId} {σ : Signature} {n : UInt32} (hv : v = .node child)
      (hm : s.marks[child]? = some (.signed σ))
      (hn : s.keys[SignatureKey.content σ]? = some n) : Stands tree s owner v (.child n)

theorem Stands.mono {s s' : Signer} (hle : s.Le s') {owner : NodeId} {v : Value} {t : Token}
    (h : Stands tree s owner v t) : Stands tree s' owner v t := by
  cases h with
  | null hv => exact .null hv
  | scalar hv hk hn => exact .scalar hv hk (hle.keys hn)
  | cycle hv hm hn hback => exact .cycle hv (hle.marked hm) (hle.keys hn) hback
  | child hv hm hn => exact .child hv (hle.signed hm) (hle.keys hn)

/-- **A signature describes a node**: it has the node's header, and tokens that stand for the
node's values in their order. -/
inductive Describes (tree : Tree) (shapes : ShapeRegistry) (s : Signer) (id : NodeId)
    (σ : Signature) : Prop where
  | intro (header : Header) (values : List Value) (tokens : List Token)
      (hl : tree.layout shapes id = .ok (header, values))
      (ht : List.Forall₂ (Stands tree s id) values tokens)
      (hσ : σ = Signature.ofWords header tokens)

theorem Describes.mono {s s' : Signer} (hle : s.Le s') {id : NodeId} {σ : Signature}
    (h : Describes tree shapes s id σ) : Describes tree shapes s' id σ := by
  obtain ⟨header, values, tokens, hl, ht, hσ⟩ := h
  exact ⟨header, values, tokens, hl, ht.imp fun _ _ => Stands.mono hle, hσ⟩

/-! ## 4. The invariant of the machine -/

/-- **A frame is read so far**: its tokens stand for the values before the one it awaits a token
for, if it does, and its unread ones. -/
inductive Reads (tree : Tree) (shapes : ShapeRegistry) (s : Signer) (f : Frame)
    (awaited : Option Value) : Prop where
  | intro (header : Header) (read : List Value) (tokens : List Token)
      (hl : tree.layout shapes f.node = .ok (header, read ++ (awaited.toList ++ f.unread)))
      (ht : List.Forall₂ (Stands tree s f.node) read tokens)
      (hf : f.tokens = (header.text :: tokens.map Token.text).reverse)

/-- Frames, of which each awaits the token of the one above it. -/
def Frames (tree : Tree) (shapes : ShapeRegistry) (D : NodeId → Prop) (s : Signer) :
    Option Value → List Frame → Prop
  | _, [] => True
  | awaited, f :: below =>
    D f.node ∧ Reads tree shapes s f awaited ∧
      Frames tree shapes D s (some (.node f.node)) below

/-- **The state of the machine between two steps.** -/
structure Running (tree : Tree) (shapes : ShapeRegistry) (D : NodeId → Prop) (s : Signer)
    (awaited : Option Value) (stack : List Frame) : Prop where
  keys : s.KeysApart
  named : ∀ {k : SignatureKey} {n : UInt32}, s.keys[k]? = some n → KeyFor tree D s k
  described : ∀ {id : NodeId} {σ : Signature}, s.marks[id]? = some (.signed σ) →
    D id ∧ Describes tree shapes s id σ
  underway : ∀ {id : NodeId}, s.marks[id]? = some .underway ↔ id ∈ stack.map Frame.node
  apart : (stack.map Frame.node).Nodup
  frames : Frames tree shapes D s awaited stack

theorem Reads.mono {s s' : Signer} (hle : s.Le s') {f : Frame} {awaited : Option Value}
    (h : Reads tree shapes s f awaited) : Reads tree shapes s' f awaited := by
  obtain ⟨header, read, tokens, hl, ht, hf⟩ := h
  exact ⟨header, read, tokens, hl, ht.imp fun _ _ => Stands.mono hle, hf⟩

theorem Frames.mono {s s' : Signer} (hle : s.Le s') : ∀ {awaited : Option Value}
    {stack : List Frame}, Frames tree shapes D s awaited stack →
      Frames tree shapes D s' awaited stack
  | _, [], _ => trivial
  | _, _ :: _, ⟨hD, hr, hb⟩ => ⟨hD, hr.mono hle, hb.mono hle⟩

/-- The awaited value is one of the frame's node. -/
theorem Reads.mem_children {s : Signer} {f : Frame} {v : Value}
    (h : Reads tree shapes s f (some v)) : v ∈ tree.children f.node := by
  obtain ⟨header, read, tokens, hl, -, -⟩ := h
  exact Tree.mem_children_of_layout hl (by simp)

/-- Every frame leads to the awaited child of the top frame. -/
theorem Frames.reaches {s : Signer} : ∀ {child : NodeId} {stack : List Frame},
    Frames tree shapes D s (some (.node child)) stack → ∀ f ∈ stack, tree.Reaches f.node child
  | _, [], _, f, hf => by simp at hf
  | child, g :: below, ⟨_, hr, hb⟩, f, hf => by
    rcases List.mem_cons.mp hf with rfl | hf
    · exact .single hr.mem_children
    · exact (hb.reaches f hf).tail hr.mem_children

/-- The nodes of frames are in the set. -/
theorem Frames.mem {s : Signer} : ∀ {awaited : Option Value} {stack : List Frame},
    Frames tree shapes D s awaited stack → ∀ f ∈ stack, D f.node
  | _, [], _, f, hf => by simp at hf
  | _, _ :: _, ⟨hD, _, hb⟩, f, hf => by
    rcases List.mem_cons.mp hf with rfl | hf
    · exact hD
    · exact hb.mem f hf

/-- Every node underway is in the set, and leads to the node of the top frame. -/
theorem Running.reaches_top {s : Signer} {awaited : Option Value} {top : Frame}
    {below : List Frame} (h : Running tree shapes D s awaited (top :: below)) {id : NodeId}
    (hid : s.marks[id]? = some .underway) : D id ∧ tree.Reaches id top.node := by
  obtain ⟨f, hf, rfl⟩ := List.mem_map.mp (h.underway.mp hid)
  refine ⟨h.frames.mem f hf, ?_⟩
  rcases List.mem_cons.mp hf with rfl | hf
  · exact .refl
  · exact h.frames.2.2.reaches f hf

/-! ## 5. The steps keep the invariant -/

/-- **A key that is for something** may be asked for at any time. -/
theorem Running.key {s : Signer} {awaited : Option Value} {stack : List Frame}
    (h : Running tree shapes D s awaited stack) {k : SignatureKey} (hk : KeyFor tree D s k) :
    (s.key k).2.keys[k]? = some (s.key k).1 ∧ s.Le (s.key k).2 ∧
      Running tree shapes D (s.key k).2 awaited stack := by
  obtain ⟨hn, hle⟩ := key_spec s k
  have hm := marks_key s k
  refine ⟨hn, hle, h.keys.key k, fun {k'} {n} hk' => ?_, fun {id} {σ} hid => ?_, fun {id} => ?_,
    h.apart, h.frames.mono hle⟩
  · rw [getElem?_keys_key] at hk'
    split at hk'
    · rename_i he
      exact he ▸ hk.mono hle
    · exact (h.named hk').mono hle
  · rw [hm] at hid
    exact ⟨(h.described hid).1, (h.described hid).2.mono hle⟩
  · rw [hm]
    exact h.underway

/-- The top frame takes its next value. -/
theorem Running.take {s : Signer} {top : Frame} {below : List Frame} {v : Value}
    {unread : List Value} (h : Running tree shapes D s none (top :: below))
    (hu : top.unread = v :: unread) :
    Running tree shapes D s (some v) ({ top with unread } :: below) where
  keys := h.keys
  named := h.named
  described := h.described
  underway := h.underway
  apart := h.apart
  frames := by
    obtain ⟨hD, ⟨header, read, tokens, hl, ht, hf⟩, hb⟩ := h.frames
    rw [hu] at hl
    exact ⟨hD, ⟨header, read, tokens, hl, ht, hf⟩, hb⟩

/-- The top frame gets the token it awaits. -/
theorem Running.push {s : Signer} {top : Frame} {below : List Frame} {v : Value} {t : Token}
    (h : Running tree shapes D s (some v) (top :: below)) (hv : Stands tree s top.node v t) :
    Running tree shapes D s none (top.push t :: below) where
  keys := h.keys
  named := h.named
  described := h.described
  underway := h.underway
  apart := h.apart
  frames := by
    obtain ⟨hD, ⟨header, read, tokens, hl, ht, hf⟩, hb⟩ := h.frames
    refine ⟨hD, ⟨header, read ++ [v], tokens ++ [t], ?_, ?_, ?_⟩, hb⟩
    · simpa [Frame.push] using hl
    · exact List.rel_append ht (.cons hv .nil)
    · simp [Frame.push, hf]

/-- A child that has no mark is entered. -/
theorem Running.enter {s : Signer} {stack : List Frame} {child : NodeId} {header : Header}
    {values : List Value} (h : Running tree shapes D s (some (.node child)) stack)
    (hn : s.marks[child]? = none) (hD : D child)
    (hl : tree.layout shapes child = .ok (header, values)) :
    s.Le { s with marks := s.marks.insert child .underway } ∧
      Running tree shapes D { s with marks := s.marks.insert child .underway } none
        (⟨child, values, [header.text]⟩ :: stack) := by
  have hget (id : NodeId) : (s.marks.insert child .underway)[id]? =
      if child = id then some .underway else s.marks[id]? := by
    rw [Std.HashMap.getElem?_insert]
    simp only [beq_iff_eq]
  have hold {id : NodeId} (hid : s.marks[id]?.isSome) : child ≠ id := by
    rintro rfl
    rw [hn] at hid
    exact Bool.false_ne_true hid
  have hle : s.Le { s with marks := s.marks.insert child .underway } := by
    refine ⟨id, fun {id} {σ} hid => ?_, fun {id} hid => ?_⟩
    · rw [hget, if_neg (hold (by rw [hid]; rfl))]
      exact hid
    · rw [hget, if_neg (hold hid)]
      exact hid
  refine ⟨hle, ⟨h.keys.lt, h.keys.inj⟩, fun hk => (h.named hk).mono hle, fun {id} {σ} hid => ?_,
    fun {id} => ?_, ?_, ?_⟩
  · rw [hget] at hid
    split at hid
    · simp at hid
    · exact ⟨(h.described hid).1, (h.described hid).2.mono hle⟩
  · rw [hget, List.map_cons, List.mem_cons, ← h.underway]
    split
    · rename_i he
      simp [he]
    · rename_i he
      simp [Ne.symm he]
  · rw [List.map_cons, List.nodup_cons]
    refine ⟨?_, h.apart⟩
    intro hmem
    rw [← h.underway, hn] at hmem
    exact Option.some_ne_none _ hmem.symm
  · exact ⟨hD, ⟨header, [], [], by simpa using hl, .nil, rfl⟩, h.frames.mono hle⟩

/-- A node whose values are all read is closed, and the frame below awaits its token. -/
theorem Running.close {s : Signer} {top : Frame} {below : List Frame}
    (h : Running tree shapes D s none (top :: below)) (hu : top.unread = []) :
    s.Le (s.close top) ∧ Running tree shapes D (s.close top) (some (.node top.node)) below := by
  have hget (id : NodeId) : (s.close top).marks[id]? =
      if top.node = id then some (.signed top.signature) else s.marks[id]? := by
    simp only [Signer.close, Std.HashMap.getElem?_insert, beq_iff_eq]
  have htop : s.marks[top.node]? = some .underway := h.underway.mpr (by simp)
  obtain ⟨hDtop, ⟨header, read, tokens, hl, ht, hf⟩, hb⟩ := h.frames
  have hle : s.Le (s.close top) := by
    refine ⟨id, fun {id} {σ} hid => ?_, fun {id} hid => ?_⟩
    · have hne : top.node ≠ id := by
        rintro rfl
        simp [htop] at hid
      rw [hget, if_neg hne]
      exact hid
    · rw [hget]
      split
      · rfl
      · exact hid
  have hnodup := h.apart
  rw [List.map_cons, List.nodup_cons] at hnodup
  refine ⟨hle, ⟨h.keys.lt, h.keys.inj⟩, fun hk => (h.named hk).mono hle, fun {id} {σ} hid => ?_,
    fun {id} => ?_, hnodup.2, hb.mono hle⟩
  · rw [hget] at hid
    split at hid
    · rename_i he
      simp only [Option.some.injEq, Mark.signed.injEq] at hid
      subst he hid
      simp only [hu, Option.toList_none, List.append_nil] at hl
      refine ⟨hDtop, header, read, tokens, hl, ht.imp fun _ _ => Stands.mono hle, ?_⟩
      rw [Frame.signature, hf, List.reverse_reverse]
      rfl
    · exact ⟨(h.described hid).1, (h.described hid).2.mono hle⟩
  · rw [hget]
    split
    · rename_i he
      subst he
      simp [hnodup.1]
    · rename_i he
      rw [h.underway, List.map_cons, List.mem_cons]
      exact ⟨fun hid => hid.resolve_left fun e => he e.symm, .inr⟩

/-- A closed child gets the key of its signature. -/
theorem Running.pushChild {s : Signer} {next : Frame} {below : List Frame} {child : NodeId}
    {σ : Signature} (h : Running tree shapes D s (some (.node child)) (next :: below))
    (hm : s.marks[child]? = some (.signed σ)) :
    s.Le (s.key (.content σ)).2 ∧ Running tree shapes D (s.key (.content σ)).2 none
      (next.push (.child (s.key (.content σ)).1) :: below) := by
  obtain ⟨hn, hle, hrun⟩ := h.key (.child h.frames.1 h.frames.2.1.mem_children hm)
  exact ⟨hle, hrun.push (.child rfl (hle.signed hm) hn)⟩

/-! ## 6. Reading a value -/

theorem read_scalar (s : Signer) (c : Scalar) : s.read c.slot =
    match c.key? with
    | none => .token .null s
    | some k => .token (.scalar (s.key k).1) (s.key k).2 := by
  cases c <;> rfl

/-- **Reading a value** gives a token that stands for it, or it is a child without a mark. -/
theorem Running.read {s : Signer} {top : Frame} {below : List Frame} {v : Value}
    {slot : Slot String NodeId} (h : Running tree shapes D s (some v) (top :: below))
    (hs : Slot.ofValue tree v = .ok slot) :
    (∃ t s', s.read slot = .token t s' ∧ s.Le s' ∧
      Running tree shapes D s' none (top.push t :: below)) ∨
    (∃ child, s.read slot = .enter child s ∧ v = .node child ∧ s.marks[child]? = none) := by
  have hnode (child : NodeId) (hv : v = .node child) :
      (∃ t s', s.readNode child = .token t s' ∧ s.Le s' ∧
        Running tree shapes D s' none (top.push t :: below)) ∨
      (∃ other, s.readNode child = .enter other s ∧ v = .node other ∧
        s.marks[other]? = none) := by
    unfold readNode
    cases hm : s.marks[child]? with
    | none => exact .inr ⟨child, rfl, hv, hm⟩
    | some mark =>
      left
      cases mark with
      | signed σ =>
        subst hv
        exact ⟨_, _, rfl, h.pushChild hm⟩
      | underway =>
        subst hv
        obtain ⟨hD, hback⟩ := h.reaches_top hm
        have hcycle : tree.OnCycle child := .tail' hback h.frames.2.1.mem_children
        obtain ⟨hn, hle, hrun⟩ := h.key (.cycle hD hcycle)
        refine ⟨_, _, rfl, hle, hrun.push ?_⟩
        exact .cycle rfl (hle.marked (by rw [hm]; rfl)) hn hback
  rcases Slot.ofValue_eq_ok_iff.mp hs with ⟨c, hc, rfl⟩ | ⟨id, _, hv, -, rfl⟩ |
    ⟨id, _, hv, -, rfl⟩
  · left
    rw [read_scalar]
    cases hk : c.key? with
    | none =>
      have hnull : c = .null := by
        cases c <;> simp [Scalar.key?] at hk
        rfl
      subst hnull
      exact ⟨_, _, rfl, .refl s, h.push (.null hc)⟩
    | some k =>
      obtain ⟨hn, hle, hrun⟩ := h.key (.scalar h.frames.1 h.frames.2.1.mem_children hc hk)
      exact ⟨_, _, rfl, hle, hrun.push (.scalar hc hk hn)⟩
  · exact hnode id hv
  · exact hnode id hv

/-! ## 7. Whole runs -/

/-- **The machine signs the node of its lowest frame** and whatever that needs, and every node it
has signed is described by its signature. -/
theorem run_spec (hD : tree.Signable shapes D) (s : Signer) (top : Frame) (below : List Frame) :
    Running tree shapes D s none (top :: below) →
      ∃ σ s', s.run tree shapes top below = .ok (σ, s') ∧ s.Le s' ∧
        Running tree shapes D s' none [] ∧
        ∀ id, ((top :: below).map Frame.node).getLast? = some id →
          s'.marks[id]? = some (.signed σ) := by
  fun_induction run tree shapes s top below with
  | case1 s top below v unread hu e hs =>
    intro h
    obtain ⟨slot, hslot⟩ := hD.slots _ h.frames.1 v (h.take hu).frames.2.1.mem_children
    simp [hslot] at hs
  | case2 s top below v unread hu slot hs t s' hr ih =>
    intro h
    rcases (h.take hu).read hs with ⟨t', s'', hr', hle, hrun⟩ | ⟨child, hr', -, -⟩
    · rw [hr] at hr'
      obtain ⟨rfl, rfl⟩ := Reading.token.inj hr'
      obtain ⟨σ, s₂, h₂, hle₂, hrest⟩ := ih hrun
      exact ⟨σ, s₂, h₂, hle.trans hle₂, hrest⟩
    · simp [hr] at hr'
  | case3 s top below v unread hu slot hs child s' hr e he =>
    intro h
    rcases (h.take hu).read hs with ⟨t', s'', hr', -, -⟩ | ⟨child', hr', rfl, hn⟩
    · simp [hr] at hr'
    · rw [hr] at hr'
      obtain ⟨rfl, rfl⟩ := Reading.enter.inj hr'
      have hc : D child := hD.points _ _ h.frames.1 (h.take hu).frames.2.1.mem_children
      obtain ⟨header, values, hl⟩ := hD.laid child hc
      simp [enter_eq_ok hl] at he
  | case4 s top below v unread hu slot hs child s' hr frame s₁ he ih =>
    intro h
    rcases (h.take hu).read hs with ⟨t', s'', hr', -, -⟩ | ⟨child', hr', rfl, hn⟩
    · simp [hr] at hr'
    · rw [hr] at hr'
      obtain ⟨rfl, rfl⟩ := Reading.enter.inj hr'
      have hc : D child := hD.points _ _ h.frames.1 (h.take hu).frames.2.1.mem_children
      obtain ⟨header, values, hl⟩ := hD.laid child hc
      rw [enter_eq_ok hl, Except.ok.injEq, Prod.mk.injEq] at he
      obtain ⟨rfl, rfl⟩ := he
      obtain ⟨hle, hrun⟩ := (h.take hu).enter hn hc hl
      obtain ⟨σ, s₂, h₂, hle₂, hrun₂, hlast⟩ := ih hrun
      refine ⟨σ, s₂, h₂, hle.trans hle₂, hrun₂, fun id hid => hlast id ?_⟩
      simpa using hid
  | case5 s top hu =>
    intro h
    obtain ⟨hle, hrun⟩ := h.close hu
    refine ⟨top.signature, s.close top, rfl, hle, ⟨hrun.keys, hrun.named, hrun.described,
      hrun.underway, hrun.apart, trivial⟩, ?_⟩
    simp [Signer.close]
  | case6 s top hu signature s₁ next below n s' hk ih =>
    intro h
    obtain ⟨hle, hrun⟩ := h.close hu
    have hm : (s.close top).marks[top.node]? = some (.signed top.signature) := by
      simp [Signer.close]
    obtain ⟨hle', hrun'⟩ := hrun.pushChild hm
    rw [hk] at hle' hrun'
    obtain ⟨σ, s₂, h₂, hle₂, hrun₂, hlast⟩ := ih hrun'
    refine ⟨σ, s₂, h₂, hle.trans (hle'.trans hle₂), hrun₂, fun id hid => hlast id ?_⟩
    simpa [Frame.push] using hid

/-- A signer between two runs: nothing is underway. -/
abbrev AtRest (tree : Tree) (shapes : ShapeRegistry) (D : NodeId → Prop) (s : Signer) : Prop :=
  Running tree shapes D s none []

theorem atRest_empty (tree : Tree) (shapes : ShapeRegistry) (D : NodeId → Prop) :
    AtRest tree shapes D {} where
  keys := ⟨fun _ => by simp, fun _ => by simp⟩
  named := by simp
  described := by simp
  underway := by simp
  apart := List.nodup_nil
  frames := trivial

theorem AtRest.not_underway {s : Signer} (h : AtRest tree shapes D s) (id : NodeId) :
    s.marks[id]? ≠ some .underway := by
  rw [ne_eq, h.underway]
  exact List.not_mem_nil

/-- **A node is signed**, and what it needs with it. -/
theorem sign_spec (hD : tree.Signable shapes D) {s : Signer} (h : AtRest tree shapes D s)
    {id : NodeId} (hid : D id) :
    ∃ σ s', s.sign tree shapes id = .ok (σ, s') ∧ s.Le s' ∧ AtRest tree shapes D s' ∧
      s'.marks[id]? = some (.signed σ) := by
  unfold sign
  cases hm : s.marks[id]? with
  | some mark =>
    cases mark with
    | signed σ => exact ⟨σ, s, rfl, .refl s, h, hm⟩
    | underway => exact absurd hm (h.not_underway id)
  | none =>
    obtain ⟨header, values, hl⟩ := hD.laid id hid
    have hrest : Running tree shapes D s (some (.node id)) [] :=
      ⟨h.keys, h.named, h.described, h.underway, h.apart, trivial⟩
    obtain ⟨hle, hrun⟩ := hrest.enter hm hid hl
    obtain ⟨σ, s', hr, hle', hrest', hlast⟩ := run_spec hD _ _ _ hrun
    rw [enter_eq_ok hl]
    exact ⟨σ, s', hr, hle.trans hle', hrest', hlast id rfl⟩

/-- Signs nodes one after the other. -/
def signAll (tree : Tree) (shapes : ShapeRegistry) (s : Signer) :
    List NodeId → Except EncodeError (List Signature × Signer)
  | [] => .ok ([], s)
  | id :: rest =>
    match s.sign tree shapes id with
    | .error e => .error e
    | .ok (σ, s) => (signAll tree shapes s rest).map fun (σs, s) => (σ :: σs, s)

/-- **Nodes are signed one after the other**: at the end each has the signature it was given. -/
theorem signAll_spec (hD : tree.Signable shapes D) : ∀ {ids : List NodeId} {s : Signer},
    AtRest tree shapes D s → (∀ id ∈ ids, D id) →
      ∃ σs s', s.signAll tree shapes ids = .ok (σs, s') ∧ s.Le s' ∧ AtRest tree shapes D s' ∧
        List.Forall₂ (fun id σ => s'.marks[id]? = some (.signed σ)) ids σs
  | [], s, h, _ => ⟨[], s, rfl, .refl s, h, .nil⟩
  | id :: rest, s, h, hids => by
    obtain ⟨σ, s₁, h₁, hle₁, hr₁, hm₁⟩ := sign_spec hD h (hids id List.mem_cons_self)
    obtain ⟨σs, s₂, h₂, hle₂, hr₂, hm₂⟩ :=
      signAll_spec hD hr₁ fun i hi => hids i (List.mem_cons_of_mem _ hi)
    refine ⟨σ :: σs, s₂, ?_, hle₁.trans hle₂, hr₂, .cons (hle₂.signed hm₁) hm₂⟩
    simp only [signAll, h₁, h₂, Except.map]

end Signer

end PackedTree
