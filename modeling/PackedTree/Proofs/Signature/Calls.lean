/-
# Every node is signed once

What any sequence of calls on one signer does, during the calls and after them.

The mark of a node tells all that was done with it (`Machine.History`): nothing without a mark; it
was opened, and its frame has read what it no longer has to read; or it was opened, every value was
read, and it was closed.  A turn changes the history of one node and leaves the others alone.  So
every turn keeps the histories with the invariant of the signing machine (`Turn.During.turn`), and
so does every call.

* `Machine.History`: what was done with a node, by its mark.
* `Machine.Busy`: what is known between two turns of a call.
* `Machine.Idle`: what is known between two calls.
* `signs_each_once`: where a discovery succeeds, all calls on nodes that its root reaches end, and
  the machine is busy or idle all the way.
-/
import PackedTree.Proofs.Discovery.Tables
import PackedTree.Proofs.Signature.Machine

namespace PackedTree

/-! ## 1. The words of a signature -/

/-- The words of a signature, which stand between its blanks. -/
def Signature.words (σ : Signature) : List String := (σ.split ' ').toList.map (·.copy)

theorem Signature.words_ofWords (header : Header) (tokens : List Token) :
    (ofWords header tokens).words = header.text :: tokens.map Token.text := by
  have hwords := String.toList_split_intercalate (c := ' ') (isWord_of_mem header tokens)
  rwa [if_neg (List.cons_ne_nil _ _)] at hwords

namespace Signer

variable {tree : Tree} {shapes : ShapeRegistry} {D : NodeId → Prop} {s : Signer} {id : NodeId}

/-- **A signature has a header and one token for each value** of the node it describes. -/
theorem Describes.length_words {σ : Signature} (h : Describes tree shapes s id σ) :
    σ.words.length = (tree.children id).length + 1 := by
  obtain ⟨header, values, tokens, hl, ht, rfl⟩ := h
  rw [Signature.words_ofWords, List.length_cons, List.length_map, ← ht.length_eq,
    (Tree.layout_perm hl).length_eq]

/-! ## 2. The record of a node -/

namespace Machine

variable {m m' : Machine}

/-- **The history of a node.**  Nothing was done with a node without a mark.  One that is underway
was opened and has a frame, which has read what it no longer has to read.  One that is signed was
opened, all its values were read, and it was closed. -/
inductive History (tree : Tree) (m : Machine) (id : NodeId) : Prop where
  | untouched (hmark : m.signer.marks[id]? = none) (hacts : m.actsOn id = [])
  | underway (f : Frame) (read : List Value) (hmark : m.signer.marks[id]? = some .underway)
      (hf : f ∈ m.stack) (hnode : f.node = id)
      (hvalues : (read ++ f.unread).Perm (tree.children id))
      (hacts : m.actsOn id = .opened :: read.map .read)
  | signed (σ : Signature) (values : List Value)
      (hmark : m.signer.marks[id]? = some (.signed σ))
      (hvalues : values.Perm (tree.children id))
      (hacts : m.actsOn id = .opened :: (values.map .read ++ [.closed]))

/-- What an act adds to the record of a node. -/
theorem actsOn_of_record {a : NodeId} {act : Act} (h : m'.record = m.record ++ [(a, act)])
    (id : NodeId) : m'.actsOn id = if a = id then m.actsOn id ++ [act] else m.actsOn id := by
  unfold actsOn
  rw [h, List.filter_append, List.map_append]
  by_cases ha : a = id <;> simp [ha]

/-- What a node's mark is after one was set. -/
theorem getElem?_marks_insert (s : Signer) (a : NodeId) (mark : Mark) (id : NodeId) :
    (s.marks.insert a mark)[id]? = if a = id then some mark else s.marks[id]? := by
  rw [Std.HashMap.getElem?_insert]
  simp only [beq_iff_eq]

/-- The frame of a node other than the top one is below it. -/
theorem mem_below {top f : Frame} {below : List Frame} (hne : top.node ≠ id) (hnode : f.node = id)
    (hf : f ∈ top :: below) : f ∈ below := by
  rcases List.mem_cons.mp hf with rfl | hf
  · exact absurd hnode hne
  · exact hf

/-- **The history of a node stays** while its mark, its record and its frame do. -/
theorem History.stays (h : m.History tree id)
    (hmark : m'.signer.marks[id]? = m.signer.marks[id]?) (hacts : m'.actsOn id = m.actsOn id)
    (hstack : ∀ f ∈ m.stack, f.node = id →
      ∃ f' ∈ m'.stack, f'.node = id ∧ f'.unread = f.unread) : m'.History tree id := by
  cases h with
  | untouched hm ha => exact .untouched (hmark.trans hm) (hacts.trans ha)
  | underway f read hm hf hnode hvalues ha =>
    obtain ⟨f', hf', hnode', hunread⟩ := hstack f hf hnode
    exact .underway f' read (hmark.trans hm) hf' hnode' (hunread ▸ hvalues) (hacts.trans ha)
  | signed σ values hm hvalues ha =>
    exact .signed σ values (hmark.trans hm) hvalues (hacts.trans ha)

/-- Keys and tokens leave all histories alone. -/
theorem History.push (h : m.History tree id) {signer : Signer}
    (hmarks : signer.marks = m.signer.marks) (t : Token) :
    ({ m with signer }.push t).History tree id := by
  obtain ⟨s, stack, record⟩ := m
  cases stack with
  | nil => exact h.stays (congrArg (·[id]?) hmarks) rfl fun f hf => nomatch hf
  | cons top below =>
    refine h.stays (congrArg (·[id]?) hmarks) rfl ?_
    intro f hf hnode
    rcases List.mem_cons.mp hf with rfl | hf
    · exact ⟨f.push t, List.mem_cons_self, hnode, rfl⟩
    · exact ⟨f, List.mem_cons_of_mem _ hf, hnode, rfl⟩

/-- **A value is read** of the top frame, which no longer has to read it. -/
theorem History.read {top : Frame} {below : List Frame} {v : Value} {unread : List Value}
    (h : m.History tree id) (hstack : m.stack = top :: below)
    (hu : top.unread = v :: unread) (hmark : m.signer.marks[top.node]? = some .underway)
    (hapart : (m.stack.map Frame.node).Nodup)
    (hstack' : m'.stack = { top with unread } :: below) (hsigner : m'.signer = m.signer)
    (hrecord : m'.record = m.record ++ [(top.node, .read v)]) : m'.History tree id := by
  have hacts := actsOn_of_record hrecord id
  by_cases hid : top.node = id
  · subst hid
    rw [if_pos rfl] at hacts
    cases h with
    | untouched hm => simp [hmark] at hm
    | signed σ _ hm => simp [hmark] at hm
    | underway f read hm hf hnode hvalues ha =>
      obtain rfl : f = top :=
        List.inj_on_of_nodup_map hapart hf (hstack ▸ List.mem_cons_self) hnode
      refine .underway { f with unread } (read ++ [v]) (hsigner ▸ hmark)
        (hstack' ▸ List.mem_cons_self) rfl ?_ ?_
      · rwa [List.append_assoc, List.singleton_append, ← hu]
      · rw [hacts, ha, List.map_append, List.map_singleton, List.cons_append]
  · rw [if_neg hid] at hacts
    refine h.stays (by rw [hsigner]) hacts fun f hf hnode => ?_
    have hbelow := mem_below hid hnode (hstack ▸ hf)
    exact ⟨f, hstack' ▸ List.mem_cons_of_mem _ hbelow, hnode, rfl⟩

/-- **A node is opened**, with all its values to be read. -/
theorem History.enter {child : NodeId} {header : Header} {values : List Value}
    {tokens : List String} (h : m.History tree id) (hn : m.signer.marks[child]? = none)
    (hl : tree.layout shapes child = .ok (header, values))
    (hstack' : m'.stack = ⟨child, values, tokens⟩ :: m.stack)
    (hmarks : m'.signer.marks = m.signer.marks.insert child .underway)
    (hrecord : m'.record = m.record ++ [(child, .opened)]) : m'.History tree id := by
  have hacts := actsOn_of_record hrecord id
  have hget := getElem?_marks_insert m.signer child .underway id
  rw [← hmarks] at hget
  by_cases hid : child = id
  · subst hid
    rw [if_pos rfl] at hacts hget
    cases h with
    | untouched _ ha =>
      exact .underway ⟨child, values, tokens⟩ [] hget (hstack' ▸ List.mem_cons_self) rfl
        (Tree.layout_perm hl) (by rw [hacts, ha]; rfl)
    | underway _ _ hm => simp [hn] at hm
    | signed σ _ hm => simp [hn] at hm
  · rw [if_neg hid] at hacts hget
    exact h.stays hget hacts fun f hf hnode =>
      ⟨f, hstack' ▸ List.mem_cons_of_mem _ hf, hnode, rfl⟩

/-- **The top frame is closed**, with no value left to read. -/
theorem History.close {top : Frame} {below : List Frame} (h : m.History tree id)
    (hstack : m.stack = top :: below) (hu : top.unread = [])
    (hmark : m.signer.marks[top.node]? = some .underway)
    (hapart : (m.stack.map Frame.node).Nodup) (hstack' : m'.stack = below)
    (hsigner : m'.signer = m.signer.close top)
    (hrecord : m'.record = m.record ++ [(top.node, .closed)]) : m'.History tree id := by
  have hacts := actsOn_of_record hrecord id
  have hget := getElem?_marks_insert m.signer top.node (.signed top.signature) id
  have hmarks : m'.signer.marks = m.signer.marks.insert top.node (.signed top.signature) := by
    rw [hsigner, Signer.close]
  rw [← hmarks] at hget
  by_cases hid : top.node = id
  · subst hid
    rw [if_pos rfl] at hacts hget
    cases h with
    | untouched hm => simp [hmark] at hm
    | signed σ _ hm => simp [hmark] at hm
    | underway f read hm hf hnode hvalues ha =>
      obtain rfl : f = top :=
        List.inj_on_of_nodup_map hapart hf (hstack ▸ List.mem_cons_self) hnode
      rw [hu, List.append_nil] at hvalues
      exact .signed f.signature read hget hvalues (by rw [hacts, ha]; rfl)
  · rw [if_neg hid] at hacts hget
    exact h.stays hget hacts fun f hf hnode =>
      ⟨f, hstack' ▸ mem_below hid hnode (hstack ▸ hf), hnode, rfl⟩

/-! ## 3. Turns keep the invariant -/

/-- **A machine at work**: the invariant of the signing machine, and every node has its history. -/
structure Working (tree : Tree) (shapes : ShapeRegistry) (D : NodeId → Prop) (m : Machine) :
    Prop where
  running : Running tree shapes D m.signer none m.stack
  history : ∀ id, m.History tree id

theorem working_empty (tree : Tree) (shapes : ShapeRegistry) (D : NodeId → Prop) :
    ({} : Machine).Working tree shapes D where
  running := atRest_empty tree shapes D
  history := fun id => .untouched (by simp) rfl

end Machine

/-- **What is known after any number of turns** of a call for a node. -/
def Turn.During (tree : Tree) (shapes : ShapeRegistry) (D : NodeId → Prop) (id : NodeId)
    (before : Signer) : Turn → Prop
  | next m => m.Working tree shapes D ∧ (m.stack.map Frame.node).getLast? = some id ∧
      before.Le m.signer
  | returned σ m => m.Working tree shapes D ∧ m.stack = [] ∧ before.Le m.signer ∧
      m.signer.marks[id]? = some (.signed σ)
  | failed _ => False

namespace Machine

variable {m : Machine}

/-- Opening a node that has no mark. -/
theorem Working.enter (hD : tree.Signable shapes D) {last : NodeId}
    (hrunning : Running tree shapes D m.signer (some (.node id)) m.stack)
    (hhistory : ∀ a, m.History tree a) (hbefore : s.Le m.signer) (hid : D id)
    (hn : m.signer.marks[id]? = none)
    (hlast : (id :: m.stack.map Frame.node).getLast? = some last) :
    (m.enter tree shapes id).During tree shapes D last s := by
  obtain ⟨header, values, hl⟩ := hD.laid id hid
  obtain ⟨hle, hrun⟩ := hrunning.enter hn hid hl
  rw [Machine.enter, enter_eq_ok hl]
  exact ⟨⟨hrun, fun a => (hhistory a).enter hn hl rfl rfl rfl⟩, hlast, hbefore.trans hle⟩

/-- **The first turn of a call**, or what it returns at once. -/
theorem Working.call (hD : tree.Signable shapes D) (h : m.Working tree shapes D)
    (hstack : m.stack = []) (hid : D id) :
    (m.call tree shapes id).During tree shapes D id m.signer := by
  obtain ⟨signer, stack, record⟩ := m
  obtain rfl : stack = [] := hstack
  have hrest : AtRest tree shapes D signer := h.running
  unfold Machine.call
  cases hmark : signer.marks[id]? with
  | some mark =>
    cases mark with
    | signed σ => exact ⟨h, rfl, .refl signer, hmark⟩
    | underway => exact absurd hmark (hrest.not_underway id)
  | none =>
    have hrunning : Running tree shapes D signer (some (.node id)) [] :=
      ⟨hrest.keys, hrest.named, hrest.described, hrest.underway, hrest.apart, trivial⟩
    exact Working.enter hD hrunning h.history (.refl signer) hid hmark rfl

end Machine

namespace Turn

variable {m : Machine}

/-- **One turn of a call** keeps what is known. -/
theorem During.turn (hD : tree.Signable shapes D)
    (h : (Turn.next m).During tree shapes D id s) :
    (m.turn tree shapes id).During tree shapes D id s := by
  obtain ⟨⟨hrunning, hhistory⟩, hlast, hbefore⟩ := h
  obtain ⟨signer, stack, record⟩ := m
  cases stack with
  | nil => exact nomatch hlast
  | cons top below =>
    have htop : signer.marks[top.node]? = some .underway := hrunning.underway.mpr List.mem_cons_self
    cases hu : top.unread with
    | cons v unread =>
      -- the value is read; then the frame has its token, or the node it refers to is opened above it
      have htake := hrunning.take hu
      obtain ⟨slot, hslot⟩ := hD.slots _ hrunning.frames.1 v htake.frames.2.1.mem_children
      have hread (a : NodeId) : Machine.History tree
          ⟨signer, { top with unread } :: below, record ++ [(top.node, .read v)]⟩ a :=
        (hhistory a).read rfl hu htop hrunning.apart rfl rfl rfl
      simp only [Machine.turn, hu, Machine.resolve, hslot]
      rcases htake.read hslot with ⟨t, s', hr, hle, hrun⟩ | ⟨child, hr, rfl, hn⟩
      · rw [hr]
        exact ⟨⟨hrun, fun a => (hread a).push (marks_read hr) t⟩, hlast, hbefore.trans hle⟩
      · rw [hr]
        have hchild : D child := hD.points _ _ hrunning.frames.1 htake.frames.2.1.mem_children
        refine Machine.Working.enter hD htake hread hbefore hchild hn ?_
        rw [List.map_cons, List.getLast?_cons_cons]
        exact hlast
    | nil =>
      -- the node is closed; the frame below, if there is one, awaits the key of its signature
      obtain ⟨hle, hrun⟩ := hrunning.close hu
      have hclose (a : NodeId) : Machine.History tree
          ⟨signer.close top, below, record ++ [(top.node, .closed)]⟩ a :=
        (hhistory a).close rfl hu htop hrunning.apart rfl rfl rfl
      have hsigned : (signer.close top).marks[top.node]? = some (.signed top.signature) := by
        simp [Signer.close]
      simp only [Machine.turn, hu, Machine.close]
      cases below with
      | nil =>
        obtain rfl : top.node = id := Option.some.inj hlast
        have hrest : AtRest tree shapes D (signer.close top) :=
          ⟨hrun.keys, hrun.named, hrun.described, hrun.underway, hrun.apart, trivial⟩
        exact ⟨⟨hrest, hclose⟩, rfl, hbefore.trans hle, hsigned⟩
      | cons next below =>
        obtain ⟨hle', hrun'⟩ := hrun.pushChild hsigned
        refine ⟨⟨hrun', fun a => (hclose a).push (marks_key _ _) _⟩, ?_,
          hbefore.trans (hle.trans hle')⟩
        rw [List.map_cons, List.map_cons, List.getLast?_cons_cons] at hlast
        exact hlast

/-- **Any number of turns** keeps what is known. -/
theorem During.after (hD : tree.Signable shapes D) : ∀ (n : Nat) {t : Turn},
    t.During tree shapes D id s → (t.after tree shapes id n).During tree shapes D id s
  | 0, t, h => by rwa [after_zero]
  | n + 1, .next m, h => During.after hD n (h.turn hD)
  | n + 1, .returned σ m, h => h
  | n + 1, .failed e, h => h

end Turn

namespace Machine

variable {m m' : Machine}

theorem Working.after_call (hD : tree.Signable shapes D) (h : m.Working tree shapes D)
    (hstack : m.stack = []) (hid : D id) (n : Nat) :
    ((m.call tree shapes id).after tree shapes id n).During tree shapes D id m.signer :=
  (h.call hD hstack hid).after hD n

/-- **Calls keep what is known.** -/
theorem Calls.working (hD : tree.Signable shapes D) {ids : List NodeId} {σs : List Signature}
    (hcalls : Calls tree shapes m ids σs m') (h : m.Working tree shapes D) (hstack : m.stack = [])
    (hids : ∀ id ∈ ids, D id) : m'.Working tree shapes D ∧ m'.stack = [] := by
  induction hcalls with
  | nil m => exact ⟨h, hstack⟩
  | @cons m m₁ m' id ids σ σs n hcall _ ih =>
    have hduring := h.after_call hD hstack (hids id List.mem_cons_self) n
    rw [hcall] at hduring
    exact ih hduring.1 hduring.2.1 fun a ha => hids a (List.mem_cons_of_mem _ ha)

/-- **A call returns.** -/
theorem Working.exists_returned (hD : tree.Signable shapes D) (h : m.Working tree shapes D)
    (hstack : m.stack = []) (hid : D id) :
    ∃ n σ m', (m.call tree shapes id).after tree shapes id n = .returned σ m' ∧
      m.signer.sign tree shapes id = .ok (σ, m'.signer) := by
  obtain ⟨n, hn⟩ := gives_call tree shapes hstack id
  have hduring := h.after_call hD hstack hid n
  cases hend : (m.call tree shapes id).after tree shapes id n with
  | next m' => exact (hend ▸ hn : (Turn.next m').Gives _).elim
  | failed e => exact (hend ▸ hduring : (Turn.failed e).During tree shapes D id m.signer).elim
  | returned σ m' => exact ⟨n, σ, m', hend, (sign_eq_of_returned hstack hend).1⟩

/-- Calls can follow each other in any order. -/
theorem Working.exists_calls (hD : tree.Signable shapes D) : ∀ {ids : List NodeId} {m : Machine},
    m.Working tree shapes D → m.stack = [] → (∀ id ∈ ids, D id) →
      ∃ σs m', Calls tree shapes m ids σs m'
  | [], m, _, _, _ => ⟨[], m, .nil m⟩
  | id :: ids, m, h, hstack, hids => by
    have hid := hids id List.mem_cons_self
    obtain ⟨n, σ, m₁, hcall, -⟩ := h.exists_returned hD hstack hid
    have hduring := h.after_call hD hstack hid n
    rw [hcall] at hduring
    obtain ⟨σs, m', hrest⟩ := Working.exists_calls hD hduring.1 hduring.2.1
      fun a ha => hids a (List.mem_cons_of_mem _ ha)
    exact ⟨σ :: σs, m', .cons hcall hrest⟩

/-! ## 4. Between two calls and between two turns -/

/-- **A machine between two calls.**  No node is underway, every node has its history, and a
signature is its node's header with one token for each value. -/
structure Idle (tree : Tree) (shapes : ShapeRegistry) (m : Machine) : Prop where
  stack : m.stack = []
  settled : ∀ id : NodeId, m.signer.marks[id]? ≠ some .underway
  history : ∀ id, m.History tree id
  described : ∀ (id : NodeId) (σ : Signature), m.signer.marks[id]? = some (.signed σ) →
    Describes tree shapes m.signer id σ ∧ σ.words.length = (tree.children id).length + 1

/-- **A machine between two turns** of a call for a node.  The nodes underway are those of the
stack, each once, and they lead from the called one to the top. -/
structure Busy (tree : Tree) (id : NodeId) (m : Machine) : Prop where
  underway : ∀ a : NodeId, m.signer.marks[a]? = some .underway ↔ a ∈ m.stack.map Frame.node
  apart : (m.stack.map Frame.node).Nodup
  bottom : (m.stack.map Frame.node).getLast? = some id
  path : (m.stack.map Frame.node).reverse.IsChain tree.Points
  history : ∀ a, m.History tree a

/-- The signatures of an earlier machine are unchanged. -/
def Keeps (before m : Machine) : Prop := ∀ (id : NodeId) (σ : Signature),
  before.signer.marks[id]? = some (.signed σ) → m.signer.marks[id]? = some (.signed σ)

theorem Working.idle (h : m.Working tree shapes D) (hstack : m.stack = []) :
    m.Idle tree shapes where
  stack := hstack
  settled := fun id hid => by
    have hmem := h.running.underway.mp hid
    rw [hstack] at hmem
    exact nomatch hmem
  history := h.history
  described := fun id σ hid =>
    ⟨(h.running.described hid).2, (h.running.described hid).2.length_words⟩

end Machine

/-- **Frames form a path**: each node refers to that of the frame above. -/
theorem Frames.isChain : ∀ {awaited : Option Value} {stack : List Frame},
    Frames tree shapes D s awaited stack →
      (stack.map Frame.node).IsChain fun a b => tree.Points b a
  | _, [], _ => .nil
  | _, [_], _ => .singleton _
  | _, _ :: _ :: _, ⟨_, _, h⟩ => .cons_cons h.2.1.mem_children (Frames.isChain h)

theorem Machine.Working.busy {m : Machine} (h : m.Working tree shapes D)
    (hbottom : (m.stack.map Frame.node).getLast? = some id) : m.Busy tree id where
  underway := fun _ => h.running.underway
  apart := h.running.apart
  bottom := hbottom
  path := List.isChain_reverse.mpr h.running.frames.isChain
  history := h.history

/-- **Between calls a signed node refers to signed nodes.** -/
theorem AtRest.exists_signed_of_points (hs : AtRest tree shapes D s) {a b : NodeId}
    (ha : ∃ σ, s.marks[a]? = some (.signed σ)) (h : tree.Points a b) :
    ∃ τ, s.marks[b]? = some (.signed τ) := by
  obtain ⟨σ, hσ⟩ := ha
  obtain ⟨-, header, values, tokens, hl, ht, -⟩ := hs.described hσ
  have hmem : Value.node b ∈ values := (Tree.layout_perm hl).mem_iff.mpr h
  obtain ⟨t, -, hstands⟩ := exists_left_of_forall₂ ht.flip hmem
  exact hstands.exists_signed hs

/-- Between calls every node that a signed one leads to is signed. -/
theorem AtRest.exists_signed_of_reaches (hs : AtRest tree shapes D s) {a b : NodeId}
    (ha : ∃ σ, s.marks[a]? = some (.signed σ)) (h : tree.Reaches a b) :
    ∃ τ, s.marks[b]? = some (.signed τ) := by
  induction h with
  | refl => exact ha
  | tail _ hbc ih => exact hs.exists_signed_of_points ih hbc

/-- **What any number of turns of a call leads to**, from a machine between two calls.  The machine
is busy, or the call has returned the signature of its node and every node that it leads to is
signed.  No signature is changed, and no turn fails, so the stack is never found empty. -/
def Turn.Steady (tree : Tree) (shapes : ShapeRegistry) (id : NodeId) (before : Machine) :
    Turn → Prop
  | next m => m.Busy tree id ∧ before.Keeps m
  | returned σ m => m.Idle tree shapes ∧ before.Keeps m ∧
      m.signer.marks[id]? = some (.signed σ) ∧
      ∀ a, tree.Reaches id a → ∃ τ, m.signer.marks[a]? = some (.signed τ)
  | failed _ => False

theorem Turn.During.steady {before : Machine} {t : Turn}
    (h : t.During tree shapes D id before.signer) : t.Steady tree shapes id before := by
  cases t with
  | next m => exact ⟨h.1.busy h.2.1, fun _ _ => h.2.2.signed⟩
  | returned σ m =>
    obtain ⟨hworking, hstack, hle, hsigned⟩ := h
    have hrest : AtRest tree shapes D m.signer := by
      have hrunning := hworking.running
      rwa [hstack] at hrunning
    exact ⟨hworking.idle hstack, fun _ _ => hle.signed, hsigned,
      fun a ha => hrest.exists_signed_of_reaches ⟨σ, hsigned⟩ ha⟩
  | failed e => exact h.elim

/-! ## 5. All calls on one signer -/

/-- **Every node is signed once.**

Where a discovery succeeds, calls on nodes that the root reaches can follow each other in any order,
and give what the signer gives.  Between two calls the machine is idle.  The next call returns after
some turns; in between it is busy, and it fails nowhere. -/
theorem signs_each_once {config : Config} {progress after : Progress} {c : Catalog}
    (h : Catalog.discover tree config progress = .ok c after) (ids : List NodeId)
    (hids : ∀ a ∈ ids, tree.Reachable a) (hid : tree.Reachable id) :
    (∃ σs m, Machine.Calls tree c.shapes {} ids σs m) ∧
      ∀ σs m, Machine.Calls tree c.shapes {} ids σs m →
        Signer.signAll tree c.shapes {} ids = .ok (σs, m.signer) ∧ m.Idle tree c.shapes ∧
        (∀ n, ((m.call tree c.shapes id).after tree c.shapes id n).Steady tree c.shapes id m) ∧
        ∃ n σ m', (m.call tree c.shapes id).after tree c.shapes id n = .returned σ m' ∧
          m.signer.sign tree c.shapes id = .ok (σ, m'.signer) := by
  have hD : tree.Signable c.shapes tree.Reachable :=
    (Catalog.lists_of_discovered (Catalog.discovered_of_discover h)).1.signable
  have hempty := Machine.working_empty tree c.shapes tree.Reachable
  refine ⟨hempty.exists_calls hD rfl hids, fun σs m hcalls => ?_⟩
  obtain ⟨hworking, hstack⟩ := hcalls.working hD hempty rfl hids
  exact ⟨(hcalls.signAll_eq rfl).1, hworking.idle hstack,
    fun n => (hworking.after_call hD hstack hid n).steady,
    hworking.exists_returned hD hstack hid⟩

/-- Two nodes that refer to each other, called one after the other.  The first has one value twice,
and it is read twice. -/
theorem signs_each_once_knot : ∃ c after m m' σs σ n,
    Catalog.discover Catalog.knot {} {} = .ok c after ∧
      Machine.Calls Catalog.knot c.shapes {} [⟨0⟩] σs m ∧
      (m.call Catalog.knot c.shapes ⟨1⟩).after Catalog.knot c.shapes ⟨1⟩ n =
        .returned σ m' ∧
      m'.Idle Catalog.knot c.shapes ∧
      m'.actsOn ⟨0⟩ = [.opened, .read (.node ⟨1⟩), .read (.node ⟨1⟩), .closed] := by
  have hall : ∀ node ∈ Catalog.knot.nodes.toList, ∀ v ∈ node.values,
      (Slot.ofValue Catalog.knot v).isOk = true := by decide
  obtain ⟨c, hc⟩ := Catalog.exists_discovered_of_nodes rfl ⟨_, rfl⟩ hall
  obtain ⟨after, h⟩ := ((hc ▸ Catalog.gives_discover Catalog.knot {}).exists_ok {})
  have hroot : Catalog.knot.Reachable ⟨0⟩ := ⟨⟨0⟩, rfl, .refl⟩
  have hpoints : Catalog.knot.Points ⟨0⟩ ⟨1⟩ := by
    unfold Tree.Points
    decide
  have hback : Catalog.knot.Points ⟨1⟩ ⟨0⟩ := by
    unfold Tree.Points
    decide
  obtain ⟨⟨σs, m, hcalls⟩, hafter⟩ := signs_each_once h [⟨0⟩] (by simpa using hroot)
    (hroot.tail hpoints)
  obtain ⟨-, -, hsteady, n, σ, m', hreturned, -⟩ := hafter σs m hcalls
  have hend := hsteady n
  rw [hreturned] at hend
  obtain ⟨hidle, -, -, hreached⟩ := hend
  refine ⟨c, after, m, m', σs, σ, n, h, hcalls, hreturned, hidle, ?_⟩
  obtain ⟨τ, hτ⟩ := hreached ⟨0⟩ (.single hback)
  cases hidle.history ⟨0⟩ with
  | untouched hmark => simp [hmark] at hτ
  | underway _ _ hmark => simp [hmark] at hτ
  | signed _ values _ hvalues hacts =>
    have htwice : values = List.replicate 2 (.node ⟨1⟩) := List.perm_replicate.mp hvalues
    rw [hacts, htwice]
    rfl

end Signer
end PackedTree
