/-
# The signing machine, turn by turn

`Signer.run` keeps the top frame apart from the stack, so its stack cannot be empty, and says
nothing of what it did on the way.  Here the loop is taken one turn at a time, on a whole stack,
with an error where the stack has no top, and with a record of what was done.

* `Machine.turn`: one turn of the loop; the record is written and never read.
* `Machine.call`: how a call begins, and `Turn.after` what has come of it after so many turns.
* `Machine.gives_call`: every call ends, and gives what `Signer.sign` gives.
* `Machine.Calls`: calls one after the other on one signer.
-/
import PackedTree.Proofs.Signature

namespace PackedTree.Signer

/-! ## 1. The machine -/

/-- What the machine does with a node. -/
inductive Act where
  | opened
  | read (v : Value)
  | closed

/-- **A signer at work**: its stack, with the top frame first, and a record of all that was done. -/
structure Machine where
  signer : Signer := {}
  stack : List Frame := []
  record : List (NodeId × Act) := []

/-- What comes of a turn of the loop. -/
inductive Turn where
  | next (m : Machine)
  | returned (σ : Signature) (m : Machine)
  | failed (e : EncodeError)

namespace Machine

/-- What was done with one node. -/
def actsOn (m : Machine) (id : NodeId) : List Act :=
  (m.record.filter (·.1 = id)).map Prod.snd

/-- The nodes on the stack, the top one first. -/
def nodes (m : Machine) : List NodeId := m.stack.map Frame.node

/-- Gives a token to the top frame.  Without one it is lost. -/
def push (m : Machine) (t : Token) : Machine :=
  match m.stack with
  | [] => m
  | top :: below => { m with stack := top.push t :: below }

section

variable (tree : Tree) (shapes : ShapeRegistry)

/-- Opens a node on top of the stack. -/
def enter (m : Machine) (id : NodeId) : Turn :=
  match m.signer.enter tree shapes id with
  | .error e => .failed e
  | .ok (frame, signer) =>
    .next { signer, stack := frame :: m.stack, record := m.record ++ [(id, .opened)] }

/-- Gives the top frame the token of a value, or opens the node it refers to. -/
def resolve (m : Machine) (v : Value) : Turn :=
  match Slot.ofValue tree v with
  | .error e => .failed e
  | .ok slot =>
    match m.signer.read slot with
    | .token t signer => .next ({ m with signer }.push t)
    | .enter child signer => { m with signer }.enter tree shapes child

/-- Closes the node of the top frame, and returns if that was the last one. -/
def close (m : Machine) (id : NodeId) : Turn :=
  match m.stack with
  | [] => .failed (.unresolved .node (.node id))
  | top :: below =>
    let closed : Machine :=
      { signer := m.signer.close top, stack := below, record := m.record ++ [(top.node, .closed)] }
    if below.isEmpty then .returned top.signature closed
    else
      match closed.signer.key (.content top.signature) with
      | (n, signer) => .next ({ closed with signer }.push (.child n))

/-- **One turn** of a call for a node. -/
def turn (m : Machine) (id : NodeId) : Turn :=
  match m.stack with
  | [] => .failed (.unresolved .node (.node id))
  | top :: below =>
    match top.unread with
    | v :: unread =>
      { m with
        stack := { top with unread } :: below
        record := m.record ++ [(top.node, Act.read v)] }.resolve tree shapes v
    | [] => m.close id

/-- **How a call begins**, with a stack of its own. -/
def call (m : Machine) (id : NodeId) : Turn :=
  match m.signer.marks[id]? with
  | some (.signed σ) => .returned σ m
  | some .underway =>
    match m.signer.key (.node id) with
    | (n, signer) => .returned (Token.cycle n).text { m with signer }
  | none => { m with stack := [] }.enter tree shapes id

end

end Machine

/-- **What has come of a call** after so many turns. -/
def Turn.after (tree : Tree) (shapes : ShapeRegistry) (id : NodeId) : Nat → Turn → Turn
  | n + 1, .next m => after tree shapes id n (m.turn tree shapes id)
  | _, t => t

/-- **Calls one after the other** on one signer. -/
inductive Machine.Calls (tree : Tree) (shapes : ShapeRegistry) :
    Machine → List NodeId → List Signature → Machine → Prop where
  | nil (m : Machine) : Calls tree shapes m [] [] m
  | cons {m m' m'' : Machine} {id : NodeId} {ids : List NodeId} {σ : Signature}
      {σs : List Signature} {n : Nat}
      (hcall : (m.call tree shapes id).after tree shapes id n = .returned σ m')
      (hrest : Calls tree shapes m' ids σs m'') :
      Calls tree shapes m (id :: ids) (σ :: σs) m''

/-! ## 2. The machine gives what the signer gives -/

variable {tree : Tree} {shapes : ShapeRegistry} {id : NodeId}

namespace Turn

/-- **A call has ended** with this. -/
def Gives (r : Except EncodeError (Signature × Signer)) : Turn → Prop
  | next _ => False
  | returned σ m => r = .ok (σ, m.signer) ∧ m.stack = []
  | failed e => r = .error e

theorem after_zero (t : Turn) : t.after tree shapes id 0 = t := by
  cases t <;> rfl

/-- What has ended stays as it is. -/
theorem Gives.after {r : Except EncodeError (Signature × Signer)} {t : Turn} (h : t.Gives r)
    (n : Nat) : t.after tree shapes id n = t := by
  cases t with
  | next m => exact h.elim
  | returned σ m => cases n <;> rfl
  | failed e => cases n <;> rfl

theorem after_add (k : Nat) : ∀ (n : Nat) (t : Turn),
    t.after tree shapes id (n + k) = (t.after tree shapes id n).after tree shapes id k
  | 0, t => by rw [Nat.zero_add, after_zero]
  | n + 1, .next m => by
    rw [Nat.add_right_comm]
    exact after_add k n (m.turn tree shapes id)
  | n + 1, .returned σ m => by cases k <;> rfl
  | n + 1, .failed e => by cases k <;> rfl

/-- A call ends in one way. -/
theorem Gives.eq_returned {r : Except EncodeError (Signature × Signer)} {t : Turn} {n k : Nat}
    {σ : Signature} {m : Machine} (h : (t.after tree shapes id n).Gives r)
    (hk : t.after tree shapes id k = .returned σ m) : t.after tree shapes id n = .returned σ m := by
  calc t.after tree shapes id n = (t.after tree shapes id n).after tree shapes id k :=
        (h.after k).symm
    _ = (t.after tree shapes id k).after tree shapes id n := by
        rw [← after_add, Nat.add_comm, after_add]
    _ = .returned σ m := by
        rw [hk]
        cases n <;> rfl

end Turn

namespace Machine

/-- **Every run of the machine ends**, and gives what the signer's does. -/
theorem gives_run (id : NodeId) (s : Signer) (top : Frame) (below : List Frame) :
    ∀ record : List (NodeId × Act), ∃ n : Nat,
      ((Turn.next ⟨s, top :: below, record⟩).after tree shapes id n).Gives
        (s.run tree shapes top below) := by
  -- each case of the recursion is one turn, and the rest of the run takes the turns after it
  fun_induction run tree shapes s top below with
  | case1 s top below v unread hu e hs =>
    intro record
    refine ⟨1, ?_⟩
    simp [Turn.after, turn, hu, resolve, hs, Turn.Gives]
  | case2 s top below v unread hu slot hs t s' hr ih =>
    intro record
    obtain ⟨n, hn⟩ := ih (record ++ [(top.node, .read v)])
    refine ⟨n + 1, ?_⟩
    simpa [Turn.after, turn, hu, resolve, hs, hr, push] using hn
  | case3 s top below v unread hu slot hs child s' hr e he =>
    intro record
    refine ⟨1, ?_⟩
    simp [Turn.after, turn, hu, resolve, hs, hr, enter, he, Turn.Gives]
  | case4 s top below v unread hu slot hs child s' hr frame s₁ he ih =>
    intro record
    obtain ⟨n, hn⟩ := ih (record ++ [(top.node, .read v)] ++ [(child, .opened)])
    refine ⟨n + 1, ?_⟩
    simpa [Turn.after, turn, hu, resolve, hs, hr, enter, he] using hn
  | case5 s top hu =>
    intro record
    refine ⟨1, ?_⟩
    simp only [Turn.after, turn, hu, close, List.isEmpty_nil, if_true]
    exact ⟨rfl, rfl⟩
  | case6 s top hu signature s₁ next below n s' hk ih =>
    intro record
    obtain ⟨k, hn⟩ := ih (record ++ [(top.node, .closed)])
    refine ⟨k + 1, ?_⟩
    have hkey : (s.close top).key (.content top.signature) = (n, s') := hk
    simpa [Turn.after, turn, hu, close, hkey, push] using hn

/-- **Every call ends**, and gives what the signer gives. -/
theorem gives_call (tree : Tree) (shapes : ShapeRegistry) {m : Machine} (hm : m.stack = []) (id : NodeId) :
    ∃ n, ((m.call tree shapes id).after tree shapes id n).Gives (m.signer.sign tree shapes id) := by
  unfold call sign
  cases hmark : m.signer.marks[id]? with
  | some mark =>
    refine ⟨0, ?_⟩
    rw [Turn.after_zero]
    cases mark with
    | signed σ => exact ⟨rfl, hm⟩
    | underway => exact ⟨rfl, hm⟩
  | none =>
    simp only [enter]
    cases he : m.signer.enter tree shapes id with
    | error e => exact ⟨0, rfl⟩
    | ok entered =>
      obtain ⟨frame, s⟩ := entered
      exact gives_run id s frame [] _

/-- A call that returns returns what the signer gives. -/
theorem sign_eq_of_returned {m m' : Machine} (hm : m.stack = []) {n : Nat} {σ : Signature}
    (h : (m.call tree shapes id).after tree shapes id n = .returned σ m') :
    m.signer.sign tree shapes id = .ok (σ, m'.signer) ∧ m'.stack = [] := by
  obtain ⟨k, hk⟩ := gives_call tree shapes hm id
  have hgives := hk
  rw [hk.eq_returned h] at hgives
  exact hgives

/-- **Calls one after the other** give what the signer gives. -/
theorem Calls.signAll_eq {m m' : Machine} {ids : List NodeId} {σs : List Signature}
    (h : Calls tree shapes m ids σs m') (hm : m.stack = []) :
    m.signer.signAll tree shapes ids = .ok (σs, m'.signer) ∧ m'.stack = [] := by
  induction h with
  | nil m => exact ⟨rfl, hm⟩
  | cons hcall _ ih =>
    obtain ⟨hsign, hstack⟩ := sign_eq_of_returned hm hcall
    obtain ⟨hrest, hlast⟩ := ih hstack
    refine ⟨?_, hlast⟩
    simp only [signAll, hsign, hrest, Except.map]

end Machine

end PackedTree.Signer
