/-
# Discovery

The discovery visits every node that the root reaches, once, and fills a catalog.  A visit
registers the shape of an object, interns the node's texts and child nodes from left to right,
and interns the node itself last.  Children met for the first time are visited next, before
anything that was waiting.

A node that is waiting or was visited is already interned, the root apart, so the tables tell
which nodes are new.  What was met is the set that a walk could keep beside them: the root is in it
from the start (`met_start`), the node of a child value enters it (`met_meet`) and waits if it was
not in it (`fresh_meet`).

* `Walk.unmet_visit`: a visit turns unmet nodes into waiting ones, one for one.
* `Walk.run` ends because every step uses up one of the nodes that are unmet or waiting.
-/
import PackedTree.Catalog
import PackedTree.Config
import PackedTree.Counting
import PackedTree.Pass
import PackedTree.Slot

namespace PackedTree

/-- A discovery on its way. -/
structure Walk where
  catalog : Catalog
  /-- The root, which is met before it is interned. -/
  root : NodeId
  /-- The nodes to visit, the next one first. -/
  waiting : List NodeId
  /-- The nodes visited so far, in order. -/
  visited : Array NodeId := #[]

namespace Walk

/-! ## 1. Nodes that were met -/

/-- Whether a node is the root or has an identity. -/
def met (w : Walk) (id : NodeId) : Bool :=
  id == w.root || w.catalog.objects.contains id || w.catalog.arrays.contains id

/-- The number of nodes not met yet. -/
def unmet (w : Walk) : Nat :=
  (List.range w.catalog.tree.size).countP fun i => !w.met ⟨i⟩

def internText (w : Walk) (s : String) : Walk :=
  { w with catalog := { w.catalog with strings := (w.catalog.strings.add s).2 } }

def internObject (w : Walk) (id : NodeId) : Walk :=
  { w with catalog := { w.catalog with objects := (w.catalog.objects.add id).2 } }

def internArray (w : Walk) (id : NodeId) : Walk :=
  { w with catalog := { w.catalog with arrays := (w.catalog.arrays.add id).2 } }

def registerShape (w : Walk) (fields : Fields) : Walk :=
  { w with catalog := { w.catalog with shapes := (w.catalog.shapes.register fields).2 } }

/-! ## 2. A visit -/

/-- Interns a child value.  `fresh` holds the nodes first met during this visit, the last one
first. -/
def meet (w : Walk) (fresh : List NodeId) : Slot String NodeId → Walk × List NodeId
  | .text s => (w.internText s, fresh)
  | .object id =>
    let isNew := !w.met id
    (w.internObject id, if isNew then id :: fresh else fresh)
  | .array id =>
    let isNew := !w.met id
    (w.internArray id, if isNew then id :: fresh else fresh)
  | .int32 _ | .float64 _ | .bool _ | .null => (w, fresh)

/-- Interns child values from left to right, up to the first that has no slot. -/
def meetAll (w : Walk) (fresh : List NodeId) :
    List Value → Except EncodeError (Walk × List NodeId)
  | [] => .ok (w, fresh)
  | v :: vs =>
    match Slot.ofValue w.catalog.tree v with
    | .error e => .error e
    | .ok slot =>
      let (w, fresh) := w.meet fresh slot
      w.meetAll fresh vs

/-- **Visits a node.** -/
def visit (w : Walk) (id : NodeId) : Except EncodeError Walk :=
  match w.catalog.tree.node? id with
  | none => .error (.unresolved .node (.node id))
  | some (.object fields) =>
    match (w.registerShape fields).meetAll [] fields.values with
    | .error e => .error e
    | .ok (w, fresh) =>
      let w := w.internObject id
      .ok { w with waiting := fresh.reverse ++ w.waiting, visited := w.visited.push id }
  | some (.array items) =>
    match w.meetAll [] items with
    | .error e => .error e
    | .ok (w, fresh) =>
      let w := w.internArray id
      .ok { w with waiting := fresh.reverse ++ w.waiting, visited := w.visited.push id }

/-! ## 3. A visit meets as many nodes as it leaves waiting -/

theorem met_internObject (w : Walk) (id a : NodeId) :
    (w.internObject id).met a = (id == a || w.met a) := by
  simp only [met, internObject, InternTable.contains_add]
  cases a == w.root <;> cases id == a <;> rfl

theorem met_internArray (w : Walk) (id a : NodeId) :
    (w.internArray id).met a = (id == a || w.met a) := by
  simp only [met, internArray, InternTable.contains_add]
  cases a == w.root <;> cases w.catalog.objects.contains a <;> cases id == a <;> rfl

/-- **A child value adds its node to what was met**, and nothing else. -/
theorem met_meet (w : Walk) (fresh : List NodeId) (slot : Slot String NodeId) (a : NodeId) :
    (w.meet fresh slot).1.met a = (slot.node? == some a || w.met a) := by
  cases slot with
  | object id => exact met_internObject w id a
  | array id => exact met_internArray w id a
  | text s | int32 i | float64 x | bool b | null => rfl

/-- A child value's node is fresh if it was not met before. -/
theorem fresh_meet (w : Walk) (fresh : List NodeId) (slot : Slot String NodeId) :
    (w.meet fresh slot).2 = slot.node?.toList.filter (fun id => !w.met id) ++ fresh := by
  cases slot with
  | object id | array id => cases hm : w.met id <;> simp [meet, Slot.node?, hm]
  | text s | int32 i | float64 x | bool b | null => rfl

/-- A walk that has met one node more, in the same tree. -/
theorem unmet_le_of_met {w w' : Walk} {id : NodeId} (ht : w'.catalog.tree = w.catalog.tree)
    (hm : ∀ a, w'.met a = (id == a || w.met a)) : w'.unmet ≤ w.unmet := by
  unfold unmet
  rw [ht]
  apply List.countP_mono_left
  intro i _ h
  rw [hm] at h
  revert h
  cases w.met ⟨i⟩ <;> simp

theorem unmet_lt_of_met {w w' : Walk} {id : NodeId} (ht : w'.catalog.tree = w.catalog.tree)
    (hm : ∀ a, w'.met a = (id == a || w.met a)) (hid : id.index < w.catalog.tree.size)
    (hnew : w.met id = false) : w'.unmet < w.unmet := by
  unfold unmet
  rw [ht]
  apply countP_lt_countP (a := id.index)
  · intro i _ h
    rw [hm] at h
    revert h
    cases w.met ⟨i⟩ <;> simp
  · exact List.mem_range.mpr hid
  · simpa using hnew
  · simp [hm]

/-- What a step of a visit leaves alone. -/
structure Keeps (w w' : Walk) : Prop where
  tree : w'.catalog.tree = w.catalog.tree
  waiting : w'.waiting = w.waiting

theorem index_lt_of_node? {tree : Tree} {id : NodeId} {node : Node}
    (h : tree.node? id = some node) : id.index < tree.size :=
  (Array.getElem?_eq_some_iff.mp h).1

/-- A child value makes a node wait for each node that it meets. -/
theorem meet_measure {w : Walk} (fresh : List NodeId) {v : Value} {slot : Slot String NodeId}
    (hs : Slot.ofValue w.catalog.tree v = .ok slot) : Keeps w (w.meet fresh slot).1 ∧
      (w.meet fresh slot).1.unmet + (w.meet fresh slot).2.length ≤ w.unmet + fresh.length := by
  have hkeeps : Keeps w (w.meet fresh slot).1 := by cases slot <;> exact ⟨rfl, rfl⟩
  have hmet := w.met_meet fresh slot
  refine ⟨hkeeps, ?_⟩
  rw [w.fresh_meet fresh slot, List.length_append]
  cases hid : slot.node? with
  | none =>
    rw [hid] at hmet
    have hmet (a : NodeId) : (w.meet fresh slot).1.met a = w.met a := hmet a
    have hsame : (w.meet fresh slot).1.unmet = w.unmet := by
      unfold unmet
      rw [hkeeps.tree, funext hmet]
    simp [hsame]
  | some id =>
    rw [hid] at hmet
    have hmet (a : NodeId) : (w.meet fresh slot).1.met a = (id == a || w.met a) := hmet a
    rw [Option.toList_some]
    by_cases hold : w.met id = true
    · have hle := unmet_le_of_met hkeeps.tree hmet
      rw [List.filter_cons_of_neg (by simp [hold]), List.filter_nil, List.length_nil]
      omega
    · have hnew : w.met id = false := by simpa using hold
      obtain ⟨-, node, hn⟩ := Slot.exists_of_node?_ofValue hs hid
      have hlt := unmet_lt_of_met hkeeps.tree hmet (index_lt_of_node? hn) hnew
      rw [List.filter_cons_of_pos (by simp [hnew]), List.filter_nil, List.length_singleton]
      omega

theorem meetAll_measure : ∀ {vs : List Value} {w w' : Walk} {fresh fresh' : List NodeId},
    w.meetAll fresh vs = .ok (w', fresh') →
      Keeps w w' ∧ w'.unmet + fresh'.length ≤ w.unmet + fresh.length
  | [], w, w', fresh, fresh', h => by
    simp only [meetAll, Except.ok.injEq, Prod.mk.injEq] at h
    obtain ⟨rfl, rfl⟩ := h
    exact ⟨⟨rfl, rfl⟩, Nat.le_refl _⟩
  | v :: vs, w, w', fresh, fresh', h => by
    unfold meetAll at h
    split at h
    · simp at h
    · rename_i slot hs
      have h1 := meet_measure fresh hs
      have h2 := meetAll_measure h
      exact ⟨⟨h2.1.tree.trans h1.1.tree, h2.1.waiting.trans h1.1.waiting⟩,
        Nat.le_trans h2.2 h1.2⟩

/-- **A visit turns unmet nodes into waiting ones**, one for one. -/
theorem unmet_visit {w w' : Walk} {id : NodeId} (h : w.visit id = .ok w') :
    w'.unmet + w'.waiting.length ≤ w.unmet + w.waiting.length := by
  unfold visit at h
  split at h
  · simp at h
  · rename_i fields _
    split at h
    · simp at h
    · rename_i w₁ fresh hm
      simp only [Except.ok.injEq] at h
      subst h
      obtain ⟨hk, hle⟩ := meetAll_measure hm
      have h1 : (w₁.internObject id).unmet ≤ w₁.unmet :=
        unmet_le_of_met rfl (met_internObject w₁ id)
      have h2 : (w.registerShape fields).unmet = w.unmet := rfl
      have h3 : w₁.waiting = w.waiting := hk.waiting
      simp only [List.length_append, List.length_reverse, List.length_nil] at hle ⊢
      show (w₁.internObject id).unmet + (fresh.length + w₁.waiting.length) ≤ _
      rw [h3]
      omega
  · split at h
    · simp at h
    · rename_i w₁ fresh hm
      simp only [Except.ok.injEq] at h
      subst h
      obtain ⟨hk, hle⟩ := meetAll_measure hm
      have h1 : (w₁.internArray id).unmet ≤ w₁.unmet :=
        unmet_le_of_met rfl (met_internArray w₁ id)
      have h3 : w₁.waiting = w.waiting := hk.waiting
      simp only [List.length_append, List.length_reverse, List.length_nil] at hle ⊢
      show (w₁.internArray id).unmet + (fresh.length + w₁.waiting.length) ≤ _
      rw [h3]
      omega

/-! ## 4. The whole walk -/

/-- A walk that met a value without a slot, after so many visits. -/
structure Stopped where
  visits : Nat
  cause : EncodeError

/-- **Visits everything that waits**, until nothing does or a visit fails. -/
def run (w : Walk) : Except Stopped Walk :=
  match _hw : w.waiting with
  | [] => .ok w
  | id :: rest =>
    let visits := w.visited.size
    match _hv : visit { w with waiting := rest } id with
    | .error cause => .error ⟨visits, cause⟩
    | .ok w' => w'.run
termination_by w.unmet + w.waiting.length
decreasing_by
  have h := unmet_visit _hv
  have h2 : ({ w with waiting := rest } : Walk).unmet = w.unmet := rfl
  rw [_hw, List.length_cons]
  simp only [h2] at h
  omega

/-- The walk before its first visit. -/
def start (tree : Tree) (root : NodeId) : Walk :=
  { catalog := { tree }, root, waiting := [root] }

/-- Before the first visit the root alone was met. -/
theorem met_start (tree : Tree) (root a : NodeId) : (start tree root).met a = (a == root) := by
  simp [met, start, InternTable.contains, InternTable.getId?, InternTable.empty]

end Walk

/-! ## 5. The discovery as a pass -/

namespace Catalog

/-- The object node at the root of a tree. -/
def rootObject (tree : Tree) : Except EncodeError NodeId :=
  match tree.root with
  | none => .error (.invalidRoot "nothing")
  | some root =>
    match Slot.ofValue tree root with
    | .error e => .error e
    | .ok (.object id) => .ok id
    | .ok slot => .error (.invalidRoot slot.tag.name)

/-- Reports the progress of so many visits. -/
def reportVisits (config : Config) (visits : Nat) : Pass Unit :=
  if config.progressInterval = 0 then pure ()
  else (List.range (visits / config.progressInterval)).forM fun i =>
    Pass.report (.scanned ((i + 1) * config.progressInterval))

/-- **Discovers a tree**: the catalog of what its root reaches. -/
def discover (tree : Tree) (config : Config) : Pass Catalog := do
  let root ← Pass.ofExcept (rootObject tree)
  match (Walk.start tree root).run with
  | .error stopped =>
    reportVisits config stopped.visits
    throw stopped.cause
  | .ok walk =>
    let visits := walk.visited.size
    reportVisits config visits
    let c := { walk.catalog with root := walk.catalog.objects.getId? root }
    Pass.count fun stats =>
      { stats with
        nodesVisited := visits
        strings := c.strings.count
        shapes := c.shapes.size
        objectsDiscovered := c.objects.count
        arrays := c.arrays.count }
    Pass.report
      (.discovered visits c.strings.count c.shapes.size c.objects.count c.arrays.count)
    return c

end Catalog

end PackedTree
