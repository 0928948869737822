/-
# What a discovery finds

The discovery fills the tables with exactly what the root reaches, and fails exactly if something
reached has no encoding.

The invariant of the walk (`Walk.Consistent`) has two sides.  Whatever is in the tables or waits is
reached from the root, and whatever was met is visited, waits, or was met during the visit under
way.  A visited node is **entered**: its values, the node itself and its shape are in the tables.
When nothing waits any more, the visited nodes are closed under references.

* `Walk.run_spec`: the invariant along a whole run.
* `Catalog.Lists`: the tables hold what is reachable and nothing else.
* `Catalog.lists_of_discovered`, `Catalog.exists_discovered_iff`: what a discovery gives, and when.
-/
import PackedTree.Catalog.Discovery
import PackedTree.Proofs.Content
import PackedTree.Proofs.InternTable
import PackedTree.Proofs.Pass
import PackedTree.Proofs.Signature

namespace PackedTree

theorem InternTable.contains_add_iff {K : Type} [DecidableEq K] [Hashable K]
    (table : InternTable K) {value k : K} :
    (table.add value).2.contains k = true ↔ k = value ∨ table.contains k = true := by
  rw [contains_add, Bool.or_eq_true, beq_iff_eq, eq_comm]

namespace Catalog

variable {tree : Tree} {c c' : Catalog}

/-! ## 1. What is in the tables -/

/-- The text or node of a slot is in its table. -/
def Holds (c : Catalog) : Slot String NodeId → Prop
  | .text s => c.strings.contains s = true
  | .object id => c.objects.contains id = true
  | .array id => c.arrays.contains id = true
  | .int32 _ | .float64 _ | .bool _ | .null => True

/-- The tables of a later catalog hold all that they held before. -/
structure Grows (c c' : Catalog) : Prop where
  strings : ∀ s, c.strings.contains s = true → c'.strings.contains s = true
  objects : ∀ id, c.objects.contains id = true → c'.objects.contains id = true
  arrays : ∀ id, c.arrays.contains id = true → c'.arrays.contains id = true
  shapes : ∀ shape ∈ c.shapes.shapes, shape ∈ c'.shapes.shapes

theorem Grows.refl (c : Catalog) : c.Grows c :=
  ⟨fun _ => id, fun _ => id, fun _ => id, fun _ => id⟩

theorem Grows.trans {c'' : Catalog} (h : c.Grows c') (h' : c'.Grows c'') : c.Grows c'' :=
  ⟨fun s hs => h'.strings s (h.strings s hs), fun id hid => h'.objects id (h.objects id hid),
    fun id hid => h'.arrays id (h.arrays id hid), fun s hs => h'.shapes s (h.shapes s hs)⟩

theorem Holds.mono (h : c.Grows c') {slot : Slot String NodeId} (hs : c.Holds slot) :
    c'.Holds slot := by
  cases slot with
  | text s => exact h.strings s hs
  | object id => exact h.objects id hs
  | array id => exact h.arrays id hs
  | int32 _ | float64 _ | bool _ | null => trivial

/-- A node itself, and the shape it has if it is an object, are in the tables. -/
def HoldsNode (c : Catalog) (id : NodeId) : Node → Prop
  | .object fields => c.objects.contains id = true ∧ Shape.ofFields fields ∈ c.shapes.shapes
  | .array _ => c.arrays.contains id = true

/-- **All that a visit enters for a node** is in the tables. -/
structure Entered (tree : Tree) (c : Catalog) (id : NodeId) : Prop where
  node : ∃ node, tree.node? id = some node ∧ c.HoldsNode id node
  values : ∀ v ∈ tree.children id, ∃ slot, Slot.ofValue tree v = .ok slot ∧ c.Holds slot

theorem Entered.mono (h : c.Grows c') {id : NodeId} (he : Entered tree c id) :
    Entered tree c' id where
  node := by
    obtain ⟨node, hn, hc⟩ := he.node
    refine ⟨node, hn, ?_⟩
    cases node with
    | object fields => exact ⟨h.objects id hc.1, h.shapes _ hc.2⟩
    | array items => exact h.arrays id hc
  values := fun v hv => by
    obtain ⟨slot, hs, hc⟩ := he.values v hv
    exact ⟨slot, hs, hc.mono h⟩

theorem Entered.encodable {id : NodeId} (h : Entered tree c id) : tree.Encodable id := by
  obtain ⟨node, hn, -⟩ := h.node
  refine ⟨by rw [hn]; rfl, ?_⟩
  intro v hv
  obtain ⟨slot, hs, -⟩ := h.values v hv
  exact ⟨slot, hs⟩

/-- **The tables hold nothing but what the root reaches**, once each and not redirected. -/
structure Sound (tree : Tree) (c : Catalog) : Prop where
  tree_eq : c.tree = tree
  strings : ∀ s, c.strings.contains s = true →
    ∃ id, tree.Reachable id ∧ .text s ∈ tree.children id
  objects : ∀ id, c.objects.contains id = true → tree.Reachable id ∧ tree.IsObject id
  arrays : ∀ id, c.arrays.contains id = true → tree.Reachable id ∧ tree.IsArray id
  shapes : ∀ shape ∈ c.shapes.shapes, ∃ id fields, tree.Reachable id ∧
    tree.node? id = some (.object fields) ∧ shape = .ofFields fields
  distinct : c.shapes.Distinct
  strings_fresh : c.strings.Fresh
  objects_fresh : c.objects.Fresh
  arrays_fresh : c.arrays.Fresh

end Catalog

namespace Walk

variable {tree : Tree} {w w' : Walk} {id : NodeId}

/-! ## 2. Interning one thing -/

open Catalog (Sound Grows Entered)

theorem sound_internText (h : Sound tree w.catalog) {s : String} (hid : tree.Reachable id)
    (hs : .text s ∈ tree.children id) : Sound tree (w.internText s).catalog :=
  { h with
    strings := fun t ht => by
      rcases (InternTable.contains_add_iff _).mp ht with rfl | ht
      · exact ⟨id, hid, hs⟩
      · exact h.strings t ht
    strings_fresh := h.strings_fresh.add s }

theorem sound_internObject (h : Sound tree w.catalog) (hid : tree.Reachable id)
    (hobj : tree.IsObject id) : Sound tree (w.internObject id).catalog :=
  { h with
    objects := fun a ha => by
      rcases (InternTable.contains_add_iff _).mp ha with rfl | ha
      · exact ⟨hid, hobj⟩
      · exact h.objects a ha
    objects_fresh := h.objects_fresh.add id }

theorem sound_internArray (h : Sound tree w.catalog) (hid : tree.Reachable id)
    (harr : tree.IsArray id) : Sound tree (w.internArray id).catalog :=
  { h with
    arrays := fun a ha => by
      rcases (InternTable.contains_add_iff _).mp ha with rfl | ha
      · exact ⟨hid, harr⟩
      · exact h.arrays a ha
    arrays_fresh := h.arrays_fresh.add id }

theorem sound_registerShape (h : Sound tree w.catalog) {fields : Fields}
    (hid : tree.Reachable id) (hn : tree.node? id = some (.object fields)) :
    Sound tree (w.registerShape fields).catalog :=
  { h with
    shapes := fun shape hs => by
      rcases ShapeRegistry.mem_shapes_register.mp hs with hs | rfl
      · exact h.shapes shape hs
      · exact ⟨id, fields, hid, hn, rfl⟩
    distinct := h.distinct.register fields }

theorem grows_internText (w : Walk) (s : String) : w.catalog.Grows (w.internText s).catalog :=
  { Grows.refl _ with strings := fun _ ht => (InternTable.contains_add_iff _).mpr (.inr ht) }

theorem grows_internObject (w : Walk) (id : NodeId) :
    w.catalog.Grows (w.internObject id).catalog :=
  { Grows.refl _ with objects := fun _ ha => (InternTable.contains_add_iff _).mpr (.inr ha) }

theorem grows_internArray (w : Walk) (id : NodeId) :
    w.catalog.Grows (w.internArray id).catalog :=
  { Grows.refl _ with arrays := fun _ ha => (InternTable.contains_add_iff _).mpr (.inr ha) }

theorem grows_registerShape (w : Walk) (fields : Fields) :
    w.catalog.Grows (w.registerShape fields).catalog :=
  { Grows.refl _ with
    shapes := fun _ hs => ShapeRegistry.mem_shapes_register.mpr (.inl hs) }

/-! ## 3. The invariant of the walk -/

/-- **The invariant of the walk.**  `ahead` holds the nodes of the visit under way: those it met
first, and the visited node itself. -/
structure Consistent (tree : Tree) (w : Walk) (ahead : List NodeId) : Prop where
  sound : Sound tree w.catalog
  met : ∀ id, w.met id = true → id ∈ w.visited ∨ id ∈ w.waiting ∨ id ∈ ahead
  waiting : ∀ id ∈ w.waiting, tree.Reachable id
  ahead : ∀ id ∈ ahead, tree.Reachable id
  visited : ∀ id ∈ w.visited, Entered tree w.catalog id

/-- What a step of a visit keeps: it only adds to the tables. -/
structure Advances (w w' : Walk) : Prop where
  root : w'.root = w.root
  waiting : w'.waiting = w.waiting
  visited : w'.visited = w.visited
  grows : w.catalog.Grows w'.catalog

theorem Advances.trans {w'' : Walk} (h : w.Advances w') (h' : w'.Advances w'') :
    w.Advances w'' :=
  ⟨h'.root.trans h.root, h'.waiting.trans h.waiting, h'.visited.trans h.visited,
    h.grows.trans h'.grows⟩

/-- A step keeps the invariant if what it adds is reachable, and listed as ahead if new. -/
theorem Consistent.advance {ahead : List NodeId} (h : Consistent tree w ahead)
    (more : List NodeId) (ha : w.Advances w') (hsound : Sound tree w'.catalog)
    (hmore : ∀ a ∈ more, tree.Reachable a)
    (hmet : ∀ a, w'.met a = true → w.met a = true ∨ a ∈ more ++ ahead) :
    Consistent tree w' (more ++ ahead) where
  sound := hsound
  met := fun a hm => by
    rw [ha.visited, ha.waiting]
    rcases hmet a hm with hm | hm
    · exact (h.met a hm).imp_right (.imp_right (List.mem_append_right more))
    · exact .inr (.inr hm)
  waiting := by
    rw [ha.waiting]
    exact h.waiting
  ahead := fun a hm => (List.mem_append.mp hm).elim (hmore a) (h.ahead a)
  visited := fun a hv => by
    rw [ha.visited] at hv
    exact (h.visited a hv).mono ha.grows

/-- A child node is ahead if it was not met before. -/
theorem Consistent.meetNode {fresh ahead : List NodeId} (h : Consistent tree w (fresh ++ ahead))
    (hid : tree.Reachable id) {child : NodeId} (hv : .node child ∈ tree.children id)
    (ha : w.Advances w') (hsound : Sound tree w'.catalog)
    (hmet : ∀ a, w'.met a = (child == a || w.met a)) :
    Consistent tree w' ((if !w.met child then child :: fresh else fresh) ++ ahead) := by
  by_cases hm : w.met child = true
  · simp only [hm, Bool.not_true, Bool.false_eq_true, if_false]
    refine h.advance [] ha hsound (fun _ h => absurd h List.not_mem_nil) ?_
    intro a hma
    rw [hmet, Bool.or_eq_true, beq_iff_eq] at hma
    rcases hma with rfl | hma
    · exact .inl hm
    · exact .inl hma
  · simp only [hm, Bool.not_false, if_true]
    refine h.advance [child] ha hsound ?_ ?_
    · intro a hma
      rw [List.mem_singleton.mp hma]
      exact hid.tail hv
    · intro a hma
      rw [hmet, Bool.or_eq_true, beq_iff_eq] at hma
      rcases hma with rfl | hma
      · exact .inr List.mem_cons_self
      · exact .inl hma

/-- **A child value is interned**, and a node met first is ahead. -/
theorem Consistent.meet {fresh ahead : List NodeId} (h : Consistent tree w (fresh ++ ahead))
    (hid : tree.Reachable id) {v : Value} (hv : v ∈ tree.children id)
    {slot : Slot String NodeId} (hs : Slot.ofValue tree v = .ok slot) :
    Consistent tree (w.meet fresh slot).1 ((w.meet fresh slot).2 ++ ahead) ∧
      w.Advances (w.meet fresh slot).1 ∧ (w.meet fresh slot).1.catalog.Holds slot := by
  have hsame (slot : Slot String NodeId) (he : w.meet fresh slot = (w, fresh))
      (hh : w.catalog.Holds slot) :
      Consistent tree (w.meet fresh slot).1 ((w.meet fresh slot).2 ++ ahead) ∧
        w.Advances (w.meet fresh slot).1 ∧ (w.meet fresh slot).1.catalog.Holds slot := by
    rw [he]
    exact ⟨h, ⟨rfl, rfl, rfl, .refl _⟩, hh⟩
  rcases Slot.ofValue_eq_ok_iff.mp hs with ⟨c, hc, rfl⟩ | ⟨child, fields, rfl, hn, rfl⟩ |
    ⟨child, items, rfl, hn, rfl⟩
  · cases c with
    | text s =>
      obtain rfl := Value.eq_text_of_scalar? hc
      have ha : w.Advances (w.internText s) := ⟨rfl, rfl, rfl, grows_internText w s⟩
      refine ⟨h.advance [] ha (sound_internText h.sound hid hv)
        (fun _ h => absurd h List.not_mem_nil) fun a hm => .inl hm, ha, ?_⟩
      exact (InternTable.contains_add_iff _).mpr (.inl rfl)
    | int32 _ | float64 _ | bool _ | null => exact hsame _ rfl trivial
  · have ha : w.Advances (w.internObject child) := ⟨rfl, rfl, rfl, grows_internObject w child⟩
    have hsound := sound_internObject h.sound (hid.tail hv) ⟨fields, hn⟩
    refine ⟨h.meetNode hid hv ha hsound (met_internObject w child), ha, ?_⟩
    exact (InternTable.contains_add_iff _).mpr (.inl rfl)
  · have ha : w.Advances (w.internArray child) := ⟨rfl, rfl, rfl, grows_internArray w child⟩
    have hsound := sound_internArray h.sound (hid.tail hv) ⟨items, hn⟩
    refine ⟨h.meetNode hid hv ha hsound (met_internArray w child), ha, ?_⟩
    exact (InternTable.contains_add_iff _).mpr (.inl rfl)

/-- **The values of a node are interned**, or one of them has no slot. -/
theorem Consistent.meetAll {ahead : List NodeId} (hid : tree.Reachable id) :
    ∀ {vs : List Value} {w : Walk} {fresh : List NodeId}, Consistent tree w (fresh ++ ahead) →
      (∀ v ∈ vs, v ∈ tree.children id) →
      (∃ w' fresh', w.meetAll fresh vs = .ok (w', fresh') ∧
        Consistent tree w' (fresh' ++ ahead) ∧ w.Advances w' ∧
        ∀ v ∈ vs, ∃ slot, Slot.ofValue tree v = .ok slot ∧ w'.catalog.Holds slot) ∨
      (∃ e, w.meetAll fresh vs = .error e ∧
        ∃ v ∈ vs, ¬∃ slot, Slot.ofValue tree v = .ok slot)
  | [], w, fresh, h, _ => .inl ⟨w, fresh, rfl, h, ⟨rfl, rfl, rfl, .refl _⟩, by simp⟩
  | v :: vs, w, fresh, h, hvs => by
    unfold Walk.meetAll
    rw [h.sound.tree_eq]
    cases hs : Slot.ofValue tree v with
    | error e => exact .inr ⟨e, rfl, v, List.mem_cons_self, by simp [hs]⟩
    | ok slot =>
      obtain ⟨h₁, ha₁, hh₁⟩ := h.meet hid (hvs v List.mem_cons_self) hs
      rcases Consistent.meetAll hid h₁ fun v hv => hvs v (List.mem_cons_of_mem _ hv) with
        ⟨w', fresh', he, h', ha', hh'⟩ | ⟨e, he, v', hv', hno⟩
      · refine .inl ⟨w', fresh', he, h', ha₁.trans ha', ?_⟩
        intro x hx
        rcases List.mem_cons.mp hx with rfl | hx
        · exact ⟨slot, hs, hh₁.mono ha'.grows⟩
        · exact hh' x hx
      · exact .inr ⟨e, he, v', List.mem_cons_of_mem _ hv', hno⟩

/-- The end of a visit: the node is interned, and what it met first is next to visit. -/
theorem Consistent.leave {fresh : List NodeId} (h : Consistent tree w (fresh ++ [id]))
    (ha : w.Advances w') (hsound : Sound tree w'.catalog)
    (hmet : ∀ a, w'.met a = (id == a || w.met a)) (he : Entered tree w'.catalog id) :
    Consistent tree
      { w' with waiting := fresh.reverse ++ w'.waiting, visited := w'.visited.push id } [] := by
  have h' : Consistent tree w' (fresh ++ [id]) := by
    refine h.advance [] ha hsound (fun _ h => absurd h List.not_mem_nil) ?_
    intro a hm
    rw [hmet, Bool.or_eq_true, beq_iff_eq] at hm
    rcases hm with rfl | hm
    · exact .inr (List.mem_append_right fresh List.mem_cons_self)
    · exact .inl hm
  refine ⟨hsound, ?_, ?_, fun a hm => absurd hm List.not_mem_nil, ?_⟩
  · intro a hm
    simp only [Array.mem_push, List.mem_append, List.mem_reverse]
    rcases h'.met a hm with hm | hm | hm
    · exact .inl (.inl hm)
    · exact .inr (.inl (.inr hm))
    · rcases List.mem_append.mp hm with hm | hm
      · exact .inr (.inl (.inl hm))
      · exact .inl (.inr (List.mem_singleton.mp hm))
  · intro a hm
    rcases List.mem_append.mp hm with hm | hm
    · exact h'.ahead a (List.mem_append_left _ (List.mem_reverse.mp hm))
    · exact h'.waiting a hm
  · intro a hm
    rcases Array.mem_push.mp hm with hm | rfl
    · exact h'.visited a hm
    · exact he

/-- **A visit** keeps the invariant, or its node has no encoding. -/
theorem Consistent.visit (h : Consistent tree w [id]) :
    (∃ w', w.visit id = .ok w' ∧ Consistent tree w' [] ∧ w'.root = w.root) ∨
      (∃ e, w.visit id = .error e ∧ ¬tree.Encodable id) := by
  have hid : tree.Reachable id := h.ahead id (List.mem_singleton.mpr rfl)
  unfold Walk.visit
  rw [h.sound.tree_eq]
  cases hn : tree.node? id with
  | none => exact .inr ⟨_, rfl, fun henc => by simp [Tree.Encodable, hn] at henc⟩
  | some node =>
    have hchildren := Tree.children_of_node? hn
    have hvs : ∀ v ∈ node.values, v ∈ tree.children id := by
      intro v hv
      rw [hchildren]
      exact hv
    -- what the tables hold after the values is still there once the node itself is interned
    have hheld {w₁ w₂ : Walk} (hgrows : w₁.catalog.Grows w₂.catalog)
        (hh : ∀ v ∈ node.values, ∃ slot, Slot.ofValue tree v = .ok slot ∧ w₁.catalog.Holds slot) :
        ∀ v ∈ tree.children id, ∃ slot, Slot.ofValue tree v = .ok slot ∧
          w₂.catalog.Holds slot := by
      intro v hv
      rw [hchildren] at hv
      obtain ⟨slot, hs, hslot⟩ := hh v hv
      exact ⟨slot, hs, hslot.mono hgrows⟩
    cases node with
    | object fields =>
      have ha : w.Advances (w.registerShape fields) :=
        ⟨rfl, rfl, rfl, grows_registerShape w fields⟩
      have h₀ : Consistent tree (w.registerShape fields) ([] ++ [id]) :=
        h.advance [] ha (sound_registerShape h.sound hid hn)
          (fun _ h => absurd h List.not_mem_nil) fun a hm => .inl hm
      rcases h₀.meetAll hid hvs with ⟨w₁, fresh, he, h₁, ha₁, hh₁⟩ | ⟨e, he, v, hv, hno⟩
      · left
        have ha₂ : w₁.Advances (w₁.internObject id) := ⟨rfl, rfl, rfl, grows_internObject w₁ id⟩
        have hshape : Shape.ofFields fields ∈ (w.registerShape fields).catalog.shapes.shapes :=
          ShapeRegistry.mem_shapes_register.mpr (.inr rfl)
        have hentered : Entered tree (w₁.internObject id).catalog id :=
          ⟨⟨_, hn, (InternTable.contains_add_iff _).mpr (.inl rfl),
            ha₁.grows.shapes _ hshape⟩, hheld ha₂.grows hh₁⟩
        simp only [Node.values] at he
        simp only [he]
        exact ⟨_, rfl, h₁.leave ha₂ (sound_internObject h₁.sound hid ⟨fields, hn⟩)
          (met_internObject w₁ id) hentered, ha₁.root⟩
      · right
        simp only [Node.values] at he
        simp only [he]
        exact ⟨e, rfl, fun henc => hno (henc.2 v (hvs v hv))⟩
    | array items =>
      have h₀ : Consistent tree w ([] ++ [id]) := h
      rcases h₀.meetAll hid hvs with ⟨w₁, fresh, he, h₁, ha₁, hh₁⟩ | ⟨e, he, v, hv, hno⟩
      · left
        have ha₂ : w₁.Advances (w₁.internArray id) := ⟨rfl, rfl, rfl, grows_internArray w₁ id⟩
        have hentered : Entered tree (w₁.internArray id).catalog id :=
          ⟨⟨_, hn, (InternTable.contains_add_iff _).mpr (.inl rfl)⟩, hheld ha₂.grows hh₁⟩
        simp only [Node.values] at he
        simp only [he]
        exact ⟨_, rfl, h₁.leave ha₂ (sound_internArray h₁.sound hid ⟨items, hn⟩)
          (met_internArray w₁ id) hentered, ha₁.root⟩
      · right
        simp only [Node.values] at he
        simp only [he]
        exact ⟨e, rfl, fun henc => hno (henc.2 v (hvs v hv))⟩

/-! ## 4. Whole walks -/

theorem run_of_waiting_nil {w : Walk} (h : w.waiting = []) : w.run = .ok w := by
  rw [Walk.run]
  split
  · rfl
  · rename_i hw
    rw [h] at hw
    cases hw

theorem run_of_visit {w w₁ : Walk} {a : NodeId} {rest : List NodeId}
    (h : w.waiting = a :: rest) (hv : ({ w with waiting := rest } : Walk).visit a = .ok w₁) :
    w.run = w₁.run := by
  rw [Walk.run]
  split
  · rename_i hw
    rw [h] at hw
    cases hw
  · rename_i b rest' hw
    rw [h] at hw
    obtain ⟨rfl, rfl⟩ := List.cons.inj hw
    split
    · rename_i hv'
      rw [hv] at hv'
      cases hv'
    · rename_i w₂ hv'
      rw [hv, Except.ok.injEq] at hv'
      rw [hv']

theorem run_of_visit_error {w : Walk} {a : NodeId} {rest : List NodeId} {e : EncodeError}
    (h : w.waiting = a :: rest) (hv : ({ w with waiting := rest } : Walk).visit a = .error e) :
    w.run = .error ⟨w.visited.size, e⟩ := by
  rw [Walk.run]
  split
  · rename_i hw
    rw [h] at hw
    cases hw
  · rename_i b rest' hw
    rw [h] at hw
    obtain ⟨rfl, rfl⟩ := List.cons.inj hw
    split
    · rename_i cause hv'
      rw [hv, Except.error.injEq] at hv'
      rw [hv']
    · rename_i w₂ hv'
      rw [hv] at hv'
      cases hv'

/-- The next node to visit is taken off. -/
theorem Consistent.take {rest : List NodeId} (h : Consistent tree w [])
    (hw : w.waiting = id :: rest) : Consistent tree { w with waiting := rest } [id] where
  sound := h.sound
  met := fun a hm => by
    rcases h.met a hm with hm | hm | hm
    · exact .inl hm
    · rw [hw] at hm
      rcases List.mem_cons.mp hm with rfl | hm
      · exact .inr (.inr List.mem_cons_self)
      · exact .inr (.inl hm)
    · exact absurd hm List.not_mem_nil
  waiting := fun a hm => h.waiting a (hw ▸ List.mem_cons_of_mem _ hm)
  ahead := fun a hm => by
    rw [List.mem_singleton.mp hm]
    exact h.waiting id (hw ▸ List.mem_cons_self)
  visited := h.visited

/-- **A run** keeps the invariant until nothing waits, or meets a node without an encoding. -/
theorem run_spec (w : Walk) : Consistent tree w [] →
    (∃ w', w.run = .ok w' ∧ Consistent tree w' [] ∧ w'.waiting = [] ∧ w'.root = w.root) ∨
      (∃ stopped, w.run = .error stopped ∧ ∃ id, tree.Reachable id ∧ ¬tree.Encodable id) := by
  fun_induction run w with
  | case1 w hw =>
    intro h
    exact .inl ⟨w, rfl, h, hw, rfl⟩
  | case2 w id rest hw visits e hv =>
    intro h
    rcases (h.take hw).visit with ⟨w', hv', -, -⟩ | ⟨e', -, hno⟩
    · simp [hv] at hv'
    · exact .inr ⟨_, rfl, id, (h.take hw).ahead id List.mem_cons_self, hno⟩
  | case3 w id rest hw w₁ hv ih =>
    intro h
    rcases (h.take hw).visit with ⟨w', hv', h', hroot⟩ | ⟨e', hv', -⟩
    · rw [hv, Except.ok.injEq] at hv'
      subst hv'
      rcases ih h' with ⟨w₂, hr, h₂, hw₂, hroot₂⟩ | hstop
      · exact .inl ⟨w₂, hr, h₂, hw₂, hroot₂.trans hroot⟩
      · exact .inr hstop
    · simp [hv] at hv'

theorem consistent_start {root : NodeId} (hr : tree.root = some (.node root)) :
    Consistent tree (start tree root) [] where
  sound :=
    { tree_eq := rfl
      strings := by simp [start, InternTable.contains, InternTable.getId?, InternTable.empty]
      objects := by simp [start, InternTable.contains, InternTable.getId?, InternTable.empty]
      arrays := by simp [start, InternTable.contains, InternTable.getId?, InternTable.empty]
      shapes := by simp [start]
      distinct := List.nodup_nil
      strings_fresh := InternTable.fresh_empty
      objects_fresh := InternTable.fresh_empty
      arrays_fresh := InternTable.fresh_empty }
  met := fun a hm => by
    simp only [met, start, InternTable.contains, InternTable.getId?, InternTable.empty,
      Std.HashMap.getElem?_empty, Option.isSome_none, Bool.or_false, beq_iff_eq] at hm
    exact .inr (.inl (List.mem_singleton.mpr hm))
  waiting := fun a hm => by
    rw [List.mem_singleton.mp hm]
    exact ⟨root, hr, .refl⟩
  ahead := fun a hm => absurd hm List.not_mem_nil
  visited := fun a hm => by simp [start] at hm

/-- **When nothing waits, everything reachable is entered**: the visited nodes are closed under
references. -/
theorem Consistent.entered (h : Consistent tree w []) (hw : w.waiting = [])
    (hr : tree.root = some (.node w.root)) {id : NodeId} (hid : tree.Reachable id) :
    Entered tree w.catalog id := by
  have hvisited (a : NodeId) (hm : w.met a = true) : a ∈ w.visited := by
    have ha := h.met a hm
    rw [hw] at ha
    simpa using ha
  obtain ⟨root, hr', hreach⟩ := hid
  rw [hr, Option.some.injEq, Value.node.injEq] at hr'
  subst hr'
  refine h.visited id ?_
  induction hreach with
  | refl => exact hvisited _ (by simp [Walk.met])
  | @tail a b _ hab ih =>
    apply hvisited
    obtain ⟨slot, hs, hh⟩ := (h.visited a ih).values _ hab
    rcases Slot.ofValue_eq_ok_iff.mp hs with ⟨c, hc, -⟩ | ⟨child, _, hc, -, rfl⟩ |
      ⟨child, _, hc, -, rfl⟩
    · simp [Value.scalar?] at hc
    all_goals
      obtain rfl := Value.node.inj hc
      simp only [Catalog.Holds] at hh
      simp [Walk.met, hh]

end Walk

/-! ## 5. The discovered catalog -/

namespace Catalog

variable {tree : Tree} {c : Catalog}

/-- **A catalog lists a tree** if its tables hold exactly what the root reaches.  Objects may be
merged, texts and arrays never are. -/
structure Lists (tree : Tree) (c : Catalog) : Prop where
  tree_eq : c.tree = tree
  strings : ∀ s, c.strings.contains s = true ↔
    ∃ id, tree.Reachable id ∧ .text s ∈ tree.children id
  objects : ∀ id, c.objects.contains id = true ↔ tree.Reachable id ∧ tree.IsObject id
  arrays : ∀ id, c.arrays.contains id = true ↔ tree.Reachable id ∧ tree.IsArray id
  shapes : ∀ shape, shape ∈ c.shapes.shapes ↔
    ∃ id fields, tree.Reachable id ∧ tree.node? id = some (.object fields) ∧ shape = .ofFields fields
  distinct : c.shapes.Distinct
  encodable : ∀ id, tree.Reachable id → tree.Encodable id
  strings_fresh : c.strings.Fresh
  arrays_fresh : c.arrays.Fresh
  objects_grounded : c.objects.Grounded
  root : ∃ root, tree.root = some (.node root) ∧ tree.IsObject root ∧
    c.root = c.objects.getId? root

theorem rootObject_eq_ok_iff {root : NodeId} :
    rootObject tree = .ok root ↔ tree.root = some (.node root) ∧ tree.IsObject root := by
  unfold rootObject
  cases hr : tree.root with
  | none => simp
  | some v =>
    constructor
    · intro h
      cases hs : Slot.ofValue tree v with
      | error e => simp [hs] at h
      | ok slot =>
        cases slot with
        | object id =>
          simp only [hs, Except.ok.injEq] at h
          subst h
          rcases Slot.ofValue_eq_ok_iff.mp hs with ⟨c, -, hc⟩ | ⟨id, fields, rfl, hn, hid⟩ |
            ⟨id, items, -, -, hid⟩
          · cases c <;> simp [Scalar.slot] at hc
          · obtain rfl := Slot.object.inj hid
            exact ⟨rfl, fields, hn⟩
          · simp at hid
        | _ => simp [hs] at h
    · rintro ⟨hv, fields, hn⟩
      obtain rfl := Option.some.inj hv
      have hs : Slot.ofValue tree (.node root) = .ok (.object root) :=
        Slot.ofValue_eq_ok_iff.mpr (.inr (.inl ⟨root, fields, rfl, hn, rfl⟩))
      simp only [hs]

theorem gives_reportVisits (config : Config) (visits : Nat) :
    (reportVisits config visits).Gives (.ok ()) := by
  unfold reportVisits
  split
  · exact Pass.gives_pure ()
  · exact Pass.gives_forM fun i => Pass.gives_report _

/-- The catalog that a discovery gives, or its failure. -/
def discovered (tree : Tree) : Except EncodeError Catalog := do
  let root ← rootObject tree
  match (Walk.start tree root).run with
  | .error stopped => .error stopped.cause
  | .ok walk => .ok { walk.catalog with root := walk.catalog.objects.getId? root }

/-- A discovery gives its catalog, whatever the configuration. -/
theorem gives_discover (tree : Tree) (config : Config) :
    (discover tree config).Gives (discovered tree) := by
  refine (Pass.gives_ofExcept rfl).bind ?_
  intro root
  cases (Walk.start tree root).run with
  | error stopped => exact (gives_reportVisits config _).then (Pass.gives_throw _)
  | ok walk =>
    refine (gives_reportVisits config _).then ?_
    refine (Pass.gives_count _).then ?_
    exact (Pass.gives_report _).then (Pass.gives_pure _)

theorem discovered_of_discover {config : Config} {progress after : Progress}
    (h : discover tree config progress = .ok c after) : discovered tree = .ok c := by
  have hgives := gives_discover tree config progress
  rw [Pass.outcome_of_ok h] at hgives
  exact hgives.symm

/-- **A discovered catalog lists its tree**, and nothing is merged yet. -/
theorem lists_of_discovered (h : discovered tree = .ok c) :
    c.Lists tree ∧ c.objects.Fresh := by
  unfold discovered at h
  cases hroot : rootObject tree with
  | error e => simp [hroot, bind, Except.bind] at h
  | ok root =>
    obtain ⟨hr, hobj⟩ := rootObject_eq_ok_iff.mp hroot
    rw [hroot] at h
    rcases Walk.run_spec _ (Walk.consistent_start hr) with
      ⟨walk, hrun, hw, hwait, hwroot⟩ | ⟨stopped, hrun, -⟩
    · simp only [bind, Except.bind, hrun, Except.ok.injEq] at h
      subst h
      have hwr : tree.root = some (.node walk.root) := by
        rw [hwroot]
        exact hr
      have hentered {id : NodeId} (hid : tree.Reachable id) := hw.entered hwait hwr hid
      refine ⟨?_, hw.sound.objects_fresh⟩
      exact
        { tree_eq := hw.sound.tree_eq
          strings := fun s => ⟨hw.sound.strings s, fun ⟨id, hid, hs⟩ => by
            obtain ⟨slot, hslot, hh⟩ := (hentered hid).values _ hs
            obtain rfl := Except.ok.inj hslot
            exact hh⟩
          objects := fun id => ⟨hw.sound.objects id, fun ⟨hid, fields, hn⟩ => by
            obtain ⟨node, hn', hh⟩ := (hentered hid).node
            rw [hn, Option.some.injEq] at hn'
            subst hn'
            exact hh.1⟩
          arrays := fun id => ⟨hw.sound.arrays id, fun ⟨hid, items, hn⟩ => by
            obtain ⟨node, hn', hh⟩ := (hentered hid).node
            rw [hn, Option.some.injEq] at hn'
            subst hn'
            exact hh⟩
          shapes := fun shape => ⟨hw.sound.shapes shape, fun ⟨id, fields, hid, hn, hs⟩ => by
            obtain ⟨node, hn', hh⟩ := (hentered hid).node
            rw [hn, Option.some.injEq] at hn'
            subst hn' hs
            exact hh.2⟩
          distinct := hw.sound.distinct
          encodable := fun id hid => (hentered hid).encodable
          strings_fresh := hw.sound.strings_fresh
          arrays_fresh := hw.sound.arrays_fresh
          objects_grounded := hw.sound.objects_fresh.grounded
          root := ⟨root, hr, hobj, rfl⟩ }
    · simp [bind, Except.bind, hrun] at h

/-- **A discovery succeeds** exactly if the root is an object and everything it reaches has an
encoding. -/
theorem exists_discovered_iff : (∃ c, discovered tree = .ok c) ↔
    (∃ root, tree.root = some (.node root) ∧ tree.IsObject root) ∧
      ∀ id, tree.Reachable id → tree.Encodable id := by
  constructor
  · rintro ⟨c, h⟩
    obtain ⟨hl, -⟩ := lists_of_discovered h
    obtain ⟨root, hr, hobj, -⟩ := hl.root
    exact ⟨⟨root, hr, hobj⟩, hl.encodable⟩
  · rintro ⟨⟨root, hr, hobj⟩, henc⟩
    unfold discovered
    rw [rootObject_eq_ok_iff.mpr ⟨hr, hobj⟩]
    rcases Walk.run_spec _ (Walk.consistent_start hr) with
      ⟨walk, hrun, -⟩ | ⟨stopped, -, id, hid, hno⟩
    · simp [bind, Except.bind, hrun]
    · exact absurd (henc id hid) hno

/-- A discovery succeeds if the root is an object and the arena holds nothing without an
encoding. -/
theorem exists_discovered_of_nodes {root : NodeId} (hr : tree.root = some (.node root))
    (hobj : tree.IsObject root)
    (hall : ∀ node ∈ tree.nodes.toList, ∀ v ∈ node.values, (Slot.ofValue tree v).isOk = true) :
    ∃ c, discovered tree = .ok c := by
  have hvalues {id : NodeId} {node : Node} (hn : tree.node? id = some node) :
      ∀ v ∈ tree.children id, ∃ slot, Slot.ofValue tree v = .ok slot := by
    rw [Tree.children_of_node? hn]
    intro v hv
    have hok := hall node (Tree.mem_nodes_of_node? hn) v hv
    cases hs : Slot.ofValue tree v with
    | error e => simp [hs, Except.isOk, Except.toBool] at hok
    | ok slot => exact ⟨slot, rfl⟩
  refine exists_discovered_iff.mpr ⟨⟨root, hr, hobj⟩, ?_⟩
  intro id hid
  have hnode : ∃ node, tree.node? id = some node := by
    refine hid.of_closed (D := fun id => ∃ node, tree.node? id = some node) ?_ ?_
    · intro root' hr'
      rw [hr, Option.some.injEq, Value.node.injEq] at hr'
      obtain ⟨fields, hn⟩ := hobj
      exact ⟨_, hr' ▸ hn⟩
    · rintro a b ⟨node, hn⟩ hab
      obtain ⟨slot, hs⟩ := hvalues hn _ hab
      rcases Slot.ofValue_eq_ok_iff.mp hs with ⟨c, hc, -⟩ | ⟨child, _, hc, hn, -⟩ |
        ⟨child, _, hc, hn, -⟩
      · simp [Value.scalar?] at hc
      all_goals
        obtain rfl := Value.node.inj hc
        exact ⟨_, hn⟩
  obtain ⟨node, hn⟩ := hnode
  exact ⟨by rw [hn]; rfl, hvalues hn⟩

/-! ## 6. Identities of listed nodes -/

theorem Lists.getId?_of_isObject (h : c.Lists tree) {id : NodeId} (hid : tree.Reachable id)
    (hobj : tree.IsObject id) : ∃ x, c.objects.getId? id = some x :=
  InternTable.contains_iff_exists_getId?.mp ((h.objects id).mpr ⟨hid, hobj⟩)

theorem Lists.of_getValue? (h : c.Lists tree) {x : Identity} {id : NodeId}
    (hx : c.objects.getValue? x = some id) : tree.Reachable id ∧ tree.IsObject id :=
  (h.objects id).mp (InternTable.contains_iff_exists_getId?.mpr
    ⟨x, InternTable.getId?_of_getValue? hx⟩)

/-- The nodes that the root reaches can be signed with the shapes of the catalog. -/
theorem Lists.signable (h : c.Lists tree) : tree.Signable c.shapes tree.Reachable where
  laid := fun id hid => by
    obtain ⟨node, hn⟩ := Option.isSome_iff_exists.mp (h.encodable id hid).1
    cases node with
    | object fields =>
      have hs := (h.shapes _).mpr ⟨id, fields, hid, hn, rfl⟩
      obtain ⟨index, hi⟩ := Option.isSome_iff_exists.mp (ShapeRegistry.find?_isSome_iff.mpr hs)
      obtain ⟨values, hv⟩ := Shape.exists_values fields
      exact ⟨_, _, (Tree.layout_object hn).mpr ⟨index, rfl, hi, hv⟩⟩
    | array items => exact ⟨_, _, Tree.layout_array hn⟩
  slots := fun id hid => (h.encodable id hid).2
  points := fun id child hid hc => hid.tail hc

end Catalog

end PackedTree
