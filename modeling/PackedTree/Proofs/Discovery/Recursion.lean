/-
# Discovery by recursion

The discovery is a loop: it keeps the nodes that wait in one list, and knows by its tables which
nodes it has met.  On a tree it does what a recursion would do that knows neither.

* `Catalog.enter`: what is done for one node, on the tables alone: register its shape, intern its
  values from left to right, intern the node.
* `Tree.Preorder`: a node, all below it, then what stands to its right.
* `RecursiveWalk`: enter a node, walk what it refers to, walk what stands to its right.
* `Tree.Unexplored`: the invariant that flattens the recursion.  Nothing below a waiting node was
  met, so all that a visited node refers to is put before the other waiting nodes
  (`Unexplored.visit`), and the visit order is the pre-order (`preorder_visitOrder`).
* `Walk.foldlM_enter_run`: a walk enters the nodes that it visits, on any arena.
* `Catalog.recursiveWalk_of_discover`: on a tree-shaped arena, such as that of a document, a
  discovery and the recursion visit the same nodes in the same order and leave the same tables.

The root is interned after its values, since nothing refers to it, and every other node before,
while its referrer is entered.  Both definitions intern a node once more when they have interned its
values, which changes nothing for a node that is there.
-/
import PackedTree.Proofs.Discovery.Tables
import PackedTree.Proofs.Tree.OfJson

namespace PackedTree

/-! ## 1. Entering a node -/

namespace Catalog

/-- Interns the text or node of a slot. -/
def intern (c : Catalog) : Slot String NodeId → Catalog
  | .text s => { c with strings := (c.strings.add s).2 }
  | .object id => { c with objects := (c.objects.add id).2 }
  | .array id => { c with arrays := (c.arrays.add id).2 }
  | .int32 _ | .float64 _ | .bool _ | .null => c

/-- Interns values from left to right, up to the first that has no slot. -/
def internAll (c : Catalog) : List Value → Except EncodeError Catalog
  | [] => .ok c
  | v :: vs => do
    let slot ← Slot.ofValue c.tree v
    (c.intern slot).internAll vs

/-- **Enters a node**: its shape if it is an object, its values, and the node itself last. -/
def enter (c : Catalog) (id : NodeId) : Except EncodeError Catalog :=
  match c.tree.node? id with
  | none => .error (.unresolved .node (.node id))
  | some (.object fields) => do
    let c ← { c with shapes := (c.shapes.register fields).2 : Catalog }.internAll fields.values
    return c.intern (.object id)
  | some (.array items) => do
    let c ← c.internAll items
    return c.intern (.array id)

end Catalog

/-! ## 2. The recursion -/

/-- **The pre-order** of what stands below nodes, themselves included. -/
inductive Tree.Preorder (tree : Tree) : List NodeId → List NodeId → Prop
  | nil : tree.Preorder [] []
  | cons {id : NodeId} {rest below after : List NodeId} :
    tree.Preorder (tree.references id) below → tree.Preorder rest after →
      tree.Preorder (id :: rest) (id :: (below ++ after))

/-- **The recursive walk** over nodes, from a catalog on: the nodes it visits, and the catalog that
it leaves. -/
inductive RecursiveWalk (tree : Tree) :
    Catalog → List NodeId → List NodeId → Catalog → Prop
  | nil (c : Catalog) : RecursiveWalk tree c [] [] c
  | cons {c entered left c' : Catalog} {id : NodeId} {rest below after : List NodeId} :
    c.enter id = .ok entered → RecursiveWalk tree entered (tree.references id) below left →
      RecursiveWalk tree left rest after c' →
      RecursiveWalk tree c (id :: rest) (id :: (below ++ after)) c'

namespace Tree

variable {tree : Tree}

theorem Preorder.unique {ids order : List NodeId} (h : tree.Preorder ids order) :
    ∀ {order' : List NodeId}, tree.Preorder ids order' → order' = order := by
  induction h with
  | nil =>
    intro order' h'
    cases h'
    rfl
  | cons _ _ ihbelow ihafter =>
    intro order' h'
    cases h' with
    | cons hbelow hafter => rw [ihbelow hbelow, ihafter hafter]

/-- The pre-order of nodes side by side is that of the ones before that of the others. -/
theorem Preorder.split {others : List NodeId} : ∀ {ids order : List NodeId},
    tree.Preorder (ids ++ others) order →
      ∃ first second, tree.Preorder ids first ∧ tree.Preorder others second ∧
        order = first ++ second
  | [], order, h => ⟨[], order, .nil, h, rfl⟩
  | id :: ids, _, h => by
    cases h with
    | @cons _ _ below after hbelow hafter =>
      obtain ⟨first, second, hfirst, hsecond, rfl⟩ := Preorder.split hafter
      refine ⟨id :: (below ++ first), second, .cons hbelow hfirst, hsecond, ?_⟩
      rw [List.cons_append, List.append_assoc]

end Tree

/-- **The recursive walk visits in pre-order and enters what it visits.** -/
theorem recursiveWalk_iff {tree : Tree} {c c' : Catalog} {ids visits : List NodeId} :
    RecursiveWalk tree c ids visits c' ↔
      tree.Preorder ids visits ∧ visits.foldlM Catalog.enter c = .ok c' := by
  constructor
  · intro h
    induction h with
    | nil c => exact ⟨.nil, rfl⟩
    | cons he _ _ ihbelow ihafter =>
      refine ⟨.cons ihbelow.1 ihafter.1, ?_⟩
      rw [List.foldlM_cons]
      refine bind_eq_ok_iff.mpr ⟨_, he, ?_⟩
      rw [List.foldlM_append]
      exact bind_eq_ok_iff.mpr ⟨_, ihbelow.2, ihafter.2⟩
  · rintro ⟨horder, hfold⟩
    induction horder generalizing c c' with
    | nil =>
      obtain rfl := Except.ok.inj hfold
      exact .nil c
    | cons _ _ ihbelow ihafter =>
      rw [List.foldlM_cons] at hfold
      obtain ⟨entered, he, hfold⟩ := bind_eq_ok_iff.mp hfold
      rw [List.foldlM_append] at hfold
      obtain ⟨left, hbelow, hafter⟩ := bind_eq_ok_iff.mp hfold
      exact .cons he (ihbelow hbelow) (ihafter hafter)

/-! ## 3. The visit order of a tree is its pre-order -/

namespace Tree

variable {tree : Tree} {met waiting : List NodeId}

/-- Values that refer to new nodes, each once, are met in full. -/
theorem fresh_eq_filterMap {vs : List Value} (hsome : ∀ b, .node b ∈ vs → (tree.node? b).isSome)
    (hnew : ∀ b, .node b ∈ vs → b ∉ met) (hnodup : (vs.filterMap Value.node?).Nodup) :
    tree.fresh met vs = vs.filterMap Value.node? := by
  fun_induction tree.fresh met vs with
  | case1 met => rfl
  | case2 met id vs _ ih =>
    obtain ⟨hid, hrest⟩ := List.nodup_cons.mp hnodup
    refine congrArg (id :: ·) (ih (fun b hb => hsome b (List.mem_cons_of_mem _ hb)) ?_ hrest)
    intro b hb hm
    rcases List.mem_cons.mp hm with rfl | hm
    · exact hid (List.mem_filterMap.mpr ⟨.node b, hb, rfl⟩)
    · exact hnew b (List.mem_cons_of_mem _ hb) hm
  | case3 met id vs hseen ih =>
    exact absurd ⟨hsome id List.mem_cons_self, hnew id List.mem_cons_self⟩ hseen
  | case4 met v vs hv ih =>
    have hnone : v.node? = none := by
      cases v with
      | node id => exact absurd rfl (hv id)
      | _ => rfl
    rw [List.filterMap_cons_none hnone] at hnodup ⊢
    exact ih (fun b hb => hsome b (List.mem_cons_of_mem _ hb))
      (fun b hb => hnew b (List.mem_cons_of_mem _ hb)) hnodup

/-- **What waits is unexplored**: the waiting nodes are reachable, met and different, and nothing
strictly below them was met. -/
structure Unexplored (tree : Tree) (met waiting : List NodeId) : Prop where
  reachable : ∀ a ∈ waiting, tree.Reachable a
  nodup : waiting.Nodup
  marked : ∀ a ∈ waiting, a ∈ met
  below : ∀ a ∈ waiting, ∀ b, Relation.TransGen tree.Points a b → b ∉ met

theorem reachable_of_transGen {a b : NodeId} (ha : tree.Reachable a)
    (h : Relation.TransGen tree.Points a b) : tree.Reachable b := by
  obtain ⟨root, hr, hroot⟩ := ha
  exact ⟨root, hr, hroot.trans h.to_reflTransGen⟩

/-- In a tree, every way to a node comes through the one that refers to it. -/
theorem TreeShaped.through (h : tree.TreeShaped) {a b id : NodeId} (ha : tree.Reachable a)
    (hid : tree.Reachable id) (hab : Relation.TransGen tree.Points a b) (hb : tree.Points id b) :
    a = id ∨ Relation.TransGen tree.Points a id := by
  cases hab with
  | single hp => exact .inl (h.referrer_unique a id b ha hid hp hb)
  | @tail p _ hap hp =>
    obtain rfl := h.referrer_unique p id b (reachable_of_transGen ha hap) hid hp hb
    exact .inr hap

/-- The root of a tree is unexplored. -/
theorem TreeShaped.unexplored_root (h : tree.TreeShaped) {root : NodeId}
    (hr : tree.root = some (.node root)) : tree.Unexplored [root] [root] where
  reachable := fun a ha => by
    rw [List.mem_singleton.mp ha]
    exact ⟨root, hr, .refl⟩
  nodup := List.nodup_singleton root
  marked := fun a ha => ha
  below := fun a ha b hab hb => by
    rw [List.mem_singleton.mp ha] at hab
    rw [List.mem_singleton.mp hb] at hab
    obtain ⟨p, hreach, hp⟩ := Relation.TransGen.tail'_iff.mp hab
    exact h.root_unreferenced root p hr ⟨root, hr, hreach⟩ hp

/-- **A visit keeps what waits unexplored**, and meets all that the visited node refers to. -/
theorem Unexplored.visit (hshape : tree.TreeShaped)
    (hall : ∀ a, tree.Reachable a → (tree.node? a).isSome) {id : NodeId}
    (h : tree.Unexplored met (id :: waiting)) :
    tree.fresh met (tree.children id) = tree.references id ∧
      tree.Unexplored (tree.references id ++ met) (tree.references id ++ waiting) := by
  obtain ⟨hid, hwaiting⟩ := List.forall_mem_cons.mp h.reachable
  obtain ⟨hidmet, hmet⟩ := List.forall_mem_cons.mp h.marked
  obtain ⟨hidbelow, hbelow⟩ := List.forall_mem_cons.mp h.below
  obtain ⟨hidnot, hnodup⟩ := List.nodup_cons.mp h.nodup
  have hnew (b : NodeId) (hb : tree.Points id b) : b ∉ met := hidbelow b (.single hb)
  have hacyclic : ¬Relation.TransGen tree.Points id id := fun hcycle => hidbelow id hcycle hidmet
  have hfresh : tree.fresh met (tree.children id) = tree.references id :=
    fresh_eq_filterMap (fun b hb => hall b (hid.tail hb)) hnew (hshape.references_nodup id hid)
  refine ⟨hfresh, fun a ha => ?_, ?_, fun a ha => ?_, fun a ha b hab hb => ?_⟩
  · rcases List.mem_append.mp ha with ha | ha
    · exact hid.tail (mem_references_iff.mp ha)
    · exact hwaiting a ha
  · refine List.nodup_append.mpr ⟨hshape.references_nodup id hid, hnodup, ?_⟩
    rintro a ha _ hb rfl
    exact hnew a (mem_references_iff.mp ha) (hmet a hb)
  · rcases List.mem_append.mp ha with ha | ha
    · exact List.mem_append_left _ ha
    · exact List.mem_append_right _ (hmet a ha)
  · -- a way to a node that is met now, from one that waits now, would come through the visited
    -- node, and that one is on no cycle and below no node that waited
    rcases List.mem_append.mp ha with hchild | hwaits
    · have hpoints : tree.Points id a := mem_references_iff.mp hchild
      rcases List.mem_append.mp hb with hb | hb
      · rcases hshape.through (hid.tail hpoints) hid hab (mem_references_iff.mp hb) with rfl | hai
        · exact hacyclic (.single hpoints)
        · exact hacyclic (.head hpoints hai)
      · exact hidbelow b (.head hpoints hab) hb
    · rcases List.mem_append.mp hb with hb | hb
      · rcases hshape.through (hwaiting a hwaits) hid hab (mem_references_iff.mp hb) with rfl | hai
        · exact hidnot hwaits
        · exact hbelow a hwaits id hai hidmet
      · exact hbelow a hwaits b hab hb

/-- What is visited from unexplored nodes on is visited in pre-order. -/
theorem preorder_visitFrom (hshape : tree.TreeShaped)
    (hall : ∀ a, tree.Reachable a → (tree.node? a).isSome)
    (h : tree.Unexplored met waiting) : tree.Preorder waiting (tree.visitFrom met waiting) := by
  fun_induction tree.visitFrom met waiting with
  | case1 met => exact .nil
  | case2 met id rest fresh ih =>
    obtain ⟨hfresh, hnext⟩ := h.visit hshape hall
    rw [show fresh = tree.references id from hfresh] at ih ⊢
    obtain ⟨below, after, hbelow, hafter, horder⟩ := (ih hnext).split
    rw [horder]
    exact .cons hbelow hafter

/-- **The visit order of a tree is its pre-order.** -/
theorem preorder_visitOrder (hshape : tree.TreeShaped)
    (hall : ∀ a, tree.Reachable a → (tree.node? a).isSome) {root : NodeId}
    (hr : tree.root = some (.node root)) : tree.Preorder [root] (tree.visitOrder root) :=
  preorder_visitFrom hshape hall (hshape.unexplored_root hr)

end Tree

/-! ## 4. A walk enters what it visits -/

namespace Walk

variable {w w' : Walk}

theorem catalog_meet (w : Walk) (fresh : List NodeId) (slot : Slot String NodeId) :
    (w.meet fresh slot).1.catalog = w.catalog.intern slot := by
  cases slot <;> rfl

theorem visited_meet (w : Walk) (fresh : List NodeId) (slot : Slot String NodeId) :
    (w.meet fresh slot).1.visited = w.visited := by
  cases slot <;> rfl

/-- Meeting values interns them. -/
theorem internAll_meetAll : ∀ {vs : List Value} {w w' : Walk} {fresh fresh' : List NodeId},
    w.meetAll fresh vs = .ok (w', fresh') →
      w.catalog.internAll vs = .ok w'.catalog ∧ w'.visited = w.visited
  | [], w, w', fresh, fresh', h => by
    obtain ⟨rfl, -⟩ := Prod.mk.inj (Except.ok.inj h)
    exact ⟨rfl, rfl⟩
  | v :: vs, w, w', fresh, fresh', h => by
    unfold meetAll at h
    cases hs : Slot.ofValue w.catalog.tree v with
    | error e => simp [hs] at h
    | ok slot =>
      simp only [hs] at h
      obtain ⟨hintern, hvisited⟩ := internAll_meetAll h
      rw [catalog_meet] at hintern
      exact ⟨bind_eq_ok_iff.mpr ⟨slot, hs, hintern⟩, hvisited.trans (visited_meet w fresh slot)⟩

/-- **A visit enters its node.** -/
theorem enter_visit {id : NodeId} (h : w.visit id = .ok w') :
    w.catalog.enter id = .ok w'.catalog ∧ w'.visited = w.visited.push id := by
  unfold visit at h
  unfold Catalog.enter
  cases hn : w.catalog.tree.node? id with
  | none => simp [hn] at h
  | some node =>
    cases node with
    | object fields =>
      simp only [hn] at h ⊢
      cases hm : (w.registerShape fields).meetAll [] fields.values with
      | error e => simp [hm] at h
      | ok met =>
        obtain ⟨hintern, hvisited⟩ := internAll_meetAll hm
        simp only [hm, Except.ok.injEq] at h
        rw [← h]
        exact ⟨bind_eq_ok_iff.mpr ⟨_, hintern, rfl⟩, congrArg (Array.push · id) hvisited⟩
    | array items =>
      simp only [hn] at h ⊢
      cases hm : w.meetAll [] items with
      | error e => simp [hm] at h
      | ok met =>
        obtain ⟨hintern, hvisited⟩ := internAll_meetAll hm
        simp only [hm, Except.ok.injEq] at h
        rw [← h]
        exact ⟨bind_eq_ok_iff.mpr ⟨_, hintern, rfl⟩, congrArg (Array.push · id) hvisited⟩

/-- **A walk enters the nodes that it visits**, in the order of the visits. -/
theorem foldlM_enter_run (h : w.run = .ok w') : ∃ visits,
    w'.visited.toList = w.visited.toList ++ visits ∧
      visits.foldlM Catalog.enter w.catalog = .ok w'.catalog := by
  fun_induction run w with
  | case1 w hw =>
    obtain rfl := Except.ok.inj h
    exact ⟨[], (List.append_nil _).symm, rfl⟩
  | case2 w id rest hw visits e hv => cases h
  | case3 w id rest hw w₁ hv ih =>
    obtain ⟨henter, hpush⟩ := enter_visit hv
    obtain ⟨visits, hvisited, hfold⟩ := ih h
    refine ⟨id :: visits, ?_, ?_⟩
    · rw [hvisited, hpush, Array.toList_push, List.append_assoc]
      rfl
    · rw [List.foldlM_cons]
      exact bind_eq_ok_iff.mpr ⟨_, henter, hfold⟩

end Walk

/-! ## 5. A discovery is the recursive walk -/

namespace Catalog

variable {tree : Tree} {config : Config} {c : Catalog} {progress after : Progress}

/-- On a tree, the walk of a discovery visits in pre-order, and is the recursive walk. -/
theorem recursiveWalk_of_run (hshape : tree.TreeShaped) (h : discovered tree = .ok c)
    {root : NodeId} {w : Walk} (hroot : rootObject tree = .ok root)
    (hrun : (Walk.start tree root).run = .ok w) :
    tree.Preorder [root] w.visited.toList ∧
      RecursiveWalk tree { tree } [root] w.visited.toList w.catalog := by
  obtain ⟨hr, fields, hn⟩ := rootObject_eq_ok_iff.mp hroot
  have hall (a : NodeId) (ha : tree.Reachable a) : (tree.node? a).isSome :=
    ((lists_of_discovered h).1.encodable a ha).1
  obtain ⟨-, horder⟩ := visited_of_run hr (Option.isSome_of_eq_some hn) hrun
  obtain ⟨visits, hvisited, hfold⟩ := Walk.foldlM_enter_run hrun
  have hpreorder := Tree.preorder_visitOrder hshape hall hr
  rw [← horder] at hpreorder
  obtain rfl : w.visited.toList = visits := hvisited
  exact ⟨hpreorder, recursiveWalk_iff.mpr ⟨hpreorder, hfold⟩⟩

/-- **On a tree, the discovery is the recursive walk.**  The arena of a document with an object at
its root is tree-shaped.  For every tree-shaped arena that is discovered, the walk from the root
visits in pre-order, and the recursive walk from empty tables visits the same nodes in the same
order and leaves the same tables; it has no other result.  All that the discovery does beyond is to
look up the root. -/
theorem recursiveWalk_of_discover :
    (∀ members, (Tree.ofJson (.object members)).TreeShaped) ∧
      ∀ {tree : Tree} {config : Config} {c : Catalog} {progress after : Progress},
        tree.TreeShaped → discover tree config progress = .ok c after →
          ∃ root w, tree.root = some (.node root) ∧ (Walk.start tree root).run = .ok w ∧
            (∀ order, tree.Preorder [root] order ↔ order = w.visited.toList) ∧
            (∀ visits left, RecursiveWalk tree { tree } [root] visits left ↔
              visits = w.visited.toList ∧ left = w.catalog) ∧
            c = { w.catalog with root := w.catalog.objects.getId? root } := by
  refine ⟨fun members => Tree.treeShaped_ofJson _, ?_⟩
  intro tree config c progress after hshape h
  have hdiscovered := discovered_of_discover h
  obtain ⟨root, w, hroot, hrun, hc⟩ := exists_walk_of_discovered hdiscovered
  obtain ⟨hpreorder, hwalk⟩ := recursiveWalk_of_run hshape hdiscovered hroot hrun
  refine ⟨root, w, (rootObject_eq_ok_iff.mp hroot).1, hrun, fun order => ?_, fun visits left => ?_,
    hc⟩
  · constructor
    · exact hpreorder.unique
    · rintro rfl
      exact hpreorder
  · constructor
    · intro hother
      obtain ⟨horder, hfold⟩ := recursiveWalk_iff.mp hother
      obtain rfl := hpreorder.unique horder
      exact ⟨rfl, Except.ok.inj (hfold.symm.trans (recursiveWalk_iff.mp hwalk).2)⟩
    · rintro ⟨rfl, rfl⟩
      exact hwalk

/-- A document of an object, and of an object in a list. -/
def nested : Json :=
  .object [("left", .object [("name", .string "x")]), ("right", .array [.object []])]

theorem preorder_nested :
    (Tree.ofJson nested).Preorder [⟨3⟩] [⟨3⟩, ⟨0⟩, ⟨2⟩, ⟨1⟩] := by
  have hroot : (Tree.ofJson nested).references ⟨3⟩ = [⟨0⟩, ⟨2⟩] := by decide
  have hright : (Tree.ofJson nested).references ⟨2⟩ = [⟨1⟩] := by decide
  have hleaf {id : NodeId} {rest after : List NodeId}
      (h : (Tree.ofJson nested).references id = [])
      (hrest : (Tree.ofJson nested).Preorder rest after) :
      (Tree.ofJson nested).Preorder (id :: rest) (id :: after) := by
    refine @Tree.Preorder.cons _ id rest [] after ?_ hrest
    rw [h]
    exact .nil
  have hlist : (Tree.ofJson nested).Preorder [⟨2⟩] [⟨2⟩, ⟨1⟩] :=
    @Tree.Preorder.cons _ ⟨2⟩ [] [⟨1⟩] [] (hright ▸ hleaf (by decide) .nil) .nil
  have hbelow : (Tree.ofJson nested).Preorder [⟨0⟩, ⟨2⟩] [⟨0⟩, ⟨2⟩, ⟨1⟩] :=
    hleaf (by decide) hlist
  exact @Tree.Preorder.cons _ ⟨3⟩ [] [⟨0⟩, ⟨2⟩, ⟨1⟩] [] (hroot ▸ hbelow) .nil

/-- The root, its left object, its list, and the object in the list last. -/
theorem recursiveWalk_of_discover_nested : ∃ c after w,
    discover (Tree.ofJson nested) {} {} = .ok c after ∧
      (Walk.start (Tree.ofJson nested) ⟨3⟩).run = .ok w ∧
      w.visited.toList = [⟨3⟩, ⟨0⟩, ⟨2⟩, ⟨1⟩] ∧
      RecursiveWalk (Tree.ofJson nested) { tree := Tree.ofJson nested } [⟨3⟩]
        [⟨3⟩, ⟨0⟩, ⟨2⟩, ⟨1⟩] w.catalog := by
  have hall : ∀ node ∈ (Tree.ofJson nested).nodes.toList, ∀ v ∈ node.values,
      (Slot.ofValue (Tree.ofJson nested) v).isOk = true := by decide
  have hr : (Tree.ofJson nested).root = some (.node ⟨3⟩) := by decide
  obtain ⟨c, hc⟩ := exists_discovered_of_nodes hr ⟨_, rfl⟩ hall
  obtain ⟨after, h⟩ := (hc ▸ gives_discover (Tree.ofJson nested) {}).exists_ok {}
  obtain ⟨root, w, hroot, hrun, horder, hwalk, -⟩ :=
    recursiveWalk_of_discover.2 (recursiveWalk_of_discover.1 _) h
  obtain rfl : root = ⟨3⟩ := Value.node.inj (Option.some.inj (hroot.symm.trans hr))
  have hvisited := (horder _).mp preorder_nested
  exact ⟨c, after, w, h, hrun, hvisited.symm, (hwalk _ _).mpr ⟨hvisited, rfl⟩⟩

end Catalog

end PackedTree
