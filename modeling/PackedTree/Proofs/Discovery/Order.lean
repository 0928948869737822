/-
# The order of a discovery

In which order the nodes of a tree are visited, said without any table: the root first, then what a
node refers to for the first time, from left to right, before everything that was waiting.

* `Tree.visitOrder`: the order.  It holds what the root reaches (`Tree.mem_visitOrder_iff`), each
  node once (`Tree.visitOrder_nodup`).
* `Tree.offence?`: what is wrong with a value; `Tree.firstOffence?`: what is wrong first.
* `Walk.HasMet`: the nodes that a walk has met, kept by themselves and not read off the tables.  The
  two agree from the start (`Walk.hasMet_start`) and after every visit (`Walk.HasMet.visit`).
* `Walk.run_follows`: a walk visits in this order, up to the first value that offends, and so does
  the walk of a discovery (`Walk.run_start`).
-/
import PackedTree.Proofs.Discovery

namespace PackedTree

namespace Tree

variable {tree : Tree}

/-! ## 1. The visit order -/

/-- The nodes that values refer to and that were not met, in the order of the first references. -/
def fresh (tree : Tree) (met : List NodeId) : List Value → List NodeId
  | [] => []
  | .node id :: vs =>
    if (tree.node? id).isSome ∧ id ∉ met then id :: tree.fresh (id :: met) vs
    else tree.fresh met vs
  | _ :: vs => tree.fresh met vs

/-- The number of nodes that were not met. -/
def unmet (tree : Tree) (met : List NodeId) : Nat :=
  (List.range tree.size).countP fun i => decide (⟨i⟩ ∉ met)

theorem unmet_le {met met' : List NodeId} (h : ∀ a ∈ met, a ∈ met') :
    tree.unmet met' ≤ tree.unmet met := by
  refine List.countP_mono_left fun i _ hi => ?_
  simp only [decide_eq_true_eq] at hi ⊢
  exact fun hm => hi (h _ hm)

theorem unmet_cons_lt {met : List NodeId} {id : NodeId} (hid : id.index < tree.size)
    (hnew : id ∉ met) : tree.unmet (id :: met) < tree.unmet met := by
  refine countP_lt_countP (a := id.index) ?_ (List.mem_range.mpr hid) ?_ ?_
  · intro i _ hi
    simp only [decide_eq_true_eq, List.mem_cons, not_or] at hi ⊢
    exact hi.2
  · exact decide_eq_true hnew
  · exact decide_eq_false fun h => h List.mem_cons_self

/-- Nodes that are met for the first time were unmet before. -/
theorem unmet_fresh (tree : Tree) (met : List NodeId) (vs : List Value) :
    tree.unmet (tree.fresh met vs ++ met) + (tree.fresh met vs).length ≤ tree.unmet met := by
  fun_induction tree.fresh met vs with
  | case1 met => simp
  | case2 met id vs h ih =>
    obtain ⟨node, hn⟩ := Option.isSome_iff_exists.mp h.1
    have hlt := unmet_cons_lt (index_lt_size hn) h.2
    have hle : tree.unmet (id :: tree.fresh (id :: met) vs ++ met) ≤
        tree.unmet (tree.fresh (id :: met) vs ++ id :: met) := by
      refine unmet_le fun a ha => ?_
      simp only [List.cons_append, List.mem_append, List.mem_cons] at ha ⊢
      tauto
    rw [List.length_cons]
    omega
  | case3 met id vs h ih => exact ih
  | case4 met v vs h ih => exact ih

/-- **The nodes in the order of their visits**, from the waiting ones on. -/
def visitFrom (tree : Tree) (met waiting : List NodeId) : List NodeId :=
  match waiting with
  | [] => []
  | id :: rest =>
    let fresh := tree.fresh met (tree.children id)
    id :: tree.visitFrom (fresh ++ met) (fresh ++ rest)
termination_by tree.unmet met + waiting.length
decreasing_by
  have h := tree.unmet_fresh met (tree.children id)
  simp only [List.length_append, List.length_cons]
  omega

/-- The visit order of a tree from its root. -/
def visitOrder (tree : Tree) (root : NodeId) : List NodeId := tree.visitFrom [root] [root]

/-! ## 2. What is visited -/

theorem mem_fresh {met : List NodeId} {vs : List Value} {id : NodeId} :
    id ∈ tree.fresh met vs ↔ .node id ∈ vs ∧ (tree.node? id).isSome ∧ id ∉ met := by
  fun_induction tree.fresh met vs with
  | case1 met => simp
  | case2 met child vs h ih =>
    rw [List.mem_cons, ih, List.mem_cons, List.mem_cons, Value.node.injEq]
    by_cases hid : id = child
    · subst hid
      simp [h.1, h.2]
    · simp [hid]
  | case3 met child vs h ih =>
    rw [ih, List.mem_cons, Value.node.injEq]
    by_cases hid : id = child
    · subst hid
      tauto
    · simp [hid]
  | case4 met v vs h ih =>
    have hne : Value.node id ≠ v := fun he => h id he.symm
    rw [ih, List.mem_cons]
    simp [hne]

theorem fresh_nodup (tree : Tree) (met : List NodeId) (vs : List Value) :
    (tree.fresh met vs).Nodup := by
  fun_induction tree.fresh met vs with
  | case1 met => exact List.nodup_nil
  | case2 met child vs h ih =>
    refine List.nodup_cons.mpr ⟨fun hm => ?_, ih⟩
    exact (mem_fresh.mp hm).2.2 List.mem_cons_self
  | case3 met child vs h ih => exact ih
  | case4 met v vs h ih => exact ih

/-- What waits is visited. -/
theorem mem_visitFrom_of_mem {met waiting : List NodeId} {a : NodeId} (ha : a ∈ waiting) :
    a ∈ tree.visitFrom met waiting := by
  fun_induction tree.visitFrom met waiting with
  | case1 met => exact ha
  | case2 met id rest fresh ih =>
    rcases List.mem_cons.mp ha with rfl | ha
    · exact List.mem_cons_self
    · exact List.mem_cons_of_mem _ (ih (List.mem_append_right _ ha))

/-- What a visited node refers to was met or is visited. -/
theorem mem_of_mem_visitFrom {met waiting : List NodeId} {a b : NodeId}
    (ha : a ∈ tree.visitFrom met waiting) (hab : tree.Points a b) (hb : (tree.node? b).isSome) :
    b ∈ met ∨ b ∈ tree.visitFrom met waiting := by
  fun_induction tree.visitFrom met waiting with
  | case1 met => exact absurd ha List.not_mem_nil
  | case2 met id rest fresh ih =>
    rcases List.mem_cons.mp ha with rfl | ha
    · by_cases hm : b ∈ met
      · exact .inl hm
      · have hfresh : b ∈ fresh := mem_fresh.mpr ⟨hab, hb, hm⟩
        exact .inr (List.mem_cons_of_mem _ (mem_visitFrom_of_mem (List.mem_append_left _ hfresh)))
    · rcases ih ha with hm | hm
      · rcases List.mem_append.mp hm with hm | hm
        · exact .inr (List.mem_cons_of_mem _ (mem_visitFrom_of_mem (List.mem_append_left _ hm)))
        · exact .inl hm
      · exact .inr (List.mem_cons_of_mem _ hm)

/-- Nothing is visited but what is there and is reached. -/
theorem reachable_of_mem_visitFrom {met waiting : List NodeId}
    (h : ∀ a ∈ waiting, tree.Reachable a ∧ (tree.node? a).isSome) {a : NodeId}
    (ha : a ∈ tree.visitFrom met waiting) : tree.Reachable a ∧ (tree.node? a).isSome := by
  fun_induction tree.visitFrom met waiting with
  | case1 met => exact absurd ha List.not_mem_nil
  | case2 met id rest fresh ih =>
    obtain ⟨hid, hrest⟩ := List.forall_mem_cons.mp h
    rcases List.mem_cons.mp ha with rfl | ha
    · exact hid
    · refine ih (fun b hb => ?_) ha
      rcases List.mem_append.mp hb with hb | hb
      · obtain ⟨hpoints, hsome, -⟩ := mem_fresh.mp hb
        exact ⟨hid.1.tail hpoints, hsome⟩
      · exact hrest b hb

/-- **The visit order holds what the root reaches**, as far as it is there. -/
theorem mem_visitOrder_iff {root : NodeId} (hr : tree.root = some (.node root))
    (hsome : (tree.node? root).isSome) {a : NodeId} :
    a ∈ tree.visitOrder root ↔ tree.Reachable a ∧ (tree.node? a).isSome := by
  have hroot : root ∈ tree.visitOrder root := mem_visitFrom_of_mem List.mem_cons_self
  constructor
  · refine reachable_of_mem_visitFrom fun b hb => ?_
    rw [List.mem_singleton.mp hb]
    exact ⟨⟨root, hr, .refl⟩, hsome⟩
  · rintro ⟨⟨root', hr', hreach⟩, ha⟩
    rw [hr, Option.some.injEq, Value.node.injEq] at hr'
    subst hr'
    induction hreach with
    | refl => exact hroot
    | @tail b c _ hbc ih =>
      rcases mem_of_mem_visitFrom (ih (isSome_of_mem_children hbc)) hbc ha with hm | hm
      · rw [List.mem_singleton.mp hm]
        exact hroot
      · exact hm

/-- Every node is visited once. -/
theorem visitFrom_nodup {met waiting : List NodeId} (hd : waiting.Nodup)
    (hmet : ∀ a ∈ waiting, a ∈ met) : (tree.visitFrom met waiting).Nodup ∧
      ∀ a ∈ tree.visitFrom met waiting, a ∈ waiting ∨ a ∉ met := by
  fun_induction tree.visitFrom met waiting with
  | case1 met => exact ⟨List.nodup_nil, fun a ha => absurd ha List.not_mem_nil⟩
  | case2 met id rest fresh ih =>
    obtain ⟨hid, hrest⟩ := List.nodup_cons.mp hd
    obtain ⟨hidmet, hrestmet⟩ := List.forall_mem_cons.mp hmet
    have hfresh (a : NodeId) (ha : a ∈ fresh) : a ∉ met := (mem_fresh.mp ha).2.2
    have hnext : (fresh ++ rest).Nodup := by
      refine List.nodup_append.mpr ⟨tree.fresh_nodup met _, hrest, ?_⟩
      rintro a ha b hb rfl
      exact hfresh a ha (hrestmet a hb)
    have hnextmet (a : NodeId) (ha : a ∈ fresh ++ rest) : a ∈ fresh ++ met := by
      rcases List.mem_append.mp ha with ha | ha
      · exact List.mem_append_left _ ha
      · exact List.mem_append_right _ (hrestmet a ha)
    obtain ⟨hnodup, hnew⟩ := ih hnext hnextmet
    refine ⟨List.nodup_cons.mpr ⟨fun hm => ?_, hnodup⟩, fun a ha => ?_⟩
    · rcases hnew id hm with hm | hm
      · rcases List.mem_append.mp hm with hm | hm
        · exact hfresh id hm hidmet
        · exact hid hm
      · exact hm (List.mem_append_right _ hidmet)
    · rcases List.mem_cons.mp ha with rfl | ha
      · exact .inl List.mem_cons_self
      · rcases hnew a ha with hm | hm
        · rcases List.mem_append.mp hm with hm | hm
          · exact .inr (hfresh a hm)
          · exact .inl (List.mem_cons_of_mem _ hm)
        · exact .inr fun h => hm (List.mem_append_right _ h)

theorem visitOrder_nodup (tree : Tree) (root : NodeId) : (tree.visitOrder root).Nodup :=
  (visitFrom_nodup (List.nodup_singleton root) fun _ ha => ha).1

/-! ## 3. Values that offend -/

/-- **What is wrong with a value**: it is of a kind without an encoding, or it refers to a node that
is not there. -/
def offence? (tree : Tree) : Value → Option EncodeError
  | .foreign kind => some (.unsupportedKind kind)
  | .node id => if (tree.node? id).isSome then none else some (.unresolved .node (.node id))
  | _ => none

/-- A value has no slot exactly if it offends, and the offence is the cause. -/
theorem ofValue_eq_error_iff {v : Value} {e : EncodeError} :
    Slot.ofValue tree v = .error e ↔ tree.offence? v = some e := by
  cases v with
  | node id =>
    unfold Slot.ofValue offence?
    cases hn : tree.node? id with
    | none => simp [hn]
    | some node => cases node <;> simp [hn]
  | foreign kind => simp [Slot.ofValue, offence?]
  | _ => simp [Slot.ofValue, offence?]

theorem exists_ofValue_iff {v : Value} :
    (∃ slot, Slot.ofValue tree v = .ok slot) ↔ tree.offence? v = none := by
  cases h : Slot.ofValue tree v with
  | error e =>
    rw [ofValue_eq_error_iff.mp h]
    simp
  | ok slot =>
    have hne (e : EncodeError) : tree.offence? v ≠ some e := fun he => by
      rw [ofValue_eq_error_iff.mpr he] at h
      exact nomatch h
    exact ⟨fun _ => Option.eq_none_iff_forall_ne_some.mpr hne, fun _ => ⟨slot, rfl⟩⟩

/-- The first offence among the values of a node. -/
def nodeOffence? (tree : Tree) (id : NodeId) : Option EncodeError :=
  (tree.children id).findSome? tree.offence?

/-- **The first offence** among the values of nodes in their order. -/
def firstOffence? (tree : Tree) (order : List NodeId) : Option EncodeError :=
  order.findSome? tree.nodeOffence?

/-- How many visits come before the first offence. -/
def soundVisits (tree : Tree) (order : List NodeId) : Nat :=
  (order.takeWhile fun id => (tree.nodeOffence? id).isNone).length

theorem firstOffence?_cons (id : NodeId) (order : List NodeId) :
    tree.firstOffence? (id :: order) = (tree.nodeOffence? id).or (tree.firstOffence? order) := by
  rw [firstOffence?, List.findSome?_cons]
  cases tree.nodeOffence? id <;> rfl

theorem soundVisits_cons (id : NodeId) (order : List NodeId) :
    tree.soundVisits (id :: order) =
      if (tree.nodeOffence? id).isNone then tree.soundVisits order + 1 else 0 := by
  rw [soundVisits, List.takeWhile_cons]
  split <;> rfl

end Tree

/-! ## 4. Walks in this order -/

namespace Walk

variable {tree : Tree} {w : Walk}

/-- **A walk has met** these nodes of a tree. -/
structure HasMet (tree : Tree) (w : Walk) (met : List NodeId) : Prop where
  tree_eq : w.catalog.tree = tree
  met_iff : ∀ a, w.met a = true ↔ a ∈ met

/-- Interning a node is meeting it. -/
theorem HasMet.cons {met : List NodeId} (h : HasMet tree w met) {w' : Walk} {id : NodeId}
    (ht : w'.catalog.tree = w.catalog.tree) (hm : ∀ a, w'.met a = (id == a || w.met a)) :
    HasMet tree w' (id :: met) where
  tree_eq := ht.trans h.tree_eq
  met_iff := fun a => by
    rw [hm, Bool.or_eq_true, beq_iff_eq, h.met_iff, List.mem_cons, eq_comm]

theorem HasMet.congr {met met' : List NodeId} (h : HasMet tree w met)
    (hm : ∀ a, a ∈ met ↔ a ∈ met') : HasMet tree w met' where
  tree_eq := h.tree_eq
  met_iff := fun a => (h.met_iff a).trans (hm a)

/-- Interning a node that was met meets nothing new. -/
theorem HasMet.again {met : List NodeId} (h : HasMet tree w met) {w' : Walk} {id : NodeId}
    (ht : w'.catalog.tree = w.catalog.tree) (hm : ∀ a, w'.met a = (id == a || w.met a))
    (hid : id ∈ met) : HasMet tree w' met :=
  (h.cons ht hm).congr fun a => by
    rw [List.mem_cons]
    exact ⟨fun ha => ha.elim (fun ha => ha ▸ hid) (fun ha => ha), .inr⟩

/-- A reference to a node that is there: the node is met, and is new if it was not met before. -/
theorem HasMet.meet_node {met : List NodeId} (h : HasMet tree w met) (fresh : List NodeId)
    {id : NodeId} {slot : Slot String NodeId} (hs : Slot.ofValue tree (.node id) = .ok slot) :
    HasMet tree (w.meet fresh slot).1 (id :: met) ∧ (w.meet fresh slot).1.waiting = w.waiting ∧
      (w.meet fresh slot).1.visited = w.visited ∧
      (w.meet fresh slot).2 = if id ∈ met then fresh else id :: fresh := by
  obtain ⟨hnode, hwaiting, hvisited⟩ : slot.node? = some id ∧
      (w.meet fresh slot).1.waiting = w.waiting ∧ (w.meet fresh slot).1.visited = w.visited := by
    rcases Slot.ofValue_eq_ok_iff.mp hs with ⟨c, hc, -⟩ | ⟨child, _, hc, -, rfl⟩ |
      ⟨child, _, hc, -, rfl⟩
    · simp [Value.scalar?] at hc
    · exact ⟨congrArg some (Value.node.inj hc).symm, rfl, rfl⟩
    · exact ⟨congrArg some (Value.node.inj hc).symm, rfl, rfl⟩
  have hmet (a : NodeId) := w.met_meet fresh slot a
  have hfresh := w.fresh_meet fresh slot
  rw [hnode] at hfresh
  refine ⟨h.cons ?_ fun a => ?_, hwaiting, hvisited, ?_⟩
  · cases slot <;> rfl
  · rw [hmet, hnode]
    rfl
  · rw [hfresh, Option.toList_some]
    by_cases hm : id ∈ met
    · rw [if_pos hm, List.filter_cons_of_neg (by simp [(h.met_iff id).mpr hm])]
      rfl
    · rw [if_neg hm, List.filter_cons_of_pos (by simpa [← h.met_iff id] using hm)]
      rfl

/-- A scalar meets no node. -/
theorem HasMet.meet_scalar {met : List NodeId} (h : HasMet tree w met) (fresh : List NodeId)
    (c : Scalar) :
    HasMet tree (w.meet fresh c.slot).1 met ∧ (w.meet fresh c.slot).1.waiting = w.waiting ∧
      (w.meet fresh c.slot).1.visited = w.visited ∧ (w.meet fresh c.slot).2 = fresh := by
  cases c with
  | text s => exact ⟨⟨h.tree_eq, h.met_iff⟩, rfl, rfl, rfl⟩
  | int32 _ | float64 _ | bool _ | null => exact ⟨h, rfl, rfl, rfl⟩

/-- **One value that has a slot** moves the walk on as it moves the visit order on. -/
theorem HasMet.meet {met : List NodeId} (h : HasMet tree w met) (fresh : List NodeId)
    {v : Value} {slot : Slot String NodeId} (hs : Slot.ofValue tree v = .ok slot) (vs : List Value) :
    ∃ met', HasMet tree (w.meet fresh slot).1 met' ∧
      (w.meet fresh slot).1.waiting = w.waiting ∧ (w.meet fresh slot).1.visited = w.visited ∧
      (tree.fresh met' vs).reverse ++ (w.meet fresh slot).2 =
        (tree.fresh met (v :: vs)).reverse ++ fresh ∧
      ∀ a, a ∈ tree.fresh met' vs ++ met' ↔ a ∈ tree.fresh met (v :: vs) ++ met := by
  have hkind : (∃ c : Scalar, v.scalar? = some c ∧ slot = c.slot) ∨
      ∃ id, v = .node id ∧ (tree.node? id).isSome := by
    rcases Slot.ofValue_eq_ok_iff.mp hs with hc | ⟨id, fields, hv, hn, -⟩ |
      ⟨id, items, hv, hn, -⟩
    · exact .inl hc
    · exact .inr ⟨id, hv, Option.isSome_of_eq_some hn⟩
    · exact .inr ⟨id, hv, Option.isSome_of_eq_some hn⟩
  rcases hkind with ⟨c, hc, rfl⟩ | ⟨id, rfl, hsome⟩
  · obtain ⟨hmet, hwaiting, hvisited, hfresh⟩ := h.meet_scalar fresh c
    have hsame : tree.fresh met (v :: vs) = tree.fresh met vs := by
      cases v with
      | node id => simp [Value.scalar?] at hc
      | _ => rfl
    rw [hfresh, hsame]
    exact ⟨met, hmet, hwaiting, hvisited, rfl, fun a => Iff.rfl⟩
  · obtain ⟨hmet, hwaiting, hvisited, hfresh⟩ := h.meet_node fresh hs
    rw [hfresh, Tree.fresh]
    by_cases hm : id ∈ met
    · rw [if_pos hm, if_neg (fun hc => hc.2 hm)]
      refine ⟨met, hmet.congr fun a => ?_, hwaiting, hvisited, rfl, fun a => Iff.rfl⟩
      rw [List.mem_cons]
      exact ⟨fun ha => ha.elim (fun ha => ha ▸ hm) (fun ha => ha), .inr⟩
    · rw [if_neg hm, if_pos ⟨hsome, hm⟩]
      refine ⟨id :: met, hmet, hwaiting, hvisited, by simp, fun a => ?_⟩
      simp only [List.mem_append, List.mem_cons]
      tauto

/-- **The values of a node are interned up to the first that offends**, and the nodes that are new
among them are those of the visit order. -/
theorem HasMet.meetAll {w : Walk} {met : List NodeId} (h : HasMet tree w met)
    (fresh : List NodeId) (vs : List Value) :
    (∀ e, vs.findSome? tree.offence? = some e → w.meetAll fresh vs = .error e) ∧
      (vs.findSome? tree.offence? = none →
        ∃ w', w.meetAll fresh vs = .ok (w', (tree.fresh met vs).reverse ++ fresh) ∧
          HasMet tree w' (tree.fresh met vs ++ met) ∧ w'.waiting = w.waiting ∧
          w'.visited = w.visited) := by
  induction vs generalizing w met fresh with
  | nil =>
    refine ⟨fun e he => ?_, fun _ => ⟨w, rfl, h, rfl, rfl⟩⟩
    simp at he
  | cons v vs ih =>
    unfold Walk.meetAll
    rw [h.tree_eq, List.findSome?_cons]
    cases hs : Slot.ofValue tree v with
    | error cause =>
      rw [Tree.ofValue_eq_error_iff.mp hs]
      refine ⟨fun e he => ?_, fun he => ?_⟩
      · rw [Option.some.inj he]
      · cases he
    | ok slot =>
      rw [Tree.exists_ofValue_iff.mp ⟨slot, hs⟩]
      obtain ⟨met', hmet, hwaiting, hvisited, hfresh, hmem⟩ := h.meet fresh hs vs
      obtain ⟨herror, hok⟩ := ih hmet (w.meet fresh slot).2
      refine ⟨herror, fun hnone => ?_⟩
      obtain ⟨w', hrun, hmet', hwaiting', hvisited'⟩ := hok hnone
      rw [hfresh] at hrun
      exact ⟨w', hrun, hmet'.congr hmem, hwaiting'.trans hwaiting, hvisited'.trans hvisited⟩

/-- **A visit** moves the walk on as it moves the visit order on, if no value of the node
offends. -/
theorem HasMet.visit {met : List NodeId} (h : HasMet tree w met) {id : NodeId} (hid : id ∈ met)
    (hsome : (tree.node? id).isSome) :
    (∀ e, tree.nodeOffence? id = some e → w.visit id = .error e) ∧
      (tree.nodeOffence? id = none →
        ∃ w', w.visit id = .ok w' ∧ HasMet tree w' (tree.fresh met (tree.children id) ++ met) ∧
          w'.waiting = tree.fresh met (tree.children id) ++ w.waiting ∧
          w'.visited = w.visited.push id) := by
  obtain ⟨node, hn⟩ := Option.isSome_iff_exists.mp hsome
  rw [Tree.nodeOffence?, Tree.children_of_node? hn]
  unfold Walk.visit
  rw [h.tree_eq, hn]
  cases node with
  | object fields =>
    have h₀ : HasMet tree (w.registerShape fields) met := ⟨h.tree_eq, h.met_iff⟩
    obtain ⟨herror, hok⟩ := h₀.meetAll [] fields.values
    refine ⟨fun e he => ?_, fun hnone => ?_⟩
    · simp only [herror e he]
    · obtain ⟨w₁, hrun, hmet, hwaiting, hvisited⟩ := hok hnone
      simp only [hrun, List.append_nil, List.reverse_reverse]
      refine ⟨_, rfl, ?_, congrArg _ hwaiting, congrArg (Array.push · id) hvisited⟩
      exact hmet.again rfl (met_internObject w₁ id) (List.mem_append_right _ hid)
  | array items =>
    obtain ⟨herror, hok⟩ := h.meetAll [] items
    refine ⟨fun e he => ?_, fun hnone => ?_⟩
    · simp only [herror e he]
    · obtain ⟨w₁, hrun, hmet, hwaiting, hvisited⟩ := hok hnone
      simp only [hrun, List.append_nil, List.reverse_reverse]
      refine ⟨_, rfl, ?_, congrArg _ hwaiting, congrArg (Array.push · id) hvisited⟩
      exact hmet.again rfl (met_internArray w₁ id) (List.mem_append_right _ hid)

/-- **A walk follows the visit order**: it visits all of it, or stops at the first offence. -/
theorem run_follows {met waiting : List NodeId} (h : HasMet tree w met)
    (hw : w.waiting = waiting) (hwait : ∀ a ∈ waiting, a ∈ met ∧ (tree.node? a).isSome) :
    (∀ e, tree.firstOffence? (tree.visitFrom met waiting) = some e →
        w.run = .error ⟨w.visited.size + tree.soundVisits (tree.visitFrom met waiting), e⟩) ∧
      (tree.firstOffence? (tree.visitFrom met waiting) = none →
        ∃ w', w.run = .ok w' ∧
          w'.visited.toList = w.visited.toList ++ tree.visitFrom met waiting) := by
  fun_induction tree.visitFrom met waiting generalizing w with
  | case1 met =>
    refine ⟨fun e he => (nomatch he), fun _ => ⟨w, run_of_waiting_nil hw, ?_⟩⟩
    rw [List.append_nil]
  | case2 met id rest fresh =>
    rename_i ih
    obtain ⟨⟨hid, hsome⟩, hrest⟩ := List.forall_mem_cons.mp hwait
    have htaken : HasMet tree { w with waiting := rest } met := ⟨h.tree_eq, h.met_iff⟩
    obtain ⟨herror, hok⟩ := htaken.visit hid hsome
    rw [Tree.firstOffence?_cons, Tree.soundVisits_cons]
    cases hoff : tree.nodeOffence? id with
    | some cause =>
      refine ⟨fun e he => ?_, fun he => nomatch he⟩
      obtain rfl := Option.some.inj he
      exact run_of_visit_error hw (herror _ hoff)
    | none =>
      obtain ⟨w₁, hv, hmet, hwaiting, hvisited⟩ := hok hoff
      have hnext (a : NodeId) (ha : a ∈ fresh ++ rest) :
          a ∈ fresh ++ met ∧ (tree.node? a).isSome := by
        rcases List.mem_append.mp ha with ha | ha
        · exact ⟨List.mem_append_left _ ha, (Tree.mem_fresh.mp ha).2.1⟩
        · exact ⟨List.mem_append_right _ (hrest a ha).1, (hrest a ha).2⟩
      obtain ⟨ihe, ihok⟩ := ih hmet hwaiting hnext
      rw [Option.none_or, run_of_visit hw hv, if_pos Option.isNone_none]
      constructor
      · intro e he
        have hsize : w₁.visited.size = w.visited.size + 1 :=
          (congrArg Array.size hvisited).trans (Array.size_push id)
        rw [ihe e he, hsize, Nat.add_assoc, Nat.add_comm 1]
      · intro hnone
        obtain ⟨w', hrun, hvis⟩ := ihok hnone
        refine ⟨w', hrun, ?_⟩
        rw [hvis, hvisited, Array.toList_push, List.append_assoc]
        rfl

theorem hasMet_start (tree : Tree) (root : NodeId) : HasMet tree (start tree root) [root] where
  tree_eq := rfl
  met_iff := fun a => by rw [met_start, beq_iff_eq, List.mem_singleton]

/-- **The walk of a discovery** visits the nodes in the visit order, up to the first offence. -/
theorem run_start {root : NodeId} (hsome : (tree.node? root).isSome) :
    (∀ e, tree.firstOffence? (tree.visitOrder root) = some e →
        (start tree root).run = .error ⟨tree.soundVisits (tree.visitOrder root), e⟩) ∧
      (tree.firstOffence? (tree.visitOrder root) = none →
        ∃ w, (start tree root).run = .ok w ∧ w.visited.toList = tree.visitOrder root) := by
  have hwait (a : NodeId) (ha : a ∈ [root]) : a ∈ [root] ∧ (tree.node? a).isSome := by
    rw [List.mem_singleton.mp ha]
    exact ⟨List.mem_cons_self, hsome⟩
  obtain ⟨herror, hok⟩ := run_follows (hasMet_start tree root) rfl hwait
  refine ⟨fun e he => ?_, hok⟩
  rw [herror e he]
  exact congrArg (fun n => Except.error (Stopped.mk n e)) (Nat.zero_add _)

end Walk

end PackedTree
