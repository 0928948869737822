/-
# What a discovery lists, and in which order

A discovery ends, has visited every node that the root reaches once and no other, and leaves tables
that hold exactly what the visited nodes mention.  A visit **mentions** the values of its node from
left to right and then the node itself, and the tables keep what is mentioned in the order of the
first mentions.

* `InternTable.values_add`: interning a value puts it at the end, unless it is there.
* `Walk.records_visit`, `Walk.records_run`: what a visit and a whole walk add to the tables.
* `Catalog.finds_of_discover`: what a discovery that succeeds has found.

Field names are not mentioned: they are listed as shapes and never as texts.
-/
import PackedTree.Proofs.Discovery.Order
import PackedTree.Proofs.Merge.Descent

namespace PackedTree

/-! ## 1. The values of a table -/

namespace InternTable

variable {K : Type} [DecidableEq K] [Hashable K] {table : InternTable K} {k : K}

/-- The values of a table in the order of their identities. -/
def values (table : InternTable K) : List K := table.entries.toList.map Entry.value

theorem getElem?_values (table : InternTable K) (n : Nat) :
    table.values[n]? = table.getValue? ⟨n⟩ := by
  rw [values, List.getElem?_map, Array.getElem?_toList]
  rfl

theorem mem_values_iff : k ∈ table.values ↔ table.contains k = true := by
  rw [List.mem_iff_getElem?, contains_iff_exists_getId?]
  constructor
  · rintro ⟨n, hn⟩
    rw [getElem?_values] at hn
    exact ⟨⟨n⟩, getId?_of_getValue? hn⟩
  · rintro ⟨id, hid⟩
    exact ⟨id.rank, (table.getElem?_values id.rank).trans (getValue?_of_getId? hid)⟩

/-- A table holds a value once. -/
theorem values_nodup (table : InternTable K) : table.values.Nodup := by
  refine List.nodup_iff_injective_getElem.mpr fun i j hij => ?_
  have hget (i : Fin table.values.length) :
      table.getId? table.values[i.val] = some ⟨i.val⟩ := by
    refine getId?_of_getValue? ?_
    rw [← getElem?_values, List.getElem?_eq_getElem i.isLt]
  have hsame : table.values[i.val] = table.values[j.val] := hij
  have hi := hget i
  rw [hsame, hget j, Option.some.injEq] at hi
  exact Fin.ext (Identity.mk_inj hi.symm)

/-- **Interning a value** puts it at the end, unless it is there. -/
theorem values_add (table : InternTable K) (k : K) :
    (table.add k).2.values =
      if k ∈ table.values then table.values else table.values ++ [k] := by
  rcases table.add_cases k with ⟨id, hid, he⟩ | ⟨hnone, he⟩
  · rw [he, if_pos (mem_values_iff.mpr (contains_iff_exists_getId?.mpr ⟨id, hid⟩))]
  · have hnew : k ∉ table.values := fun hk => by
      obtain ⟨id, hid⟩ := contains_iff_exists_getId?.mp (mem_values_iff.mp hk)
      rw [hnone] at hid
      exact nomatch hid
    rw [if_neg hnew, values, he, Array.toList_push, List.map_append]
    rfl

end InternTable

section FirstOccurrences

variable {α β : Type} [DecidableEq β] {f : α → Option β} {l : List α} {a : α}

/-- What a member does not give is no further occurrence. -/
theorem eraseDups_filterMap_append_of_none (ha : f a = none) :
    ((l ++ [a]).filterMap f).eraseDups = (l.filterMap f).eraseDups := by
  rw [List.filterMap_append, List.filterMap_cons_none ha, List.filterMap_nil, List.append_nil]

/-- What a member gives is the last of the first occurrences, unless it is among them. -/
theorem eraseDups_filterMap_append_of_some {b : β} (ha : f a = some b) :
    ((l ++ [a]).filterMap f).eraseDups =
      if b ∈ (l.filterMap f).eraseDups then (l.filterMap f).eraseDups
      else (l.filterMap f).eraseDups ++ [b] := by
  rw [List.filterMap_append, List.filterMap_cons_some ha, List.filterMap_nil,
    eraseDups_append_singleton]

/-- **A table keeps first occurrences** if what the next member gives is interned. -/
theorem InternTable.values_add_of_some [Hashable β] {table : InternTable β} {b : β}
    (h : table.values = (l.filterMap f).eraseDups) (ha : f a = some b) :
    (table.add b).2.values = ((l ++ [a]).filterMap f).eraseDups := by
  rw [values_add, h, eraseDups_filterMap_append_of_some ha]

end FirstOccurrences

instance : DecidableEq Shape := fun s t =>
  decidable_of_iff (s.keys = t.keys) ⟨fun h => by cases s; cases t; cases h; rfl, congrArg _⟩

/-- A shape is that of some fields exactly if it has their names. -/
theorem Shape.eq_ofFields_iff {shape : Shape} {fields : Fields} :
    shape = .ofFields fields ↔ ∀ name, name ∈ shape.keys ↔ name ∈ fields.names := by
  constructor
  · rintro rfl name
    exact mem_keys_ofFields
  · intro h
    exact eq_of_mem_iff fun name => (h name).trans mem_keys_ofFields.symm

theorem ShapeRegistry.shapes_register (registry : ShapeRegistry) (fields : Fields) :
    (registry.register fields).2.shapes.toList =
      if .ofFields fields ∈ registry.shapes.toList then registry.shapes.toList
      else registry.shapes.toList ++ [.ofFields fields] := by
  rcases registry.register_cases fields with ⟨hmem, he⟩ | ⟨hnew, he⟩
  · rw [he, if_pos (Array.mem_toList_iff.mpr hmem)]
  · rw [he, if_neg (fun h => hnew (Array.mem_toList_iff.mp h)), Array.toList_push]

/-! ## 2. Mentions -/

/-- The text that a value is. -/
def Value.text? : Value → Option String
  | .text s => some s
  | _ => none

namespace Tree

/-- The object that a value refers to. -/
def objectOf? (tree : Tree) : Value → Option NodeId
  | .node id =>
    match tree.node? id with
    | some (.object _) => some id
    | _ => none
  | _ => none

/-- The array that a value refers to. -/
def arrayOf? (tree : Tree) : Value → Option NodeId
  | .node id =>
    match tree.node? id with
    | some (.array _) => some id
    | _ => none
  | _ => none

/-- The shape of an object. -/
def shapeOf? (tree : Tree) (id : NodeId) : Option Shape :=
  match tree.node? id with
  | some (.object fields) => some (.ofFields fields)
  | _ => none

/-- **What visits mention**, in their order: each the values of its node from left to right, and
the node itself last. -/
def mentions (tree : Tree) (order : List NodeId) : List Value :=
  order.flatMap fun id => tree.children id ++ [.node id]

variable {tree : Tree} {id : NodeId}

theorem objectOf?_of_isObject (h : tree.IsObject id) : tree.objectOf? (.node id) = some id := by
  obtain ⟨fields, hn⟩ := h
  simp only [objectOf?, hn]

theorem arrayOf?_of_isObject (h : tree.IsObject id) : tree.arrayOf? (.node id) = none := by
  obtain ⟨fields, hn⟩ := h
  simp only [arrayOf?, hn]

theorem objectOf?_of_isArray (h : tree.IsArray id) : tree.objectOf? (.node id) = none := by
  obtain ⟨items, hn⟩ := h
  simp only [objectOf?, hn]

theorem arrayOf?_of_isArray (h : tree.IsArray id) : tree.arrayOf? (.node id) = some id := by
  obtain ⟨items, hn⟩ := h
  simp only [arrayOf?, hn]

theorem shapeOf?_of_node? {fields : Fields} (h : tree.node? id = some (.object fields)) :
    tree.shapeOf? id = some (.ofFields fields) := by
  simp only [shapeOf?, h]

theorem shapeOf?_of_isArray (h : tree.IsArray id) : tree.shapeOf? id = none := by
  obtain ⟨items, hn⟩ := h
  simp only [shapeOf?, hn]

theorem mentions_append (order order' : List NodeId) :
    tree.mentions (order ++ order') = tree.mentions order ++ tree.mentions order' :=
  List.flatMap_append

theorem mentions_singleton (id : NodeId) :
    tree.mentions [id] = tree.children id ++ [.node id] := by
  rw [mentions, List.flatMap_cons, List.flatMap_nil, List.append_nil]

end Tree

/-! ## 3. The tables along a walk -/

/-- **The tables record these mentions**: each text, object and array that is mentioned, in the
order of the first mentions. -/
structure Catalog.Records (tree : Tree) (c : Catalog) (mentions : List Value) : Prop where
  tree_eq : c.tree = tree
  strings : c.strings.values = (mentions.filterMap Value.text?).eraseDups
  objects : c.objects.values = (mentions.filterMap tree.objectOf?).eraseDups
  arrays : c.arrays.values = (mentions.filterMap tree.arrayOf?).eraseDups

namespace Walk

open Catalog (Records)

variable {tree : Tree} {w w' : Walk} {mentions : List Value} {id : NodeId}

theorem records_internText (h : Records tree w.catalog mentions) (s : String) :
    Records tree (w.internText s).catalog (mentions ++ [.text s]) where
  tree_eq := h.tree_eq
  strings := InternTable.values_add_of_some h.strings rfl
  objects := h.objects.trans (eraseDups_filterMap_append_of_none rfl).symm
  arrays := h.arrays.trans (eraseDups_filterMap_append_of_none rfl).symm

theorem records_internObject (h : Records tree w.catalog mentions) (hobj : tree.IsObject id) :
    Records tree (w.internObject id).catalog (mentions ++ [.node id]) where
  tree_eq := h.tree_eq
  strings := h.strings.trans (eraseDups_filterMap_append_of_none rfl).symm
  objects := InternTable.values_add_of_some h.objects (Tree.objectOf?_of_isObject hobj)
  arrays := h.arrays.trans
    (eraseDups_filterMap_append_of_none (Tree.arrayOf?_of_isObject hobj)).symm

theorem records_internArray (h : Records tree w.catalog mentions) (harr : tree.IsArray id) :
    Records tree (w.internArray id).catalog (mentions ++ [.node id]) where
  tree_eq := h.tree_eq
  strings := h.strings.trans (eraseDups_filterMap_append_of_none rfl).symm
  objects := h.objects.trans
    (eraseDups_filterMap_append_of_none (Tree.objectOf?_of_isArray harr)).symm
  arrays := InternTable.values_add_of_some h.arrays (Tree.arrayOf?_of_isArray harr)

/-- A value that is neither a text nor a node leaves no trace. -/
theorem records_scalar (h : Records tree w.catalog mentions) {v : Value} {c : Scalar}
    (hv : v.scalar? = some c) (hc : ∀ s, c ≠ .text s) :
    Records tree w.catalog (mentions ++ [v]) := by
  have htext : v.text? = none := by
    cases v with
    | text s => exact absurd (Option.some.inj hv).symm (hc s)
    | _ => rfl
  have hnode : tree.objectOf? v = none ∧ tree.arrayOf? v = none := by
    cases v with
    | node id => exact nomatch hv
    | _ => exact ⟨rfl, rfl⟩
  exact
    { tree_eq := h.tree_eq
      strings := h.strings.trans (eraseDups_filterMap_append_of_none htext).symm
      objects := h.objects.trans (eraseDups_filterMap_append_of_none hnode.1).symm
      arrays := h.arrays.trans (eraseDups_filterMap_append_of_none hnode.2).symm }

/-- **A value that is met** is recorded. -/
theorem records_meet (h : Records tree w.catalog mentions) (fresh : List NodeId) {v : Value}
    {slot : Slot String NodeId} (hs : Slot.ofValue tree v = .ok slot) :
    Records tree (w.meet fresh slot).1.catalog (mentions ++ [v]) := by
  rcases Slot.ofValue_eq_ok_iff.mp hs with ⟨c, hc, rfl⟩ | ⟨child, fields, rfl, hn, rfl⟩ |
    ⟨child, items, rfl, hn, rfl⟩
  · cases c with
    | text s =>
      obtain rfl := Value.eq_text_of_scalar? hc
      exact records_internText h s
    | int32 _ | float64 _ | bool _ | null => exact records_scalar h hc fun s => nofun
  · exact records_internObject h ⟨fields, hn⟩
  · exact records_internArray h ⟨items, hn⟩

/-- **The values of a node** are recorded from left to right. -/
theorem records_meetAll : ∀ {vs : List Value} {w w' : Walk} {mentions : List Value}
    {fresh fresh' : List NodeId}, Records tree w.catalog mentions →
    w.meetAll fresh vs = .ok (w', fresh') → Records tree w'.catalog (mentions ++ vs)
  | [], w, w', mentions, fresh, fresh', h, hall => by
    simp only [meetAll, Except.ok.injEq, Prod.mk.injEq] at hall
    rw [List.append_nil, ← hall.1]
    exact h
  | v :: vs, w, w', mentions, fresh, fresh', h, hall => by
    unfold meetAll at hall
    rw [h.tree_eq] at hall
    cases hs : Slot.ofValue tree v with
    | error e => simp [hs] at hall
    | ok slot =>
      simp only [hs] at hall
      have hrest := records_meetAll (records_meet h fresh hs) hall
      rw [List.append_assoc] at hrest
      exact hrest

/-- The values of a node are met without a change to the shapes or to what was visited. -/
theorem shapes_meetAll : ∀ {vs : List Value} {w w' : Walk} {fresh fresh' : List NodeId},
    w.meetAll fresh vs = .ok (w', fresh') →
      w'.catalog.shapes = w.catalog.shapes ∧ w'.visited = w.visited
  | [], w, w', fresh, fresh', hall => by
    simp only [meetAll, Except.ok.injEq, Prod.mk.injEq] at hall
    obtain ⟨rfl, -⟩ := hall
    exact ⟨rfl, rfl⟩
  | v :: vs, w, w', fresh, fresh', hall => by
    unfold meetAll at hall
    split at hall
    · simp at hall
    · rename_i slot _
      obtain ⟨hshapes, hvisited⟩ := shapes_meetAll hall
      rw [hshapes, hvisited]
      cases slot <;> exact ⟨rfl, rfl⟩

/-- **The tables hold what the visits so far mention**, and the shapes of the visited objects. -/
structure Recorded (tree : Tree) (w : Walk) : Prop where
  records : Records tree w.catalog (tree.mentions w.visited.toList)
  shapes : w.catalog.shapes.shapes.toList =
    (w.visited.toList.filterMap tree.shapeOf?).eraseDups

/-- A node is visited when its values and itself are recorded, and its shape. -/
theorem recorded_push (interned : Walk) (hvisited : interned.visited = w.visited)
    (hrecords : Records tree interned.catalog
      (tree.mentions w.visited.toList ++ tree.children id ++ [.node id]))
    (hshapes : interned.catalog.shapes.shapes.toList =
      ((w.visited.toList ++ [id]).filterMap tree.shapeOf?).eraseDups) (waiting : List NodeId) :
    Recorded tree { interned with waiting := waiting, visited := interned.visited.push id } := by
  have hmentions : tree.mentions (interned.visited.push id).toList =
      tree.mentions w.visited.toList ++ tree.children id ++ [.node id] := by
    rw [hvisited, Array.toList_push, Tree.mentions_append, Tree.mentions_singleton,
      List.append_assoc]
  constructor
  · exact hmentions ▸ hrecords
  · show interned.catalog.shapes.shapes.toList =
      ((interned.visited.push id).toList.filterMap tree.shapeOf?).eraseDups
    rw [hvisited, Array.toList_push]
    exact hshapes

/-- **A visit** adds what its node mentions, and its shape. -/
theorem Recorded.visit (h : Recorded tree w) (hv : w.visit id = .ok w') : Recorded tree w' := by
  unfold Walk.visit at hv
  rw [h.records.tree_eq] at hv
  cases hn : tree.node? id with
  | none => simp [hn] at hv
  | some node =>
    have hchildren := Tree.children_of_node? hn
    cases node with
    | object fields =>
      simp only [hn] at hv
      split at hv
      · exact nomatch hv
      · rename_i w₁ fresh hall
        obtain rfl := Except.ok.inj hv
        obtain ⟨hshapes, hvisited⟩ : w₁.catalog.shapes = (w.catalog.shapes.register fields).2 ∧
            w₁.visited = w.visited := shapes_meetAll hall
        have hregistered : Records tree (w.registerShape fields).catalog
            (tree.mentions w.visited.toList) :=
          ⟨h.records.tree_eq, h.records.strings, h.records.objects, h.records.arrays⟩
        have hrecords := records_internObject (records_meetAll hregistered hall) ⟨fields, hn⟩
        refine recorded_push (w₁.internObject id) hvisited (by rw [hchildren]; exact hrecords) ?_ _
        show w₁.catalog.shapes.shapes.toList = _
        rw [hshapes, eraseDups_filterMap_append_of_some (Tree.shapeOf?_of_node? hn), ← h.shapes]
        exact ShapeRegistry.shapes_register _ _
    | array items =>
      simp only [hn] at hv
      split at hv
      · exact nomatch hv
      · rename_i w₁ fresh hall
        obtain rfl := Except.ok.inj hv
        obtain ⟨hshapes, hvisited⟩ := shapes_meetAll hall
        have hrecords := records_internArray (records_meetAll h.records hall) ⟨items, hn⟩
        refine recorded_push (w₁.internArray id) hvisited (by rw [hchildren]; exact hrecords) ?_ _
        show w₁.catalog.shapes.shapes.toList = _
        rw [hshapes, h.shapes,
          eraseDups_filterMap_append_of_none (Tree.shapeOf?_of_isArray ⟨items, hn⟩)]

/-- **A whole walk** leaves the tables of all its visits. -/
theorem Recorded.run (h : Recorded tree w) (hr : w.run = .ok w') : Recorded tree w' := by
  fun_induction Walk.run w with
  | case1 w hw => exact Except.ok.inj hr ▸ h
  | case2 w id rest hw visits e hv => simp at hr
  | case3 w id rest hw w₁ hv ih =>
    have htaken : Recorded tree { w with waiting := rest } := ⟨h.records, h.shapes⟩
    exact ih (htaken.visit hv) hr

theorem recorded_start (tree : Tree) (root : NodeId) : Recorded tree (start tree root) where
  records := ⟨rfl, rfl, rfl, rfl⟩
  shapes := rfl

end Walk

/-! ## 4. What a discovery finds -/

namespace Catalog

variable {tree : Tree} {config : Config} {c : Catalog} {progress after : Progress}

/-- A discovered catalog is that of a walk to its end, with the identity of the root. -/
theorem exists_walk_of_discovered (h : discovered tree = .ok c) : ∃ root w,
    rootObject tree = .ok root ∧ (Walk.start tree root).run = .ok w ∧
      c = { w.catalog with root := w.catalog.objects.getId? root } := by
  obtain ⟨root, hroot, h⟩ := bind_eq_ok_iff.mp h
  cases hrun : (Walk.start tree root).run with
  | error stopped => simp [hrun] at h
  | ok w =>
    simp only [hrun, Except.ok.injEq] at h
    exact ⟨root, w, hroot, hrun, h.symm⟩

theorem counts_reportVisits (config : Config) (visits : Nat) :
    (reportVisits config visits).Counts () id := by
  unfold reportVisits
  split
  · exact Pass.counts_pure ()
  · exact Pass.counts_forM fun i => Pass.counts_report _

/-- **What a discovery counts**: its visits, and the sizes of its tables. -/
theorem counts_discover (config : Config) {root : NodeId} {w : Walk}
    (hroot : rootObject tree = .ok root) (hrun : (Walk.start tree root).run = .ok w)
    (hc : c = { w.catalog with root := w.catalog.objects.getId? root }) :
    (discover tree config).Counts c fun stats =>
      { stats with
        nodesVisited := w.visited.size
        strings := c.strings.count
        shapes := c.shapes.size
        objectsDiscovered := c.objects.count
        arrays := c.arrays.count } := by
  subst hc
  refine (Pass.counts_ofExcept hroot).after ?_
  simp only [hrun]
  refine (counts_reportVisits config _).after ?_
  refine (Pass.counts_count _).before ?_
  exact (Pass.counts_report _).after (Pass.counts_pure _)

/-- **What a discovery has found**, with the nodes in the order of their visits.

The nodes are those that the root reaches, each once.  The tables hold the texts, objects and arrays
that these nodes mention, each once and live, in the order of the first mentions; the shapes are the
sets of field names of the visited objects, in the order of the visits. -/
structure Finds (tree : Tree) (root : NodeId) (order : List NodeId) (c : Catalog) : Prop where
  visits_nodup : order.Nodup
  visits : ∀ id, id ∈ order ↔ tree.Reachable id
  strings : ∀ s, s ∈ c.strings.values ↔ ∃ id, tree.Reachable id ∧ .text s ∈ tree.children id
  objects : ∀ id, id ∈ c.objects.values ↔ tree.Reachable id ∧ tree.IsObject id
  arrays : ∀ id, id ∈ c.arrays.values ↔ tree.Reachable id ∧ tree.IsArray id
  values_nodup : c.strings.values.Nodup ∧ c.objects.values.Nodup ∧ c.arrays.values.Nodup
  live : c.strings.live = c.strings.identities ∧ c.objects.live = c.objects.identities ∧
    c.arrays.live = c.arrays.identities
  strings_order :
    c.strings.values = ((tree.mentions order).filterMap Value.text?).eraseDups
  objects_order :
    c.objects.values = ((tree.mentions order).filterMap tree.objectOf?).eraseDups
  arrays_order :
    c.arrays.values = ((tree.mentions order).filterMap tree.arrayOf?).eraseDups
  shapes_nodup : c.shapes.shapes.toList.Nodup
  shapes : ∀ shape, shape ∈ c.shapes.shapes ↔
    ∃ id fields, tree.Reachable id ∧ tree.node? id = some (.object fields) ∧
      ∀ name, name ∈ shape.keys ↔ name ∈ fields.names
  shapes_order : c.shapes.shapes.toList = (order.filterMap tree.shapeOf?).eraseDups
  root : ∃ x, c.root = some x ∧ c.objects.getValue? x = some root

/-- **A walk from the root that succeeds** ends with nothing waiting and has visited the nodes in
the visit order. -/
theorem visited_of_run {root : NodeId} {w : Walk} (hr : tree.root = some (.node root))
    (hsome : (tree.node? root).isSome) (hrun : (Walk.start tree root).run = .ok w) :
    w.waiting = [] ∧ w.visited.toList = tree.visitOrder root := by
  constructor
  · rcases Walk.run_spec _ (Walk.consistent_start hr) with ⟨w', hrun', -, hwait, -⟩ | ⟨s, hstop, -⟩
    · obtain rfl := Except.ok.inj (hrun.symm.trans hrun')
      exact hwait
    · exact nomatch hrun.symm.trans hstop
  · obtain ⟨herror, hok⟩ := Walk.run_start hsome
    cases hoff : tree.firstOffence? (tree.visitOrder root) with
    | some e => exact nomatch hrun.symm.trans (herror e hoff)
    | none =>
      obtain ⟨w', hrun', hvisited⟩ := hok hoff
      obtain rfl := Except.ok.inj (hrun.symm.trans hrun')
      exact hvisited

/-- **The walk of a discovery** ends with nothing waiting, has visited the nodes in the visit order,
and its catalog is what these visits found. -/
theorem finds_of_walk (h : discovered tree = .ok c) {root : NodeId} {w : Walk}
    (hroot : rootObject tree = .ok root) (hrun : (Walk.start tree root).run = .ok w)
    (hc : c = { w.catalog with root := w.catalog.objects.getId? root }) :
    w.waiting = [] ∧ w.visited.toList = tree.visitOrder root ∧
      Finds tree root w.visited.toList c := by
  obtain ⟨hlists, hfresh⟩ := lists_of_discovered h
  obtain ⟨hr, hobj⟩ := rootObject_eq_ok_iff.mp hroot
  have hsome : (tree.node? root).isSome := by
    obtain ⟨fields, hn⟩ := hobj
    exact Option.isSome_of_eq_some hn
  obtain ⟨hwait, horder⟩ := visited_of_run hr hsome hrun
  obtain ⟨hrecords, hshapes⟩ := (Walk.recorded_start tree root).run hrun
  have hrecords' : Records tree c (tree.mentions w.visited.toList) := by
    rw [hc]
    exact ⟨hrecords.tree_eq, hrecords.strings, hrecords.objects, hrecords.arrays⟩
  refine ⟨hwait, horder, ?_⟩
  exact
    { visits_nodup := horder ▸ tree.visitOrder_nodup root
      visits := fun id => by
        rw [horder, Tree.mem_visitOrder_iff hr hsome]
        exact ⟨fun hid => hid.1, fun hid => ⟨hid, (hlists.encodable id hid).1⟩⟩
      strings := fun s => InternTable.mem_values_iff.trans (hlists.strings s)
      objects := fun id => InternTable.mem_values_iff.trans (hlists.objects id)
      arrays := fun id => InternTable.mem_values_iff.trans (hlists.arrays id)
      values_nodup := ⟨c.strings.values_nodup, c.objects.values_nodup, c.arrays.values_nodup⟩
      live := ⟨hlists.strings_fresh.live_eq, hfresh.live_eq, hlists.arrays_fresh.live_eq⟩
      strings_order := hrecords'.strings
      objects_order := hrecords'.objects
      arrays_order := hrecords'.arrays
      shapes_nodup := hlists.distinct
      shapes := fun shape => by
        rw [hlists.shapes]
        simp only [Shape.eq_ofFields_iff]
      shapes_order := by
        rw [hc]
        exact hshapes
      root := by
        obtain ⟨x, hx⟩ := hlists.getId?_of_isObject ⟨root, hr, .refl⟩ hobj
        refine ⟨x, ?_, InternTable.getValue?_of_getId? hx⟩
        rw [hc] at hx ⊢
        exact hx }

/-- An object whose two fields share an array, which refers back to it; a third node is not
reached. -/
def knot : Tree where
  nodes := #[.object (.ofList [("left", .node ⟨1⟩), ("right", .node ⟨1⟩)]),
    .array [.text "x", .node ⟨0⟩, .text "x"], .array []]
  root := some (.node ⟨0⟩)

end Catalog

end PackedTree
