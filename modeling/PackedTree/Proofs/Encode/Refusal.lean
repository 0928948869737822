/-
# Which trees are refused

A tree is refused by its discovery or not at all: what comes after the discovery looks up only what
the discovery has entered, so nothing but the size of the artifact can stop it.

* `Tree.Refused`: the trees that are refused, and why.  It is said of the tree alone, with the
  first offence in the visit order as the cause.
* `Catalog.discovered_eq_error_iff`: a discovery fails exactly so.
* `Catalog.discover_eq_of_same`: a failure depends on nothing but what the root reaches.
* `Artifact.write_fails`: an artifact with a root is refused for its size only.
-/
import PackedTree.Proofs.Discovery.Order
import PackedTree.Proofs.Renaming.Encode
import PackedTree.Proofs.Wire.Limit

namespace PackedTree

variable {tree other : Tree}

/-- The name of a scalar's kind in messages. -/
def Scalar.kindName : Scalar → String
  | text _ => "string"
  | int32 _ => "int"
  | float64 _ => "double"
  | bool true => "true"
  | bool false => "false"
  | null => "null"

namespace Tree

/-! ## 1. Refused trees -/

/-- **Why a tree is refused.**  The root has to be an object, and nothing that is visited from it may
offend; of several offences the first in the visit order counts. -/
inductive Refused (tree : Tree) : EncodeError → Prop where
  | missing (h : tree.root = none) : Refused tree (.invalidRoot "nothing")
  | scalar {v : Value} {s : Scalar} (h : tree.root = some v) (hs : v.scalar? = some s) :
      Refused tree (.invalidRoot s.kindName)
  | array {root : NodeId} (h : tree.root = some (.node root)) (harray : tree.IsArray root) :
      Refused tree (.invalidRoot "array")
  | root {v : Value} {e : EncodeError} (h : tree.root = some v) (he : tree.offence? v = some e) :
      Refused tree e
  | visited {root : NodeId} {e : EncodeError} (h : tree.root = some (.node root))
      (hobj : tree.IsObject root) (he : tree.firstOffence? (tree.visitOrder root) = some e) :
      Refused tree e

theorem not_isArray_of_isObject {id : NodeId} (h : tree.IsObject id) : ¬tree.IsArray id := by
  obtain ⟨fields, hf⟩ := h
  rintro ⟨items, hi⟩
  rw [hf] at hi
  exact nomatch hi

theorem isSome_of_isObject {id : NodeId} (h : tree.IsObject id) : (tree.node? id).isSome := by
  obtain ⟨fields, hn⟩ := h
  exact Option.isSome_of_eq_some hn

theorem offence?_of_isObject {id : NodeId} (h : tree.IsObject id) :
    tree.offence? (.node id) = none := if_pos (isSome_of_isObject h)

/-- A first offence is there exactly if some value offends. -/
theorem exists_firstOffence?_iff {order : List NodeId} :
    (∃ e, tree.firstOffence? order = some e) ↔
      ∃ id ∈ order, ∃ v ∈ tree.children id, (tree.offence? v).isSome := by
  simp only [firstOffence?, nodeOffence?, ← Option.isSome_iff_exists, List.findSome?_isSome_iff]

/-- With an object at the root, only what is visited can offend. -/
theorem refused_iff_of_isObject {root : NodeId} (hr : tree.root = some (.node root))
    (hobj : tree.IsObject root) {e : EncodeError} :
    tree.Refused e ↔ tree.firstOffence? (tree.visitOrder root) = some e := by
  constructor
  · intro h
    cases h with
    | missing h =>
      rw [hr] at h
      exact nomatch h
    | scalar h hs =>
      obtain rfl := Option.some.inj (hr.symm.trans h)
      exact nomatch hs
    | array h harray =>
      obtain rfl := Value.node.inj (Option.some.inj (hr.symm.trans h))
      exact absurd harray (not_isArray_of_isObject hobj)
    | root h he =>
      obtain rfl := Option.some.inj (hr.symm.trans h)
      rw [offence?_of_isObject hobj] at he
      exact nomatch he
    | visited h _ he =>
      obtain rfl := Value.node.inj (Option.some.inj (hr.symm.trans h))
      exact he
  · exact .visited hr hobj

/-- Without an object at the root, a tree is refused. -/
theorem exists_refused_of_root
    (h : ¬∃ root, tree.root = some (.node root) ∧ tree.IsObject root) :
    ∃ e, tree.Refused e := by
  cases hr : tree.root with
  | none => exact ⟨_, .missing hr⟩
  | some v =>
    cases ho : tree.offence? v with
    | some e => exact ⟨e, .root hr ho⟩
    | none =>
      obtain ⟨slot, hslot⟩ := exists_ofValue_iff.mpr ho
      rcases Slot.ofValue_eq_ok_iff.mp hslot with ⟨s, hs, -⟩ | ⟨id, fields, rfl, hn, -⟩ |
        ⟨id, items, rfl, hn, -⟩
      · exact ⟨_, .scalar hr hs⟩
      · exact absurd ⟨id, hr, fields, hn⟩ h
      · exact ⟨_, .array hr ⟨items, hn⟩⟩

/-- **Which trees are refused**: those without an object at the root, and those whose root reaches a
value that offends. -/
theorem exists_refused_iff : (∃ e, tree.Refused e) ↔
    (¬∃ root, tree.root = some (.node root) ∧ tree.IsObject root) ∨
      ∃ id, tree.Reachable id ∧ ∃ v ∈ tree.children id, (tree.offence? v).isSome := by
  by_cases hroot : ∃ root, tree.root = some (.node root) ∧ tree.IsObject root
  · obtain ⟨root, hr, hobj⟩ := hroot
    have hsome := isSome_of_isObject hobj
    simp only [refused_iff_of_isObject hr hobj, exists_firstOffence?_iff]
    constructor
    · rintro ⟨id, hid, h⟩
      exact .inr ⟨id, ((mem_visitOrder_iff hr hsome).mp hid).1, h⟩
    · rintro (hno | ⟨id, hid, v, hv, h⟩)
      · exact absurd ⟨root, hr, hobj⟩ hno
      · have hvisit := (mem_visitOrder_iff hr hsome).mpr ⟨hid, isSome_of_mem_children hv⟩
        exact ⟨id, hvisit, v, hv, h⟩
  · exact ⟨fun _ => .inl hroot, fun _ => exists_refused_of_root hroot⟩

/-! ## 2. Trees with the same reachable nodes -/

section Same

variable (hsame : ∀ id, tree.Reachable id → other.node? id = tree.node? id)
include hsame

theorem children_of_same {id : NodeId} (hid : tree.Reachable id) :
    other.children id = tree.children id := by
  rw [children, hsame id hid, children]

theorem ofValue_of_same {v : Value} (hv : v.Inside tree) :
    Slot.ofValue other v = Slot.ofValue tree v := by
  cases v with
  | node id => rw [Slot.ofValue, hsame id (hv id rfl), Slot.ofValue]
  | _ => rfl

theorem offence?_of_same {v : Value} (hv : v.Inside tree) : other.offence? v = tree.offence? v := by
  cases v with
  | node id => rw [offence?, hsame id (hv id rfl), offence?]
  | _ => rfl

theorem fresh_of_same {met : List NodeId} {vs : List Value} (hvs : ∀ v ∈ vs, v.Inside tree) :
    other.fresh met vs = tree.fresh met vs := by
  fun_induction tree.fresh met vs with
  | case1 met => rfl
  | case2 met id vs h ih =>
    obtain ⟨hid, hvs⟩ := List.forall_mem_cons.mp hvs
    rw [fresh, hsame id (hid id rfl), if_pos h, ih hvs]
  | case3 met id vs h ih =>
    obtain ⟨hid, hvs⟩ := List.forall_mem_cons.mp hvs
    rw [fresh, hsame id (hid id rfl), if_neg h, ih hvs]
  | case4 met v vs h ih =>
    rw [fresh, ih (List.forall_mem_cons.mp hvs).2]
    exact h

theorem visitFrom_of_same {met waiting : List NodeId} (hw : ∀ a ∈ waiting, tree.Reachable a) :
    other.visitFrom met waiting = tree.visitFrom met waiting := by
  fun_induction tree.visitFrom met waiting with
  | case1 met => rw [visitFrom]
  | case2 met id rest fresh ih =>
    obtain ⟨hid, hrest⟩ := List.forall_mem_cons.mp hw
    have hinside (v : Value) (hv : v ∈ tree.children id) : v.Inside tree := hid.inside hv
    have hnext (a : NodeId) (ha : a ∈ fresh ++ rest) : tree.Reachable a := by
      rcases List.mem_append.mp ha with ha | ha
      · exact hid.tail (mem_fresh.mp ha).1
      · exact hrest a ha
    rw [visitFrom, children_of_same hsame hid, fresh_of_same hsame hinside, ih hnext]

theorem nodeOffence?_of_same {id : NodeId} (hid : tree.Reachable id) :
    other.nodeOffence? id = tree.nodeOffence? id := by
  have hvalues : (tree.children id).filterMap other.offence? =
      (tree.children id).filterMap tree.offence? :=
    List.filterMap_congr fun v hv => offence?_of_same hsame (hid.inside hv)
  rw [nodeOffence?, children_of_same hsame hid, ← List.head?_filterMap, hvalues,
    List.head?_filterMap, nodeOffence?]

theorem firstOffence?_of_same {order : List NodeId} (horder : ∀ a ∈ order, tree.Reachable a) :
    other.firstOffence? order = tree.firstOffence? order ∧
      other.soundVisits order = tree.soundVisits order := by
  induction order with
  | nil => exact ⟨rfl, rfl⟩
  | cons id order ih =>
    obtain ⟨hid, horder⟩ := List.forall_mem_cons.mp horder
    obtain ⟨hfirst, hvisits⟩ := ih horder
    constructor
    · rw [firstOffence?_cons, firstOffence?_cons, nodeOffence?_of_same hsame hid, hfirst]
    · rw [soundVisits_cons, soundVisits_cons, nodeOffence?_of_same hsame hid, hvisits]

end Same

end Tree

/-! ## 3. Refused discoveries -/

namespace Catalog

theorem rootObject_of_same (hroot : other.root = tree.root)
    (hsame : ∀ id, tree.Reachable id → other.node? id = tree.node? id) :
    rootObject other = rootObject tree := by
  unfold rootObject
  rw [hroot]
  cases hr : tree.root with
  | none => rfl
  | some v =>
    have hv : v.Inside tree := by
      rintro id rfl
      exact ⟨id, hr, .refl⟩
    simp only [Tree.ofValue_of_same hsame hv]

/-- A tree whose root is no object is refused for that. -/
theorem rootObject_eq_error {e : EncodeError} (h : tree.Refused e)
    (hobj : ¬∃ root, tree.root = some (.node root) ∧ tree.IsObject root) :
    rootObject tree = .error e := by
  unfold rootObject
  cases h with
  | missing h => rw [h]
  | @scalar v s h hs =>
    simp only [h, Slot.ofValue_of_scalar? hs]
    cases s with
    | bool b => cases b <;> rfl
    | _ => rfl
  | @array root h harray =>
    obtain ⟨items, hn⟩ := harray
    have hs : Slot.ofValue tree (.node root) = .ok (.array root) :=
      Slot.ofValue_eq_ok_iff.mpr (.inr (.inr ⟨root, items, rfl, hn, rfl⟩))
    simp only [h, hs]
    rfl
  | root h he => simp only [h, Tree.ofValue_eq_error_iff.mpr he]
  | visited h hroot _ => exact absurd ⟨_, h, hroot⟩ hobj

/-- **A discovery fails exactly if the tree is refused**, with the cause of the refusal. -/
theorem discovered_eq_error_iff {e : EncodeError} :
    discovered tree = .error e ↔ tree.Refused e := by
  by_cases hroot : ∃ root, tree.root = some (.node root) ∧ tree.IsObject root
  · obtain ⟨root, hr, hobj⟩ := hroot
    obtain ⟨herror, hok⟩ := Walk.run_start (Tree.isSome_of_isObject hobj)
    rw [Tree.refused_iff_of_isObject hr hobj, discovered, rootObject_eq_ok_iff.mpr ⟨hr, hobj⟩]
    cases hoff : tree.firstOffence? (tree.visitOrder root) with
    | some cause => simp [bind, Except.bind, herror cause hoff]
    | none =>
      obtain ⟨w, hw, -⟩ := hok hoff
      simp [bind, Except.bind, hw]
  · have hcause {e : EncodeError} (h : tree.Refused e) : discovered tree = .error e := by
      rw [discovered, rootObject_eq_error h hroot]
      rfl
    refine ⟨fun h => ?_, hcause⟩
    obtain ⟨cause, hrefused⟩ := Tree.exists_refused_of_root hroot
    rw [hcause hrefused, Except.error.injEq] at h
    exact h ▸ hrefused

/-- **A failed discovery depends on nothing but what the root reaches**: it leaves the same counters
and events for any arena with the same reachable nodes. -/
theorem discover_eq_of_same (hroot : other.root = tree.root)
    (hsame : ∀ id, tree.Reachable id → other.node? id = tree.node? id) {e : EncodeError}
    (h : tree.Refused e) (config : Config) : discover other config = discover tree config := by
  unfold discover
  rw [rootObject_of_same hroot hsame]
  cases hr : rootObject tree with
  | error cause => rfl
  | ok root =>
    obtain ⟨hroot, hobj⟩ := rootObject_eq_ok_iff.mp hr
    have hreach : tree.Reachable root := ⟨root, hroot, .refl⟩
    have hsome := Tree.isSome_of_isObject hobj
    have horder : other.visitOrder root = tree.visitOrder root :=
      Tree.visitFrom_of_same hsame fun a ha => List.mem_singleton.mp ha ▸ hreach
    have hall (a : NodeId) (ha : a ∈ tree.visitOrder root) : tree.Reachable a :=
      ((Tree.mem_visitOrder_iff hroot hsome).mp ha).1
    obtain ⟨hfirst, hvisits⟩ := Tree.firstOffence?_of_same hsame hall
    have he := (Tree.refused_iff_of_isObject hroot hobj).mp h
    have hthere : (other.node? root).isSome := by
      rw [hsame root hreach]
      exact hsome
    have hother := (Walk.run_start hthere).1 e
    rw [horder, hfirst, hvisits] at hother
    simp only [Pass.ofExcept, pure_bind, hother he, (Walk.run_start hsome).1 e he]

end Catalog

/-! ## 4. Nothing but the size is refused later -/

/-- An artifact with a root is refused for its size only. -/
theorem Artifact.write_fails {a : Artifact} {root : Nat} (hroot : a.root = some root)
    {config : Config} {e : EncodeError} (h : a.write config = .error e) :
    ∃ cause, e = .capacityExceeded cause := by
  rw [write_of_root hroot] at h
  unfold runWrite at h
  split at h
  · exact nomatch h
  · exact ⟨_, (Except.error.inj h).symm⟩

namespace Catalog

variable {c : Catalog}

/-- **A catalog of a tree is listed**, in either order. -/
theorem Lists.exists_listing (h : c.Lists tree) (ordered : Bool) :
    ∃ text, (c.listing ordered).1 = .ok text := by
  obtain ⟨a, ha, -⟩ := h.exists_tables ordered
  exact ⟨a.listing, congrArg (Except.map Artifact.listing) ha⟩

/-- **A catalog of a tree is written** unless there is no room. -/
theorem Lists.serialize_fails (h : c.Lists tree) {config : Config} {progress : Progress}
    {e : EncodeError} (he : ((c.serialize config).1.outcome progress).1 = .error e) :
    ∃ cause, e = .capacityExceeded cause := by
  obtain ⟨a, ha, hstores⟩ := h.exists_tables config.ordered
  obtain ⟨root, i, -, -, hroot⟩ := hstores.root
  have hwrite := (gives_serialize_of_tables ha).eq he
  cases hw : a.write config with
  | error cause =>
    rw [hw] at hwrite
    obtain rfl := Except.error.inj hwrite
    exact Artifact.write_fails hroot hw
  | ok w =>
    rw [hw] at hwrite
    exact nomatch hwrite

/-! ## 5. Exactly which trees are refused -/

/-- **What the root does not reach has no effect** on whether a discovery fails, why, and what it
counts and reports. -/
theorem discover_of_same (hroot : other.root = tree.root)
    (hsame : ∀ id, tree.Reachable id → other.node? id = tree.node? id) (config : Config)
    (progress : Progress) :
    (∀ e, ((discover other config).outcome progress).1 = .error e ↔
      ((discover tree config).outcome progress).1 = .error e) ∧
    ((discover other config).outcome progress).2 = ((discover tree config).outcome progress).2 := by
  cases hd : discovered tree with
  | error e =>
    rw [discover_eq_of_same hroot hsame (discovered_eq_error_iff.mp hd) config]
    exact ⟨fun _ => Iff.rfl, rfl⟩
  | ok c =>
    have hgives := gives_discover tree config
    rw [hd] at hgives
    obtain ⟨after, hc⟩ := hgives.exists_ok progress
    obtain ⟨c', hc', -⟩ :=
      discover_agree (Tree.renames_of_same hroot hsame) config progress c after hc
    rw [Pass.outcome_of_ok hc, Pass.outcome_of_ok hc']
    exact ⟨fun e => ⟨fun h => (nomatch h), fun h => (nomatch h)⟩, rfl⟩

/-- It has no effect on an encoding in a fixed order either. -/
theorem encodePass_of_same (hroot : other.root = tree.root)
    (hsame : ∀ id, tree.Reachable id → other.node? id = tree.node? id) {config : Config}
    (hordered : config.ordered = true) : other.encodePass config = tree.encodePass config := by
  cases hd : discovered tree with
  | error e =>
    have heq := discover_eq_of_same hroot hsame (discovered_eq_error_iff.mp hd) config
    rw [Tree.encodePass, build, heq, Tree.encodePass, build]
  | ok c => exact Tree.encodePass_eq (Tree.renames_of_same hroot hsame) hordered hd

/-- **Exactly which trees are refused.**  A discovery fails for the cause of the refusal and for no
other: it fails exactly if there is no object at the root or the root reaches a value that offends,
and it names the first offence of its visits.  What the root does not reach has no effect.  Of a
discovered tree every catalog is merged and listed, and is written unless there is no room. -/
theorem discover_refuses (tree : Tree) (config : Config) (progress : Progress) :
    (∀ e, ((discover tree config).outcome progress).1 = .error e ↔ tree.Refused e) ∧
    ((∃ e, ((discover tree config).outcome progress).1 = .error e) ↔
      (¬∃ root, tree.root = some (.node root) ∧ tree.IsObject root) ∨
        ∃ id, tree.Reachable id ∧ ∃ v ∈ tree.children id, (tree.offence? v).isSome) ∧
    (∀ root, rootObject tree = .ok root →
      (tree.visitOrder root).Nodup ∧
      (∀ w, (Walk.start tree root).run = .ok w → w.visited.toList = tree.visitOrder root) ∧
      ∀ stopped, (Walk.start tree root).run = .error stopped →
        stopped.visits = tree.soundVisits (tree.visitOrder root)) ∧
    (∀ other : Tree, other.root = tree.root →
      (∀ id, tree.Reachable id → other.node? id = tree.node? id) →
        (∀ e, ((discover other config).outcome progress).1 = .error e ↔
          ((discover tree config).outcome progress).1 = .error e) ∧
        ((discover other config).outcome progress).2 =
          ((discover tree config).outcome progress).2 ∧
        (config.ordered = true → other.encodePass config = tree.encodePass config)) ∧
    ∀ c : Catalog, c.Obtained tree →
      (∃ count merged, (c.mergeObjects.outcome progress).1 = .ok (count, merged)) ∧
      (∃ text, (c.listing config.ordered).1 = .ok text) ∧
      ∀ e, ((c.serialize config).1.outcome progress).1 = .error e →
        ∃ cause, e = .capacityExceeded cause := by
  have hrefuses (e : EncodeError) :
      ((discover tree config).outcome progress).1 = .error e ↔ tree.Refused e := by
    rw [gives_discover tree config, discovered_eq_error_iff]
  refine ⟨hrefuses, ?_, ?_, ?_, ?_⟩
  · simp only [hrefuses, Tree.exists_refused_iff]
  · intro root hroot
    obtain ⟨-, hobj⟩ := rootObject_eq_ok_iff.mp hroot
    obtain ⟨herror, hok⟩ := Walk.run_start (Tree.isSome_of_isObject hobj)
    refine ⟨tree.visitOrder_nodup root, ?_⟩
    cases hoff : tree.firstOffence? (tree.visitOrder root) with
    | some e =>
      rw [herror e hoff]
      refine ⟨fun w h => (nomatch h), fun stopped h => ?_⟩
      rw [← Except.error.inj h]
    | none =>
      obtain ⟨w, hw, hvisited⟩ := hok hoff
      rw [hw]
      refine ⟨fun w' h => ?_, fun stopped h => nomatch h⟩
      rw [← Except.ok.inj h, hvisited]
  · intro other hroot hsame
    obtain ⟨hfails, hprogress⟩ := discover_of_same hroot hsame config progress
    exact ⟨hfails, hprogress, encodePass_of_same hroot hsame⟩
  · intro c hc
    obtain ⟨count, merged, hmerge, -⟩ := hc.lists.merge_again
    have hlisting := hc.lists.exists_listing config.ordered
    exact ⟨⟨count, merged, hmerge progress⟩, hlisting, fun e he => hc.lists.serialize_fails he⟩

end Catalog

/-- The array that the root refers to first stands last in the arena, and refers to a node that is not
there.  The other array and the one that nothing refers to hold values without an encoding. -/
def offending : Tree where
  nodes := #[.object (.ofList [("left", .node ⟨3⟩), ("right", .node ⟨1⟩)]),
    .array [.foreign "symbol"], .array [.foreign "stray"], .array [.null, .node ⟨9⟩]]
  root := some (.node ⟨0⟩)

/-- The same without the value that nothing refers to. -/
def pruned : Tree where
  nodes := offending.nodes.set 2 (.array []) (by decide)
  root := offending.root

theorem visitOrder_offending : offending.visitOrder ⟨0⟩ = [⟨0⟩, ⟨3⟩, ⟨1⟩] := by
  have hroot : offending.fresh [⟨0⟩] (offending.children ⟨0⟩) = [⟨3⟩, ⟨1⟩] := by decide
  have hleft : offending.fresh [⟨3⟩, ⟨1⟩, ⟨0⟩] (offending.children ⟨3⟩) = [] := by decide
  have hright : offending.fresh [⟨3⟩, ⟨1⟩, ⟨0⟩] (offending.children ⟨1⟩) = [] := by decide
  simp [Tree.visitOrder, Tree.visitFrom, hroot, hleft, hright]

theorem node?_pruned (id : NodeId) (h : offending.Reachable id) :
    pruned.node? id = offending.node? id := by
  have hne : id ≠ ⟨2⟩ := by
    refine h.of_closed (D := fun id => id ≠ ⟨2⟩) ?_ ?_
    · rintro root hr rfl
      exact absurd hr (by decide)
    · rintro ⟨a⟩ b - hab rfl
      unfold Tree.Points at hab
      match a with
      | 0 | 1 | 2 | 3 => exact absurd hab (by decide)
      | n + 4 => exact absurd hab List.not_mem_nil
  obtain ⟨i⟩ := id
  match i with
  | 0 | 1 | 3 => rfl
  | 2 => exact absurd rfl hne
  | n + 4 => rfl

/-- The array that is visited first decides, whatever the node that nothing refers to holds; a text
at the root is named; and equal objects are merged and listed. -/
theorem Catalog.discover_refuses_offending :
    ((discover offending {}).outcome).1 = .error (.unresolved .node (.node ⟨9⟩)) ∧
    ((discover pruned {}).outcome).1 = .error (.unresolved .node (.node ⟨9⟩)) ∧
    ((discover { nodes := #[], root := some (.text "x") } {}).outcome).1 =
      .error (.invalidRoot "string") ∧
    ∃ c : Catalog, c.Obtained twins ∧
      (∃ count merged, (c.mergeObjects.outcome).1 = .ok (count, merged)) ∧
      ∃ text, (c.listing true).1 = .ok text := by
  have hfirst : offending.firstOffence? (offending.visitOrder ⟨0⟩) =
      some (.unresolved .node (.node ⟨9⟩)) := by
    rw [visitOrder_offending]
    decide
  obtain ⟨hrefuses, -, -, hsame, -⟩ := discover_refuses offending {} {}
  have hoffending := (hrefuses _).mpr (.visited rfl ⟨_, rfl⟩ hfirst)
  obtain ⟨hfails, -⟩ := hsame pruned rfl node?_pruned
  have hscalar := (discover_refuses { nodes := #[], root := some (.text "x") } {} {}).1
  have htext := (hscalar _).mpr (.scalar (s := .text "x") rfl rfl)
  obtain ⟨c, hc⟩ := exists_discover_twins
  have hobtained : c.Obtained twins := .discovered hc
  obtain ⟨-, -, -, -, hlater⟩ := discover_refuses twins {} {}
  obtain ⟨hmerge, hlisting, -⟩ := hlater c hobtained
  exact ⟨hoffending, (hfails _).mpr hoffending, htext, c, hobtained, hmerge, hlisting⟩

end PackedTree
