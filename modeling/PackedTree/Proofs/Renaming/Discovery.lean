/-
# A discovery under a renaming

The walk asks a node only for its values and whether it was met.  So the walks of two trees that
differ in the numbers of their nodes go the same way, step by step: they fill the tables of texts
and shapes alike, and give nodes that correspond the same identities.

* `Walk.Renames`: two walks at the same step.
* `Walk.Renames.visit`: a visit keeps them in step, and `Walk.Renames.run` the whole walk.
* `Catalog.discover_agree`: the catalogs of both trees correspond, and the discoveries count and
  report the same.
-/
import PackedTree.Proofs.Discovery
import PackedTree.Proofs.Renaming.Tables

namespace PackedTree

/-- **Catalogs that correspond**: the same texts and shapes, and tables of nodes that correspond. -/
structure Catalog.Renames (f : NodeId → NodeId) (tree other : Tree) (c c' : Catalog) : Prop where
  tree_eq : c.tree = tree
  other_eq : c'.tree = other
  strings : c'.strings = c.strings
  shapes : c'.shapes = c.shapes
  objects : InternTable.Renames f tree.Reachable c.objects c'.objects
  arrays : InternTable.Renames f tree.Reachable c.arrays c'.arrays
  root : c'.root = c.root

/-- **Two walks at the same step.** -/
structure Walk.Renames (f : NodeId → NodeId) (tree other : Tree) (w w' : Walk) : Prop where
  catalog : Catalog.Renames f tree other w.catalog w'.catalog
  root : w'.root = f w.root
  root_reachable : tree.Reachable w.root
  waiting : w'.waiting = w.waiting.map f
  waiting_reachable : ∀ a ∈ w.waiting, tree.Reachable a
  visits : w'.visited.size = w.visited.size

variable {f : NodeId → NodeId} {tree other : Tree}

namespace Walk.Renames

variable {w w' : Walk}

/-! ## 1. Interning one thing -/

/-- Nodes that correspond are met at the same time. -/
theorem met_eq (h : Walk.Renames f tree other w w') (ht : tree.Renames f other) {a : NodeId}
    (ha : tree.Reachable a) : w'.met (f a) = w.met a := by
  have hroot : (f a == w'.root) = (a == w.root) := by
    rw [h.root, Bool.eq_iff_iff, beq_iff_eq, beq_iff_eq]
    exact ⟨ht.eq_of_eq ha h.root_reachable, congrArg f⟩
  rw [Walk.met, Walk.met, hroot, h.catalog.objects.contains_eq ht.bijOn.injOn ha,
    h.catalog.arrays.contains_eq ht.bijOn.injOn ha]

theorem internText (h : Walk.Renames f tree other w w') (s : String) :
    Walk.Renames f tree other (w.internText s) (w'.internText s) :=
  { h with
    catalog :=
      { h.catalog with
        strings := congrArg (fun table => (InternTable.add table s).2) h.catalog.strings } }

theorem internObject (h : Walk.Renames f tree other w w') (ht : tree.Renames f other) {a : NodeId}
    (ha : tree.Reachable a) :
    Walk.Renames f tree other (w.internObject a) (w'.internObject (f a)) :=
  { h with
    catalog := { h.catalog with objects := h.catalog.objects.add ht.bijOn.injOn ha } }

theorem internArray (h : Walk.Renames f tree other w w') (ht : tree.Renames f other) {a : NodeId}
    (ha : tree.Reachable a) :
    Walk.Renames f tree other (w.internArray a) (w'.internArray (f a)) :=
  { h with
    catalog := { h.catalog with arrays := h.catalog.arrays.add ht.bijOn.injOn ha } }

theorem registerShape (h : Walk.Renames f tree other w w') (fields : Fields) :
    Walk.Renames f tree other (w.registerShape fields) (w'.registerShape (fields.rename f)) :=
  { h with
    catalog :=
      { h.catalog with
        shapes := by
          have hregister : (w'.catalog.shapes.register (fields.rename f)).2 =
              (w.catalog.shapes.register fields).2 := by
            rw [ShapeRegistry.register_rename, h.catalog.shapes]
          exact hregister } }

/-! ## 2. A visit -/

/-- A value is interned alike, and is new in both walks or in none. -/
theorem meet (h : Walk.Renames f tree other w w') (ht : tree.Renames f other)
    {fresh : List NodeId} (hfresh : ∀ a ∈ fresh, tree.Reachable a)
    {slot : Slot String NodeId} (hs : slot.Inside tree) :
    Walk.Renames f tree other (w.meet fresh slot).1 (w'.meet (fresh.map f) (slot.rename f)).1 ∧
      (w'.meet (fresh.map f) (slot.rename f)).2 = (w.meet fresh slot).2.map f ∧
      ∀ a ∈ (w.meet fresh slot).2, tree.Reachable a := by
  have hnode {a : NodeId} (ha : tree.Reachable a) :
      (if !w'.met (f a) then f a :: fresh.map f else fresh.map f) =
          (if !w.met a then a :: fresh else fresh).map f ∧
        ∀ b ∈ (if !w.met a then a :: fresh else fresh), tree.Reachable b := by
    rw [h.met_eq ht ha]
    cases w.met a with
    | true => exact ⟨rfl, hfresh⟩
    | false => exact ⟨rfl, List.forall_mem_cons.mpr ⟨ha, hfresh⟩⟩
  cases slot with
  | text s => exact ⟨h.internText s, rfl, hfresh⟩
  | object a =>
    have ha : tree.Reachable a := hs
    exact ⟨h.internObject ht ha, hnode ha⟩
  | array a =>
    have ha : tree.Reachable a := hs
    exact ⟨h.internArray ht ha, hnode ha⟩
  | int32 _ | float64 _ | bool _ | null => exact ⟨h, rfl, hfresh⟩

/-- The values of a node are interned alike. -/
theorem meetAll (ht : tree.Renames f other) {vs : List Value} {w w' : Walk}
    (h : Walk.Renames f tree other w w') {fresh : List NodeId}
    (hfresh : ∀ a ∈ fresh, tree.Reachable a) (hvs : ∀ v ∈ vs, v.Inside tree) {w₁ : Walk}
    {fresh₁ : List NodeId} (hm : w.meetAll fresh vs = .ok (w₁, fresh₁)) :
    ∃ w₁', w'.meetAll (fresh.map f) (vs.map (Value.rename f)) = .ok (w₁', fresh₁.map f) ∧
      Walk.Renames f tree other w₁ w₁' ∧ ∀ a ∈ fresh₁, tree.Reachable a := by
  induction vs generalizing w w' fresh with
  | nil =>
    obtain ⟨rfl, rfl⟩ := Prod.mk.inj (Except.ok.inj hm)
    exact ⟨w', rfl, h, hfresh⟩
  | cons v vs ih =>
    have hv := hvs v List.mem_cons_self
    unfold Walk.meetAll at hm
    rw [List.map_cons, Walk.meetAll]
    rw [h.catalog.tree_eq] at hm
    rw [h.catalog.other_eq]
    cases hs : Slot.ofValue tree v with
    | error e => simp [hs] at hm
    | ok slot =>
      simp only [hs] at hm
      simp only [ht.ofValue hv hs]
      obtain ⟨h₁, hfresh₁, hreach⟩ := h.meet ht hfresh (Slot.inside_of_ofValue hv hs)
      rw [hfresh₁]
      exact ih h₁ hreach (fun v hv => hvs v (List.mem_cons_of_mem _ hv)) hm

/-- The end of a visit: what was met first waits in both walks. -/
theorem leave (h : Walk.Renames f tree other w w') {fresh : List NodeId}
    (hfresh : ∀ a ∈ fresh, tree.Reachable a) (a b : NodeId) :
    Walk.Renames f tree other
      { w with waiting := fresh.reverse ++ w.waiting, visited := w.visited.push a }
      { w' with waiting := (fresh.map f).reverse ++ w'.waiting, visited := w'.visited.push b } :=
  { h with
    waiting := by
      simp only [h.waiting, List.map_append, List.map_reverse]
    waiting_reachable := by
      intro c hc
      rcases List.mem_append.mp hc with hc | hc
      · exact hfresh c (List.mem_reverse.mp hc)
      · exact h.waiting_reachable c hc
    visits := by
      simp only [Array.size_push, h.visits] }

/-- **A visit keeps two walks in step.** -/
theorem visit (h : Walk.Renames f tree other w w') (ht : tree.Renames f other) {a : NodeId}
    (ha : tree.Reachable a) {w₁ : Walk} (hv : w.visit a = .ok w₁) :
    ∃ w₁', w'.visit (f a) = .ok w₁' ∧ Walk.Renames f tree other w₁ w₁' := by
  have hnil : ∀ b ∈ ([] : List NodeId), tree.Reachable b := fun b hb => absurd hb List.not_mem_nil
  unfold Walk.visit at hv ⊢
  rw [h.catalog.tree_eq] at hv
  rw [h.catalog.other_eq]
  cases hn : tree.node? a with
  | none => simp [hn] at hv
  | some node =>
    have hinside := ha.all_inside hn
    rw [ht.node?_eq ha hn]
    cases node with
    | object fields =>
      simp only [hn] at hv
      cases hm : (w.registerShape fields).meetAll [] fields.values with
      | error e => simp [hm] at hv
      | ok p =>
        simp only [hm, Except.ok.injEq] at hv
        subst hv
        obtain ⟨w₂, hw₂, h₂, hfresh⟩ := meetAll ht (h.registerShape fields) hnil hinside hm
        simp only [Node.rename, Node.values, Fields.values_rename, List.map_nil] at hw₂ ⊢
        rw [hw₂]
        exact ⟨_, rfl, (h₂.internObject ht ha).leave hfresh a (f a)⟩
    | array items =>
      simp only [hn] at hv
      cases hm : w.meetAll [] items with
      | error e => simp [hm] at hv
      | ok p =>
        simp only [hm, Except.ok.injEq] at hv
        subst hv
        obtain ⟨w₂, hw₂, h₂, hfresh⟩ := meetAll ht h hnil hinside hm
        simp only [Node.rename, Node.values, List.map_nil] at hw₂ ⊢
        rw [hw₂]
        exact ⟨_, rfl, (h₂.internArray ht ha).leave hfresh a (f a)⟩

end Walk.Renames

/-! ## 3. Whole walks -/

/-- **Two walks stay in step to the end.** -/
theorem Walk.Renames.run (ht : tree.Renames f other) (w : Walk) : ∀ {w' v : Walk},
    Walk.Renames f tree other w w' → w.run = .ok v →
      ∃ v', w'.run = .ok v' ∧ Walk.Renames f tree other v v' := by
  fun_induction Walk.run w with
  | case1 w hw =>
    intro w' v h hv
    obtain rfl := Except.ok.inj hv
    have hw' : w'.waiting = [] := by
      rw [h.waiting, hw]
      rfl
    exact ⟨w', Walk.run_of_waiting_nil hw', h⟩
  | case2 w a rest hw e hvisit =>
    intro w' v h hv
    cases hv
  | case3 w a rest hw w₁ hvisit ih =>
    intro w' v h hv
    have hw' : w'.waiting = f a :: rest.map f := by
      rw [h.waiting, hw]
      rfl
    have htaken : Walk.Renames f tree other { w with waiting := rest }
        { w' with waiting := rest.map f } :=
      { h with
        waiting := rfl
        waiting_reachable := fun b hb => h.waiting_reachable b (hw ▸ List.mem_cons_of_mem _ hb) }
    have ha : tree.Reachable a := h.waiting_reachable a (hw ▸ List.mem_cons_self)
    obtain ⟨w₁', hvisit', h₁⟩ := htaken.visit ht ha hvisit
    rw [Walk.run_of_visit hw' hvisit']
    exact ih h₁ hv

theorem Walk.renames_start (f : NodeId → NodeId) {root : NodeId}
    (hr : tree.root = some (.node root)) (other : Tree) :
    Walk.Renames f tree other (Walk.start tree root) (Walk.start other (f root)) where
  catalog :=
    { tree_eq := rfl
      other_eq := rfl
      strings := rfl
      shapes := rfl
      objects := .empty
      arrays := .empty
      root := rfl }
  root := rfl
  root_reachable := ⟨root, hr, .refl⟩
  waiting := rfl
  waiting_reachable := by
    intro a ha
    rw [List.mem_singleton.mp ha]
    exact ⟨root, hr, .refl⟩
  visits := rfl

/-! ## 4. The discovery as a pass -/

namespace Catalog

/-- What a discovery reports of its catalog. -/
def announce (c : Catalog) (config : Config) (visits : Nat) : Pass Unit := do
  reportVisits config visits
  Pass.count fun stats =>
    { stats with
      nodesVisited := visits
      strings := c.strings.count
      shapes := c.shapes.size
      objectsDiscovered := c.objects.count
      arrays := c.arrays.count }
  Pass.report
    (.discovered visits c.strings.count c.shapes.size c.objects.count c.arrays.count)

/-- A discovery that succeeds reports its catalog and gives it. -/
theorem discover_eq {root : NodeId} {walk : Walk} (hroot : rootObject tree = .ok root)
    (hrun : (Walk.start tree root).run = .ok walk) {c : Catalog}
    (hc : c = { walk.catalog with root := walk.catalog.objects.getId? root }) (config : Config) :
    discover tree config = (do c.announce config walk.visited.size; pure c) := by
  subst hc
  funext progress
  simp only [discover, hroot, Pass.ofExcept, hrun, announce, bind, EStateM.bind, pure, EStateM.pure]
  cases reportVisits config walk.visited.size progress <;> rfl

/-- Catalogs that correspond are reported alike. -/
theorem Renames.announce_eq {c c' : Catalog} (h : Catalog.Renames f tree other c c')
    (config : Config) (visits : Nat) : c'.announce config visits = c.announce config visits := by
  rw [announce, h.strings, h.shapes, h.objects.count_eq, h.arrays.count_eq, announce]

end Catalog

/-- **Two passes agree** if the second one succeeds whenever the first does, with a result that is
related to that of the first, and with the same counters and events. -/
def Pass.Agree {α β : Type} (R : α → β → Prop) (p : Pass α) (q : Pass β) : Prop :=
  ∀ progress a after, p progress = .ok a after → ∃ b, q progress = .ok b after ∧ R a b

theorem Pass.agree_pure {α β : Type} {R : α → β → Prop} (report : Pass Unit) {a : α} {b : β}
    (h : R a b) : Pass.Agree R (do report; pure a) (do report; pure b) := by
  intro progress x after hx
  simp only [bind, EStateM.bind, pure, EStateM.pure] at hx ⊢
  cases hr : report progress with
  | error e s => simp [hr] at hx
  | ok u s =>
    simp only [hr, EStateM.Result.ok.injEq] at hx
    obtain ⟨rfl, rfl⟩ := hx
    exact ⟨b, rfl, h⟩

theorem Pass.Agree.bind {α β γ δ : Type} {R : α → β → Prop} {S : γ → δ → Prop} {p : Pass α}
    {q : Pass β} (h : Pass.Agree R p q) {next : α → Pass γ} {next' : β → Pass δ}
    (h' : ∀ a b, R a b → Pass.Agree S (next a) (next' b)) :
    Pass.Agree S (p >>= next) (q >>= next') := by
  intro progress x after hx
  simp only [Bind.bind, EStateM.bind] at hx ⊢
  cases hp : p progress with
  | error e s => simp [hp] at hx
  | ok a s =>
    obtain ⟨b, hb, hab⟩ := h progress a s hp
    simp only [hp, hb] at hx ⊢
    exact h' a b hab s x after hx

/-- **The discoveries of both trees agree**: their catalogs correspond, and they count and report
the same. -/
theorem Catalog.discover_agree (ht : tree.Renames f other) (config : Config) :
    Pass.Agree (Catalog.Renames f tree other) (discover tree config) (discover other config) := by
  intro progress c after h
  have hfails {e : EncodeError} (hd : discovered tree = .error e) : False := by
    have hgives := gives_discover tree config
    rw [hd] at hgives
    have hne := hgives progress
    simp [Pass.outcome, h] at hne
  cases hroot : rootObject tree with
  | error e =>
    have hd : discovered tree = .error e := by
      simp only [discovered, hroot, bind, Except.bind]
    exact (hfails hd).elim
  | ok root =>
    obtain ⟨hr, fields, hn⟩ := rootObject_eq_ok_iff.mp hroot
    have hreach : tree.Reachable root := ⟨root, hr, .refl⟩
    have hroot' : rootObject other = .ok (f root) := by
      refine rootObject_eq_ok_iff.mpr ⟨?_, _, ht.node?_eq hreach hn⟩
      rw [ht.root, hr]
      rfl
    cases hrun : (Walk.start tree root).run with
    | error stopped =>
      have hd : discovered tree = .error stopped.cause := by
        simp only [discovered, hroot, hrun, bind, Except.bind]
      exact (hfails hd).elim
    | ok walk =>
      obtain ⟨walk', hrun', hwalk⟩ := Walk.Renames.run ht _ (Walk.renames_start f hr other) hrun
      rw [discover_eq hroot hrun rfl] at h
      rw [discover_eq hroot' hrun' rfl, hwalk.visits]
      have hrenames : Catalog.Renames f tree other
          { walk.catalog with root := walk.catalog.objects.getId? root }
          { walk'.catalog with root := walk'.catalog.objects.getId? (f root) } :=
        { hwalk.catalog with
          root := hwalk.catalog.objects.getId?_eq ht.bijOn.injOn hreach }
      rw [hrenames.announce_eq]
      exact Pass.agree_pure _ hrenames progress c after h

end PackedTree
