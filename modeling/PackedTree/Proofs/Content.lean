/-
# The content of a node

What a node holds once every reference is followed, said in two ways.

* **Unfolding.**  `Tree.unfold` follows references to a given depth and gives a `Datum`, in which
  nothing is shared and an object is a finite map from names to data.  A value whose references
  close no cycle has an unfolding (`exists_unfoldNode`), and a greater depth does not change it
  (`unfold_mono`).
* **Bisimilarity.**  `Tree.Bisimilar` compares nodes step by step and so makes sense on cycles too.

Bisimilar nodes have the same unfolding at every depth (`unfoldNode_eq_of_bisimilar`), and they
diverge nowhere (`not_diverges_of_bisimilar`).
-/
import PackedTree.Proofs.Graph
import PackedTree.Proofs.Shape

namespace PackedTree

/-! ## 1. Data without references -/

/-- A value in which nothing refers to anything. -/
inductive Datum where
  | scalar (c : Scalar)
  /-- A finite map, as the list of its names in ascending order with what they stand for. -/
  | object (fields : List (String × Datum))
  | array (items : List Datum)

/-- The names of an object in ascending order. -/
def Fields.sortedNames (fields : Fields) : List String := fields.names.mergeSort fun a b => a ≤ b

theorem Fields.sortedNames_eq_keys (fields : Fields) :
    fields.sortedNames = (Shape.ofFields fields).keys := rfl

/-- Ascending keys with the names of some fields are their sorted names. -/
theorem Fields.eq_sortedNames {fields : Fields} {keys : List String}
    (hsorted : keys.Pairwise (· < ·)) (hmem : ∀ name, name ∈ keys ↔ name ∈ fields.names) :
    keys = fields.sortedNames := by
  have h : Shape.mk keys hsorted = Shape.ofFields fields := by
    apply Shape.eq_of_mem_iff
    intro name
    rw [Shape.mem_keys_ofFields]
    exact hmem name
  exact congrArg Shape.keys h

/-- The datum of a value, given the data of nodes. -/
def Value.datum? (node : NodeId → Option Datum) : Value → Option Datum
  | .node id => node id
  | v => v.scalar?.map .scalar

namespace Tree

/-- What a node stands for, if at most `depth` references have to be followed one after the
other. -/
def unfoldNode (tree : Tree) : (depth : Nat) → NodeId → Option Datum
  | 0, _ => none
  | depth + 1, id =>
    match tree.node? id with
    | none => none
    | some (.object fields) =>
      (fields.sortedNames.mapM fun name =>
        ((fields.get? name).bind (Value.datum? (tree.unfoldNode depth))).map (name, ·)).map .object
    | some (.array items) => (items.mapM (Value.datum? (tree.unfoldNode depth))).map .array

/-- **What a value stands for**, to a depth. -/
def unfold (tree : Tree) (depth : Nat) (v : Value) : Option Datum :=
  v.datum? (tree.unfoldNode depth)

/-- A value stands for a datum. -/
def Unfolds (tree : Tree) (v : Value) (d : Datum) : Prop := ∃ depth, tree.unfold depth v = some d

@[simp] theorem unfold_node (tree : Tree) (depth : Nat) (id : NodeId) :
    tree.unfold depth (.node id) = tree.unfoldNode depth id := rfl

theorem unfold_of_scalar? {tree : Tree} {depth : Nat} {v : Value} {c : Scalar}
    (h : v.scalar? = some c) : tree.unfold depth v = some (.scalar c) := by
  cases v <;> simp_all [Value.scalar?, unfold, Value.datum?]

/-! ## 2. The unfolding of a node, field by field -/

variable {tree : Tree} {id : NodeId} {depth : Nat}

/-- An object unfolds to its names with what their values unfold to. -/
theorem unfoldNode_object {fields : Fields} (hn : tree.node? id = some (.object fields))
    {d : Datum} : tree.unfoldNode (depth + 1) id = some d ↔
      ∃ ds, d = .object ds ∧ List.Forall₂
        (fun name p => p.1 = name ∧ ∃ v, fields.get? name = some v ∧
          tree.unfold depth v = some p.2) fields.sortedNames ds := by
  rw [unfoldNode, hn]
  simp only [Option.map_eq_some_iff, mapM_eq_some_iff]
  constructor
  · rintro ⟨ds, hds, rfl⟩
    refine ⟨ds, rfl, hds.imp ?_⟩
    rintro name p ⟨d, hd, rfl⟩
    obtain ⟨v, hv, hvd⟩ := Option.bind_eq_some_iff.mp hd
    exact ⟨rfl, v, hv, hvd⟩
  · rintro ⟨ds, rfl, hds⟩
    refine ⟨ds, hds.imp ?_, rfl⟩
    rintro name ⟨_, d⟩ ⟨rfl, v, hv, hvd⟩
    exact ⟨d, Option.bind_eq_some_iff.mpr ⟨v, hv, hvd⟩, rfl⟩

/-- An array unfolds to what its items unfold to. -/
theorem unfoldNode_array {items : List Value} (hn : tree.node? id = some (.array items))
    {d : Datum} : tree.unfoldNode (depth + 1) id = some d ↔
      ∃ ds, d = .array ds ∧ List.Forall₂ (fun v d => tree.unfold depth v = some d) items ds := by
  rw [unfoldNode, hn]
  simp only [Option.map_eq_some_iff, mapM_eq_some_iff]
  constructor
  · rintro ⟨ds, hds, rfl⟩
    exact ⟨ds, rfl, hds⟩
  · rintro ⟨ds, rfl, hds⟩
    exact ⟨ds, hds, rfl⟩

/-- A node unfolds to an object or to an array. -/
theorem unfoldNode_ne_scalar (c : Scalar) : tree.unfoldNode depth id ≠ some (.scalar c) := by
  intro h
  cases depth with
  | zero => simp [unfoldNode] at h
  | succ depth =>
    cases hn : tree.node? id with
    | none => simp [unfoldNode, hn] at h
    | some node =>
      cases node with
      | object fields =>
        obtain ⟨_, hd, -⟩ := (unfoldNode_object hn).mp h
        exact Datum.noConfusion hd
      | array items =>
        obtain ⟨_, hd, -⟩ := (unfoldNode_array hn).mp h
        exact Datum.noConfusion hd

/-- What an encodable value unfolds to tells whether it is a scalar, and which. -/
theorem unfold_eq_some_iff {v : Value} {d : Datum} : tree.unfold depth v = some d ↔
    (∃ c, v.scalar? = some c ∧ d = .scalar c) ∨
    (∃ id, v = .node id ∧ tree.unfoldNode depth id = some d) := by
  cases v <;> simp [unfold, Value.datum?, Value.scalar?, eq_comm]

/-- A greater depth keeps an unfolding. -/
theorem unfoldNode_succ : ∀ {depth : Nat} {id : NodeId} {d : Datum},
    tree.unfoldNode depth id = some d → tree.unfoldNode (depth + 1) id = some d
  | 0, _, _, h => by simp [unfoldNode] at h
  | depth + 1, id, d, h => by
    have hstep {v : Value} {d : Datum} (hv : tree.unfold depth v = some d) :
        tree.unfold (depth + 1) v = some d := by
      cases v
      case node id => exact unfoldNode_succ hv
      all_goals exact hv
    cases hn : tree.node? id with
    | none => simp [unfoldNode, hn] at h
    | some node =>
      cases node with
      | object fields =>
        obtain ⟨ds, rfl, hds⟩ := (unfoldNode_object hn).mp h
        refine (unfoldNode_object hn).mpr ⟨ds, rfl, hds.imp ?_⟩
        rintro name p ⟨hp, v, hv, hd⟩
        exact ⟨hp, v, hv, hstep hd⟩
      | array items =>
        obtain ⟨ds, rfl, hds⟩ := (unfoldNode_array hn).mp h
        exact (unfoldNode_array hn).mpr ⟨ds, rfl, hds.imp fun _ _ => hstep⟩

theorem unfold_mono {v : Value} {d : Datum} {n m : Nat} (hnm : n ≤ m)
    (h : tree.unfold n v = some d) : tree.unfold m v = some d := by
  induction hnm with
  | refl => exact h
  | step _ ih =>
    cases v
    case node id => exact unfoldNode_succ ih
    all_goals exact h

/-- A value stands for at most one datum. -/
theorem Unfolds.unique {v : Value} {d e : Datum} (hd : tree.Unfolds v d)
    (he : tree.Unfolds v e) : d = e := by
  obtain ⟨n, hn⟩ := hd
  obtain ⟨m, hm⟩ := he
  have h1 := unfold_mono (Nat.le_max_left n m) hn
  rw [unfold_mono (Nat.le_max_right n m) hm] at h1
  exact (Option.some.inj h1).symm

/-! ## 3. Where no cycle is reached, there is an unfolding -/

/-- Every value of a node has an encoding: it is a scalar or a reference to a node. -/
def Encodable (tree : Tree) (id : NodeId) : Prop :=
  (tree.node? id).isSome ∧ ∀ v ∈ tree.children id, ∃ slot, Slot.ofValue tree v = .ok slot

/-- **A node that reaches no cycle has an unfolding**, as deep as there are nodes below it. -/
theorem exists_unfoldNode (id : NodeId) (hfree : tree.CycleFree id)
    (henc : ∀ other, tree.Reaches id other → tree.Encodable other) :
    ∃ d, tree.unfoldNode (tree.below id + 1) id = some d := by
  have hvalue : ∀ v ∈ tree.children id, ∃ d, tree.unfold (tree.below id) v = some d := by
    intro v hv
    obtain ⟨slot, hs⟩ := (henc id .refl).2 v hv
    have hnode (child : NodeId) {node : Node} (hc : v = .node child)
        (hn : tree.node? child = some node) : ∃ d, tree.unfold (tree.below id) v = some d := by
      subst hc
      have hlt := hfree.below_lt hv (index_lt_size hn)
      obtain ⟨d, hd⟩ := exists_unfoldNode child (hfree.of_points hv)
        fun other h => henc other (.head hv h)
      exact ⟨d, unfold_mono (v := .node child) hlt hd⟩
    rcases Slot.ofValue_eq_ok_iff.mp hs with ⟨c, hc, -⟩ | ⟨child, _, hc, hn, -⟩ |
      ⟨child, _, hc, hn, -⟩
    · exact ⟨.scalar c, unfold_of_scalar? hc⟩
    · exact hnode child hc hn
    · exact hnode child hc hn
  obtain ⟨node, hn⟩ := Option.isSome_iff_exists.mp (henc id .refl).1
  rw [children_of_node? hn] at hvalue
  cases node with
  | object fields =>
    have hfield : ∀ name ∈ fields.sortedNames, ∃ p : String × Datum,
        p.1 = name ∧ ∃ v, fields.get? name = some v ∧ tree.unfold (tree.below id) v = some p.2 := by
      intro name hname
      obtain ⟨v, hv⟩ := Fields.mem_names_iff.mp (Shape.mem_keys_ofFields.mp hname)
      obtain ⟨d, hd⟩ := hvalue v (Fields.mem_values_of_get? hv)
      exact ⟨(name, d), rfl, v, hv, hd⟩
    obtain ⟨ds, hds⟩ := exists_forall₂ hfield
    exact ⟨.object ds, (unfoldNode_object hn).mpr ⟨ds, rfl, hds⟩⟩
  | array items =>
    obtain ⟨ds, hds⟩ := exists_forall₂ hvalue
    exact ⟨.array ds, (unfoldNode_array hn).mpr ⟨ds, rfl, hds⟩⟩
termination_by tree.below id
decreasing_by exact hlt

/-! ## 4. Bisimilarity -/

/-- Values agree if they are the same scalar, or refer to related nodes. -/
inductive ValuesAgree (R : NodeId → NodeId → Prop) : Value → Value → Prop where
  | scalar {v w : Value} {c : Scalar} (hv : v.scalar? = some c) (hw : w.scalar? = some c) :
      ValuesAgree R v w
  | node {a b : NodeId} (h : R a b) : ValuesAgree R (.node a) (.node b)

/-- Nodes agree if they are objects with the same names and matching values under each, or
arrays of the same length with matching items. -/
inductive NodesAgree (tree : Tree) (P : Value → Value → Prop) (a b : NodeId) : Prop where
  | object {f g : Fields} (ha : tree.node? a = some (.object f))
      (hb : tree.node? b = some (.object g)) (hnames : ∀ name, name ∈ f.names ↔ name ∈ g.names)
      (hvalues : ∀ name v w, f.get? name = some v → g.get? name = some w → P v w)
  | array {is js : List Value} (ha : tree.node? a = some (.array is))
      (hb : tree.node? b = some (.array js)) (hitems : List.Forall₂ P is js)

/-- A relation that only relates nodes that agree up to it. -/
def IsBisimulation (tree : Tree) (R : NodeId → NodeId → Prop) : Prop :=
  ∀ a b, R a b → NodesAgree tree (ValuesAgree R) a b

/-- **Nodes are bisimilar if some bisimulation relates them.** -/
def Bisimilar (tree : Tree) (a b : NodeId) : Prop := ∃ R, IsBisimulation tree R ∧ R a b

/-- Two nodes hold two values at the same place: under the same name or at the same position. -/
inductive Beside (tree : Tree) (a b : NodeId) (v w : Value) : Prop where
  | field {f g : Fields} {name : String} (ha : tree.node? a = some (.object f))
      (hb : tree.node? b = some (.object g)) (hv : f.get? name = some v)
      (hw : g.get? name = some w)
  | item {is js : List Value} {i : Nat} (ha : tree.node? a = some (.array is))
      (hb : tree.node? b = some (.array js)) (hv : is[i]? = some v) (hw : js[i]? = some w)

/-- **Two nodes diverge** if the same way through names and positions leads from one of them to a
node and from the other to a value that is none. -/
inductive Diverges (tree : Tree) : NodeId → NodeId → Prop where
  | here {a b : NodeId} {v w : Value} (h : tree.Beside a b v w)
      (hne : v.node?.isSome ≠ w.node?.isSome) : Diverges tree a b
  | there {a b c d : NodeId} (h : tree.Beside a b (.node c) (.node d)) (hcd : Diverges tree c d) :
      Diverges tree a b

theorem Beside.mem_left {a b : NodeId} {v w : Value} (h : tree.Beside a b v w) :
    v ∈ tree.children a := by
  cases h with
  | field ha _ hv _ =>
    rw [children_of_node? ha]
    exact Fields.mem_values_of_get? hv
  | item ha _ hv _ =>
    rw [children_of_node? ha]
    exact List.mem_of_getElem? hv

theorem Beside.symm {a b : NodeId} {v w : Value} (h : tree.Beside a b v w) :
    tree.Beside b a w v := by
  cases h with
  | field ha hb hv hw => exact .field hb ha hw hv
  | item ha hb hv hw => exact .item hb ha hw hv

/-- What agreeing nodes hold at the same place matches. -/
theorem NodesAgree.of_beside {P : Value → Value → Prop} {a b : NodeId} {v w : Value}
    (h : NodesAgree tree P a b) (hvw : tree.Beside a b v w) : P v w := by
  cases h with
  | object ha hb _ hvalues =>
    cases hvw with
    | field ha' hb' hv hw =>
      rw [ha, Option.some.injEq, Node.object.injEq] at ha'
      rw [hb, Option.some.injEq, Node.object.injEq] at hb'
      exact hvalues _ _ _ (ha' ▸ hv) (hb' ▸ hw)
    | item ha' _ _ _ => simp [ha] at ha'
  | array ha hb hitems =>
    cases hvw with
    | field ha' _ _ _ => simp [ha] at ha'
    | @item is' js' i ha' hb' hv hw =>
      rw [ha, Option.some.injEq, Node.array.injEq] at ha'
      rw [hb, Option.some.injEq, Node.array.injEq] at hb'
      subst ha' hb'
      obtain ⟨hi, rfl⟩ := List.getElem?_eq_some_iff.mp hv
      obtain ⟨hj, rfl⟩ := List.getElem?_eq_some_iff.mp hw
      exact hitems.get hi hj

/-- What one of two agreeing nodes holds matches something that the other holds. -/
theorem NodesAgree.exists_of_mem {P : Value → Value → Prop} {a b : NodeId} {v : Value}
    (h : NodesAgree tree P a b) (hv : v ∈ tree.children a) : ∃ w ∈ tree.children b, P v w := by
  cases h with
  | object ha hb hnames hvalues =>
    rw [children_of_node? ha] at hv
    obtain ⟨name, hname⟩ := Fields.exists_get?_of_mem_values hv
    obtain ⟨w, hw⟩ := Fields.mem_names_iff.mp
      ((hnames name).mp (Fields.mem_names_iff.mpr ⟨v, hname⟩))
    rw [children_of_node? hb]
    exact ⟨w, Fields.mem_values_of_get? hw, hvalues name v w hname hw⟩
  | array ha hb hitems =>
    rw [children_of_node? ha] at hv
    obtain ⟨i, hi⟩ := List.mem_iff_getElem?.mp hv
    obtain ⟨w, hw, hvw⟩ := exists_getElem?_of_forall₂ hitems hi
    rw [children_of_node? hb]
    exact ⟨w, List.mem_of_getElem? hw, hvw⟩

/-- Agreement passes to whatever follows from it place by place. -/
theorem NodesAgree.imp {P Q : Value → Value → Prop} {a b : NodeId} (h : NodesAgree tree P a b)
    (hPQ : ∀ v w, tree.Beside a b v w → P v w → Q v w) : NodesAgree tree Q a b := by
  have hall := fun v w hvw => hPQ v w hvw (h.of_beside hvw)
  cases h with
  | object ha hb hnames _ =>
    exact .object ha hb hnames fun _ v w hv hw => hall v w (.field ha hb hv hw)
  | array ha hb hitems =>
    refine .array ha hb (List.forall₂_iff_get.mpr ⟨hitems.length_eq, ?_⟩)
    intro i hi hj
    exact hall _ _ (.item (i := i) ha hb (List.getElem?_eq_getElem hi) (List.getElem?_eq_getElem hj))

/-- Nodes that agree up to something diverge nowhere. -/
theorem not_diverges_of_bisimilar {a b : NodeId} (h : tree.Bisimilar a b) :
    ¬tree.Diverges a b := by
  obtain ⟨R, hR, hab⟩ := h
  intro hd
  induction hd with
  | here hvw hne =>
    cases (hR _ _ hab).of_beside hvw with
    | scalar hv hw =>
      rw [Value.node?_of_scalar? hv, Value.node?_of_scalar? hw] at hne
      exact hne rfl
    | node _ => exact hne rfl
  | there hvw _ ih =>
    cases (hR _ _ hab).of_beside hvw with
    | scalar hv _ => simp [Value.scalar?] at hv
    | node h => exact ih h

theorem ValuesAgree.trans {R S : NodeId → NodeId → Prop} {u v w : Value}
    (huv : ValuesAgree R u v) (hvw : ValuesAgree S v w) :
    ValuesAgree (Relation.Comp R S) u w := by
  cases huv with
  | scalar hu hv =>
    cases hvw with
    | scalar hv' hw => exact .scalar hu ((hv.symm.trans hv') ▸ hw)
    | node _ => simp [Value.scalar?] at hv
  | node h =>
    cases hvw with
    | scalar hv _ => simp [Value.scalar?] at hv
    | node h' => exact .node ⟨_, h, h'⟩

/-- Agreement composes, place by place. -/
theorem NodesAgree.trans {P Q T : Value → Value → Prop} {a b c : NodeId}
    (hab : NodesAgree tree P a b) (hbc : NodesAgree tree Q b c)
    (hT : ∀ u v w, P u v → Q v w → T u w) : NodesAgree tree T a c := by
  cases hab with
  | object ha hb hnames hvalues =>
    cases hbc with
    | object hb' hc hnames' hvalues' =>
      rw [hb, Option.some.injEq, Node.object.injEq] at hb'
      subst hb'
      refine .object ha hc (fun name => (hnames name).trans (hnames' name)) ?_
      intro name u w hu hw
      obtain ⟨v, hv⟩ := Fields.mem_names_iff.mp
        ((hnames name).mp (Fields.mem_names_iff.mpr ⟨u, hu⟩))
      exact hT u v w (hvalues name u v hu hv) (hvalues' name v w hv hw)
    | array hb' _ _ => simp [hb] at hb'
  | array ha hb hitems =>
    cases hbc with
    | object hb' _ _ _ => simp [hb] at hb'
    | array hb' hc hitems' =>
      rw [hb, Option.some.injEq, Node.array.injEq] at hb'
      subst hb'
      refine .array ha hc (List.forall₂_iff_get.mpr
        ⟨hitems.length_eq.trans hitems'.length_eq, fun i hi hk => ?_⟩)
      have hj := hitems.length_eq ▸ hi
      exact hT _ _ _ (hitems.get hi hj) (hitems'.get hj hk)

/-- Bisimilarity composes. -/
theorem Bisimilar.trans {a b c : NodeId} (hab : tree.Bisimilar a b) (hbc : tree.Bisimilar b c) :
    tree.Bisimilar a c := by
  obtain ⟨R, hR, hab⟩ := hab
  obtain ⟨S, hS, hbc⟩ := hbc
  refine ⟨Relation.Comp R S, ?_, b, hab, hbc⟩
  rintro x z ⟨y, hxy, hyz⟩
  exact (hR x y hxy).trans (hS y z hyz) fun _ _ _ => ValuesAgree.trans

/-- What a bisimilar node holds at the same place is bisimilar. -/
theorem Bisimilar.exists_points {a b c : NodeId} (h : tree.Bisimilar a b) (hc : tree.Points a c) :
    ∃ d, tree.Points b d ∧ tree.Bisimilar c d := by
  obtain ⟨R, hR, hab⟩ := h
  obtain ⟨w, hw, hcw⟩ := (hR a b hab).exists_of_mem hc
  cases hcw with
  | scalar hv _ => simp [Value.scalar?] at hv
  | node h => exact ⟨_, hw, R, hR, h⟩

/-- A node that is bisimilar to an object is one. -/
theorem Bisimilar.isObject {a b : NodeId} (h : tree.Bisimilar a b) (ha : tree.IsObject a) :
    tree.IsObject b := by
  obtain ⟨R, hR, hab⟩ := h
  obtain ⟨fields, ha⟩ := ha
  cases hR a b hab with
  | object _ hb _ _ => exact ⟨_, hb⟩
  | array ha' _ _ => simp [ha] at ha'

theorem ValuesAgree.unfold_eq {R : NodeId → NodeId → Prop} {v w : Value}
    (hR : ∀ a b, R a b → tree.unfoldNode depth a = tree.unfoldNode depth b)
    (h : ValuesAgree R v w) : tree.unfold depth v = tree.unfold depth w := by
  cases h with
  | scalar hv hw => rw [unfold_of_scalar? hv, unfold_of_scalar? hw]
  | node h => exact hR _ _ h

/-- **Bisimilar nodes have the same unfolding** at every depth. -/
theorem unfoldNode_eq_of_bisimulation {R : NodeId → NodeId → Prop}
    (hR : IsBisimulation tree R) : ∀ (depth : Nat) (a b : NodeId), R a b →
      tree.unfoldNode depth a = tree.unfoldNode depth b
  | 0, _, _, _ => rfl
  | depth + 1, a, b, h => by
    have ih := unfoldNode_eq_of_bisimulation hR depth
    cases hR a b h with
    | @object f g ha hb hnames hvalues =>
      have hs : f.sortedNames = g.sortedNames := by
        rw [Fields.sortedNames_eq_keys, Fields.sortedNames_eq_keys,
          Shape.ofFields_eq_iff.mpr hnames]
      simp only [unfoldNode, ha, hb, hs]
      congr 1
      apply mapM_congr_of_mem
      intro name hname
      obtain ⟨w, hw⟩ := Fields.mem_names_iff.mp (Shape.mem_keys_ofFields.mp hname)
      obtain ⟨v, hv⟩ := Fields.mem_names_iff.mp
        ((hnames name).mpr (Fields.mem_names_iff.mpr ⟨w, hw⟩))
      have he : v.datum? (tree.unfoldNode depth) = w.datum? (tree.unfoldNode depth) :=
        (hvalues name v w hv hw).unfold_eq ih
      simp [hv, hw, he]
    | @array is js ha hb hitems =>
      simp only [unfoldNode, ha, hb]
      congr 1
      clear ha hb
      induction hitems with
      | nil => rfl
      | @cons v w is js hvw _ ihs =>
        have he : v.datum? (tree.unfoldNode depth) = w.datum? (tree.unfoldNode depth) :=
          hvw.unfold_eq ih
        rw [List.mapM_cons, List.mapM_cons, he, ihs]

theorem unfoldNode_eq_of_bisimilar {a b : NodeId} (h : tree.Bisimilar a b) (depth : Nat) :
    tree.unfoldNode depth a = tree.unfoldNode depth b := by
  obtain ⟨R, hR, hab⟩ := h
  exact unfoldNode_eq_of_bisimulation hR depth a b hab

/-- Bisimilar nodes stand for the same data. -/
theorem Bisimilar.unfolds {a b : NodeId} (h : tree.Bisimilar a b) {d : Datum}
    (hd : tree.Unfolds (.node a) d) : tree.Unfolds (.node b) d := by
  obtain ⟨depth, hd⟩ := hd
  refine ⟨depth, ?_⟩
  rw [unfold_node, ← unfoldNode_eq_of_bisimilar h]
  exact hd

end Tree

end PackedTree
