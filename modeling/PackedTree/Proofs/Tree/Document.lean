/-
# A document is its tree

The tree of a document holds the document and nothing else.  Every list and object has one node of
its own, which comes after the nodes inside it, and following the references from the root gives
the document back, with its members in their order and each number as the double nearest to it.

* `Tree.document`: the document that a value stands for, to a depth.  Unlike `Tree.unfold` it
  keeps the order of an object's fields.
* `Tree.LaysOut`: what adding documents to an arena does.  It adds nodes behind those that are
  there, one for each list and object, and each of them is referred to once: by another of them or
  by a value that stands for one of the documents.  Both edits keep it (`LaysOut.append`,
  `LaysOut.close`), and so do the three mutual functions (`laysOut_addJson`, `laysOut_addItems`,
  `laysOut_addMembers`).
* `Tree.Holds`: what it means for an arena to hold a document, and `Tree.holds_ofJson`.

Where two members of an object share a name, a value of the first is dropped together with its
nodes, so all this is said of documents whose objects name their members apart.  What is read is
such a document, with integers of 64 bits at most.
-/
import PackedTree.Proofs.Json.Document
import PackedTree.Proofs.Traversal
import PackedTree.Proofs.Tree.OfJson

open scoped List

namespace PackedTree

/-! ## 1. Fields in their order -/

/-- Fields with names of their own are kept as they come. -/
theorem Fields.entries_ofList {entries : List (String × Value)}
    (h : (Named.names entries).Nodup) : (Fields.ofList entries).entries = entries := by
  have hfold (fields : Fields) (hnames : (fields.names ++ Named.names entries).Nodup) :
      (entries.foldl (fun fields entry => fields.set entry.1 entry.2) fields).entries =
        fields.entries ++ entries := by
    clear h
    induction entries generalizing fields with
    | nil => exact (List.append_nil _).symm
    | cons entry rest ih =>
      obtain ⟨name, v⟩ := entry
      have hnew : name ∉ fields.names := fun hname =>
        (List.nodup_append.mp hnames).2.2 name hname name List.mem_cons_self rfl
      have hset : (fields.set name v).entries = fields.entries ++ [(name, v)] :=
        Named.set_of_notMem hnew
      rw [List.foldl_cons, ih, hset, List.append_assoc]
      · rfl
      · rw [Fields.names, hset, Named.names, List.map_append, List.append_assoc]
        exact hnames
  exact hfold .empty h

/-! ## 2. Documents in an arena -/

/-- The document of a value, given the documents of nodes. -/
def Value.document? (node : NodeId → Option Json) : Value → Option Json
  | .null => some .null
  | .bool b => some (.bool b)
  | .number x => some (.number (.real x))
  | .text s => some (.string s)
  | .node id => node id
  | .foreign _ => none

namespace Tree

/-- The document of a node, if at most `depth` references have to be followed one after the
other. -/
def documentNode (tree : Tree) : (depth : Nat) → NodeId → Option Json
  | 0, _ => none
  | depth + 1, id =>
    match tree.node? id with
    | none => none
    | some (.object fields) =>
      (fields.entries.mapM fun entry : String × Value =>
        (entry.2.document? (tree.documentNode depth)).map (entry.1, ·)).map .object
    | some (.array items) =>
      (items.mapM (Value.document? (tree.documentNode depth))).map .array

/-- **The document that a value stands for**, to a depth. -/
def document (tree : Tree) (depth : Nat) (v : Value) : Option Json :=
  v.document? (tree.documentNode depth)

/-- **A value stands for a document**: following its references gives the document, at every depth
that is not below the number of nodes. -/
def StandsFor (tree : Tree) (v : Value) (document : Json) : Prop :=
  ∀ depth, tree.size ≤ depth → tree.document depth v = some document

/-- One arena keeps the nodes of another. -/
def Extends (after before : Tree) : Prop :=
  ∀ id node, before.node? id = some node → after.node? id = some node

variable {tree before middle after : Tree} {id : NodeId} {depth : Nat}

/-- An object's document has the names of its fields, in their order, with what their values stand
for. -/
theorem documentNode_object {fields : Fields} (hn : tree.node? id = some (.object fields))
    {d : Json} : tree.documentNode (depth + 1) id = some d ↔
      ∃ members, d = .object members ∧ List.Forall₂
        (fun entry member => member.1 = entry.1 ∧ tree.document depth entry.2 = some member.2)
        fields.entries members := by
  rw [documentNode, hn]
  simp only [Option.map_eq_some_iff, mapM_eq_some_iff]
  constructor
  · rintro ⟨members, hmembers, rfl⟩
    refine ⟨members, rfl, hmembers.imp ?_⟩
    rintro entry member ⟨d, hd, rfl⟩
    exact ⟨rfl, hd⟩
  · rintro ⟨members, rfl, hmembers⟩
    refine ⟨members, hmembers.imp ?_, rfl⟩
    rintro ⟨name, v⟩ ⟨_, d⟩ ⟨rfl, hd⟩
    exact ⟨d, hd, rfl⟩

/-- An array's document has what its items stand for, in their order. -/
theorem documentNode_array {items : List Value} (hn : tree.node? id = some (.array items))
    {d : Json} : tree.documentNode (depth + 1) id = some d ↔
      ∃ ds, d = .array ds ∧ List.Forall₂ (fun v d => tree.document depth v = some d) items ds := by
  rw [documentNode, hn]
  simp only [Option.map_eq_some_iff, mapM_eq_some_iff]
  constructor
  · rintro ⟨ds, hds, rfl⟩
    exact ⟨ds, rfl, hds⟩
  · rintro ⟨ds, rfl, hds⟩
    exact ⟨ds, hds, rfl⟩

/-- **More nodes and a greater depth keep a document.** -/
theorem document_mono (h : after.Extends before) : ∀ {n m : Nat} {v : Value} {d : Json}, n ≤ m →
    before.document n v = some d → after.document m v = some d
  | 0, _, .node _, _, _, hd => by simp [document, Value.document?, documentNode] at hd
  | n + 1, 0, _, _, hnm, _ => absurd hnm (Nat.not_succ_le_zero n)
  | n + 1, m + 1, .node id, d, hnm, hd => by
    have ih {v : Value} {d : Json} (hv : before.document n v = some d) :
        after.document m v = some d := document_mono h (Nat.le_of_succ_le_succ hnm) hv
    change before.documentNode (n + 1) id = some d at hd
    change after.documentNode (m + 1) id = some d
    cases hn : before.node? id with
    | none => simp [documentNode, hn] at hd
    | some node =>
      cases node with
      | object fields =>
        obtain ⟨members, rfl, hmembers⟩ := (documentNode_object hn).mp hd
        refine (documentNode_object (h id _ hn)).mpr ⟨members, rfl, hmembers.imp ?_⟩
        rintro entry member ⟨hname, hd⟩
        exact ⟨hname, ih hd⟩
      | array items =>
        obtain ⟨ds, rfl, hds⟩ := (documentNode_array hn).mp hd
        exact (documentNode_array (h id _ hn)).mpr ⟨ds, rfl, hds.imp fun _ _ => ih⟩
  | _, _, .null, _, _, hd | _, _, .bool _, _, _, hd | _, _, .number _, _, _, hd
  | _, _, .text _, _, _, hd | _, _, .foreign _, _, _, hd => hd

/-! ## 3. Nodes behind nodes -/

/-- A node that is added comes behind all others. -/
theorem node?_add (tree : Tree) (node : Node) (id : NodeId) :
    (tree.add node).2.node? id = if id.index = tree.size then some node else tree.node? id :=
  Array.getElem?_push

theorem Extends.trans (h' : after.Extends middle) (h : middle.Extends before) :
    after.Extends before :=
  fun id node hn => h' id node (h id node hn)

theorem extends_add (tree : Tree) (node : Node) : (tree.add node).2.Extends tree := by
  intro id other hn
  rw [node?_add, if_neg (Nat.ne_of_lt (index_lt_size hn))]
  exact hn

/-- A node that was there refers to the same nodes. -/
theorem Extends.points (h : after.Extends before) {a b : NodeId} (ha : a.index < before.size)
    (hab : after.Points a b) : before.Points a b := by
  have hn : before.node? a = some before.nodes[a.index] := Array.getElem?_eq_getElem ha
  rw [Points, children_of_node? (h a _ hn)] at hab
  rw [Points, children_of_node? hn]
  exact hab

/-- A value goes on to stand for its document. -/
theorem StandsFor.extend {v : Value} {d : Json} (h : before.StandsFor v d)
    (hext : after.Extends before) (hle : before.size ≤ after.size) : after.StandsFor v d :=
  fun _ hdepth => document_mono hext (Nat.le_trans hle hdepth) (h before.size (Nat.le_refl _))

/-- A node that stands for a document is there. -/
theorem StandsFor.index_lt {d : Json} (h : tree.StandsFor (.node id) d) :
    id.index < tree.size := by
  have hd : tree.documentNode (tree.size + 1) id = some d := h _ (Nat.le_succ _)
  cases hn : tree.node? id with
  | none => simp [documentNode, hn] at hd
  | some node => exact index_lt_size hn

theorem children_add (tree : Tree) (node : Node) (id : NodeId) : (tree.add node).2.children id =
    if id.index = tree.size then node.values else tree.children id := by
  by_cases hlast : id.index = tree.size <;> simp [children, node?_add, hlast]

/-- The places of `count` nodes, from a place on. -/
def places (start count : Nat) : List NodeId := (List.range' start count).map NodeId.mk

theorem places_append (start m n : Nat) :
    places start (m + n) = places start m ++ places (start + m) n := by
  rw [places, ← List.range'_append_1, List.map_append]
  rfl

theorem places_succ (start n : Nat) : places start (n + 1) = places start n ++ [⟨start + n⟩] :=
  places_append start n 1

/-! ## 4. Adding documents -/

/-- **What adding documents does to an arena.**  Behind the nodes that were there it puts one for
each list and object of the documents, inner ones first. -/
structure LaysOut (double : Json.Number → Binary64) (before after : Tree) (values : List Value)
    (documents : List Json) : Prop where
  /-- The nodes that were there stay as they are. -/
  keeps : after.Extends before
  size_eq : after.size = before.size + (Json.itemContainers documents).length
  values_stand :
    List.Forall₂ (fun v d => after.StandsFor v (d.withDoubles double)) values documents
  /-- The new nodes stand for the lists and objects, in the order in which these end. -/
  nodes_stand : List.Forall₂ (fun id d => after.StandsFor (.node id) (d.withDoubles double))
    (places before.size (Json.itemContainers documents).length) (Json.itemContainers documents)
  /-- Each new node is referred to once, by a node or by one of the values. -/
  references : after.allReferences ++ values.filterMap Value.node? ~
    before.allReferences ++ places before.size (Json.itemContainers documents).length
  /-- A new node refers to nodes before it. -/
  descends : ∀ a b, before.size ≤ a.index → after.Points a b → b.index < a.index

variable {double : Json.Number → Binary64} {values values' : List Value}
  {documents documents' : List Json}

/-- Values without references leave an arena as it is. -/
theorem laysOut_of_containers_nil (hcontainers : Json.itemContainers documents = [])
    (hnodes : values.filterMap Value.node? = [])
    (hvalues : List.Forall₂ (fun v d => tree.StandsFor v (d.withDoubles double)) values
      documents) : LaysOut double tree tree values documents where
  keeps := fun _ _ hn => hn
  size_eq := by
    rw [hcontainers]
    rfl
  values_stand := hvalues
  nodes_stand := by
    rw [hcontainers]
    exact .nil
  references := by
    rw [hcontainers, hnodes]
    rfl
  descends := by
    intro a b hle hab
    obtain ⟨node, hn, -⟩ := exists_node?_of_points hab
    exact absurd (index_lt_size hn) (Nat.not_lt.mpr hle)

theorem LaysOut.size_le (h : LaysOut double before after values documents) :
    before.size ≤ after.size := by
  rw [h.size_eq]
  exact Nat.le_add_right _ _

/-- Documents after documents. -/
theorem LaysOut.append (h : LaysOut double before middle values documents)
    (h' : LaysOut double middle after values' documents') :
    LaysOut double before after (values ++ values') (documents ++ documents') where
  keeps := h'.keeps.trans h.keeps
  size_eq := by
    rw [h'.size_eq, h.size_eq, Json.itemContainers_append, List.length_append, Nat.add_assoc]
  values_stand :=
    List.rel_append (h.values_stand.imp fun _ _ hv => hv.extend h'.keeps h'.size_le)
      h'.values_stand
  nodes_stand := by
    rw [Json.itemContainers_append, List.length_append, places_append, ← h.size_eq]
    exact List.rel_append (h.nodes_stand.imp fun _ _ hv => hv.extend h'.keeps h'.size_le)
      h'.nodes_stand
  references := by
    rw [Json.itemContainers_append, List.length_append, places_append, ← h.size_eq,
      List.filterMap_append]
    calc after.allReferences ++ (values.filterMap Value.node? ++ values'.filterMap Value.node?)
        ~ (after.allReferences ++ values'.filterMap Value.node?) ++
            values.filterMap Value.node? := by
          rw [List.append_assoc]
          exact List.perm_append_comm.append_left _
      _ ~ (middle.allReferences ++ places middle.size _) ++ values.filterMap Value.node? :=
          h'.references.append_right _
      _ ~ (middle.allReferences ++ values.filterMap Value.node?) ++ places middle.size _ := by
          rw [List.append_assoc, List.append_assoc]
          exact List.perm_append_comm.append_left _
      _ ~ (before.allReferences ++ places before.size _) ++ places middle.size _ :=
          h.references.append_right _
      _ = _ := List.append_assoc _ _ _
  descends := by
    intro a b hle hab
    -- the nodes of the first documents refer to the same nodes after the second
    rcases Nat.lt_or_ge a.index middle.size with ha | ha
    · exact h.descends a b hle (h'.keeps.points ha hab)
    · exact h'.descends a b ha hab

/-- **A node takes in the values that wait for one**, and stands for the document they make. -/
theorem LaysOut.close (h : LaysOut double before after values documents) {node : Node}
    {document : Json} (hvalues : node.values = values)
    (hcontainers : document.containers = Json.itemContainers documents ++ [document])
    (hdocument : ∀ (tree : Tree) (depth : Nat) (id : NodeId), tree.node? id = some node →
      List.Forall₂ (fun v d => tree.document depth v = some (d.withDoubles double)) values
        documents → tree.documentNode (depth + 1) id = some (document.withDoubles double)) :
    LaysOut double before (after.add node).2 [.node (after.add node).1] [document] := by
  have hall : Json.itemContainers [document] = Json.itemContainers documents ++ [document] :=
    (List.append_nil _).trans hcontainers
  have hsize : (after.add node).2.size = after.size + 1 := size_add after node
  have hkeeps : (after.add node).2.Extends after := extends_add after node
  have hle : after.size ≤ (after.add node).2.size := hsize ▸ Nat.le_succ _
  have hnode : (after.add node).2.node? (after.add node).1 = some node := by
    rw [node?_add]
    exact if_pos rfl
  have hstands : (after.add node).2.StandsFor (.node (after.add node).1)
      (document.withDoubles double) := by
    -- there is one more node, so one more reference may be followed
    intro depth hdepth
    rw [hsize] at hdepth
    obtain ⟨n, rfl⟩ := Nat.exists_eq_add_of_le' (Nat.le_trans (Nat.le_add_left 1 _) hdepth)
    refine hdocument _ n _ hnode (h.values_stand.imp ?_)
    intro v d hv
    exact document_mono hkeeps (Nat.le_of_succ_le_succ hdepth) (hv after.size (Nat.le_refl _))
  refine
    { keeps := hkeeps.trans h.keeps
      size_eq := ?_
      values_stand := .cons hstands .nil
      nodes_stand := ?_
      references := ?_
      descends := ?_ }
  · rw [hsize, h.size_eq, hall, List.length_append, Nat.add_assoc]
    rfl
  · rw [hall, List.length_append, List.length_singleton, places_succ, ← h.size_eq]
    exact List.rel_append (h.nodes_stand.imp fun _ _ hv => hv.extend hkeeps hle)
      (.cons hstands .nil)
  · rw [hall, List.length_append, List.length_singleton, places_succ, ← h.size_eq,
      allReferences_add, hvalues, ← List.append_assoc]
    exact h.references.append_right _
  · intro a b ha hab
    rw [Points, children_add] at hab
    split at hab
    · rename_i hlast
      rw [hvalues] at hab
      obtain ⟨d, -, hd⟩ := exists_left_of_forall₂ h.values_stand.flip hab
      rw [hlast]
      exact StandsFor.index_lt hd
    · exact h.descends a b ha hab

/-- The values of an object's members keep the members' names. -/
theorem names_addMembers (members : List (String × Json)) (tree : Tree) :
    Named.names (addMembers members tree).1 = Named.names members := by
  induction members generalizing tree with
  | nil => rfl
  | cons member rest ih => exact congrArg (member.1 :: ·) (ih _)

/-- Two lists of named things match if their names do and the things. -/
theorem forall₂_named {α β : Type} {R : α → β → Prop} : ∀ {l : List (String × α)}
    {r : List (String × β)}, Named.names l = Named.names r →
      List.Forall₂ R (l.map Prod.snd) (r.map Prod.snd) →
        List.Forall₂ (fun a b => b.1 = a.1 ∧ R a.2 b.2) l r
  | [], [], _, _ => .nil
  | (_, _) :: _, (_, _) :: _, hnames, .cons h hrest => by
    obtain ⟨hname, hnames⟩ := List.cons.inj hnames
    exact .cons ⟨hname.symm, h⟩ (forall₂_named hnames hrest)

mutual

/-- **A document** is laid out behind any arena. -/
theorem laysOut_addJson (hdouble : ∀ n : Json.Number, n.Fits → n.IsDouble (double n)) :
    ∀ {document : Json}, document.WellFormed → ∀ tree : Tree, LaysOut double tree
      (addJson document tree).2 [(addJson document tree).1] [document]
  | .null, _, _ | .bool _, _, _ | .string _, _, _ =>
    laysOut_of_containers_nil rfl rfl (.cons (fun _ _ => rfl) .nil)
  | .number n, .number hn, tree => by
    refine laysOut_of_containers_nil rfl rfl (.cons ?_ .nil)
    intro _ _
    rw [Json.withDoubles, (Json.Number.isDouble_iff hn).mp (hdouble n hn)]
    rfl
  | .array items, .array hitems, tree => by
    refine (laysOut_addItems hdouble hitems tree).close rfl rfl ?_
    intro after depth id hn hvalues
    rw [Json.withDoubles, Json.itemsWithDoubles_eq]
    exact (documentNode_array hn).mpr ⟨_, rfl, List.forall₂_map_right_iff.mpr hvalues⟩
  | .object members, .object hnames hmembers, tree => by
    have hsame := names_addMembers members tree
    have hentries : (Fields.ofList (addMembers members tree).1).entries =
        (addMembers members tree).1 := Fields.entries_ofList (hsame ▸ hnames)
    have hcontainers : (Json.object members).containers =
        Json.itemContainers (members.map Prod.snd) ++ [.object members] := by
      rw [Json.containers, Json.memberContainers_eq]
    refine (laysOut_addMembers hdouble hmembers tree).close (congrArg (List.map Prod.snd) hentries)
      hcontainers ?_
    intro after depth id hn hvalues
    rw [Json.withDoubles, Json.membersWithDoubles_eq]
    refine (documentNode_object hn).mpr ⟨_, rfl, List.forall₂_map_right_iff.mpr ?_⟩
    rw [hentries]
    exact forall₂_named hsame hvalues

theorem laysOut_addItems (hdouble : ∀ n : Json.Number, n.Fits → n.IsDouble (double n)) :
    ∀ {items : List Json}, (∀ item ∈ items, item.WellFormed) → ∀ tree : Tree,
      LaysOut double tree (addItems items tree).2 (addItems items tree).1 items
  | [], _, _ => laysOut_of_containers_nil rfl rfl .nil
  | item :: _, h, tree =>
    (laysOut_addJson hdouble (h item List.mem_cons_self) tree).append
      (laysOut_addItems hdouble (fun item hitem => h item (List.mem_cons_of_mem _ hitem)) _)

theorem laysOut_addMembers (hdouble : ∀ n : Json.Number, n.Fits → n.IsDouble (double n)) :
    ∀ {members : List (String × Json)}, (∀ member ∈ members, member.2.WellFormed) →
      ∀ tree : Tree, LaysOut double tree (addMembers members tree).2
        ((addMembers members tree).1.map Prod.snd) (members.map Prod.snd)
  | [], _, _ => laysOut_of_containers_nil rfl rfl .nil
  | (name, item) :: _, h, tree =>
    (laysOut_addJson hdouble (h (name, item) List.mem_cons_self) tree).append
      (laysOut_addMembers hdouble (fun item hitem => h item (List.mem_cons_of_mem _ hitem)) _)

end

/-! ## 5. The tree of a document -/

/-- **An arena holds a document** and nothing else. -/
structure Holds (tree : Tree) (double : Json.Number → Binary64) (document : Json) : Prop where
  /-- There are as many nodes as lists and objects. -/
  size_eq : tree.size = document.containers.length
  /-- Each node stands for its own list or object, in the order in which these end. -/
  nodes_stand : List.Forall₂ (fun id d => tree.StandsFor (.node id) (d.withDoubles double))
    (places 0 tree.size) document.containers
  /-- The root stands for the whole, with the members of each object in their order. -/
  root_stands : ∃ root, tree.root = some root ∧
    tree.StandsFor root (document.withDoubles double)
  /-- Each node is referred to exactly once, by a node or by the root. -/
  references : tree.allReferences ++ tree.root.toList.filterMap Value.node? ~ places 0 tree.size
  /-- The node that the root refers to is the last. -/
  root_last : ∀ id, tree.root = some (.node id) → id.index + 1 = tree.size
  /-- A node refers to nodes before it. -/
  descends : ∀ a b, tree.Points a b → b.index < a.index

variable {document : Json}

/-- References lead down, and so never back. -/
theorem Holds.not_onCycle (h : tree.Holds double document) (id : NodeId) : ¬tree.OnCycle id := by
  have hdown {a b : NodeId} (hab : Relation.TransGen tree.Points a b) : b.index < a.index := by
    induction hab with
    | single hab => exact h.descends _ _ hab
    | tail _ hbc ih => exact Nat.lt_trans (h.descends _ _ hbc) ih
  exact fun hcycle => Nat.lt_irrefl _ (hdown hcycle)

theorem exists_points_of_mem_allReferences {b : NodeId} (h : b ∈ tree.allReferences) :
    ∃ a, tree.Points a b := by
  obtain ⟨node, hnode, hb⟩ := List.mem_flatMap.mp h
  obtain ⟨i, hi⟩ := List.mem_iff_getElem?.mp hnode
  rw [Array.getElem?_toList] at hi
  refine ⟨⟨i⟩, mem_references_iff.mp ?_⟩
  rw [references_of_node? (a := ⟨i⟩) hi]
  exact hb

/-- **Every node is reached from the root**: it is the root's, or a later node refers to it. -/
theorem Holds.reachable (h : tree.Holds double document) (id : NodeId)
    (hid : id.index < tree.size) : tree.Reachable id := by
  have hplace : id ∈ places 0 tree.size :=
    List.mem_map.mpr ⟨id.index, List.mem_range'_1.mpr ⟨Nat.zero_le _, by omega⟩, rfl⟩
  -- by induction on how many nodes come after it
  rcases List.mem_append.mp (h.references.mem_iff.mpr hplace) with hnode | hroot
  · obtain ⟨a, ha⟩ := exists_points_of_mem_allReferences hnode
    have hlt := h.descends a id ha
    obtain ⟨node, hn, -⟩ := exists_node?_of_points ha
    exact (h.reachable a (index_lt_size hn)).tail ha
  · obtain ⟨v, hv, hvid⟩ := List.mem_filterMap.mp hroot
    cases v with
    | node root =>
      rw [← Option.some.inj hvid]
      exact ⟨root, Option.mem_toList.mp hv, .refl⟩
    | _ => cases hvid
termination_by tree.size - id.index

/-- A document that is a node is the last that was added. -/
theorem index_addJson : ∀ {document : Json} {tree : Tree} {id : NodeId},
    (addJson document tree).1 = .node id → id.index + 1 = (addJson document tree).2.size
  | .array items, tree, id, h => by
    cases h
    exact (size_add _ _).symm
  | .object members, tree, id, h => by
    cases h
    exact (size_add _ _).symm

/-- **The tree of a document holds it**: there is one node for each of its lists and objects,
each referred to once and only by later nodes or the root, and the root stands for the document
with each number as its double.  So no node is on a cycle, all are reached, and places have 32 bits
as long as there are no more lists and objects than that. -/
theorem holds_ofJson (hdouble : ∀ n : Json.Number, n.Fits → n.IsDouble (double n))
    (h : document.WellFormed) (hfew : document.containers.length ≤ UInt32.size) :
    (ofJson document).Holds double document ∧
    (∀ id, ¬(ofJson document).OnCycle id) ∧
    (∀ id : NodeId, id.index < (ofJson document).size → (ofJson document).Reachable id) ∧
    (∀ id : NodeId, id.index < (ofJson document).size → id.index < UInt32.size) := by
  have hlays := laysOut_addJson hdouble h empty
  have hall : Json.itemContainers [document] = document.containers := List.append_nil _
  have hsize : (ofJson document).size = document.containers.length := by
    rw [← hall]
    exact hlays.size_eq.trans (Nat.zero_add _)
  have hholds : (ofJson document).Holds double document :=
    { size_eq := hsize
      nodes_stand := by
        have hnodes := hlays.nodes_stand
        rw [hall, ← hsize] at hnodes
        exact hnodes.imp fun _ _ hv => hv.extend (fun _ _ hn => hn) (Nat.le_refl _)
      root_stands := by
        refine ⟨_, rfl, ?_⟩
        cases hlays.values_stand with
        | cons hv _ => exact hv.extend (fun _ _ hn => hn) (Nat.le_refl _)
      references := by
        have hrefs := hlays.references
        rw [hall, ← hsize] at hrefs
        exact hrefs
      root_last := fun id hid => index_addJson (Option.some.inj hid)
      descends := fun a b hab => hlays.descends a b (Nat.zero_le _) hab }
  refine ⟨hholds, hholds.not_onCycle, hholds.reachable, ?_⟩
  intro id hid
  exact Nat.lt_of_lt_of_le hid (hsize ▸ hfew)

/-- An object that holds a list of objects next to scalars. -/
def program : Json :=
  .object [("type", .string "Program"), ("size", .number (.natural 2)),
    ("body", .array [.object [("raw", .null), ("strict", .bool false)], .object []])]

theorem holds_ofJson_program : program.WellFormed ∧ program.containers.length = 4 ∧
    (∀ n : Json.Number, n.Fits → n.IsDouble n.toBinary64) ∧
    (ofJson program).Holds Json.Number.toBinary64 program ∧
    (∀ id, ¬(ofJson program).OnCycle id) ∧
    (∀ id : NodeId, id.index < (ofJson program).size → (ofJson program).Reachable id) ∧
    (∀ id : NodeId, id.index < (ofJson program).size → id.index < UInt32.size) := by
  have hwell : program.WellFormed := by simp [program, Json.Number.Fits]
  have hdouble : ∀ n : Json.Number, n.Fits → n.IsDouble n.toBinary64 :=
    fun _ hn => Json.Number.isDouble_toBinary64 hn
  exact ⟨hwell, rfl, hdouble, holds_ofJson hdouble hwell (by decide)⟩

end Tree

end PackedTree
