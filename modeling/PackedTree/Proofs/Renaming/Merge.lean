/-
# A merge under a renaming

The signer keeps nodes in two places: in the keys of cycles and in the marks.  It looks nodes up
there and never writes one down, so nodes that correspond get the same keys, the same tokens and the
same signatures, cycles included.

* `Signer.Renames`: two signers at the same step.
* `Signer.Renames.run`: the stack machine keeps them in step and gives the same signature.
* `Catalog.mergeObjects_agree`: catalogs that correspond are merged alike.
-/
import PackedTree.Proofs.Merge
import PackedTree.Proofs.Renaming.Discovery

namespace PackedTree

variable {f : NodeId → NodeId} {tree other : Tree}

/-! ## 1. Keys -/

/-- A key whose node follows a renaming. -/
def SignatureKey.rename (f : NodeId → NodeId) : SignatureKey → SignatureKey
  | .node id => .node (f id)
  | k => k

/-- A key of a node that the root reaches, or of something else. -/
def SignatureKey.Inside (tree : Tree) (k : SignatureKey) : Prop :=
  ∀ id, k = .node id → tree.Reachable id

theorem SignatureKey.eq_of_rename_eq (ht : tree.Renames f other) {k l : SignatureKey}
    (hk : k.Inside tree) (hl : l.Inside tree) (h : k.rename f = l.rename f) : k = l := by
  cases k with
  | node a =>
    cases l with
    | node b =>
      have hab := ht.eq_of_eq (hk a rfl) (hl b rfl) (SignatureKey.node.inj h)
      rw [hab]
    | _ => exact nomatch h
  | _ =>
    cases l with
    | node b => exact nomatch h
    | _ => exact h

/-- **Two signers at the same step**: the same keys for what corresponds, and the same marks. -/
structure Signer.Renames (f : NodeId → NodeId) (tree : Tree) (s s' : Signer) : Prop where
  keys : ∀ k : SignatureKey, k.Inside tree → s'.keys[k.rename f]? = s.keys[k]?
  size : s'.keys.size = s.keys.size
  marks : ∀ a, tree.Reachable a → s'.marks[f a]? = s.marks[a]?

/-- A frame at the node that corresponds. -/
def Frame.rename (f : NodeId → NodeId) (frame : Frame) : Frame :=
  { frame with node := f frame.node, unread := frame.unread.map (Value.rename f) }

/-- A frame that refers to nothing that the root does not reach. -/
structure Frame.Inside (tree : Tree) (frame : Frame) : Prop where
  node : tree.Reachable frame.node
  unread : ∀ v ∈ frame.unread, v.Inside tree

namespace Signer.Renames

variable {s s' : Signer}

theorem empty (f : NodeId → NodeId) (tree : Tree) : Signer.Renames f tree {} {} where
  keys := fun k _ => by simp
  size := rfl
  marks := fun a _ => by simp

/-- **What corresponds gets the same key.** -/
theorem key (h : Signer.Renames f tree s s') (ht : tree.Renames f other) {k : SignatureKey}
    (hk : k.Inside tree) :
    (s'.key (k.rename f)).1 = (s.key k).1 ∧
      Signer.Renames f tree (s.key k).2 (s'.key (k.rename f)).2 := by
  unfold Signer.key
  rw [h.keys k hk]
  cases hn : s.keys[k]? with
  | some n => exact ⟨rfl, h⟩
  | none =>
    have hn' : s'.keys[k.rename f]? = none := (h.keys k hk).trans hn
    refine ⟨congrArg UInt32.ofNat h.size, ⟨fun l hl => ?_, ?_, h.marks⟩⟩
    · have hsame : (k.rename f == l.rename f) = (k == l) := by
        rw [Bool.eq_iff_iff, beq_iff_eq, beq_iff_eq]
        exact ⟨SignatureKey.eq_of_rename_eq ht hk hl, congrArg _⟩
      simp only [Std.HashMap.getElem?_insert, hsame, h.keys l hl, h.size]
    · have hnot : k ∉ s.keys := by simpa using hn
      have hnot' : k.rename f ∉ s'.keys := by simpa using hn'
      simp only [Std.HashMap.size_insert, if_neg hnot, if_neg hnot', h.size]

/-- A mark is set on nodes that correspond. -/
theorem mark (h : Signer.Renames f tree s s') (ht : tree.Renames f other) {a : NodeId}
    (ha : tree.Reachable a) (m : Mark) :
    Signer.Renames f tree { s with marks := s.marks.insert a m }
      { s' with marks := s'.marks.insert (f a) m } where
  keys := h.keys
  size := h.size
  marks := fun b hb => by
    have hsame : (f a == f b) = (a == b) := by
      rw [Bool.eq_iff_iff, beq_iff_eq, beq_iff_eq]
      exact ⟨ht.eq_of_eq ha hb, congrArg f⟩
    simp only [Std.HashMap.getElem?_insert, hsame, h.marks b hb]

/-! ## 2. Reading a value -/

/-- **A value is read alike**: with the same token, or to enter nodes that correspond. -/
theorem read (h : Signer.Renames f tree s s') (ht : tree.Renames f other)
    {slot : Slot String NodeId} (hs : slot.Inside tree) :
    (∀ t s₁, s.read slot = .token t s₁ →
      ∃ s₁', s'.read (slot.rename f) = .token t s₁' ∧ Signer.Renames f tree s₁ s₁') ∧
    ∀ child s₁, s.read slot = .enter child s₁ →
      ∃ s₁', s'.read (slot.rename f) = .enter (f child) s₁' ∧ Signer.Renames f tree s₁ s₁' ∧
        tree.Reachable child := by
  have hscalar (k : SignatureKey) (hk : k.Inside tree) (token : UInt32 → Token) :
      ∀ t s₁, Signer.Reading.token (token (s.key k).1) (s.key k).2 = .token t s₁ →
        ∃ s₁', Signer.Reading.token (token (s'.key (k.rename f)).1) (s'.key (k.rename f)).2 =
          .token t s₁' ∧ Signer.Renames f tree s₁ s₁' := by
    intro t s₁ he
    obtain ⟨rfl, rfl⟩ := Signer.Reading.token.inj he
    obtain ⟨hn, hkeys⟩ := h.key ht hk
    exact ⟨_, by rw [hn], hkeys⟩
  have hnode {a : NodeId} (ha : tree.Reachable a) :
      (∀ t s₁, s.readNode a = .token t s₁ →
        ∃ s₁', s'.readNode (f a) = .token t s₁' ∧ Signer.Renames f tree s₁ s₁') ∧
      ∀ child s₁, s.readNode a = .enter child s₁ →
        ∃ s₁', s'.readNode (f a) = .enter (f child) s₁' ∧ Signer.Renames f tree s₁ s₁' ∧
          tree.Reachable child := by
    unfold Signer.readNode
    rw [h.marks a ha]
    cases s.marks[a]? with
    | none =>
      refine ⟨fun t s₁ he => (nomatch he), fun child s₁ he => ?_⟩
      obtain ⟨rfl, rfl⟩ := Signer.Reading.enter.inj he
      exact ⟨s', rfl, h, ha⟩
    | some mark =>
      refine ⟨?_, fun child s₁ he => ?_⟩
      · cases mark with
        | underway => exact hscalar (.node a) (fun b hb => SignatureKey.node.inj hb ▸ ha) .cycle
        | signed σ => exact hscalar (.content σ) (fun b hb => nomatch hb) .child
      · cases mark <;> exact nomatch he
  cases slot with
  | null =>
    refine ⟨fun t s₁ he => ?_, fun child s₁ he => nomatch he⟩
    obtain ⟨rfl, rfl⟩ := Signer.Reading.token.inj he
    exact ⟨s', rfl, h⟩
  | object a =>
    have ha : tree.Reachable a := hs
    exact hnode ha
  | array a =>
    have ha : tree.Reachable a := hs
    exact hnode ha
  | text t => exact ⟨hscalar (.text t) (fun b hb => nomatch hb) .scalar, fun _ _ he => nomatch he⟩
  | int32 i =>
    exact ⟨hscalar (.int32 i.toUInt32) (fun b hb => nomatch hb) .scalar, fun _ _ he => nomatch he⟩
  | float64 x =>
    exact ⟨hscalar (.float64 x.bits) (fun b hb => nomatch hb) .scalar, fun _ _ he => nomatch he⟩
  | bool b => exact ⟨hscalar (.bool b) (fun b hb => nomatch hb) .scalar, fun _ _ he => nomatch he⟩

/-! ## 3. The stack machine -/

/-- A node is entered alike: with the same header, and with its values to read. -/
theorem enter (h : Signer.Renames f tree s s') (ht : tree.Renames f other)
    {shapes : ShapeRegistry} {a : NodeId} (ha : tree.Reachable a) {frame : Frame} {s₁ : Signer}
    (he : s.enter tree shapes a = .ok (frame, s₁)) :
    ∃ s₁', s'.enter other shapes (f a) = .ok (frame.rename f, s₁') ∧
      Signer.Renames f tree s₁ s₁' ∧ frame.Inside tree := by
  unfold Signer.enter at he ⊢
  cases hn : tree.node? a with
  | none => simp [hn] at he
  | some node =>
    have hinside := ha.all_inside hn
    rw [ht.node?_eq ha hn]
    cases node with
    | object fields =>
      simp only [hn] at he
      cases harr : shapes.arrange a fields with
      | error e => simp [harr] at he
      | ok p =>
        obtain ⟨index, values⟩ := p
        simp only [harr, Except.ok.injEq, Prod.mk.injEq] at he
        obtain ⟨rfl, rfl⟩ := he
        simp only [Node.rename, ShapeRegistry.arrange_rename harr]
        refine ⟨_, rfl, h.mark ht ha .underway, ha, fun v hv => hinside v ?_⟩
        have hvalues := mapM_eq_some_iff.mp (ShapeRegistry.arrange_eq_ok_iff.mp harr).2
        obtain ⟨name, -, hname⟩ := exists_left_of_forall₂ hvalues hv
        exact Fields.mem_values_of_get? hname
    | array items =>
      simp only [hn, Except.ok.injEq, Prod.mk.injEq] at he
      obtain ⟨rfl, rfl⟩ := he
      simp only [Node.rename, List.length_map]
      exact ⟨_, rfl, h.mark ht ha .underway, ha, hinside⟩

end Signer.Renames

/-- The next value is taken off a frame. -/
theorem Frame.Inside.tail {top : Frame} (h : top.Inside tree) {v : Value} {unread : List Value}
    (hu : top.unread = v :: unread) : v.Inside tree ∧ Frame.Inside tree { top with unread } :=
  ⟨h.unread v (hu ▸ List.mem_cons_self),
    h.node, fun u hu' => h.unread u (hu ▸ List.mem_cons_of_mem _ hu')⟩

namespace Signer

section

variable {shapes : ShapeRegistry} {s s₁ : Signer} {top : Frame} {below : List Frame} {v : Value}
  {unread : List Value} {slot : Slot String NodeId}

theorem run_of_token (hu : top.unread = v :: unread) (hs : Slot.ofValue tree v = .ok slot)
    {t : Token} (hr : s.read slot = .token t s₁) :
    s.run tree shapes top below = s₁.run tree shapes (Frame.push { top with unread } t) below := by
  rw [run]
  split
  · rename_i w unread' hu'
    rw [hu] at hu'
    obtain ⟨rfl, rfl⟩ := List.cons.inj hu'
    rw [hs]
    dsimp only
    split
    · rename_i t' s' hr'
      rw [hr] at hr'
      obtain ⟨rfl, rfl⟩ := Reading.token.inj hr'
      rfl
    · rename_i hr'
      rw [hr] at hr'
      cases hr'
  · rename_i hu'
    rw [hu] at hu'
    cases hu'

theorem run_of_enter (hu : top.unread = v :: unread) (hs : Slot.ofValue tree v = .ok slot)
    {child : NodeId} (hr : s.read slot = .enter child s₁) {frame : Frame} {s₂ : Signer}
    (he : s₁.enter tree shapes child = .ok (frame, s₂)) :
    s.run tree shapes top below = s₂.run tree shapes frame ({ top with unread } :: below) := by
  rw [run]
  split
  · rename_i w unread' hu'
    rw [hu] at hu'
    obtain ⟨rfl, rfl⟩ := List.cons.inj hu'
    rw [hs]
    dsimp only
    split
    · rename_i hr'
      rw [hr] at hr'
      cases hr'
    · rename_i child' s' hr'
      rw [hr] at hr'
      obtain ⟨rfl, rfl⟩ := Reading.enter.inj hr'
      split
      · rename_i he'
        rw [he] at he'
        cases he'
      · rename_i frame' s'' he'
        rw [he, Except.ok.injEq, Prod.mk.injEq] at he'
        obtain ⟨rfl, rfl⟩ := he'
        rfl
  · rename_i hu'
    rw [hu] at hu'
    cases hu'

theorem run_of_unread_nil (hu : top.unread = []) :
    s.run tree shapes top [] = .ok (top.signature, s.close top) := by
  rw [run]
  split
  · rename_i hu'
    rw [hu] at hu'
    cases hu'
  · rfl

theorem run_of_unread_nil_cons (hu : top.unread = []) (next : Frame) :
    s.run tree shapes top (next :: below) =
      ((s.close top).key (.content top.signature)).2.run tree shapes
        (next.push (.child ((s.close top).key (.content top.signature)).1)) below := by
  rw [run]
  split
  · rename_i hu'
    rw [hu] at hu'
    cases hu'
  · rfl

end

/-- **The stack machines stay in step** and give the same signature. -/
theorem Renames.run (ht : tree.Renames f other) {shapes : ShapeRegistry} (s : Signer) (top : Frame)
    (below : List Frame) : ∀ {s' r : Signer} {σ : Signature}, Signer.Renames f tree s s' →
      top.Inside tree → (∀ frame ∈ below, frame.Inside tree) →
      s.run tree shapes top below = .ok (σ, r) →
        ∃ r', s'.run other shapes (top.rename f) (below.map (Frame.rename f)) = .ok (σ, r') ∧
          Signer.Renames f tree r r' := by
  fun_induction Signer.run tree shapes s top below with
  | case1 s top below v unread hu e hs =>
    intro s' r σ h htop hbelow hrun
    cases hrun
  | case2 s top below v unread hu slot hs t s₁ hr ih =>
    intro s' r σ h htop hbelow hrun
    obtain ⟨hv, hrest⟩ := htop.tail hu
    have hu' : (top.rename f).unread = v.rename f :: unread.map (Value.rename f) := by
      simp only [Frame.rename, hu, List.map_cons]
    obtain ⟨s₁', hr', h₁⟩ := (h.read ht (Slot.inside_of_ofValue hv hs)).1 t s₁ hr
    rw [run_of_token hu' (ht.ofValue hv hs) hr']
    exact ih h₁ ⟨hrest.node, hrest.unread⟩ hbelow hrun
  | case3 s top below v unread hu slot hs child s₁ hr e he =>
    intro s' r σ h htop hbelow hrun
    cases hrun
  | case4 s top below v unread hu slot hs child s₁ hr frame s₂ he ih =>
    intro s' r σ h htop hbelow hrun
    obtain ⟨hv, hrest⟩ := htop.tail hu
    have hu' : (top.rename f).unread = v.rename f :: unread.map (Value.rename f) := by
      simp only [Frame.rename, hu, List.map_cons]
    obtain ⟨s₁', hr', h₁, hchild⟩ :=
      (h.read ht (Slot.inside_of_ofValue hv hs)).2 child s₁ hr
    obtain ⟨s₂', he', h₂, hframe⟩ := h₁.enter ht hchild he
    rw [run_of_enter hu' (ht.ofValue hv hs) hr' he']
    exact ih h₂ hframe (List.forall_mem_cons.mpr ⟨hrest, hbelow⟩) hrun
  | case5 s top hu =>
    intro s' r σ h htop hbelow hrun
    obtain ⟨rfl, rfl⟩ := Prod.mk.inj (Except.ok.inj hrun)
    have hu' : (top.rename f).unread = [] := by
      simp only [Frame.rename, hu, List.map_nil]
    exact ⟨_, run_of_unread_nil hu', h.mark ht htop.node _⟩
  | case6 s top hu signature closed next below n s₁ =>
    rename_i hk ih
    intro s' r σ h htop hbelow hrun
    obtain ⟨hnext, hbelow⟩ := List.forall_mem_cons.mp hbelow
    have hu' : (top.rename f).unread = [] := by
      simp only [Frame.rename, hu, List.map_nil]
    have hclosed : Signer.Renames f tree (s.close top) (s'.close (top.rename f)) :=
      h.mark ht htop.node _
    obtain ⟨hn, hkeys⟩ := hclosed.key ht (k := .content top.signature) fun b hb => by cases hb
    rw [hk] at hn hkeys
    -- the signature of a frame is made of its tokens, which are not renamed
    have hn' : ((s'.close (top.rename f)).key (.content (top.rename f).signature)).1 = n := hn
    rw [List.map_cons, run_of_unread_nil_cons hu', hn']
    exact ih hkeys ⟨hnext.node, hnext.unread⟩ hbelow hrun

/-- **Nodes that correspond have the same signature**, whatever was signed before. -/
theorem Renames.sign (ht : tree.Renames f other) {shapes : ShapeRegistry} {s s' r : Signer}
    {σ : Signature} (h : Signer.Renames f tree s s') {a : NodeId} (ha : tree.Reachable a)
    (hs : s.sign tree shapes a = .ok (σ, r)) :
    ∃ r', s'.sign other shapes (f a) = .ok (σ, r') ∧ Signer.Renames f tree r r' := by
  unfold Signer.sign at hs ⊢
  rw [h.marks a ha]
  cases hm : s.marks[a]? with
  | none =>
    simp only [hm] at hs ⊢
    cases he : s.enter tree shapes a with
    | error e => simp [he] at hs
    | ok p =>
      obtain ⟨frame, s₁⟩ := p
      simp only [he] at hs
      obtain ⟨s₁', he', h₁, hframe⟩ := h.enter ht ha he
      simp only [he']
      exact Renames.run ht s₁ frame [] h₁ hframe (fun _ hm => absurd hm List.not_mem_nil) hs
  | some mark =>
    cases mark with
    | signed τ =>
      simp only [hm, Except.ok.injEq, Prod.mk.injEq] at hs ⊢
      obtain ⟨rfl, rfl⟩ := hs
      exact ⟨s', ⟨rfl, rfl⟩, h⟩
    | underway =>
      simp only [hm, Except.ok.injEq, Prod.mk.injEq] at hs ⊢
      obtain ⟨rfl, rfl⟩ := hs
      obtain ⟨hn, hkeys⟩ := h.key ht (k := .node a) (fun b hb => SignatureKey.node.inj hb ▸ ha)
      have hn' : (s'.key (.node (f a))).1 = (s.key (.node a)).1 := hn
      exact ⟨_, ⟨by rw [hn'], rfl⟩, hkeys⟩

end Signer

/-! ## 4. Groups and merges -/

namespace Catalog

/-- Objects that correspond are put into the same groups. -/
theorem groupObjects_renames (ht : tree.Renames f other) {shapes : ShapeRegistry}
    {entries : List (Identity × NodeId)} {s s' : Signer} {g g' : Groups}
    (h : Signer.Renames f tree s s') (hentries : ∀ entry ∈ entries, tree.Reachable entry.2)
    (hg : groupObjects tree shapes s g entries = .ok g') :
    groupObjects other shapes s' g (entries.map fun entry => (entry.1, f entry.2)) = .ok g' := by
  induction entries generalizing s s' g with
  | nil => exact hg
  | cons entry entries ih =>
    obtain ⟨x, a⟩ := entry
    obtain ⟨ha, hrest⟩ := List.forall_mem_cons.mp hentries
    unfold groupObjects at hg
    rw [List.map_cons, groupObjects]
    cases hs : s.sign tree shapes a with
    | error e => simp [hs] at hg
    | ok p =>
      obtain ⟨σ, r⟩ := p
      obtain ⟨r', hr', hr⟩ := h.sign ht ha hs
      simp only [hs] at hg
      simp only [hr']
      exact ih hr hrest hg

variable {c c' : Catalog}

/-- The same pairs of identities are to be merged. -/
theorem Renames.merges_eq (h : Catalog.Renames f tree other c c') (ht : tree.Renames f other)
    {pairs : List (Identity × Identity)} (hp : c.merges = .ok pairs) : c'.merges = .ok pairs := by
  unfold merges at hp ⊢
  cases hg : groupObjects c.tree c.shapes {} {} c.objects.liveEntries with
  | error e => simp [hg, Except.map] at hp
  | ok g =>
    have hentries : ∀ entry ∈ c.objects.liveEntries, tree.Reachable entry.2 := fun entry he =>
      h.objects.within entry.1 entry.2 (InternTable.mem_liveEntries.mp he).2
    rw [h.tree_eq] at hg
    have hg' := groupObjects_renames ht (Signer.Renames.empty f tree) hentries hg
    rw [h.other_eq, h.shapes, h.objects.liveEntries_eq, hg', ← hp, h.tree_eq, hg]

/-- What a merge reports. -/
def announceMerge (c : Catalog) (merged : Nat) : Pass Unit := do
  Pass.count fun stats => { stats with objectsMerged := merged }
  Pass.report (.merged merged c.objects.count)

/-- A merge that succeeds reports its pairs and gives the merged catalog. -/
theorem mergeObjects_eq {pairs : List (Identity × Identity)} {table : InternTable NodeId}
    (hp : c.merges = .ok pairs) (ht : mergeAll c.objects pairs = .ok table) :
    c.mergeObjects = (do
      c.announceMerge pairs.length
      pure (pairs.length, { c with objects := table })) := by
  funext progress
  simp only [mergeObjects, hp, Pass.ofExcept, announceMerge, bind, EStateM.bind, pure,
    EStateM.pure, ht]
  rfl

/-- **Catalogs that correspond are merged alike**: the same identities onto the same ones, and the
merges count and report the same. -/
theorem Renames.mergeObjects_agree (h : Catalog.Renames f tree other c c')
    (ht : tree.Renames f other) (hlists : c.Lists tree) :
    Pass.Agree (fun p p' => p'.1 = p.1 ∧ Catalog.Renames f tree other p.2 p'.2) c.mergeObjects
      c'.mergeObjects := by
  obtain ⟨count, merged, hgives, -⟩ := hlists.merge_again
  have hpure : c.mergedObjects = .ok (count, merged) :=
    (c.gives_mergedObjects {}).symm.trans (hgives {})
  unfold mergedObjects at hpure
  cases hp : c.merges with
  | error e => simp [hp, bind, Except.bind] at hpure
  | ok pairs =>
    cases hm : mergeAll c.objects pairs with
    | error e => simp [hp, hm, bind, Except.bind] at hpure
    | ok table =>
      obtain ⟨table', hm', htable⟩ := h.objects.mergeAll hlists.objects_grounded hm
      rw [mergeObjects_eq hp hm, mergeObjects_eq (h.merges_eq ht hp) hm']
      have hreport : c'.announceMerge pairs.length = c.announceMerge pairs.length := by
        rw [announceMerge, h.objects.count_eq, announceMerge]
      rw [hreport]
      exact Pass.agree_pure _ ⟨rfl, { h with objects := htable }⟩

end Catalog

end PackedTree
