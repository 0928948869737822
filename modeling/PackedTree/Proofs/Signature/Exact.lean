/-
# Equal signatures and equal content

What the descriptions say once a signer is at rest, so that every child is signed.

* `bisimilar_iff_not_diverges`: nodes with the same signature are bisimilar unless they diverge.
* `clashes_of_diverges`: they diverge only if the key of some scalar clashes with that of a cycle.
* `bisimilar_of_cycleFree` and `sameSignature_of_unfoldNode`: nodes that reach no cycle have the
  same signature exactly if they have the same unfolding.

A clash needs a cycle through one of the two nodes, so the last statement needs no condition on
clashes, whatever the rest of the tree holds.  What is said of equal signatures needs enough keys;
that equal content gives equal signatures does not.
-/
import PackedTree.Proofs.Content
import PackedTree.Proofs.Signature

namespace PackedTree.Signer

variable {tree : Tree} {shapes : ShapeRegistry} {D : NodeId → Prop} {s : Signer} {a b : NodeId}

/-! ## 1. Two nodes with the same signature -/

/-- Both nodes are signed, with one signature. -/
def SameSignature (s : Signer) (a b : NodeId) : Prop :=
  ∃ σ, s.marks[a]? = some (.signed σ) ∧ s.marks[b]? = some (.signed σ)

/-- Values of two nodes whose tokens are the same word. -/
def SameWord (tree : Tree) (s : Signer) (a b : NodeId) (v w : Value) : Prop :=
  ∃ t u, Stands tree s a v t ∧ Stands tree s b w u ∧ t.text = u.text

/-- **Some scalar has a key that clashes with that of a cycle.** -/
def Clashes (s : Signer) : Prop :=
  ∃ (c : Scalar) (k : SignatureKey) (n : UInt32) (id : NodeId) (m : UInt32),
    c.key? = some k ∧ s.keys[k]? = some n ∧ s.keys[SignatureKey.node id]? = some m ∧ Clash n m

/-- Nodes with one layout agree where their values do. -/
theorem nodesAgree_of_layout {P : Value → Value → Prop} {header : Header}
    {vs ws : List Value} (ha : tree.layout shapes a = .ok (header, vs))
    (hb : tree.layout shapes b = .ok (header, ws)) (hP : List.Forall₂ P vs ws) :
    tree.NodesAgree P a b := by
  cases hna : tree.node? a with
  | none => simp [Tree.layout, hna] at ha
  | some na =>
    cases hnb : tree.node? b with
    | none => simp [Tree.layout, hnb] at hb
    | some nb =>
      cases na with
      | object f =>
        obtain ⟨i, rfl, hf, hvs⟩ := (Tree.layout_object hna).mp ha
        cases nb with
        | array js => simp [Tree.layout_array hnb] at hb
        | object g =>
          obtain ⟨j, hj, hg, hws⟩ := (Tree.layout_object hnb).mp hb
          have hshape : Shape.ofFields f = Shape.ofFields g := by
            have h := ShapeRegistry.find?_eq_some hf
            rw [Header.shape.inj hj, ShapeRegistry.find?_eq_some hg] at h
            exact (Option.some.inj h).symm
          refine .object hna hnb (Shape.ofFields_eq_iff.mp hshape) ?_
          intro name v w hv hw
          -- both look the name up at its position among the keys
          have hname : name ∈ (Shape.ofFields f).keys :=
            Shape.mem_keys_ofFields.mpr (Fields.mem_names_iff.mpr ⟨v, hv⟩)
          rw [← hshape] at hws
          obtain ⟨i, hi, rfl⟩ := List.mem_iff_getElem.mp hname
          have h1 := (mapM_eq_some_iff.mp hvs)
          have h2 := (mapM_eq_some_iff.mp hws)
          have hi₁ : i < vs.length := h1.length_eq ▸ hi
          have hi₂ : i < ws.length := h2.length_eq ▸ hi
          have e₁ := h1.get hi hi₁
          have e₂ := h2.get hi hi₂
          simp only [List.get_eq_getElem] at e₁ e₂
          rw [hv, Option.some.injEq] at e₁
          rw [hw, Option.some.injEq] at e₂
          rw [e₁, e₂]
          exact hP.get hi₁ hi₂
      | array is =>
        rw [Tree.layout_array hna] at ha
        simp only [Except.ok.injEq, Prod.mk.injEq] at ha
        obtain ⟨rfl, rfl⟩ := ha
        cases nb with
        | object g =>
          obtain ⟨j, hj, -, -⟩ := (Tree.layout_object hnb).mp hb
          simp at hj
        | array js =>
          rw [Tree.layout_array hnb] at hb
          simp only [Except.ok.injEq, Prod.mk.injEq] at hb
          obtain ⟨-, rfl⟩ := hb
          exact .array hna hnb hP

/-- **One signature, the same words**: nodes with the same signature agree word by word. -/
theorem SameSignature.agree (hs : AtRest tree shapes D s) (h : s.SameSignature a b) :
    tree.NodesAgree (SameWord tree s a b) a b := by
  obtain ⟨σ, ha, hb⟩ := h
  obtain ⟨-, ga, vs, ts, hla, hta, hσa⟩ := hs.described ha
  obtain ⟨-, gb, ws, us, hlb, htb, hσb⟩ := hs.described hb
  obtain ⟨rfl, hwords⟩ := Signature.ofWords_inj (hσa.symm.trans hσb)
  refine nodesAgree_of_layout hla hlb (List.forall₂_iff_get.mpr ?_)
  have hlen : ts.length = us.length := by simpa using congrArg List.length hwords
  refine ⟨hta.length_eq.trans (hlen.trans htb.length_eq.symm), ?_⟩
  intro i hi hj
  have hi' : i < ts.length := hta.length_eq ▸ hi
  have hj' : i < us.length := htb.length_eq ▸ hj
  refine ⟨_, _, hta.get hi hi', htb.get hj hj', ?_⟩
  have hword : (ts.map Token.text)[i]? = (us.map Token.text)[i]? := by rw [hwords]
  simpa [hi', hj'] using hword

/-- **What the same word can mean.**  Beside the same scalar and children with the same signature
there is one case more: a scalar on one side, and on the other a child on a cycle through its
node, with clashing keys. -/
theorem SameWord.cases (hs : AtRest tree shapes D s) (hfew : s.keys.size ≤ UInt32.size)
    {v w : Value} (h : SameWord tree s a b v w) (hv : v ∈ tree.children a)
    (hw : w ∈ tree.children b) :
    (∃ c, v.scalar? = some c ∧ w.scalar? = some c) ∨
    (∃ x y, v = .node x ∧ w = .node y ∧ s.SameSignature x y) ∨
    (v.node?.isSome ≠ w.node?.isSome ∧ s.Clashes ∧ (tree.OnCycle a ∨ tree.OnCycle b)) := by
  obtain ⟨t, u, ht, hu, htext⟩ := h
  have hcycle {owner child : NodeId} (hback : tree.Reaches child owner)
      (hc : .node child ∈ tree.children owner) : tree.OnCycle owner := .head' hc hback
  rcases Token.text_eq htext with rfl | ⟨n, m, rfl, rfl, hclash⟩ | ⟨n, m, rfl, rfl, hclash⟩
  · cases ht with
    | null hv =>
      cases hu with
      | null hw => exact .inl ⟨_, hv, hw⟩
    | scalar hv hk hn =>
      cases hu with
      | scalar hw hk' hn' =>
        have hkk := hs.keys.inj hfew hn hn'
        subst hkk
        exact .inl ⟨_, hv, Scalar.key?_inj hk hk' ▸ hw⟩
    | @cycle x _ hv hm hn _ =>
      cases hu with
      | cycle hw _ hn' _ =>
        obtain rfl := SignatureKey.node.inj (hs.keys.inj hfew hn hn')
        obtain ⟨mark, hmark⟩ := Option.isSome_iff_exists.mp hm
        cases mark with
        | underway => exact absurd hmark (hs.not_underway _)
        | signed σ => exact .inr (.inl ⟨_, _, hv, hw, σ, hmark, hmark⟩)
    | child hv hm hn =>
      cases hu with
      | child hw hm' hn' =>
        obtain rfl := SignatureKey.content.inj (hs.keys.inj hfew hn hn')
        exact .inr (.inl ⟨_, _, hv, hw, _, hm, hm'⟩)
  · cases ht with
    | scalar hc hk hn =>
      cases hu with
      | @cycle child _ hx _ hm hback =>
        subst hx
        refine .inr (.inr ⟨?_, ⟨_, _, _, _, _, hk, hn, hm, hclash⟩, .inr (hcycle hback hw)⟩)
        rw [Value.node?_of_scalar? hc]
        exact Bool.false_ne_true
  · cases ht with
    | @cycle child _ hx _ hm hback =>
      cases hu with
      | scalar hc hk hn =>
        subst hx
        refine .inr (.inr ⟨?_, ⟨_, _, _, _, _, hk, hn, hm, hclash⟩, .inl (hcycle hback hv)⟩)
        rw [Value.node?_of_scalar? hc]
        exact Bool.false_ne_true.symm

/-- What nodes with the same signature hold at the same place. -/
theorem SameSignature.cases_of_beside (hs : AtRest tree shapes D s)
    (hfew : s.keys.size ≤ UInt32.size) (h : s.SameSignature a b) {v w : Value}
    (hvw : tree.Beside a b v w) :
    (∃ c, v.scalar? = some c ∧ w.scalar? = some c) ∨
    (∃ x y, v = .node x ∧ w = .node y ∧ s.SameSignature x y) ∨
    (v.node?.isSome ≠ w.node?.isSome ∧ s.Clashes ∧ (tree.OnCycle a ∨ tree.OnCycle b)) :=
  ((h.agree hs).of_beside hvw).cases hs hfew hvw.mem_left hvw.symm.mem_left

/-! ## 2. Bisimilar up to a clash -/

/-- **Nodes with the same signature are bisimilar unless they diverge.** -/
theorem bisimilar_iff_not_diverges (hs : AtRest tree shapes D s)
    (hfew : s.keys.size ≤ UInt32.size) (h : s.SameSignature a b) :
    tree.Bisimilar a b ↔ ¬tree.Diverges a b := by
  refine ⟨Tree.not_diverges_of_bisimilar, ?_⟩
  intro hnd
  refine ⟨fun x y => s.SameSignature x y ∧ ¬tree.Diverges x y, ?_, h, hnd⟩
  rintro x y ⟨hxy, hd⟩
  refine (hxy.agree hs).imp ?_
  intro v w hvw _
  rcases hxy.cases_of_beside hs hfew hvw with ⟨c, hv, hw⟩ | ⟨x', y', rfl, rfl, hxy'⟩ | ⟨hne, -, -⟩
  · exact .scalar hv hw
  · exact .node ⟨hxy', fun hd' => hd (.there hvw hd')⟩
  · exact absurd (.here hvw hne) hd

/-- Nodes with the same signature diverge only if keys clash, and only on the way to a cycle. -/
theorem clashes_of_diverges (hs : AtRest tree shapes D s) (hfew : s.keys.size ≤ UInt32.size)
    (hd : tree.Diverges a b) :
    s.SameSignature a b → s.Clashes ∧ (¬tree.CycleFree a ∨ ¬tree.CycleFree b) := by
  induction hd with
  | here hvw hne =>
    intro h
    rcases h.cases_of_beside hs hfew hvw with ⟨c, hv, hw⟩ | ⟨x, y, rfl, rfl, -⟩ | ⟨-, hclash, ho⟩
    · rw [Value.node?_of_scalar? hv, Value.node?_of_scalar? hw] at hne
      exact absurd rfl hne
    · exact absurd rfl hne
    · exact ⟨hclash, ho.imp (fun h hf => hf _ .refl h) (fun h hf => hf _ .refl h)⟩
  | @there a b x y hvw _ ih =>
    intro h
    rcases h.cases_of_beside hs hfew hvw with ⟨c, hv, -⟩ | ⟨x', y', hx, hy, hxy⟩ | ⟨hne, -, -⟩
    · simp [Value.scalar?] at hv
    · obtain rfl := Value.node.inj hx
      obtain rfl := Value.node.inj hy
      obtain ⟨hclash, ho⟩ := ih hxy
      refine ⟨hclash, ho.imp (fun hx hf => hx (hf.of_points ?_)) (fun hy hf => hy (hf.of_points ?_))⟩
      · exact hvw.mem_left
      · exact hvw.symm.mem_left
    · exact absurd rfl hne

/-- Nodes that reach no cycle and have the same signature are bisimilar. -/
theorem bisimilar_of_cycleFree (hs : AtRest tree shapes D s) (hfew : s.keys.size ≤ UInt32.size)
    (h : s.SameSignature a b) (ha : tree.CycleFree a) (hb : tree.CycleFree b) :
    tree.Bisimilar a b := by
  refine (bisimilar_iff_not_diverges hs hfew h).mpr ?_
  intro hd
  obtain ⟨-, ho⟩ := clashes_of_diverges hs hfew hd h
  exact ho.elim (fun h => h ha) fun h => h hb

/-! ## 3. Equal content gives equal signatures -/

/-- Where no cycle is reached, tokens are the same if they stand for the same scalar, or for
children with the same signature. -/
theorem Stands.token_eq {v w : Value} {t u : Token} (ha : tree.CycleFree a)
    (hb : tree.CycleFree b) (hv : v ∈ tree.children a) (hw : w ∈ tree.children b)
    (ht : Stands tree s a v t) (hu : Stands tree s b w u)
    (h : (∃ c, v.scalar? = some c ∧ w.scalar? = some c) ∨
      (∃ x y, v = .node x ∧ w = .node y ∧ s.SameSignature x y)) : t = u := by
  rcases h with ⟨c, hvc, hwc⟩ | ⟨x, y, rfl, rfl, σ, hx, hy⟩
  · cases ht with
    | null hv' =>
      cases hu with
      | null _ => rfl
      | scalar hw' hk _ =>
        rw [hvc, Option.some.injEq] at hv'
        rw [hwc, Option.some.injEq] at hw'
        subst hw' hv'
        simp [Scalar.key?] at hk
      | cycle hw' | child hw' => simp [hw', Value.scalar?] at hwc
    | scalar hv' hk hn =>
      rw [hvc, Option.some.injEq] at hv'
      subst hv'
      cases hu with
      | null hw' =>
        rw [hwc, Option.some.injEq] at hw'
        subst hw'
        simp [Scalar.key?] at hk
      | scalar hw' hk' hn' =>
        rw [hwc, Option.some.injEq] at hw'
        subst hw'
        rw [hk, Option.some.injEq] at hk'
        subst hk'
        rw [hn, Option.some.injEq] at hn'
        rw [hn']
      | cycle hw' | child hw' => simp [hw', Value.scalar?] at hwc
    | cycle hv' | child hv' => simp [hv', Value.scalar?] at hvc
  · cases ht with
    | null hv' | scalar hv' => simp [Value.scalar?] at hv'
    | cycle hv' _ _ hback =>
      obtain rfl := Value.node.inj hv'
      exact absurd (.head' hv hback) (ha a .refl)
    | child hv' hm hn =>
      obtain rfl := Value.node.inj hv'
      rw [hx, Option.some.injEq, Mark.signed.injEq] at hm
      subst hm
      cases hu with
      | null hw' | scalar hw' => simp [Value.scalar?] at hw'
      | cycle hw' _ _ hback =>
        obtain rfl := Value.node.inj hw'
        exact absurd (.head' hw hback) (hb b .refl)
      | child hw' hm' hn' =>
        obtain rfl := Value.node.inj hw'
        rw [hy, Option.some.injEq, Mark.signed.injEq] at hm'
        subst hm'
        rw [hn, Option.some.injEq] at hn'
        rw [hn']

/-- The child that a token stands for is signed. -/
theorem Stands.exists_signed (hs : AtRest tree shapes D s) {child : NodeId} {t : Token}
    (h : Stands tree s a (.node child) t) : ∃ σ, s.marks[child]? = some (.signed σ) := by
  cases h with
  | null hv | scalar hv => simp [Value.scalar?] at hv
  | cycle hv hm =>
    obtain rfl := Value.node.inj hv
    obtain ⟨mark, hmark⟩ := Option.isSome_iff_exists.mp hm
    cases mark with
    | underway => exact absurd hmark (hs.not_underway _)
    | signed σ => exact ⟨σ, hmark⟩
  | child hv hm =>
    obtain rfl := Value.node.inj hv
    exact ⟨_, hm⟩

/-- The unfolding of fields tells their names, and what their values in order unfold to. -/
theorem names_and_values_of_unfold {depth : Nat} {f : Fields} {xs : List Value}
    {ds : List (String × Datum)} (hxs : (Shape.ofFields f).keys.mapM f.get? = some xs)
    (hds : List.Forall₂ (fun name p => p.1 = name ∧ ∃ v, f.get? name = some v ∧
      tree.unfold depth v = some p.2) f.sortedNames ds) :
    f.sortedNames = ds.map Prod.fst ∧
      List.Forall₂ (fun v e => tree.unfold depth v = some e) xs (ds.map Prod.snd) := by
  constructor
  · rw [← List.forall₂_eq_eq_eq, List.forall₂_map_right_iff]
    exact hds.imp fun _ _ hp => hp.1.symm
  · rw [List.forall₂_map_right_iff]
    refine (forall₂_through (mapM_eq_some_iff.mp hxs) hds).imp ?_
    rintro v p ⟨name, -, hv, -, w, hw, hp⟩
    rw [hv, Option.some.injEq] at hw
    rw [hw]
    exact hp

/-- Nodes with one unfolding have one header, and values that unfold alike in their order. -/
theorem layouts_of_unfoldNode {depth : Nat} {d : Datum} {g h : Header} {vs ws : List Value}
    (ha : tree.layout shapes a = .ok (g, vs)) (hb : tree.layout shapes b = .ok (h, ws))
    (hda : tree.unfoldNode (depth + 1) a = some d)
    (hdb : tree.unfoldNode (depth + 1) b = some d) :
    g = h ∧ ∃ es, List.Forall₂ (fun v e => tree.unfold depth v = some e) vs es ∧
      List.Forall₂ (fun w e => tree.unfold depth w = some e) ws es := by
  cases hna : tree.node? a with
  | none => simp [Tree.layout, hna] at ha
  | some na =>
    cases hnb : tree.node? b with
    | none => simp [Tree.layout, hnb] at hb
    | some nb =>
      cases na with
      | object f =>
        obtain ⟨i, rfl, hf, hvs⟩ := (Tree.layout_object hna).mp ha
        obtain ⟨ds, rfl, hds⟩ := (Tree.unfoldNode_object hna).mp hda
        cases nb with
        | array js =>
          obtain ⟨_, hd, -⟩ := (Tree.unfoldNode_array hnb).mp hdb
          exact Datum.noConfusion hd
        | object k =>
          obtain ⟨j, rfl, hk, hws⟩ := (Tree.layout_object hnb).mp hb
          obtain ⟨ds', hd, hds'⟩ := (Tree.unfoldNode_object hnb).mp hdb
          obtain rfl := Datum.object.inj hd
          obtain ⟨hnf, hvf⟩ := names_and_values_of_unfold hvs hds
          obtain ⟨hnk, hvk⟩ := names_and_values_of_unfold hws hds'
          have hshape : Shape.ofFields f = Shape.ofFields k := by
            apply Shape.eq_of_mem_iff
            intro name
            rw [← Fields.sortedNames_eq_keys, ← Fields.sortedNames_eq_keys, hnf, hnk]
          rw [ShapeRegistry.find?_congr shapes hshape, hk, Option.some.injEq] at hf
          exact ⟨congrArg _ hf.symm, _, hvf, hvk⟩
      | array is =>
        rw [Tree.layout_array hna, Except.ok.injEq, Prod.mk.injEq] at ha
        obtain ⟨rfl, rfl⟩ := ha
        obtain ⟨ds, rfl, hds⟩ := (Tree.unfoldNode_array hna).mp hda
        cases nb with
        | object k =>
          obtain ⟨_, hd, -⟩ := (Tree.unfoldNode_object hnb).mp hdb
          exact Datum.noConfusion hd
        | array js =>
          rw [Tree.layout_array hnb, Except.ok.injEq, Prod.mk.injEq] at hb
          obtain ⟨rfl, rfl⟩ := hb
          obtain ⟨ds', hd, hds'⟩ := (Tree.unfoldNode_array hnb).mp hdb
          obtain rfl := Datum.array.inj hd
          exact ⟨congrArg _ (hds.length_eq.trans hds'.length_eq.symm), _, hds, hds'⟩

/-- **Nodes that reach no cycle and unfold alike have the same signature.** -/
theorem sameSignature_of_unfoldNode (hs : AtRest tree shapes D s) : ∀ (depth : Nat) {a b : NodeId}
    {σ τ : Signature} {d : Datum}, tree.CycleFree a → tree.CycleFree b →
      s.marks[a]? = some (.signed σ) → s.marks[b]? = some (.signed τ) →
      tree.unfoldNode depth a = some d → tree.unfoldNode depth b = some d → σ = τ
  | 0, _, _, _, _, _, _, _, _, _, h, _ => by simp [Tree.unfoldNode] at h
  | depth + 1, a, b, σ, τ, d, ha, hb, hσ, hτ, hda, hdb => by
    obtain ⟨-, ga, vs, ts, hla, hta, rfl⟩ := hs.described hσ
    obtain ⟨-, gb, ws, us, hlb, htb, rfl⟩ := hs.described hτ
    obtain ⟨rfl, es, hvs, hws⟩ := layouts_of_unfoldNode hla hlb hda hdb
    -- values with one unfolding have one token
    have hvalue {v w : Value} {t u : Token} {e : Datum} (hv : v ∈ vs) (hw : w ∈ ws)
        (ht : Stands tree s a v t) (hu : Stands tree s b w u)
        (hve : tree.unfold depth v = some e) (hwe : tree.unfold depth w = some e) : t = u := by
      have hva := Tree.mem_children_of_layout hla hv
      have hwb := Tree.mem_children_of_layout hlb hw
      refine ht.token_eq ha hb hva hwb hu ?_
      rcases Tree.unfold_eq_some_iff.mp hve with ⟨c, hc, rfl⟩ | ⟨x, rfl, hx⟩
      · rcases Tree.unfold_eq_some_iff.mp hwe with ⟨c', hc', hcc⟩ | ⟨y, -, hy⟩
        · exact .inl ⟨c, hc, Datum.scalar.inj hcc ▸ hc'⟩
        · exact absurd hy (Tree.unfoldNode_ne_scalar c)
      · rcases Tree.unfold_eq_some_iff.mp hwe with ⟨c', -, rfl⟩ | ⟨y, rfl, hy⟩
        · exact absurd hx (Tree.unfoldNode_ne_scalar c')
        · obtain ⟨σ', hσ'⟩ := ht.exists_signed hs
          obtain ⟨τ', hτ'⟩ := hu.exists_signed hs
          obtain rfl := sameSignature_of_unfoldNode hs depth (ha.of_points hva)
            (hb.of_points hwb) hσ' hτ' hx hy
          exact .inr ⟨x, y, rfl, rfl, σ', hσ', hτ'⟩
    have hlen : vs.length = ws.length := hvs.length_eq.trans hws.length_eq.symm
    congr 1
    refine List.ext_getElem ?_ ?_
    · rw [← hta.length_eq, ← htb.length_eq, hlen]
    · intro i hi hj
      have hiv : i < vs.length := hta.length_eq ▸ hi
      have hiw : i < ws.length := htb.length_eq ▸ hj
      have hie : i < es.length := hvs.length_eq ▸ hiv
      exact hvalue (List.getElem_mem hiv) (List.getElem_mem hiw) (hta.get hiv hi)
        (htb.get hiw hj) (hvs.get hiv hie) (hws.get hiw hie)

end PackedTree.Signer
