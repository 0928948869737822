/-
# A merge only moves objects forward

The first object of a group was discovered before the others of the group.  So an object is merged
onto an earlier one, the objects that are left keep their order, and none of them gets a greater
index than before.

* `InternTable.index_le_rank`: a live identity has at most as many live ones before it as its rank
  says.
* `Catalog.MergedAs.place_le`: the index of an object after a merge is not greater than before.
* `Catalog.Lists.count_of_merged`: as many live identities are gone as merges are counted, and a
  merge that counts none leaves the catalog as it is.
* `Catalog.Lists.count_pos`: two objects with the same content are counted.
-/
import PackedTree.Proofs.InternTable.History
import PackedTree.Proofs.Merge.Exact

namespace PackedTree

/-! ## 1. Ranks and places -/

namespace InternTable

variable {K : Type} [DecidableEq K] [Hashable K] {table : InternTable K} {k : K} {x : Identity}
  {i : Nat}

/-- The live identities ascend from 0, with gaps. -/
theorem index_le_rank (h : table.live[i]? = some x) : i ≤ x.rank := by
  induction i generalizing x with
  | zero => exact Nat.zero_le _
  | succ i ih =>
    have hi := Nat.lt_of_succ_lt (List.getElem?_eq_some_iff.mp h).1
    have hprevious := List.getElem?_eq_getElem hi
    have hless := (live_lt_iff hprevious h).mp (Nat.lt_succ_self i)
    exact Nat.lt_of_le_of_lt (ih hprevious) hless

/-- In a fresh table every identity is live. -/
theorem Fresh.live_eq (h : table.Fresh) : table.live = table.identities :=
  List.filter_eq_self.mpr fun _ hx => h.isLive_iff.mpr (mem_identities.mp hx)

/-- **In a fresh table** the place of a value is the rank of its identity. -/
theorem Fresh.placed_rank (h : table.Fresh) (hp : table.Placed k i) :
    table.getId? k = some ⟨i⟩ := by
  obtain ⟨x, hx, hi⟩ := hp
  rw [h.resolve_eq, h.live_eq, identities, List.getElem?_map] at hi
  obtain ⟨j, hj, rfl⟩ := Option.map_eq_some_iff.mp hi
  rw [List.getElem?_eq_some_iff] at hj
  obtain ⟨_, rfl⟩ := hj
  rw [hx, List.getElem_range]

/-- A value has one place. -/
theorem Placed.unique {j : Nat} (hi : table.Placed k i) (hj : table.Placed k j) : i = j :=
  hi.position_eq.symm.trans hj.position_eq

end InternTable

namespace Catalog

variable {tree : Tree} {c merged : Catalog} {n : NodeId} {i j : Nat}

/-! ## 2. The objects that are left -/

/-- **What is left keeps its order.** -/
theorem MergedAs.live_sublist (h : MergedAs c merged) (hfresh : c.objects.Fresh) :
    merged.objects.live.Sublist c.objects.live := by
  have hidentities : merged.objects.identities = c.objects.identities := by
    unfold InternTable.identities
    rw [h.size_eq]
  rw [hfresh.live_eq, ← hidentities]
  exact List.filter_sublist

/-- **An object does not get a greater index** by a merge. -/
theorem MergedAs.place_le (h : MergedAs c merged) (hfresh : c.objects.Fresh)
    (hi : c.objects.Placed n i) (hj : merged.objects.Placed n j) : j ≤ i := by
  have hx := InternTable.getValue?_of_getId? (hfresh.placed_rank hi)
  obtain ⟨y, hy, hj⟩ := hj
  have hxy := InternTable.getId?_of_getValue? ((h.getValue?_eq _).trans hx)
  rw [hy, Option.some.injEq] at hxy
  subst hxy
  exact Nat.le_trans (InternTable.index_le_rank hj) (h.resolve_le _ _ hx)

/-! ## 3. Counting merges -/

/-- Each pair takes one live identity away. -/
theorem length_live_mergeAll {pairs : List (Identity × Identity)}
    {table table' : InternTable NodeId} (h : table.Grounded)
    (hm : mergeAll table pairs = .ok table') :
    pairs.length + table'.live.length = table.live.length := by
  induction pairs generalizing table with
  | nil =>
    rw [← Except.ok.inj hm]
    exact Nat.zero_add _
  | cons pair pairs ih =>
    unfold mergeAll at hm
    cases hr : table.redirect pair.1 pair.2 with
    | error e => simp [hr] at hm
    | ok t =>
      simp only [hr] at hm
      have hrest := ih (h.redirect hr) hm
      have hfirst := h.length_live_redirect hr
      rw [List.length_cons]
      omega

/-- **What a merge counts**: the objects that are gone.  If there are none, nothing has changed. -/
theorem Lists.count_of_merged (h : c.Lists tree) {count : Nat}
    (hm : c.mergedObjects = .ok (count, merged)) :
    count + merged.objects.live.length = c.objects.live.length ∧ (count = 0 → merged = c) := by
  obtain ⟨pairs, hp, hm⟩ := bind_eq_ok_iff.mp hm
  obtain ⟨table, ht, hm⟩ := bind_eq_ok_iff.mp hm
  obtain ⟨rfl, rfl⟩ := Prod.mk.inj (Except.ok.inj hm)
  refine ⟨length_live_mergeAll h.objects_grounded ht, fun hnone => ?_⟩
  obtain rfl := List.eq_nil_of_length_eq_zero hnone
  rw [← Except.ok.inj ht]

/-- **A merge counts something** if two objects that reach no cycle have the same content. -/
theorem Lists.count_pos (h : c.Lists tree) (hfresh : c.objects.Fresh) {count : Nat}
    (hm : c.mergedObjects = .ok (count, merged)) {a b : NodeId} (hne : a ≠ b)
    (hra : tree.Reachable a) (hoa : tree.IsObject a) (ha : tree.CycleFree a)
    (hrb : tree.Reachable b) (hob : tree.IsObject b) (hb : tree.CycleFree b)
    (hsame : tree.SameContent (.node a) (.node b)) : 0 < count := by
  obtain ⟨hrest, count', merged', hgives, hmerged⟩ := h.merge_spec hfresh
  have he := hm.symm.trans ((c.gives_mergedObjects {}).symm.trans (hgives {}))
  obtain ⟨rfl, rfl⟩ := Prod.mk.inj (Except.ok.inj he)
  obtain ⟨x, hx⟩ := h.getId?_of_isObject hra hoa
  obtain ⟨y, hy⟩ := h.getId?_of_isObject hrb hob
  have hx := InternTable.getValue?_of_getId? hx
  have hy := InternTable.getValue?_of_getId? hy
  have hresolve := hmerged.resolve_eq_of_sameContent hrest hx hy ha hb hsame
  refine Nat.pos_of_ne_zero fun hzero => hne ?_
  -- nothing was counted, so nothing was redirected
  rw [(h.count_of_merged hm).2 hzero, hfresh.resolve_eq, hfresh.resolve_eq] at hresolve
  rw [hresolve, hy, Option.some.injEq] at hx
  exact hx.symm

end Catalog

end PackedTree
