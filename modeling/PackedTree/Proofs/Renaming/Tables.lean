/-
# Tables under a renaming

Two tables of nodes correspond if they hold nodes that correspond under the same identities, and
redirect the same identities alike.  Identities, their order, what they stand for and the indices
they get are then the same in both: only the nodes themselves differ.

* `InternTable.Renames.add`, `InternTable.Renames.redirect`: what fills and merges tables keeps
  them in correspondence.
* `InternTable.Renames.live_eq`, `InternTable.Renames.indexOf?_finalize`: what is read from them.
-/
import PackedTree.Catalog.Merge
import PackedTree.Proofs.InternTable
import PackedTree.Proofs.Renaming

namespace PackedTree

/-- **Tables that correspond**: the same identities, each with a node and with the node that this
one is renamed to, and the same redirects.  All nodes are among those that are renamed. -/
structure InternTable.Renames (f : NodeId → NodeId) (D : NodeId → Prop)
    (table other : InternTable NodeId) : Prop where
  size : other.size = table.size
  value : ∀ x, other.getValue? x = (table.getValue? x).map f
  target : ∀ x, other.target? x = table.target? x
  within : ∀ x a, table.getValue? x = some a → D a

namespace InternTable.Renames

variable {f : NodeId → NodeId} {D : NodeId → Prop} {table other : InternTable NodeId}

theorem empty : InternTable.Renames f D .empty .empty where
  size := rfl
  value := fun _ => rfl
  target := fun _ => rfl
  within := fun x a h => by simp [getValue?, InternTable.empty] at h

/-! ## 1. Nodes and identities -/

/-- **Nodes that correspond have the same identity.** -/
theorem getId?_eq (h : Renames f D table other) (hinj : Set.InjOn f {a | D a}) {a : NodeId}
    (ha : D a) : other.getId? (f a) = table.getId? a := by
  apply Option.ext
  intro x
  rw [getId?_eq_some_iff, getId?_eq_some_iff, h.value, Option.map_eq_some_iff]
  constructor
  · rintro ⟨b, hb, hba⟩
    rw [hb, hinj (h.within x b hb) ha hba]
  · intro hx
    exact ⟨a, hx, rfl⟩

theorem contains_eq (h : Renames f D table other) (hinj : Set.InjOn f {a | D a}) {a : NodeId}
    (ha : D a) : other.contains (f a) = table.contains a := by
  rw [contains, contains, h.getId?_eq hinj ha]

theorem add (h : Renames f D table other) (hinj : Set.InjOn f {a | D a}) {a : NodeId}
    (ha : D a) : Renames f D (table.add a).2 (other.add (f a)).2 where
  size := by
    rw [size_add, size_add, h.getId?_eq hinj ha, h.size]
  value := fun x => by
    rw [getValue?_add, getValue?_add, h.getId?_eq hinj ha, h.size, h.value]
    split <;> rfl
  target := fun x => by
    rw [target?_add, target?_add, h.target]
  within := fun x b hb => by
    rw [getValue?_add] at hb
    split at hb
    · exact Option.some.inj hb ▸ ha
    · exact h.within x b hb

/-! ## 2. Redirects -/

theorem isLive_eq (h : Renames f D table other) (x : Identity) :
    other.isLive x = table.isLive x := by
  rw [Bool.eq_iff_iff, isLive_iff, isLive_iff, h.size, h.target]

theorem follow_eq (h : Renames f D table other) (steps : Nat) (x : Identity) :
    other.follow steps x = table.follow steps x := by
  induction steps generalizing x with
  | zero => rfl
  | succ steps ih =>
    cases ht : table.target? x with
    | none =>
      rw [follow_of_target?_eq_none ht, follow_of_target?_eq_none (h.target x ▸ ht)]
    | some next =>
      rw [follow_of_target? ht, follow_of_target? (h.target x ▸ ht)]
      exact ih next

theorem resolve_eq (h : Renames f D table other) (x : Identity) :
    other.resolve x = table.resolve x := by
  rw [resolve, h.size, h.follow_eq, resolve]

theorem identities_eq (h : Renames f D table other) : other.identities = table.identities := by
  rw [identities, h.size, identities]

theorem live_eq (h : Renames f D table other) : other.live = table.live := by
  rw [live, live, h.identities_eq]
  exact List.filter_congr fun x _ => h.isLive_eq x

theorem count_eq (h : Renames f D table other) : other.count = table.count := by
  rw [count, h.live_eq, count]

/-- The live nodes correspond, in the same order. -/
theorem liveEntries_eq (h : Renames f D table other) :
    other.liveEntries = table.liveEntries.map fun entry => (entry.1, f entry.2) := by
  rw [liveEntries, liveEntries, h.live_eq, List.map_filterMap]
  refine List.filterMap_congr fun x _ => ?_
  rw [h.value]
  cases table.getValue? x <;> rfl

theorem leads (h : Renames f D table other) {n : Nat} {x root : Identity}
    (hx : table.Leads n x root) : other.Leads n x root := by
  induction hx with
  | live hroot => exact .live (h.isLive_eq _ ▸ hroot)
  | step ht _ ih => exact .step (h.target _ ▸ ht) ih

theorem grounded (h : Renames f D table other) (hg : table.Grounded) : other.Grounded := by
  intro x hx
  obtain ⟨n, root, hleads, hn⟩ := hg x (h.size ▸ hx)
  refine ⟨n, root, h.leads hleads, ?_⟩
  rw [h.live_eq, h.size]
  exact hn

/-- **The same identities can be merged**, to tables that correspond. -/
theorem redirect (h : Renames f D table other) (hg : table.Grounded) {x y : Identity}
    {table' : InternTable NodeId} (hr : table.redirect x y = .ok table') :
    ∃ other', other.redirect x y = .ok other' ∧ Renames f D table' other' := by
  obtain ⟨other', hr'⟩ : ∃ other', other.redirect x y = .ok other' := by
    refine exists_redirect_iff.mpr ?_
    rw [h.size, h.resolve_eq, h.resolve_eq]
    exact exists_redirect_iff.mp ⟨table', hr⟩
  obtain ⟨-, -, -, hsize, hvalue, htarget⟩ := hg.redirect_spec hr
  obtain ⟨-, -, -, hsize', hvalue', htarget'⟩ := (h.grounded hg).redirect_spec hr'
  refine ⟨other', hr', ?_, ?_, ?_, ?_⟩
  · rw [hsize', h.size, hsize]
  · intro z
    rw [hvalue', h.value, hvalue]
  · intro z
    rw [htarget', htarget, h.resolve_eq, h.resolve_eq, h.target]
  · intro z a hz
    rw [hvalue] at hz
    exact h.within z a hz

/-- Whole lists of pairs are merged alike. -/
theorem mergeAll {pairs : List (Identity × Identity)} (h : Renames f D table other)
    (hg : table.Grounded) {table' : InternTable NodeId}
    (hm : Catalog.mergeAll table pairs = .ok table') :
    ∃ other', Catalog.mergeAll other pairs = .ok other' ∧ Renames f D table' other' := by
  induction pairs generalizing table other with
  | nil =>
    obtain rfl := Except.ok.inj hm
    exact ⟨other, rfl, h⟩
  | cons pair pairs ih =>
    unfold Catalog.mergeAll at hm ⊢
    cases hr : table.redirect pair.1 pair.2 with
    | error e => simp [hr] at hm
    | ok t =>
      obtain ⟨t', hr', ht'⟩ := h.redirect hg hr
      simp only [hr, hr'] at hm ⊢
      exact ih ht' (hg.redirect hr) hm

/-! ## 3. Indices -/

/-- **Numbered in order, identities get the same indices.** -/
theorem indexOf?_finalize (h : Renames f D table other) (x : Identity) :
    (other.finalize other.identities).2.indexOf? x =
      (table.finalize table.identities).2.indexOf? x := by
  apply Option.ext
  intro i
  rw [InternTable.indexOf?_finalize other.identities_nodup,
    InternTable.indexOf?_finalize table.identities_nodup, h.resolve_eq]
  have hlive : (other.finalize other.identities).1 = (table.finalize table.identities).1 :=
    h.live_eq
  rw [hlive]

/-- Nodes that correspond get the same index. -/
theorem indexOfValue?_finalize (h : Renames f D table other) (hinj : Set.InjOn f {a | D a})
    {a : NodeId} (ha : D a) : (other.finalize other.identities).2.indexOfValue? (f a) =
      (table.finalize table.identities).2.indexOfValue? a := by
  have hget : (other.finalize other.identities).2.getId? (f a) =
      (table.finalize table.identities).2.getId? a := h.getId?_eq hinj ha
  rw [indexOfValue?, indexOfValue?, hget]
  exact congrArg _ (funext h.indexOf?_finalize)

end InternTable.Renames

end PackedTree
