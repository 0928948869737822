/-
# Intern tables: redirects and indices

What later modules use of a table, without its arrays.

* `target?` is where an identity was redirected.  A table is **fresh** if nothing was, and **flat**
  if every redirect ends at a live identity at once, so that resolving is one step
  (`Flat.resolve_eq`).
* `redirect_of_isLive`: merging two live identities redirects the first and nothing else.
* `indexOf?_finalize`: in a numbered table, the index of an identity is the position, among the
  live ones, of the identity it stands for.
* `Grounded`: every chain of redirects ends at a live identity before the steps of `resolve` run
  out.  A redirect keeps it so (`Grounded.redirect`).
* `Placed`: the index a value will have.  In a grounded table every value has one, and in a fresh
  table the indices are one for each value (`Fresh.bijOn_position`).
-/
import Mathlib.Data.List.Nodup
import Mathlib.Data.Set.Card
import PackedTree.InternTable

namespace PackedTree

theorem Identity.mk_inj {m n : Nat} (h : Identity.mk m = Identity.mk n) : m = n := by
  cases h
  rfl

/-- Things that are apart are no more than the set they are from. -/
theorem length_le_encard {α : Type} {S : Set α} {l : List α} (hd : l.Nodup)
    (hl : ∀ a ∈ l, a ∈ S) : (l.length : ℕ∞) ≤ S.encard := by
  classical
  have hsub : (l.toFinset : Set α) ⊆ S := fun a ha => hl a (List.mem_toFinset.mp ha)
  have hle := Set.encard_le_encard hsub
  rwa [Set.encard_coe_eq_coe_finsetCard, List.toFinset_card_of_nodup hd] at hle

theorem length_lt_of_encard_lt {α : Type} {S : Set α} {n : Nat} {l : List α} (hd : l.Nodup)
    (hl : ∀ a ∈ l, a ∈ S) (hS : S.encard < n) : l.length < n :=
  Nat.cast_lt.mp (lt_of_le_of_lt (length_le_encard hd hl) hS)

/-- The members of a list are no more than the list is long. -/
theorem encard_le_length {α : Type} {S : Set α} {l : List α} (hS : ∀ a ∈ S, a ∈ l) :
    S.encard ≤ l.length := by
  classical
  have hsub : S ⊆ (l.toFinset : Set α) := fun a ha => List.mem_toFinset.mpr (hS a ha)
  have hle := Set.encard_le_encard hsub
  rw [Set.encard_coe_eq_coe_finsetCard] at hle
  exact hle.trans (Nat.cast_le.mpr (List.toFinset_card_le l))

theorem encard_lt_of_mem {α : Type} {S : Set α} {n : Nat} {l : List α} (hS : ∀ a ∈ S, a ∈ l)
    (hl : l.length < n) : S.encard < n :=
  lt_of_le_of_lt (encard_le_length hS) (Nat.cast_lt.mpr hl)

namespace InternTable

variable {K : Type} [DecidableEq K] [Hashable K] {table : InternTable K} {id : Identity} {k : K}

/-! ## 1. Known values -/

theorem getValue?_isSome_iff : (table.getValue? id).isSome = true ↔ id.rank < table.size := by
  simp [getValue?, size]

theorem contains_iff_exists_getId? : table.contains k = true ↔ ∃ id, table.getId? k = some id :=
  Option.isSome_iff_exists

/-- An identity with a value is found by it. -/
theorem getId?_of_getValue? (h : table.getValue? id = some k) : table.getId? k = some id :=
  (table.getId?_eq_some_iff k id).mpr h

theorem getValue?_of_getId? (h : table.getId? k = some id) : table.getValue? id = some k :=
  (table.getId?_eq_some_iff k id).mp h

theorem rank_lt_of_getId? (h : table.getId? k = some id) : id.rank < table.size :=
  getValue?_isSome_iff.mp (Option.isSome_of_eq_some (getValue?_of_getId? h))

/-- Adding finds the value, or puts it at the end. -/
theorem add_cases (table : InternTable K) (k : K) :
    (∃ id, table.getId? k = some id ∧ table.add k = (id, table)) ∨
      (table.getId? k = none ∧ (table.add k).2.entries = table.entries.push { value := k }) := by
  unfold add
  split
  · rename_i id h
    exact .inl ⟨id, h, rfl⟩
  · rename_i h
    exact .inr ⟨h, rfl⟩

/-! ## 2. Redirects -/

/-- Where an identity was redirected. -/
def target? (table : InternTable K) (id : Identity) : Option Identity :=
  table.entries[id.rank]?.bind Entry.redirect

theorem isLive_iff : table.isLive id = true ↔ id.rank < table.size ∧ table.target? id = none := by
  unfold isLive target? size
  by_cases h : id.rank < table.entries.size
  · simp [h]
  · simp [h]

/-- Nothing was redirected. -/
def Fresh (table : InternTable K) : Prop := ∀ id, table.target? id = none

/-- Every redirect ends at a live identity. -/
def Flat (table : InternTable K) : Prop :=
  ∀ id next, table.target? id = some next → table.isLive next = true

theorem Fresh.flat (h : table.Fresh) : table.Flat := by
  intro id next hn
  rw [h id] at hn
  exact absurd hn.symm (Option.some_ne_none _)

theorem Fresh.isLive_iff (h : table.Fresh) : table.isLive id = true ↔ id.rank < table.size := by
  rw [InternTable.isLive_iff]
  exact ⟨fun h => h.1, fun hid => ⟨hid, h id⟩⟩

theorem fresh_empty : (InternTable.empty : InternTable K).Fresh := by
  intro id
  simp [target?, InternTable.empty]

theorem Fresh.add (h : table.Fresh) (k : K) : (table.add k).2.Fresh := by
  rcases table.add_cases k with ⟨id, -, he⟩ | ⟨-, he⟩
  · rw [he]
    exact h
  · intro id
    unfold target?
    rw [he, Array.getElem?_push]
    split
    · rfl
    · exact h id

theorem follow_of_target?_eq_none (h : table.target? id = none) (steps : Nat) :
    table.follow steps id = id := by
  cases steps with
  | zero => rfl
  | succ steps =>
    unfold follow
    split
    · rename_i he
      simp [target?, he] at h
    · rfl

/-- A live identity stands for itself. -/
theorem resolve_of_isLive (h : table.isLive id = true) : table.resolve id = id :=
  follow_of_target?_eq_none (isLive_iff.mp h).2 _

/-- **In a flat table one step resolves.** -/
theorem Flat.resolve_eq (h : table.Flat) (id : Identity) :
    table.resolve id = (table.target? id).getD id := by
  unfold resolve
  cases ht : table.target? id with
  | none => exact follow_of_target?_eq_none ht _
  | some next =>
    have hnext := h id next ht
    obtain ⟨entry, he, hr⟩ := Option.bind_eq_some_iff.mp ht
    have hsize : table.size = table.size - 1 + 1 := by
      have := (isLive_iff.mp hnext).1
      omega
    rw [hsize]
    unfold follow
    rw [he]
    obtain ⟨value, redirect⟩ := entry
    simp only at hr
    subst hr
    exact follow_of_target?_eq_none (isLive_iff.mp hnext).2 _

theorem Fresh.resolve_eq (h : table.Fresh) (id : Identity) : table.resolve id = id := by
  rw [h.flat.resolve_eq, h id]
  rfl

/-- **Merging two live identities** redirects the first onto the second and nothing else. -/
theorem redirect_of_isLive {x y : Identity} (hx : table.isLive x = true)
    (hy : table.isLive y = true) (hne : x ≠ y) :
    ∃ table', table.redirect x y = .ok table' ∧ table'.size = table.size ∧
      (∀ id, table'.getValue? id = table.getValue? id) ∧
      (∀ id, table'.target? id = if id = x then some y else table.target? id) := by
  have hxs := (isLive_iff.mp hx).1
  have hys := (isLive_iff.mp hy).1
  unfold redirect
  simp only [resolve_of_isLive hx, resolve_of_isLive hy, if_neg (Nat.not_le.mpr hxs),
    if_neg (Nat.not_le.mpr hys), if_neg hne]
  refine ⟨_, rfl, by simp [size], ?_, ?_⟩
  · intro id
    simp only [getValue?, Array.getElem?_modify]
    split <;> simp [Option.map_map, Function.comp_def]
  · intro id
    simp only [target?, Array.getElem?_modify]
    by_cases hid : id = x
    · subst hid
      have hget : table.entries[id.rank]? = some table.entries[id.rank] :=
        Array.getElem?_eq_getElem hxs
      simp [hget]
    · have hr : x.rank ≠ id.rank := by
        intro he
        cases id
        cases x
        exact hid (congrArg Identity.mk he.symm)
      rw [if_neg hid, if_neg hr]

theorem target?_eq_none_of_size_le (h : table.size ≤ id.rank) : table.target? id = none := by
  rw [target?, Array.getElem?_eq_none h]
  rfl

/-- Adding a value redirects nothing. -/
theorem target?_add (table : InternTable K) (k : K) (id : Identity) :
    (table.add k).2.target? id = table.target? id := by
  rcases table.add_cases k with ⟨x, -, he⟩ | ⟨-, he⟩
  · rw [he]
  · rw [target?, he, Array.getElem?_push]
    split
    · rename_i hid
      exact (target?_eq_none_of_size_le (Nat.le_of_eq hid.symm)).symm
    · rfl

/-- Adding a new value gives it the next identity. -/
theorem getValue?_add (table : InternTable K) (k : K) (id : Identity) :
    (table.add k).2.getValue? id =
      if table.getId? k = none ∧ id.rank = table.size then some k else table.getValue? id := by
  rcases table.add_cases k with ⟨x, hx, he⟩ | ⟨hk, he⟩
  · rw [he, hx, if_neg (by simp)]
  · rw [getValue?, he, Array.getElem?_push]
    by_cases hid : id.rank = table.size
    · have hentries : id.rank = table.entries.size := hid
      rw [if_pos hentries, if_pos ⟨hk, hid⟩]
      rfl
    · have hentries : ¬id.rank = table.entries.size := hid
      rw [if_neg hentries, if_neg (fun h => hid h.2)]
      rfl

theorem size_add (table : InternTable K) (k : K) :
    (table.add k).2.size = if table.getId? k = none then table.size + 1 else table.size := by
  rcases table.add_cases k with ⟨x, hx, he⟩ | ⟨hk, he⟩
  · rw [he, hx, if_neg (by simp)]
  · rw [size, he, if_pos hk, Array.size_push]
    rfl

/-! ## 3. The live identities -/

theorem mem_live : id ∈ table.live ↔ table.isLive id = true := by
  unfold live
  rw [List.mem_filter, mem_identities, isLive_iff]
  exact ⟨fun h => h.2, fun h => ⟨h.1, h⟩⟩

/-- The live identities ascend. -/
theorem live_pairwise (table : InternTable K) : table.live.Pairwise (·.rank < ·.rank) := by
  refine List.Pairwise.filter _ (List.pairwise_map.mpr ?_)
  exact List.pairwise_lt_range

/-- Live identities stand in the order of their ranks. -/
theorem live_lt_iff {i j : Nat} (hx : table.live[i]? = some x) (hy : table.live[j]? = some y) :
    i < j ↔ x.rank < y.rank := by
  obtain ⟨hi, rfl⟩ := List.getElem?_eq_some_iff.mp hx
  obtain ⟨hj, rfl⟩ := List.getElem?_eq_some_iff.mp hy
  have hascend := List.pairwise_iff_getElem.mp table.live_pairwise
  constructor
  · exact hascend i j hi hj
  · intro hlt
    rcases Nat.lt_trichotomy i j with hij | rfl | hij
    · exact hij
    · exact absurd hlt (Nat.lt_irrefl _)
    · exact absurd (hascend j i hj hi hij) (Nat.lt_asymm hlt)

theorem mem_liveEntries : (id, k) ∈ table.liveEntries ↔
    table.isLive id = true ∧ table.getValue? id = some k := by
  unfold liveEntries
  rw [List.mem_filterMap]
  constructor
  · rintro ⟨id', hid, he⟩
    obtain ⟨k', hk, he⟩ := Option.map_eq_some_iff.mp he
    obtain ⟨rfl, rfl⟩ := Prod.mk.inj he
    exact ⟨mem_live.mp hid, hk⟩
  · rintro ⟨hid, hk⟩
    exact ⟨id, mem_live.mpr hid, by rw [hk]; rfl⟩

/-- Every live identity has an entry. -/
theorem map_fst_liveEntries (table : InternTable K) : table.liveEntries.map Prod.fst = table.live := by
  unfold liveEntries
  rw [List.map_filterMap]
  refine Eq.trans (List.filterMap_congr ?_) List.filterMap_some
  intro id hid
  obtain ⟨k, hk⟩ := Option.isSome_iff_exists.mp
    (getValue?_isSome_iff.mpr (isLive_iff.mp (mem_live.mp hid)).1)
  rw [hk]
  rfl

/-! ## 4. Chains of redirects -/

/-- **So many redirects lead** from an identity to a live one. -/
inductive Leads (table : InternTable K) : Nat → Identity → Identity → Prop where
  | live {root : Identity} (h : table.isLive root = true) : Leads table 0 root root
  | step {n : Nat} {id next root : Identity} (ht : table.target? id = some next)
      (h : Leads table n next root) : Leads table (n + 1) id root

theorem Leads.isLive {n : Nat} {root : Identity} (h : table.Leads n id root) :
    table.isLive root = true := by
  induction h with
  | live h => exact h
  | step _ _ ih => exact ih

theorem follow_of_target? {next : Identity} (h : table.target? id = some next) (steps : Nat) :
    table.follow (steps + 1) id = table.follow steps next := by
  obtain ⟨⟨value, redirect⟩, he, hr⟩ := Option.bind_eq_some_iff.mp h
  simp only at hr
  subst hr
  rw [follow, he]

/-- Steps enough for the chain end at the live identity. -/
theorem Leads.follow_eq {n steps : Nat} {root : Identity} (h : table.Leads n id root)
    (hn : n ≤ steps) : table.follow steps id = root := by
  induction h generalizing steps with
  | live h => exact follow_of_target?_eq_none (isLive_iff.mp h).2 steps
  | step ht _ ih =>
    obtain ⟨steps, rfl⟩ : ∃ m, steps = m + 1 := ⟨steps - 1, by omega⟩
    rw [follow_of_target? ht]
    exact ih (by omega)

/-- **Every chain of redirects ends at a live identity**, and passes no more identities than are
redirected. -/
def Grounded (table : InternTable K) : Prop :=
  ∀ id, id.rank < table.size → ∃ n root, table.Leads n id root ∧ n + table.live.length ≤ table.size

theorem length_identities (table : InternTable K) : table.identities.length = table.size := by
  simp [identities]

theorem length_live_le (table : InternTable K) : table.live.length ≤ table.size :=
  table.length_identities ▸ List.length_filter_le _ _

theorem Flat.grounded (h : table.Flat) : table.Grounded := by
  intro id hid
  cases ht : table.target? id with
  | none => exact ⟨0, id, .live (isLive_iff.mpr ⟨hid, ht⟩), by
      have := table.length_live_le
      omega⟩
  | some next =>
    refine ⟨1, next, .step ht (.live (h id next ht)), ?_⟩
    have hlt : table.live.length < table.identities.length := by
      refine List.length_filter_lt_length_iff_exists.mpr ⟨id, mem_identities.mpr hid, ?_⟩
      rw [isLive_iff, ht]
      simp
    rw [length_identities] at hlt
    omega

theorem Fresh.grounded (h : table.Fresh) : table.Grounded := h.flat.grounded

/-- **What a known identity stands for is live.** -/
theorem Grounded.isLive_resolve (h : table.Grounded) (hid : id.rank < table.size) :
    table.isLive (table.resolve id) = true := by
  obtain ⟨n, root, hleads, hn⟩ := h id hid
  have hresolve : table.resolve id = root := hleads.follow_eq (by omega)
  rw [hresolve]
  exact hleads.isLive

/-- A redirect of a live identity makes the chains that ended there one longer. -/
theorem Leads.redirect {table' : InternTable K} {x y : Identity} (hsize : table'.size = table.size)
    (htarget : ∀ id, table'.target? id = if id = x then some y else table.target? id)
    (hx : table.isLive x = true) (hy : table'.isLive y = true) {n : Nat} {root : Identity}
    (h : table.Leads n id root) :
    ∃ m, table'.Leads m id (if root = x then y else root) ∧ m ≤ n + 1 := by
  induction h with
  | @live root h =>
    by_cases hroot : root = x
    · rw [if_pos hroot]
      exact ⟨1, .step (by rw [htarget, if_pos hroot]) (.live hy), by omega⟩
    · rw [if_neg hroot]
      refine ⟨0, .live ?_, by omega⟩
      rw [isLive_iff, hsize, htarget, if_neg hroot]
      exact isLive_iff.mp h
  | @step n id next root ht _ ih =>
    obtain ⟨m, hm, hle⟩ := ih
    have hid : id ≠ x := by
      rintro rfl
      rw [(isLive_iff.mp hx).2] at ht
      exact Option.some_ne_none _ ht.symm
    exact ⟨m + 1, .step (by rw [htarget, if_neg hid, ht]) hm, by omega⟩

/-- Two known identities can be merged if they do not stand for the same. -/
theorem exists_redirect_iff {x y : Identity} : (∃ table', table.redirect x y = .ok table') ↔
    x.rank < table.size ∧ y.rank < table.size ∧ table.resolve x ≠ table.resolve y := by
  unfold redirect
  by_cases hx : table.size ≤ x.rank
  · simp [hx, Nat.not_lt.mpr hx]
  by_cases hy : table.size ≤ y.rank
  · simp [hx, hy, Nat.not_lt.mpr hy]
  by_cases hne : table.resolve x = table.resolve y
  · simp [hx, hy, hne]
  · simp [hx, hy, hne, Nat.not_le.mp hx, Nat.not_le.mp hy]

/-- **What a merge does to a grounded table**: it redirects what the first identity stands for onto
what the second stands for. -/
theorem Grounded.redirect_spec {table' : InternTable K} {x y : Identity} (h : table.Grounded)
    (hr : table.redirect x y = .ok table') :
    table.isLive (table.resolve x) = true ∧ table.isLive (table.resolve y) = true ∧
      table.resolve x ≠ table.resolve y ∧ table'.size = table.size ∧
      (∀ id, table'.getValue? id = table.getValue? id) ∧
      ∀ id, table'.target? id =
        if id = table.resolve x then some (table.resolve y) else table.target? id := by
  obtain ⟨hxs, hys, hne⟩ := exists_redirect_iff.mp ⟨table', hr⟩
  have hlx := h.isLive_resolve hxs
  have hly := h.isLive_resolve hys
  obtain ⟨t, ht, hsize, hvalue, htarget⟩ := redirect_of_isLive hlx hly hne
  -- both redirect the same entry, as a live identity stands for itself
  have he : table.redirect (table.resolve x) (table.resolve y) = table.redirect x y := by
    have hlxs := (isLive_iff.mp hlx).1
    have hlys := (isLive_iff.mp hly).1
    unfold InternTable.redirect
    simp only [resolve_of_isLive hlx, resolve_of_isLive hly, if_neg (Nat.not_le.mpr hlxs),
      if_neg (Nat.not_le.mpr hlys), if_neg (Nat.not_le.mpr hxs), if_neg (Nat.not_le.mpr hys),
      if_neg hne]
  rw [he, hr, Except.ok.injEq] at ht
  subst ht
  exact ⟨hlx, hly, hne, hsize, hvalue, htarget⟩

/-- **A redirect keeps chains grounded**: each grows by one at most, and one identity less is
live. -/
theorem Grounded.redirect {t : InternTable K} {x y : Identity} (h : table.Grounded)
    (hr : table.redirect x y = .ok t) : t.Grounded := by
  obtain ⟨hlx, hly, hne, hsize, -, htarget⟩ := h.redirect_spec hr
  have hly' : t.isLive (table.resolve y) = true := by
    rw [isLive_iff, hsize, htarget, if_neg (Ne.symm hne)]
    exact isLive_iff.mp hly
  have hlive : t.live.length < table.live.length := by
    have hsub : (table.resolve x :: t.live).Subperm table.live := by
      refine List.subperm_of_subset (List.nodup_cons.mpr ⟨?_, t.live_nodup⟩) ?_
      · rw [mem_live, isLive_iff, htarget, if_pos rfl]
        simp
      · intro id hid
        rcases List.mem_cons.mp hid with rfl | hid
        · exact mem_live.mpr hlx
        · rw [mem_live, isLive_iff, hsize, htarget] at hid
          rw [mem_live, isLive_iff]
          split at hid
          · simp at hid
          · exact hid
    exact hsub.length_le
  intro id hid
  obtain ⟨n, root, hleads, hn⟩ := h id (hsize ▸ hid)
  obtain ⟨m, hm, hle⟩ := hleads.redirect hsize htarget hlx hly'
  exact ⟨m, _, hm, by omega⟩

/-- Numbering redirects nothing. -/
theorem Leads.finalize {n : Nat} {root : Identity} (h : table.Leads n id root)
    (enumeration : List Identity) : (table.finalize enumeration).2.Leads n id root := by
  induction h with
  | live h => exact .live h
  | step ht _ ih => exact .step ht ih

theorem Grounded.finalize (h : table.Grounded) (enumeration : List Identity) :
    (table.finalize enumeration).2.Grounded := by
  intro id hid
  obtain ⟨n, root, hleads, hn⟩ := h id hid
  exact ⟨n, root, hleads.finalize enumeration, hn⟩

/-! ## 5. Indices -/

/-- The fold that fills the indices: a rank has the last index written for it. -/
theorem foldl_setIfInBounds_join {i r : Nat} : ∀ {pairs : List (Identity × Nat)}
    {indices : Array (Option Nat)}, (pairs.map Prod.fst).Nodup →
      (∀ p ∈ pairs, p.1.rank < indices.size) →
      (((pairs.foldl (fun indices p => indices.setIfInBounds p.1.rank (some p.2)) indices)[r]?).join
          = some i ↔
        (⟨r⟩, i) ∈ pairs ∨ (⟨r⟩ ∉ pairs.map Prod.fst ∧ indices[r]?.join = some i))
  | [], _, _, _ => by simp
  | (id, j) :: pairs, indices, hd, hlt => by
    rw [List.map_cons, List.nodup_cons] at hd
    have hid : id.rank < indices.size := hlt _ List.mem_cons_self
    rw [List.foldl_cons, foldl_setIfInBounds_join hd.2 (by
      intro p hp
      rw [Array.size_setIfInBounds]
      exact hlt p (List.mem_cons_of_mem _ hp))]
    rw [List.mem_cons, List.map_cons, List.mem_cons, Array.getElem?_setIfInBounds]
    by_cases hr : id.rank = r
    · subst hr
      have hnot : (id, i) ∉ pairs := fun h => hd.1 (List.mem_map.mpr ⟨_, h, rfl⟩)
      have h1 : (⟨id.rank⟩ : Identity) = id := rfl
      simp [h1, hnot, hd.1, hid, eq_comm]
    · have hne : (⟨r⟩ : Identity) ≠ id := by
        rintro rfl
        exact hr rfl
      simp [hr, hne]

/-- **The index of a rank** is its position in the order. -/
theorem indicesOf_join {size r i : Nat} {order : List Identity} (hd : order.Nodup)
    (hlt : ∀ id ∈ order, id.rank < size) :
    ((indicesOf size order)[r]?).join = some i ↔ order[i]? = some ⟨r⟩ := by
  unfold indicesOf
  have hfst : order.zipIdx.map Prod.fst = order := List.zipIdx_map_fst 0 order
  rw [foldl_setIfInBounds_join (by rw [hfst]; exact hd)]
  · have hnone : ((Array.replicate size (none : Option Nat))[r]?).join ≠ some i := by
      rw [Array.getElem?_replicate]
      split <;> simp
    simp only [hnone, and_false, or_false, List.mk_mem_zipIdx_iff_getElem?]
  · intro p hp
    rw [Array.size_replicate]
    exact hlt _ (by rw [← hfst]; exact List.mem_map.mpr ⟨p, hp, rfl⟩)

theorem follow_congr {other : InternTable K} (h : table.entries = other.entries) (steps : Nat)
    (id : Identity) : table.follow steps id = other.follow steps id := by
  induction steps generalizing id with
  | zero => rfl
  | succ steps ih =>
    unfold follow
    rw [h]
    split
    · exact ih _
    · rfl

/-- Numbering does not change what an identity stands for. -/
theorem resolve_finalize (enumeration : List Identity) (id : Identity) :
    (table.finalize enumeration).2.resolve id = table.resolve id := by
  have h : (table.finalize enumeration).2.entries = table.entries := rfl
  exact follow_congr h table.size id

/-- **In a numbered table** the index of an identity is the position, among the live ones, of the
identity it stands for. -/
theorem indexOf?_finalize {enumeration : List Identity} (hd : enumeration.Nodup) {i : Nat} :
    (table.finalize enumeration).2.indexOf? id = some i ↔
      (table.finalize enumeration).1[i]? = some (table.resolve id) := by
  have hlt : ∀ x ∈ enumeration.filter table.isLive, x.rank < table.size := fun x hx =>
    (isLive_iff.mp (List.mem_filter.mp hx).2).1
  rw [← resolve_finalize enumeration]
  exact indicesOf_join (hd.filter table.isLive) hlt

/-- **An enumeration** lists every identity of a table once. -/
structure Enumerates (table : InternTable K) (enumeration : List Identity) : Prop where
  nodup : enumeration.Nodup
  mem : ∀ {id : Identity}, id.rank < table.size → id ∈ enumeration

theorem enumerates_identities (table : InternTable K) : table.Enumerates table.identities :=
  ⟨table.identities_nodup, mem_identities.mpr⟩

/-- The look-up map lists every identity once, in whatever order. -/
theorem enumerates_lookupOrder (table : InternTable K) : table.Enumerates table.lookupOrder where
  nodup := by
    have hvalue {p : K × Identity} (hp : p ∈ table.lookup.toList) :
        table.getValue? p.2 = some p.1 :=
      (table.lookup_iff p.1 p.2).mp (Std.HashMap.mem_toList_iff_getElem?_eq_some.mp hp)
    have hd : table.lookup.toList.Nodup :=
      table.lookup.distinct_keys_toList.imp fun hne he => by simp [he] at hne
    refine hd.map_on ?_
    rintro ⟨k, id⟩ hk ⟨k', id'⟩ hk' he
    obtain rfl : id = id' := he
    have := hvalue hk
    rw [hvalue hk', Option.some.injEq] at this
    rw [show k' = k from this]
  mem := fun {id} hid => by
    obtain ⟨k, hk⟩ := Option.isSome_iff_exists.mp (getValue?_isSome_iff.mpr hid)
    have hget : table.lookup[k]? = some id := (table.lookup_iff k id).mpr hk
    exact List.mem_map.mpr ⟨(k, id), Std.HashMap.mem_toList_iff_getElem?_eq_some.mpr hget, rfl⟩

/-- Numbering lists the live identities, in the order of the enumeration. -/
theorem Enumerates.perm_live {enumeration : List Identity} (h : table.Enumerates enumeration) :
    (table.finalize enumeration).1.Perm table.live := by
  refine (List.perm_ext_iff_of_nodup (h.nodup.filter _) table.live_nodup).mpr fun id => ?_
  rw [mem_live, List.mem_filter]
  exact ⟨fun h => h.2, fun hid => ⟨h.mem (isLive_iff.mp hid).1, hid⟩⟩

/-! ## 6. Places -/

/-- **The place of a value**: the position, among the live identities, of the one that the value's
identity stands for. -/
def Placed (table : InternTable K) (k : K) (i : Nat) : Prop :=
  ∃ x, table.getId? k = some x ∧ table.live[i]? = some (table.resolve x)

/-- The place of a value when the live identities are listed in the order of an enumeration. -/
def PlacedIn (table : InternTable K) (enumeration : List Identity) (k : K) (i : Nat) : Prop :=
  ∃ x, table.getId? k = some x ∧ (table.finalize enumeration).1[i]? = some (table.resolve x)

theorem placed_iff_placedIn {i : Nat} :
    table.Placed k i ↔ table.PlacedIn table.identities k i := Iff.rfl

/-- A numbered table gives values their places as indices. -/
theorem indexOfValue?_finalize {enumeration : List Identity} (hd : enumeration.Nodup) {i : Nat} :
    (table.finalize enumeration).2.indexOfValue? k = some i ↔ table.PlacedIn enumeration k i := by
  have hget : (table.finalize enumeration).2.getId? k = table.getId? k := rfl
  unfold indexOfValue? PlacedIn
  rw [hget]
  cases table.getId? k with
  | none => simp
  | some x =>
    rw [Option.bind_some, indexOf?_finalize hd]
    simp

/-- **Every value of a grounded table has a place**, whatever the order. -/
theorem Grounded.exists_placedIn (h : table.Grounded) {enumeration : List Identity}
    (he : table.Enumerates enumeration) (hk : table.contains k = true) :
    ∃ i, table.PlacedIn enumeration k i := by
  obtain ⟨x, hx⟩ := contains_iff_exists_getId?.mp hk
  have hlive := h.isLive_resolve (rank_lt_of_getId? hx)
  obtain ⟨i, hi⟩ := List.mem_iff_getElem?.mp (he.perm_live.mem_iff.mpr (mem_live.mpr hlive))
  exact ⟨i, x, hx, hi⟩

theorem PlacedIn.lt_length {enumeration : List Identity} {i : Nat}
    (h : table.PlacedIn enumeration k i) : i < (table.finalize enumeration).1.length := by
  obtain ⟨x, -, hi⟩ := h
  exact (List.getElem?_eq_some_iff.mp hi).1

/-- In a fresh table a place holds the identity of its value. -/
theorem Fresh.placedIn_iff (h : table.Fresh) {enumeration : List Identity} {i : Nat} :
    table.PlacedIn enumeration k i ↔
      ∃ x, (table.finalize enumeration).1[i]? = some x ∧ table.getValue? x = some k := by
  constructor
  · rintro ⟨x, hx, hi⟩
    rw [h.resolve_eq] at hi
    exact ⟨x, hi, getValue?_of_getId? hx⟩
  · rintro ⟨x, hi, hx⟩
    refine ⟨x, getId?_of_getValue? hx, ?_⟩
    rw [h.resolve_eq]
    exact hi

/-- A live identity has a value. -/
theorem exists_getValue?_of_mem_live (h : id ∈ table.live) :
    ∃ k, table.getValue? id = some k :=
  Option.isSome_iff_exists.mp (getValue?_isSome_iff.mpr (isLive_iff.mp (mem_live.mp h)).1)

theorem Fresh.placed_iff (h : table.Fresh) {i : Nat} :
    table.Placed k i ↔ ∃ x, table.live[i]? = some x ∧ table.getValue? x = some k :=
  placed_iff_placedIn.trans h.placedIn_iff

theorem Placed.lt_length {i : Nat} (h : table.Placed k i) : i < table.live.length :=
  (placed_iff_placedIn.mp h).lt_length

/-- The place of a value that has one. -/
def position (table : InternTable K) (k : K) : Nat :=
  ((table.finalize table.identities).2.indexOfValue? k).getD 0

theorem Placed.position_eq {i : Nat} (h : table.Placed k i) : table.position k = i := by
  unfold position
  rw [(indexOfValue?_finalize table.identities_nodup).mpr (placed_iff_placedIn.mp h)]
  rfl

theorem Grounded.placed_position (h : table.Grounded) (hk : table.contains k = true) :
    table.Placed k (table.position k) := by
  obtain ⟨i, hi⟩ := h.exists_placedIn table.enumerates_identities hk
  have hplaced : table.Placed k i := placed_iff_placedIn.mpr hi
  exact hplaced.position_eq ▸ hplaced

/-- **In a fresh table the places are one for each value**, from the first on without a gap. -/
theorem Fresh.bijOn_position (h : table.Fresh) {S : Set K}
    (hS : ∀ k, table.contains k = true ↔ k ∈ S) :
    Set.BijOn table.position S {i | i < table.live.length} := by
  refine ⟨?_, ?_, ?_⟩
  · intro k hk
    exact (h.grounded.placed_position ((hS k).mpr hk)).lt_length
  · intro k hk k' hk' he
    obtain ⟨x, hx, hk⟩ := h.placed_iff.mp (h.grounded.placed_position ((hS k).mpr hk))
    obtain ⟨y, hy, hk'⟩ := h.placed_iff.mp (h.grounded.placed_position ((hS k').mpr hk'))
    rw [he, hy, Option.some.injEq] at hx
    subst hx
    rw [hk, Option.some.injEq] at hk'
    exact hk'
  · intro i hi
    have hx := List.getElem?_eq_getElem hi
    obtain ⟨k, hk⟩ := exists_getValue?_of_mem_live (List.getElem_mem hi)
    have hplaced : table.Placed k i := h.placed_iff.mpr ⟨_, hx, hk⟩
    refine ⟨k, (hS k).mp ?_, hplaced.position_eq⟩
    exact contains_iff_exists_getId?.mpr ⟨_, getId?_of_getValue? hk⟩

/-- A table has no more live identities than there are values it may hold. -/
theorem length_live_lt {S : Set K} {n : Nat} (hS : S.encard < n)
    (hall : ∀ k, table.contains k = true → k ∈ S) : table.live.length < n := by
  have hmem {id : Identity} {k : K} (h : (id, k) ∈ table.liveEntries) :
      table.getId? k = some id := getId?_of_getValue? (mem_liveEntries.mp h).2
  have hd : (table.liveEntries.map Prod.snd).Nodup := by
    have hentries : table.liveEntries.Nodup :=
      List.Nodup.of_map Prod.fst (map_fst_liveEntries table ▸ table.live_nodup)
    refine hentries.map_on ?_
    rintro ⟨x, k⟩ hx ⟨y, k'⟩ hy hk
    obtain rfl : k = k' := hk
    have hxy := hmem hx
    rw [hmem hy, Option.some.injEq] at hxy
    rw [hxy]
  have hlen : (table.liveEntries.map Prod.snd).length = table.live.length := by
    rw [List.length_map, ← List.length_map (f := Prod.fst), map_fst_liveEntries]
  rw [← hlen]
  refine length_lt_of_encard_lt hd ?_ hS
  intro k hk
  obtain ⟨⟨x, k'⟩, hx, rfl⟩ := List.mem_map.mp hk
  exact hall k' (contains_iff_exists_getId?.mpr ⟨x, hmem hx⟩)

theorem Enumerates.length_lt {enumeration : List Identity} (h : table.Enumerates enumeration)
    {S : Set K} {n : Nat} (hS : S.encard < n) (hall : ∀ k, table.contains k = true → k ∈ S) :
    (table.finalize enumeration).1.length < n :=
  h.perm_live.length_eq ▸ length_live_lt hS hall

end InternTable

end PackedTree
