/-
# Intern tables over their history

A table starts empty, and values are added, identities merged and indices given out in any order.
This module keeps a history beside the table and says what the table is by its history: an
insertion-ordered set of values, with the equivalence on their identities that the merges generate.

* `Grounded.resolve_add`, `Grounded.resolve_redirect`: what an operation does to what an identity
  stands for.
* `History.Step` is one operation.  A merge may be refused, and a numbering may list the identities
  in any order.
* `History.Sound` is kept by every operation (`Sound.step`), and so holds of every history.
* `History.refines_of_steps`: the values, the classes and the indices of a table, by its history.

Identities are not bounded here, so nothing is said of more of them than 32 bits can count.
-/
import PackedTree.Proofs.InternTable

namespace PackedTree

namespace InternTable

variable {K : Type} [DecidableEq K] [Hashable K] {table t : InternTable K} {id x y : Identity}

/-! ## 1. What an identity stands for -/

theorem Leads.rank_lt {n : Nat} {root : Identity} (h : table.Leads n id root) :
    id.rank < table.size := by
  cases h with
  | live h => exact (isLive_iff.mp h).1
  | step ht _ =>
    refine Nat.lt_of_not_le fun hle => ?_
    rw [target?_eq_none_of_size_le hle] at ht
    exact Option.some_ne_none _ ht.symm

/-- A chain of redirects has one end. -/
theorem Leads.unique {n m : Nat} {root root' : Identity} (h : table.Leads n id root)
    (h' : table.Leads m id root') : root = root' := by
  induction h generalizing m with
  | live h =>
    cases h' with
    | live _ => rfl
    | step ht _ =>
      rw [(isLive_iff.mp h).2] at ht
      exact absurd ht.symm (Option.some_ne_none _)
  | step ht _ ih =>
    cases h' with
    | live h =>
      rw [(isLive_iff.mp h).2] at ht
      exact absurd ht.symm (Option.some_ne_none _)
    | step ht' h' =>
      rw [ht, Option.some.injEq] at ht'
      subst ht'
      exact ih h'

theorem Leads.reaches {n : Nat} {root : Identity} (h : table.Leads n id root) :
    Relation.ReflTransGen (fun a b => table.target? a = some b) id root := by
  induction h with
  | live _ => exact .refl
  | step ht _ ih => exact .head ht ih

/-- **In a grounded table an identity stands for the end of its chain.** -/
theorem Grounded.resolve_eq (hg : table.Grounded) {n : Nat} {root : Identity}
    (h : table.Leads n id root) : table.resolve id = root := by
  obtain ⟨m, root', h', hm⟩ := hg id h.rank_lt
  exact (h'.follow_eq (by omega)).trans (h'.unique h)

theorem Grounded.exists_leads (hg : table.Grounded) (hid : id.rank < table.size) :
    ∃ n, table.Leads n id (table.resolve id) := by
  obtain ⟨n, root, h, -⟩ := hg id hid
  exact ⟨n, (hg.resolve_eq h).symm ▸ h⟩

/-- An identity of another table stands for itself. -/
theorem resolve_of_size_le (h : table.size ≤ id.rank) : table.resolve id = id :=
  follow_of_target?_eq_none (target?_eq_none_of_size_le h) _

/-- **Following the redirects of an identity ends**, at what it stands for. -/
theorem Grounded.reaches_resolve (hg : table.Grounded) (id : Identity) :
    Relation.ReflTransGen (fun a b => table.target? a = some b) id (table.resolve id) ∧
      table.target? (table.resolve id) = none := by
  by_cases hid : id.rank < table.size
  · obtain ⟨n, h⟩ := hg.exists_leads hid
    exact ⟨h.reaches, (isLive_iff.mp h.isLive).2⟩
  · rw [resolve_of_size_le (Nat.not_lt.mp hid)]
    exact ⟨.refl, target?_eq_none_of_size_le (Nat.not_lt.mp hid)⟩

theorem Grounded.resolve_resolve (hg : table.Grounded) (id : Identity) :
    table.resolve (table.resolve id) = table.resolve id :=
  follow_of_target?_eq_none (hg.reaches_resolve id).2 _

/-! ## 2. Additions -/

theorem isLive_add (k : K) : (table.add k).2.isLive id = true ↔
    table.isLive id = true ∨ (table.getId? k = none ∧ id.rank = table.size) := by
  rw [isLive_iff, isLive_iff, target?_add, size_add]
  by_cases hk : table.getId? k = none
  · have hnew (h : id.rank = table.size) : table.target? id = none :=
      target?_eq_none_of_size_le (Nat.le_of_eq h.symm)
    rw [if_pos hk, Nat.lt_succ_iff_lt_or_eq]
    constructor
    · rintro ⟨h | h, ht⟩
      · exact .inl ⟨h, ht⟩
      · exact .inr ⟨hk, h⟩
    · rintro (⟨h, ht⟩ | ⟨-, h⟩)
      · exact ⟨.inl h, ht⟩
      · exact ⟨.inr h, hnew h⟩
  · rw [if_neg hk]
    simp [hk]

theorem Leads.add {n : Nat} {root : Identity} (h : table.Leads n id root) (k : K) :
    (table.add k).2.Leads n id root := by
  induction h with
  | live h => exact .live ((isLive_add k).mpr (.inl h))
  | step ht _ ih => exact .step ((target?_add table k _).trans ht) ih

theorem Grounded.add (hg : table.Grounded) (k : K) : (table.add k).2.Grounded := by
  intro id hid
  rw [size_add] at hid ⊢
  have hcount : (table.add k).2.live.length =
      if table.getId? k = none then table.live.length + 1 else table.live.length :=
    table.count_add k
  rw [hcount]
  by_cases hold : id.rank < table.size
  · obtain ⟨n, root, h, hn⟩ := hg id hold
    refine ⟨n, root, h.add k, ?_⟩
    split <;> omega
  · have hle := table.length_live_le
    by_cases hk : table.getId? k = none
    · rw [if_pos hk] at hid ⊢
      refine ⟨0, id, .live ((isLive_add k).mpr (.inr ⟨hk, by omega⟩)), ?_⟩
      rw [if_pos hk]
      omega
    · rw [if_neg hk] at hid
      exact absurd hid hold

/-- **Adding a value** changes nothing of what an identity stands for. -/
theorem Grounded.resolve_add (hg : table.Grounded) (k : K) (id : Identity) :
    (table.add k).2.resolve id = table.resolve id := by
  by_cases hid : id.rank < table.size
  · obtain ⟨n, h⟩ := hg.exists_leads hid
    exact (hg.add k).resolve_eq (h.add k)
  · have hnone := target?_eq_none_of_size_le (Nat.not_lt.mp hid)
    rw [resolve_of_size_le (Nat.not_lt.mp hid)]
    exact follow_of_target?_eq_none ((target?_add table k id).trans hnone) _

theorem add_of_getId? {k : K} (hk : table.getId? k = some id) : table.add k = (id, table) := by
  rcases table.add_cases k with ⟨x, hx, he⟩ | ⟨hnone, -⟩
  · obtain rfl := Option.some.inj (hk.symm.trans hx)
    exact he
  · exact absurd (hk.symm.trans hnone) (Option.some_ne_none _)

theorem add_fst_of_getId? {k : K} (hk : table.getId? k = none) :
    (table.add k).1 = ⟨table.size⟩ := by
  unfold add
  split
  · rename_i h
    exact absurd (hk.symm.trans h).symm (Option.some_ne_none _)
  · rfl

/-! ## 3. Merges -/

/-- **A merge** leaves the class of the first identity to what the second stood for. -/
theorem Grounded.resolve_redirect (hg : table.Grounded) (hr : table.redirect x y = .ok t)
    (id : Identity) : t.resolve id =
      if table.resolve id = table.resolve x then table.resolve y else table.resolve id := by
  obtain ⟨hlx, hly, hne, hsize, -, htarget⟩ := hg.redirect_spec hr
  by_cases hid : id.rank < table.size
  · have hly' : t.isLive (table.resolve y) = true := by
      rw [isLive_iff, hsize, htarget, if_neg (Ne.symm hne)]
      exact isLive_iff.mp hly
    obtain ⟨n, h⟩ := hg.exists_leads hid
    obtain ⟨m, h', -⟩ := h.redirect hsize htarget hlx hly'
    exact (hg.redirect hr).resolve_eq h'
  · have hle := Nat.not_lt.mp hid
    have hother : id ≠ table.resolve x := by
      rintro rfl
      exact hid (isLive_iff.mp hlx).1
    rw [resolve_of_size_le hle, if_neg hother]
    exact resolve_of_size_le (hsize ▸ hle)

/-- A merge leaves one live identity less. -/
theorem Grounded.length_live_redirect (hg : table.Grounded) (hr : table.redirect x y = .ok t) :
    t.live.length + 1 = table.live.length := count_redirect hr (hg.redirect_spec hr).1

/-! ## 4. Histories -/

/-- **A table with its history**: its values in the order of their first insertion, the pairs that
were merged, and the enumeration that it was numbered by if it did not change since. -/
structure History (K : Type) [DecidableEq K] [Hashable K] where
  table : InternTable K := .empty
  values : List K := []
  merged : List (Identity × Identity) := []
  numbered : Option (List Identity) := none

namespace History

/-- A known value changes nothing. -/
def add (h : History K) (k : K) : History K :=
  if k ∈ h.values then { h with table := (h.table.add k).2 }
  else { h with table := (h.table.add k).2, values := h.values ++ [k], numbered := none }

/-- **One operation** on a table.  A merge that is refused gives no table, and leaves everything as
it is. -/
inductive Step : History K → History K → Prop where
  | add (h : History K) (k : K) : Step h (h.add k)
  | merge {h : History K} {x y : Identity} {t : InternTable K}
      (hr : h.table.redirect x y = .ok t) :
      Step h { h with table := t, merged := h.merged ++ [(x, y)], numbered := none }
  | refuse {h : History K} {x y : Identity} {e : InternError}
      (hr : h.table.redirect x y = .error e) : Step h h
  | finalize {h : History K} {enumeration : List Identity}
      (he : h.table.Enumerates enumeration) :
      Step h { h with table := (h.table.finalize enumeration).2, numbered := some enumeration }

/-- The equivalence that the merges generate. -/
def Same (h : History K) : Identity → Identity → Prop :=
  Relation.EqvGen fun x y => (x, y) ∈ h.merged

/-- **What every operation keeps.** -/
structure Sound (h : History K) : Prop where
  grounded : h.table.Grounded
  size_eq : h.table.size = h.values.length
  getValue?_eq : ∀ id : Identity, h.table.getValue? id = h.values[id.rank]?
  resolve_eq_iff : ∀ x y, h.table.resolve x = h.table.resolve y ↔ h.Same x y
  count_add : h.table.count + h.merged.length = h.table.size
  numbering_eq_none : h.numbered = none → h.table.numbering = none
  /-- The indices are those that the same numbering would give out again. -/
  finalize_eq : ∀ e, h.numbered = some e →
    h.table.Enumerates e ∧ (h.table.finalize e).2 = h.table

variable {h h' : History K} {k : K}

theorem Sound.mem_values_iff (hs : h.Sound) :
    k ∈ h.values ↔ ∃ id, h.table.getId? k = some id := by
  rw [List.mem_iff_getElem?]
  constructor
  · rintro ⟨i, hi⟩
    exact ⟨⟨i⟩, getId?_of_getValue? ((hs.getValue?_eq ⟨i⟩).trans hi)⟩
  · rintro ⟨id, hid⟩
    exact ⟨id.rank, (hs.getValue?_eq id).symm.trans (getValue?_of_getId? hid)⟩

theorem Sound.getId?_eq_none (hs : h.Sound) (hk : k ∉ h.values) : h.table.getId? k = none := by
  rw [hs.mem_values_iff, not_exists] at hk
  exact Option.eq_none_iff_forall_ne_some.mpr hk

/-! ## 5. Every operation keeps the table sound -/

theorem sound_empty : Sound ({} : History K) where
  grounded := fresh_empty.grounded
  size_eq := rfl
  getValue?_eq := fun id => by simp [getValue?, InternTable.empty]
  resolve_eq_iff := fun x y => by
    have hnone (a b : Identity) : (a, b) ∉ ({} : History K).merged := List.not_mem_nil
    rw [fresh_empty.resolve_eq, fresh_empty.resolve_eq]
    constructor
    · rintro rfl
      exact .refl x
    · intro hxy
      induction hxy with
      | rel a b hab => exact absurd hab (hnone a b)
      | refl a => rfl
      | symm a b _ ih => exact ih.symm
      | trans a b c _ _ ih ih' => exact ih.trans ih'
  count_add := rfl
  numbering_eq_none := fun _ => rfl
  finalize_eq := fun e he => nomatch he

theorem Sound.add (hs : h.Sound) (k : K) : (h.add k).Sound := by
  unfold History.add
  by_cases hk : k ∈ h.values
  · obtain ⟨id, hid⟩ := hs.mem_values_iff.mp hk
    rw [if_pos hk, add_of_getId? hid]
    exact hs
  · have hnone := hs.getId?_eq_none hk
    rw [if_neg hk]
    refine ⟨hs.grounded.add k, ?_, ?_, ?_, ?_, fun _ => numbering_add hnone, fun e he => nomatch he⟩
    · simp [size_add, hnone, hs.size_eq]
    · intro id
      rw [getValue?_add, hs.getValue?_eq, hs.size_eq, List.getElem?_append]
      by_cases hid : id.rank = h.values.length
      · simp [hid, hnone]
      · by_cases hlt : id.rank < h.values.length
        · simp [hid, hlt]
        · simp [hid, hlt]
          omega
    · intro x y
      rw [hs.grounded.resolve_add, hs.grounded.resolve_add]
      exact hs.resolve_eq_iff x y
    · have hcount : h.table.live.length + h.merged.length = h.table.size := hs.count_add
      have hadd : (h.table.add k).2.count = h.table.live.length + 1 :=
        (h.table.count_add k).trans (if_pos hnone)
      change (h.table.add k).2.count + h.merged.length = (h.table.add k).2.size
      rw [hadd, size_add, if_pos hnone]
      omega

/-- **A merge joins two classes** and no more. -/
theorem Sound.same_merge (hs : h.Sound) (hr : h.table.redirect x y = .ok t) (a b : Identity) :
    t.resolve a = t.resolve b ↔
      Relation.EqvGen (fun a b => (a, b) ∈ h.merged ++ [(x, y)]) a b := by
  have hold {a b : Identity} (hab : h.table.resolve a = h.table.resolve b) :
      Relation.EqvGen (fun a b => (a, b) ∈ h.merged ++ [(x, y)]) a b :=
    ((hs.resolve_eq_iff a b).mp hab).mono fun _ _ hm => List.mem_append_left _ hm
  have hnew : Relation.EqvGen (fun a b => (a, b) ∈ h.merged ++ [(x, y)]) x y :=
    .rel x y (List.mem_append_right _ List.mem_cons_self)
  have hresolve := hs.grounded.resolve_redirect hr
  constructor
  · intro hab
    rw [hresolve, hresolve] at hab
    by_cases ha : h.table.resolve a = h.table.resolve x
    · by_cases hb : h.table.resolve b = h.table.resolve x
      · exact hold (ha.trans hb.symm)
      · rw [if_pos ha, if_neg hb] at hab
        exact ((hold ha).trans _ _ _ hnew).trans _ _ _ (hold hab)
    · by_cases hb : h.table.resolve b = h.table.resolve x
      · rw [if_neg ha, if_pos hb] at hab
        exact (hold hab).trans _ _ _ (.symm _ _ ((hold hb).trans _ _ _ hnew))
      · rw [if_neg ha, if_neg hb] at hab
        exact hold hab
  · intro hab
    induction hab with
    | rel a b hab =>
      rw [hresolve, hresolve]
      rcases List.mem_append.mp hab with hab | hab
      · rw [(hs.resolve_eq_iff a b).mpr (.rel a b hab)]
      · obtain ⟨rfl, rfl⟩ := Prod.mk.inj (List.mem_singleton.mp hab)
        rw [if_pos rfl]
        split <;> rfl
    | refl a => rfl
    | symm a b _ ih => exact ih.symm
    | trans a b c _ _ ih ih' => exact ih.trans ih'

theorem Sound.merge (hs : h.Sound) (hr : h.table.redirect x y = .ok t) :
    Sound { h with table := t, merged := h.merged ++ [(x, y)], numbered := none } := by
  obtain ⟨-, -, -, hsize, hvalue, -⟩ := hs.grounded.redirect_spec hr
  refine ⟨hs.grounded.redirect hr, hsize.trans hs.size_eq, fun id => ?_, hs.same_merge hr, ?_,
    fun _ => numbering_redirect hr, fun e he => nomatch he⟩
  · exact (hvalue id).trans (hs.getValue?_eq id)
  · have hcount : h.table.live.length + h.merged.length = h.table.size := hs.count_add
    have hless := hs.grounded.length_live_redirect hr
    change t.live.length + (h.merged ++ [(x, y)]).length = t.size
    rw [List.length_append, List.length_singleton, hsize]
    omega

theorem Sound.finalize (hs : h.Sound) {e : List Identity} (he : h.table.Enumerates e) :
    Sound { h with table := (h.table.finalize e).2, numbered := some e } where
  grounded := hs.grounded.finalize e
  size_eq := hs.size_eq
  getValue?_eq := hs.getValue?_eq
  resolve_eq_iff := fun x y => by
    rw [resolve_finalize, resolve_finalize]
    exact hs.resolve_eq_iff x y
  count_add := hs.count_add
  numbering_eq_none := fun hn => nomatch hn
  finalize_eq := fun e' he' => by
    obtain rfl := Option.some.inj he'
    exact ⟨⟨he.nodup, he.mem⟩, rfl⟩

/-- **One operation keeps a table sound.** -/
theorem Sound.step (hs : h.Sound) (hstep : Step h h') : h'.Sound := by
  cases hstep with
  | add k => exact hs.add k
  | merge hr => exact hs.merge hr
  | refuse _ => exact hs
  | finalize he => exact hs.finalize he

/-- **So every history is sound.** -/
theorem sound_of_steps (hsteps : Relation.ReflTransGen Step {} h) : h.Sound := by
  induction hsteps with
  | refl => exact sound_empty
  | tail _ hstep ih => exact ih.step hstep

/-! ## 6. Values and identities -/

/-- **A table is an insertion-ordered set**: its identities are the ranks of the values, from 0 on
in order of first insertion, and no later operation takes one away or gives it another value. -/
structure OrdersValues (h : History K) : Prop where
  nodup : h.values.Nodup
  size_eq : h.table.size = h.values.length
  getValue?_eq : ∀ id : Identity, h.table.getValue? id = h.values[id.rank]?
  getId?_iff : ∀ k id, h.table.getId? k = some id ↔ h.table.getValue? id = some k
  mem_iff : ∀ k, k ∈ h.values ↔ ∃ id, h.table.getId? k = some id
  add_fst : ∀ k, (h.table.add k).1 = ⟨h.values.idxOf k⟩
  lasting : ∀ h', Relation.ReflTransGen Step h h' →
    ∀ id k, h.table.getValue? id = some k → h'.table.getValue? id = some k

/-- A later operation leaves a value what it was. -/
theorem Sound.getValue?_step (hs : h.Sound) (hstep : Step h h')
    (hid : h.table.getValue? id = some k) : h'.table.getValue? id = some k := by
  cases hstep with
  | add k' =>
    have hlt : id.rank < h.table.size :=
      getValue?_isSome_iff.mp (Option.isSome_of_eq_some hid)
    have htable : (h.add k').table = (h.table.add k').2 := by
      unfold History.add
      split <;> rfl
    rw [htable, getValue?_add, if_neg fun hnew => Nat.ne_of_lt hlt hnew.2]
    exact hid
  | merge hr =>
    obtain ⟨-, -, -, -, hvalue, -⟩ := hs.grounded.redirect_spec hr
    exact (hvalue id).trans hid
  | refuse _ => exact hid
  | finalize _ => exact hid

theorem Sound.ordersValues (hs : h.Sound) : h.OrdersValues where
  nodup := by
    refine List.nodup_iff_injective_getElem.mpr fun i j hij => ?_
    have hget (i : Fin h.values.length) : h.table.getId? h.values[i] = some ⟨i⟩ :=
      getId?_of_getValue? ((hs.getValue?_eq ⟨i⟩).trans (List.getElem?_eq_getElem i.isLt))
    have he := (hget i).symm.trans ((congrArg h.table.getId? hij).trans (hget j))
    exact Fin.ext (Identity.mk_inj (Option.some.inj he))
  size_eq := hs.size_eq
  getValue?_eq := hs.getValue?_eq
  getId?_iff := h.table.getId?_eq_some_iff
  mem_iff := fun _ => hs.mem_values_iff
  add_fst := fun k => by
    by_cases hk : k ∈ h.values
    · have hi := List.idxOf_lt_length_of_mem hk
      have hvalue : h.table.getValue? ⟨h.values.idxOf k⟩ = some k := by
        rw [hs.getValue?_eq, List.getElem?_eq_getElem hi, List.getElem_idxOf hi]
      rw [add_of_getId? (getId?_of_getValue? hvalue)]
    · rw [add_fst_of_getId? (hs.getId?_eq_none hk), List.idxOf_eq_length hk, hs.size_eq]
  lasting := fun h' hsteps id k hid => by
    have hall : h'.Sound ∧ h'.table.getValue? id = some k := by
      induction hsteps with
      | refl => exact ⟨hs, hid⟩
      | tail _ hstep ih => exact ⟨ih.1.step hstep, ih.1.getValue?_step hstep ih.2⟩
    exact hall.2

/-! ## 7. Classes -/

/-- **Resolving finds the classes of the merges.**  Following redirects ends for every identity,
known or not, at one that is not redirected.  The live identities stand for the classes, one for
each, and their number is that of the known values less that of the merges. -/
structure ResolvesClasses (h : History K) : Prop where
  reaches_resolve : ∀ id, Relation.ReflTransGen (fun a b => h.table.target? a = some b) id
    (h.table.resolve id) ∧ h.table.target? (h.table.resolve id) = none
  resolve_resolve : ∀ id, h.table.resolve (h.table.resolve id) = h.table.resolve id
  isLive_resolve : ∀ id, id.rank < h.table.size → h.table.isLive (h.table.resolve id) = true
  resolve_unknown : ∀ id, h.table.size ≤ id.rank → h.table.resolve id = id
  resolve_eq_iff : ∀ x y, x.rank < h.table.size → y.rank < h.table.size →
    (h.table.resolve x = h.table.resolve y ↔ h.Same x y)
  count_eq_classes : h.table.count =
    ((Quot.mk fun x y => (x, y) ∈ h.merged) '' {x | x.rank < h.table.size}).ncard
  count_eq_entries : h.table.count = h.table.liveEntries.length
  count_add : h.table.count + h.merged.length = h.table.size

/-- **The live identities are one for each class.** -/
theorem Sound.count_eq_classes (hs : h.Sound) : h.table.count =
    ((Quot.mk fun x y => (x, y) ∈ h.merged) '' {x | x.rank < h.table.size}).ncard := by
  have hsame {x y : Identity} :
      Quot.mk (fun x y => (x, y) ∈ h.merged) x = Quot.mk (fun x y => (x, y) ∈ h.merged) y ↔
        h.table.resolve x = h.table.resolve y :=
    Quot.eq.trans (hs.resolve_eq_iff x y).symm
  have hlive : (Quot.mk fun x y => (x, y) ∈ h.merged) '' {x | x.rank < h.table.size} =
      (Quot.mk fun x y => (x, y) ∈ h.merged) '' {x | x ∈ h.table.live} := by
    ext q
    constructor
    · rintro ⟨x, hx, rfl⟩
      exact ⟨h.table.resolve x, mem_live.mpr (hs.grounded.isLive_resolve hx),
        hsame.mpr (hs.grounded.resolve_resolve x)⟩
    · rintro ⟨x, hx, rfl⟩
      exact ⟨x, (isLive_iff.mp (mem_live.mp hx)).1, rfl⟩
  have hinj : Set.InjOn (Quot.mk fun x y => (x, y) ∈ h.merged) {x | x ∈ h.table.live} := by
    intro x hx y hy hxy
    have he := hsame.mp hxy
    rw [resolve_of_isLive (mem_live.mp hx), resolve_of_isLive (mem_live.mp hy)] at he
    exact he
  rw [hlive, hinj.ncard_image, ← List.coe_toFinset, Set.ncard_coe_finset,
    List.toFinset_card_of_nodup h.table.live_nodup]
  rfl

theorem Sound.resolvesClasses (hs : h.Sound) : h.ResolvesClasses where
  reaches_resolve := hs.grounded.reaches_resolve
  resolve_resolve := hs.grounded.resolve_resolve
  isLive_resolve := fun _ => hs.grounded.isLive_resolve
  resolve_unknown := fun _ => resolve_of_size_le
  resolve_eq_iff := fun x y _ _ => hs.resolve_eq_iff x y
  count_eq_classes := hs.count_eq_classes
  count_eq_entries := by
    rw [count, ← map_fst_liveEntries, List.length_map]
  count_add := hs.count_add

/-! ## 8. Merges -/

/-- **When a merge is refused, and what a granted one does**: the joined class is represented by
what the second identity stood for, and every other class stays. -/
structure MergesClasses (h : History K) : Prop where
  unknown_iff : ∀ x y id, h.table.redirect x y = .error (.unknownIdentity id) ↔
    (h.table.size ≤ x.rank ∧ id = x) ∨
      (x.rank < h.table.size ∧ h.table.size ≤ y.rank ∧ id = y)
  self_iff : ∀ x y id, h.table.redirect x y = .error (.selfRedirect id) ↔
    x.rank < h.table.size ∧ y.rank < h.table.size ∧ h.Same x y ∧ id = x
  resolve_joined : ∀ x y t, h.table.redirect x y = .ok t →
    ∀ id, h.Same id x ∨ h.Same id y → t.resolve id = h.table.resolve y
  resolve_other : ∀ x y t, h.table.redirect x y = .ok t →
    ∀ id, ¬h.Same id x → t.resolve id = h.table.resolve id

theorem Sound.mergesClasses (hs : h.Sound) : h.MergesClasses where
  unknown_iff := fun x y id => by
    unfold redirect
    by_cases hx : h.table.size ≤ x.rank
    · simp [hx, Nat.not_lt.mpr hx, eq_comm]
    by_cases hy : h.table.size ≤ y.rank
    · simp [hx, hy, Nat.not_le.mp hx, eq_comm]
    by_cases hxy : h.table.resolve x = h.table.resolve y
    · simp [hx, hy, hxy]
    · simp [hx, hy, hxy]
  self_iff := fun x y id => by
    rw [← hs.resolve_eq_iff]
    unfold redirect
    by_cases hx : h.table.size ≤ x.rank
    · simp [hx, Nat.not_lt.mpr hx]
    by_cases hy : h.table.size ≤ y.rank
    · simp [hx, hy, Nat.not_lt.mpr hy]
    by_cases hxy : h.table.resolve x = h.table.resolve y
    · simp [hx, hy, hxy, Nat.not_le.mp hx, Nat.not_le.mp hy, eq_comm]
    · simp [hx, hy, hxy]
  resolve_joined := fun x y t hr id hid => by
    rw [← hs.resolve_eq_iff, ← hs.resolve_eq_iff] at hid
    rw [hs.grounded.resolve_redirect hr]
    rcases hid with hid | hid
    · rw [if_pos hid]
    · rw [hid, ite_self]
  resolve_other := fun x y t hr id hid => by
    rw [← hs.resolve_eq_iff] at hid
    rw [hs.grounded.resolve_redirect hr, if_neg hid]

/-! ## 9. Indices -/

/-- **Indices belong to the last numbering**, and are void once a value or a merge was added.  While
they stand they are dense and one for each class, and follow the order of the enumeration. -/
structure IndexesClasses (h : History K) : Prop where
  void : h.numbered = none → ∀ id, h.table.indexOf? id = none
  unknown : ∀ id, h.table.size ≤ id.rank → h.table.indexOf? id = none
  position : ∀ e, h.numbered = some e → ∀ id i, h.table.indexOf? id = some i ↔
    (e.filter h.table.isLive)[i]? = some (h.table.resolve id)
  known : ∀ e, h.numbered = some e → ∀ id, id.rank < h.table.size →
    ∃ i < h.table.count, h.table.indexOf? id = some i
  dense : ∀ e, h.numbered = some e → ∀ i < h.table.count, ∃ id, h.table.indexOf? id = some i
  eq_iff : ∀ e, h.numbered = some e → ∀ x y, x.rank < h.table.size → y.rank < h.table.size →
    (h.table.indexOf? x = h.table.indexOf? y ↔ h.Same x y)
  ordered : h.numbered = some h.table.identities → ∀ x y i j, h.table.indexOf? x = some i →
    h.table.indexOf? y = some j →
      (i < j ↔ (h.table.resolve x).rank < (h.table.resolve y).rank)

/-- The numbered identities are the live ones. -/
theorem Sound.perm_live (hs : h.Sound) {e : List Identity} (he : h.numbered = some e) :
    (e.filter h.table.isLive).Perm h.table.live :=
  (hs.finalize_eq e he).1.perm_live

/-- **An index is a position** in the enumeration without what is not live. -/
theorem Sound.indexOf?_eq_some_iff (hs : h.Sound) {e : List Identity} (he : h.numbered = some e)
    (id : Identity) (i : Nat) :
    h.table.indexOf? id = some i ↔ (e.filter h.table.isLive)[i]? = some (h.table.resolve id) := by
  obtain ⟨henum, hsame⟩ := hs.finalize_eq e he
  have hindex : (h.table.finalize e).2.indexOf? id = some i ↔
      (h.table.finalize e).1[i]? = some (h.table.resolve id) := indexOf?_finalize henum.nodup
  rw [hsame] at hindex
  exact hindex

theorem Sound.indexOf?_unknown (hs : h.Sound) {id : Identity} (hid : h.table.size ≤ id.rank) :
    h.table.indexOf? id = none := by
  cases hn : h.numbered with
  | none => rw [indexOf?, hs.numbering_eq_none hn]
  | some e =>
    refine Option.eq_none_iff_forall_ne_some.mpr fun i hi => ?_
    have hmem := List.mem_of_getElem? ((hs.indexOf?_eq_some_iff hn id i).mp hi)
    rw [resolve_of_size_le hid] at hmem
    exact Nat.not_lt.mpr hid (isLive_iff.mp (List.mem_filter.mp hmem).2).1

/-- Every known identity has an index, which is less than the number of classes. -/
theorem Sound.exists_indexOf? (hs : h.Sound) {e : List Identity} (he : h.numbered = some e)
    {id : Identity} (hid : id.rank < h.table.size) :
    ∃ i < h.table.count, h.table.indexOf? id = some i := by
  have hmem := (hs.perm_live he).mem_iff.mpr (mem_live.mpr (hs.grounded.isLive_resolve hid))
  obtain ⟨i, hi⟩ := List.mem_iff_getElem?.mp hmem
  refine ⟨i, ?_, (hs.indexOf?_eq_some_iff he id i).mpr hi⟩
  rw [count, ← (hs.perm_live he).length_eq]
  exact (List.getElem?_eq_some_iff.mp hi).1

theorem Sound.indexesClasses (hs : h.Sound) : h.IndexesClasses := by
  refine ⟨?_, fun id => hs.indexOf?_unknown, fun e he => hs.indexOf?_eq_some_iff he,
    fun e he id => hs.exists_indexOf? he, ?_, ?_, ?_⟩
  · intro hn id
    rw [indexOf?, hs.numbering_eq_none hn]
  · intro e he i hi
    rw [count, ← (hs.perm_live he).length_eq] at hi
    have hget := List.getElem?_eq_getElem hi
    have hmem := (List.mem_filter.mp (List.getElem_mem hi)).2
    refine ⟨(e.filter h.table.isLive)[i], (hs.indexOf?_eq_some_iff he _ i).mpr ?_⟩
    rw [hget, resolve_of_isLive hmem]
  · intro e he x y hx hy
    rw [← hs.resolve_eq_iff]
    obtain ⟨i, -, hi⟩ := hs.exists_indexOf? he hx
    obtain ⟨j, -, hj⟩ := hs.exists_indexOf? he hy
    have hxi := (hs.indexOf?_eq_some_iff he x i).mp hi
    constructor
    · intro hxy
      rw [hi, hj, Option.some.injEq] at hxy
      subst hxy
      exact Option.some.inj (hxi.symm.trans ((hs.indexOf?_eq_some_iff he y i).mp hj))
    · intro hxy
      rw [hi]
      exact ((hs.indexOf?_eq_some_iff he y i).mpr (hxy ▸ hxi)).symm
  · -- numbered in the order of first insertion, the live identities ascend
    intro he x y i j hi hj
    exact live_lt_iff ((hs.indexOf?_eq_some_iff he x i).mp hi)
      ((hs.indexOf?_eq_some_iff he y j).mp hj)

/-! ## 10. What a table is by its history -/

/-- **An intern table refines an insertion-ordered set with an equivalence**, after any sequence of
additions, granted and refused merges and numberings. -/
theorem refines_of_steps (hsteps : Relation.ReflTransGen Step {} h) :
    h.OrdersValues ∧ h.ResolvesClasses ∧ h.MergesClasses ∧ h.IndexesClasses := by
  have hs := sound_of_steps hsteps
  exact ⟨hs.ordersValues, hs.resolvesClasses, hs.mergesClasses, hs.indexesClasses⟩

/-- Two values, the later one merged onto the earlier, then numbered: one class, with one index. -/
theorem refines_of_steps_pair : ∃ h : History Nat, Relation.ReflTransGen Step {} h ∧
    h.values = [7, 9] ∧ h.merged = [(⟨1⟩, ⟨0⟩)] ∧ h.table.resolve ⟨1⟩ = h.table.resolve ⟨0⟩ ∧
      h.table.count = 1 ∧ h.table.indexOf? ⟨1⟩ = h.table.indexOf? ⟨0⟩ := by
  have hadded : Relation.ReflTransGen Step {} ((({} : History Nat).add 7).add 9) :=
    .tail (.single (.add {} 7)) (.add _ 9)
  have hfresh : ((({} : History Nat).add 7).add 9).table.Fresh := (fresh_empty.add 7).add 9
  have hsize : ((({} : History Nat).add 7).add 9).table.size = 2 :=
    (sound_of_steps hadded).size_eq
  have hmergeable : ∃ t, ((({} : History Nat).add 7).add 9).table.redirect ⟨1⟩ ⟨0⟩ = .ok t := by
    refine exists_redirect_iff.mpr ⟨hsize ▸ Nat.one_lt_two, hsize ▸ Nat.two_pos, ?_⟩
    simp [hfresh.resolve_eq]
  obtain ⟨t, ht⟩ := hmergeable
  have hmerged := hadded.tail (.merge ht)
  have hnumbered := hmerged.tail (.finalize t.enumerates_identities)
  obtain ⟨hvalues, hclasses, -, hindices⟩ := refines_of_steps hnumbered
  have htwo : t.size = 2 := hvalues.size_eq
  have hsame := (hclasses.resolve_eq_iff ⟨1⟩ ⟨0⟩ (htwo ▸ Nat.one_lt_two) (htwo ▸ Nat.two_pos)).mpr
    (.rel _ _ (List.mem_singleton.mpr rfl))
  refine ⟨_, hnumbered, rfl, rfl, hsame, ?_, ?_⟩
  · exact Nat.add_right_cancel (hclasses.count_add.trans htwo)
  · refine (hindices.eq_iff _ rfl ⟨1⟩ ⟨0⟩ (htwo ▸ Nat.one_lt_two) (htwo ▸ Nat.two_pos)).mpr ?_
    exact .rel _ _ (List.mem_singleton.mpr rfl)

end History

end InternTable

end PackedTree
