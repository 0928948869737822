/-
# Intern tables

A table gives every distinct value an identity: its rank in the order of first insertion.  An
identity can later be redirected onto another one, after which the two stand for the same entry.
An identity that is not redirected is live.  Numbering a table gives its live identities the
indices 0, 1, … in a chosen order; adding a value or redirecting an identity voids the numbers.

The look-up map is an aid for speed.  The field `lookup_iff` says that it knows exactly what the
entries say.

The live identities and the indices are read off the entries, and could as well be kept: a new value
makes one live identity more (`count_add`), a redirect makes one less (`count_redirect`), and either
takes all indices away (`numbering_add`, `numbering_redirect`).

* `getId?_eq_some_iff`: an identity belongs to a value exactly if its entry holds the value.
* `contains_add`: adding a value makes it known and leaves all others as they were.
-/
import Std.Data.HashMap

namespace PackedTree

/-- The rank of a value in the order of first insertion. -/
structure Identity where
  rank : Nat
deriving DecidableEq, Hashable, Repr, Inhabited

/-- Identities are ordered by rank, so by first insertion and not by value. -/
instance : Ord Identity := ⟨fun a b => compare a.rank b.rank⟩

/-- How an identity is shown in messages. -/
def Identity.show (id : Identity) : String := "Identity(" ++ toString id.rank ++ ")"

/-- Why two identities cannot be merged. -/
inductive InternError where
  | selfRedirect (id : Identity)
  | unknownIdentity (id : Identity)
deriving DecidableEq, Repr

def InternError.message : InternError → String
  | .selfRedirect id => "cannot redirect identity " ++ id.show ++ " onto itself"
  | .unknownIdentity id => "identity " ++ id.show ++ " does not belong to this table"

/-- A value, and the identity it was redirected onto. -/
structure InternTable.Entry (K : Type) where
  value : K
  redirect : Option Identity := none

/-- A table of distinct values. -/
structure InternTable (K : Type) [DecidableEq K] [Hashable K] where
  /-- The entries, by identity. -/
  entries : Array (InternTable.Entry K) := #[]
  /-- The identity of each value. -/
  lookup : Std.HashMap K Identity := ∅
  /-- The index of each identity, if the table is numbered. -/
  numbering : Option (Array (Option Nat)) := none
  lookup_iff : ∀ (k : K) (id : Identity),
    lookup[k]? = some id ↔ (entries[id.rank]?.map InternTable.Entry.value) = some k := by simp

namespace InternTable

variable {K : Type} [DecidableEq K] [Hashable K]

def empty : InternTable K := {}

instance : Inhabited (InternTable K) := ⟨empty⟩

/-! ## 1. Values and identities -/

/-- The number of identities, redirected ones included. -/
def size (table : InternTable K) : Nat := table.entries.size

def isEmpty (table : InternTable K) : Bool := table.entries.isEmpty

def getId? (table : InternTable K) (value : K) : Option Identity := table.lookup[value]?

def contains (table : InternTable K) (value : K) : Bool := (table.getId? value).isSome

/-- The value an identity was given for. -/
def getValue? (table : InternTable K) (id : Identity) : Option K :=
  table.entries[id.rank]?.map Entry.value

theorem getId?_eq_some_iff (table : InternTable K) (value : K) (id : Identity) :
    table.getId? value = some id ↔ table.getValue? id = some value :=
  table.lookup_iff value id

/-- A value without an identity is held by no entry. -/
theorem getValue?_ne_of_getId?_eq_none {table : InternTable K} {value : K}
    (h : table.getId? value = none) (id : Identity) : table.getValue? id ≠ some value := by
  intro hv
  rw [(table.getId?_eq_some_iff value id).mpr hv] at h
  exact Option.some_ne_none _ h

/-- The look-up stays exact when a new value gets the next identity. -/
theorem lookup_iff_push (table : InternTable K) {value : K} (h : table.getId? value = none)
    (k : K) (id : Identity) :
    (table.lookup.insert value ⟨table.entries.size⟩)[k]? = some id ↔
      (table.entries.push { value })[id.rank]?.map Entry.value = some k := by
  have hnew := getValue?_ne_of_getId?_eq_none h
  have hold := table.lookup_iff k id
  simp only [getValue?] at hnew
  rw [Std.HashMap.getElem?_insert, Array.getElem?_push]
  by_cases hk : value = k
  · subst hk
    simp only [BEq.rfl, if_true, Option.some.injEq]
    constructor
    · rintro rfl
      simp
    · intro he
      by_cases hid : id.rank = table.entries.size
      · cases id
        simp_all
      · rw [if_neg hid] at he
        exact absurd he (hnew id)
  · have hb : (value == k) = false := by simpa using hk
    simp only [hb, Bool.false_eq_true, if_false]
    rw [hold]
    by_cases hid : id.rank = table.entries.size
    · have hnone : table.entries[id.rank]? = none := by rw [hid]; simp
      rw [if_pos hid, hnone]
      simp [hk]
    · rw [if_neg hid]

/-- **Interns a value**: a known value keeps its identity, a new one gets the next. -/
def add (table : InternTable K) (value : K) : Identity × InternTable K :=
  match h : table.getId? value with
  | some id => (id, table)
  | none =>
    (⟨table.entries.size⟩,
      { entries := table.entries.push { value }
        lookup := table.lookup.insert value ⟨table.entries.size⟩
        numbering := none
        lookup_iff := table.lookup_iff_push h })

theorem contains_add (table : InternTable K) (value k : K) :
    (table.add value).2.contains k = (value == k || table.contains k) := by
  unfold add
  split
  · rename_i id h
    by_cases hk : value = k
    · subst hk
      simp [contains, h]
    · have hb : (value == k) = false := by simpa using hk
      simp [hb]
  · simp only [contains, getId?, Std.HashMap.getElem?_insert]
    by_cases hk : value = k
    · simp [hk]
    · have hb : (value == k) = false := by simpa using hk
      simp [hb]

/-! ## 2. Redirects -/

/-- Whether an identity belongs to the table and is not redirected. -/
def isLive (table : InternTable K) (id : Identity) : Bool :=
  match table.entries[id.rank]? with
  | some entry => entry.redirect.isNone
  | none => false

/-- Every identity of the table, in order. -/
def identities (table : InternTable K) : List Identity := (List.range table.size).map Identity.mk

theorem mem_identities {table : InternTable K} {id : Identity} :
    id ∈ table.identities ↔ id.rank < table.size := by
  unfold identities
  rw [List.mem_map]
  constructor
  · rintro ⟨n, hn, rfl⟩
    exact List.mem_range.mp hn
  · intro h
    exact ⟨id.rank, List.mem_range.mpr h, rfl⟩

theorem identities_nodup (table : InternTable K) : table.identities.Nodup := by
  refine List.pairwise_map.mpr (List.nodup_range.imp ?_)
  exact fun hne heq => hne (Identity.mk.inj heq)

/-- The live identities, in order. -/
def live (table : InternTable K) : List Identity := table.identities.filter table.isLive

theorem live_nodup (table : InternTable K) : table.live.Nodup :=
  List.Pairwise.filter _ table.identities_nodup

/-- The number of live identities.  A counter that `add` raises and `redirect` lowers agrees with it
(`count_add`, `count_redirect`). -/
def count (table : InternTable K) : Nat := table.live.length

/-- The live identities with their values, in order. -/
def liveEntries (table : InternTable K) : List (Identity × K) :=
  table.live.filterMap fun id => (table.getValue? id).map (id, ·)

/-- Follows at most `steps` redirects. -/
def follow (table : InternTable K) : (steps : Nat) → Identity → Identity
  | 0, id => id
  | steps + 1, id =>
    match table.entries[id.rank]? with
    | some { redirect := some next, .. } => table.follow steps next
    | _ => id

/-- **The live identity that an identity stands for.**  A chain of redirects passes no identity
twice, so the size of the table bounds its length.  An unknown identity stands for itself. -/
def resolve (table : InternTable K) (id : Identity) : Identity := table.follow table.size id

/-- The look-up stays exact when an entry is redirected. -/
theorem lookup_iff_modify (table : InternTable K) (rank : Nat) (target : Identity) (k : K)
    (id : Identity) : table.lookup[k]? = some id ↔
      (table.entries.modify rank fun e => { e with redirect := some target })[id.rank]?.map
        Entry.value = some k := by
  rw [table.lookup_iff k id, Array.getElem?_modify]
  split <;> simp [Option.map_map, Function.comp_def]

/-- **Merges two identities**: what the first stands for is redirected onto what the second
stands for.  Both must belong to the table and must not stand for the same. -/
def redirect (table : InternTable K) (nonCanonical canonical : Identity) :
    Except InternError (InternTable K) :=
  if table.size ≤ nonCanonical.rank then .error (.unknownIdentity nonCanonical)
  else if table.size ≤ canonical.rank then .error (.unknownIdentity canonical)
  else
    let source := table.resolve nonCanonical
    let target := table.resolve canonical
    if source = target then .error (.selfRedirect nonCanonical)
    else
      .ok
        { entries := table.entries.modify source.rank fun e => { e with redirect := some target }
          lookup := table.lookup
          numbering := none
          lookup_iff := table.lookup_iff_modify source.rank target }

/-- A new value adds one live identity, the last one. -/
theorem count_add (table : InternTable K) (value : K) : (table.add value).2.count =
    if table.getId? value = none then table.count + 1 else table.count := by
  unfold add
  split
  · rename_i id h
    rw [h]
    rfl
  · rename_i h
    let pushed : InternTable K :=
      { entries := table.entries.push { value }
        lookup := table.lookup.insert value ⟨table.entries.size⟩
        numbering := none
        lookup_iff := table.lookup_iff_push h }
    have hidentities : pushed.identities = table.identities ++ [⟨table.size⟩] := by
      simp [pushed, identities, size, List.range_succ]
    have hold : ∀ id ∈ table.identities, pushed.isLive id = table.isLive id := by
      intro id hid
      have hne : id.rank ≠ table.entries.size := Nat.ne_of_lt (mem_identities.mp hid)
      simp [pushed, isLive, Array.getElem?_push, hne]
    have hnew : pushed.isLive ⟨table.size⟩ = true := by simp [pushed, isLive, size]
    show pushed.live.length = _
    rw [if_pos h, live, hidentities, List.filter_append, List.filter_congr hold,
      List.filter_cons_of_pos hnew, List.filter_nil, List.length_append, List.length_singleton]
    rfl

/-- What a merge changes: the entry of what the first identity stands for. -/
theorem entries_redirect {table t : InternTable K} {x y : Identity}
    (h : table.redirect x y = .ok t) : t.numbering = none ∧
      t.entries = table.entries.modify (table.resolve x).rank fun e =>
        { e with redirect := some (table.resolve y) } := by
  unfold redirect at h
  split at h
  · cases h
  · split at h
    · cases h
    · dsimp only at h
      split at h
      · cases h
      · rw [← Except.ok.inj h]
        exact ⟨rfl, rfl⟩

/-- What was redirected is live no more, and every other identity stays as it was. -/
theorem isLive_redirect {table t : InternTable K} {x y : Identity}
    (h : table.redirect x y = .ok t) (id : Identity) :
    t.isLive id = (id != table.resolve x && table.isLive id) := by
  simp only [isLive, (entries_redirect h).2, Array.getElem?_modify]
  by_cases hid : id = table.resolve x
  · subst hid
    cases table.entries[(table.resolve x).rank]? <;> simp
  · have hrank : (table.resolve x).rank ≠ id.rank :=
      fun heq => hid (congrArg Identity.mk heq).symm
    simp [hid, hrank]

/-- A merge leaves one live identity less. -/
theorem count_redirect {table t : InternTable K} {x y : Identity}
    (h : table.redirect x y = .ok t) (hlive : table.isLive (table.resolve x) = true) :
    t.count + 1 = table.count := by
  have hsize : t.size = table.size := by simp [size, (entries_redirect h).2]
  have hrank : (table.resolve x).rank < table.size := by
    refine Nat.lt_of_not_le fun hle => ?_
    simp [isLive, Array.getElem?_eq_none hle] at hlive
  have hmem : table.resolve x ∈ table.live := List.mem_filter.mpr ⟨mem_identities.mpr hrank, hlive⟩
  have herase : t.live = table.live.erase (table.resolve x) := by
    rw [table.live_nodup.erase_eq_filter, live, live, List.filter_filter, identities, identities,
      hsize]
    exact List.filter_congr fun id _ => isLive_redirect h id
  rw [count, count, herase, List.length_erase_of_mem hmem]
  exact Nat.succ_pred_eq_of_pos (List.length_pos_of_mem hmem)

/-- A new value takes all indices away. -/
theorem numbering_add {table : InternTable K} {value : K} (h : table.getId? value = none) :
    (table.add value).2.numbering = none := by
  unfold add
  split
  · rename_i h'
    exact absurd (h.symm.trans h').symm (Option.some_ne_none _)
  · rfl

/-- So does a merge. -/
theorem numbering_redirect {table t : InternTable K} {x y : Identity}
    (h : table.redirect x y = .ok t) : t.numbering = none := (entries_redirect h).1

/-! ## 3. Numbering -/

/-- The identities in the order in which the look-up map lists them.  The order depends on the
hashes of the values and is not specified. -/
def lookupOrder (table : InternTable K) : List Identity := table.lookup.toList.map Prod.snd

/-- The indices of a list of identities, by rank. -/
def indicesOf (size : Nat) (order : List Identity) : Array (Option Nat) :=
  order.zipIdx.foldl (fun indices (id, index) => indices.setIfInBounds id.rank (some index))
    (Array.replicate size none)

/-- **Numbers the live identities** in the order of an enumeration of all identities, and gives
them in that order. -/
def finalize (table : InternTable K) (enumeration : List Identity) :
    List Identity × InternTable K :=
  let order := enumeration.filter table.isLive
  (order, { table with numbering := some (indicesOf table.size order) })

def isFinalized (table : InternTable K) : Bool := table.numbering.isSome

/-- The index of what an identity stands for, if the table is numbered. -/
def indexOf? (table : InternTable K) (id : Identity) : Option Nat :=
  match table.numbering with
  | some indices => (indices[(table.resolve id).rank]?).join
  | none => none

def indexOfValue? (table : InternTable K) (value : K) : Option Nat :=
  (table.getId? value).bind table.indexOf?

end InternTable

end PackedTree
