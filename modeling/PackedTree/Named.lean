/-
# Named values

Lists of pairs of a name and a value, in which a name has a place of its own.  `Named.set` is the
one way to put a value under a name: an earlier value of that name is replaced where it stands,
and a new name goes to the end.  So a list built by it names nothing twice.

* `names_set`: setting a name adds it at the end if it is new, and else leaves the names alone.
* `nodup_set`: setting a name keeps the names apart.
* `mem_of_mem_set`, `set_of_notMem`: setting a name brings in its own entry and no other, at the end
  if the name is new.
-/

namespace PackedTree.Named

variable {α : Type}

def names (entries : List (String × α)) : List String := entries.map Prod.fst

/-- Puts a value under a name. -/
def set (name : String) (value : α) : List (String × α) → List (String × α)
  | [] => [(name, value)]
  | (n, v) :: rest => if n = name then (n, value) :: rest else (n, v) :: set name value rest

/-- The value under a name. -/
def get? (name : String) : List (String × α) → Option α
  | [] => none
  | (n, v) :: rest => if n = name then some v else get? name rest

/-! ## The names after a change -/

@[simp] theorem names_nil : names ([] : List (String × α)) = [] := rfl

@[simp] theorem names_cons (n : String) (v : α) (rest : List (String × α)) :
    names ((n, v) :: rest) = n :: names rest := rfl

theorem names_set (name : String) (value : α) : ∀ entries : List (String × α),
    names (set name value entries) =
      if name ∈ names entries then names entries else names entries ++ [name]
  | [] => by simp [set]
  | (n, v) :: rest => by
    have ih := names_set name value rest
    unfold set
    by_cases hn : n = name
    · simp [hn]
    · have hne : ¬name = n := fun h => hn h.symm
      rw [if_neg hn, names_cons, names_cons, ih]
      by_cases hm : name ∈ names rest <;> simp [hm, hne]

theorem nodup_set (name : String) (value : α) {entries : List (String × α)}
    (h : (names entries).Nodup) : (names (set name value entries)).Nodup := by
  rw [names_set]
  split
  · exact h
  · rename_i hn
    rw [List.nodup_append]
    refine ⟨h, by simp, ?_⟩
    intro a ha b hb
    rw [List.mem_singleton.mp hb]
    exact fun hab => hn (hab ▸ ha)

/-! ## The entries after a change -/

theorem mem_of_mem_set {name : String} {value : α} {entry : String × α} :
    ∀ {entries : List (String × α)}, entry ∈ set name value entries →
      entry = (name, value) ∨ entry ∈ entries
  | [], h => .inl (List.mem_singleton.mp h)
  | (n, v) :: rest, h => by
    unfold set at h
    split at h
    · rename_i hn
      rcases List.mem_cons.mp h with rfl | h
      · exact .inl (by rw [hn])
      · exact .inr (List.mem_cons_of_mem _ h)
    · rcases List.mem_cons.mp h with rfl | h
      · exact .inr List.mem_cons_self
      · exact (mem_of_mem_set h).imp id (List.mem_cons_of_mem _)

theorem set_of_notMem {name : String} {value : α} :
    ∀ {entries : List (String × α)}, name ∉ names entries →
      set name value entries = entries ++ [(name, value)]
  | [], _ => rfl
  | (n, v) :: rest, h => by
    rw [names_cons, List.mem_cons, not_or] at h
    rw [set, if_neg (Ne.symm h.1), set_of_notMem h.2]
    rfl

/-! ## Looking up a name -/

theorem get?_eq_none_iff (name : String) : ∀ entries : List (String × α),
    get? name entries = none ↔ name ∉ names entries
  | [] => by simp [get?]
  | (n, v) :: rest => by
    have ih := get?_eq_none_iff name rest
    unfold get?
    by_cases hn : n = name
    · simp [hn]
    · have hne : ¬name = n := fun h => hn h.symm
      simp [hn, hne, ih]

end PackedTree.Named
