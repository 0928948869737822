/-
# Storing at the end of a path

A path leads to a place for content (`FileStore.target`) and to what stands there
(`FileStore.lookup`).  The two follow the names of a path in their own ways; this module shows that
they agree.

* `FileStore.follow_put`: what is put where no directory stands changes no way.
* `FileStore.lookup_of_target`: what stands at the place for content is what the path leads to.
* `FileStore.lookup_put_target`: content put at the place that a path leads to is what the path
  leads to from then on.  That no other place changes is `FileStore.get?_put_of_ne`.
-/
import PackedTree.Command.FileStore
import PackedTree.Proofs.Traversal

namespace PackedTree.Command.FileStore

variable {store : FileStore} {here place : Place} {path : String}

/-! ## 1. Ways -/

/-- A way starts in a directory, if it has a name at all. -/
theorem get?_of_follow {name : String} {rest : List String}
    (h : store.follow here (name :: rest) = .ok place) : store.get? here = some .directory := by
  unfold follow at h
  split at h
  · cases h
  · assumption
  · cases h

/-- A way is one name and then the others. -/
theorem follow_cons (name : String) (rest : List String) :
    store.follow here (name :: rest) =
      store.follow here [name] >>= fun next => store.follow next rest := by
  simp only [follow]
  cases store.get? here with
  | none => rfl
  | some entry =>
    cases entry with
    | directory =>
      simp only []
      split
      · rfl
      · split
        · rfl
        · split <;> rfl
    | file _ | device _ => rfl

/-- A way along some names and then along others. -/
theorem follow_append (names others : List String) :
    store.follow here (names ++ others) =
      store.follow here names >>= fun next => store.follow next others := by
  induction names generalizing here with
  | nil => rfl
  | cons name rest ih =>
    rw [List.cons_append, follow_cons, follow_cons name rest, bind_assoc]
    exact congrArg (store.follow here [name] >>= ·) (funext fun _ => ih)

/-- What is put at a place takes the place of what was put there before. -/
theorem put_put (store : FileStore) (place : Place) (entry entry' : Entry) :
    (store.put place entry).put place entry' = store.put place entry' := by
  simp [put, List.filter_filter]

/-- **What is put where no directory stands changes no way**: a way passes through directories. -/
theorem follow_put {names : List String} {target : Place} (entry : Entry)
    (htarget : store.get? target ≠ some .directory) (h : store.follow here names = .ok place) :
    (store.put target entry).follow here names = .ok place := by
  induction names generalizing here with
  | nil => exact h
  | cons name rest ih =>
    have hhere := get?_of_follow h
    have hne : here ≠ target := by
      rintro rfl
      exact htarget hhere
    have hput : (store.put target entry).get? here = store.get? here := get?_put_of_ne store _ hne
    have hone : (store.put target entry).follow here [name] = store.follow here [name] := by
      simp only [follow, hput]
    rw [follow_cons] at h ⊢
    obtain ⟨next, hnext, hrest⟩ := bind_eq_ok_iff.mp h
    exact bind_eq_ok_iff.mpr ⟨next, hone.trans hnext, ih hrest⟩

/-- A way that ends with a dot ends in the directory before it. -/
theorem follow_dot {names : List String} (h : store.follow here (names ++ ["."]) = .ok place) :
    store.follow here names = .ok place := by
  rw [follow_append] at h
  obtain ⟨folder, hfolder, hdot⟩ := bind_eq_ok_iff.mp h
  have hdirectory := get?_of_follow hdot
  unfold follow at hdot
  rw [hdirectory] at hdot
  obtain rfl : folder = place := by simpa [follow] using hdot
  exact hfolder

/-! ## 2. The place for content -/

/-- **The place that a path leads to for content** is the one that all its names lead to, and no
directory stands there. -/
theorem follow_of_target (h : store.target path = .ok place) :
    checkPath path = .ok () ∧ store.follow (store.start path) (path.splitOn "/") = .ok place ∧
      store.get? place ≠ some .directory := by
  obtain ⟨⟨⟩, hcheck, h⟩ := bind_eq_ok_iff.mp h
  refine ⟨hcheck, ?_⟩
  generalize hnames : path.splitOn "/" = names at h ⊢
  obtain ⟨folder, hfolder, h⟩ := bind_eq_ok_iff.mp h
  split at h
  · cases h
  rename_i hlast
  rw [not_or, not_or] at hlast
  obtain ⟨hdot, -, hlength⟩ := hlast
  obtain ⟨found, hfound, h⟩ := bind_eq_ok_iff.mp h
  -- no name is left out at the end, since a path that ends in a slash is refused
  have hshown : (names.reverse.dropWhile (· = "")).reverse = names := by
    have hsuffix := List.dropWhile_suffix (l := names.reverse) fun name => decide (name = "")
    have hsame := hsuffix.eq_of_length_le (by simpa using hlength)
    rw [hsame, List.reverse_reverse]
  rw [hshown] at hfolder hfound hdot
  have hne : names ≠ [] := by
    rintro rfl
    exact hdot rfl
  have hsplit : names = names.dropLast ++ [names.getLastD "."] := by
    conv_lhs => rw [← List.dropLast_append_getLast hne]
    rw [List.getLastD_eq_getLast?, List.getLast?_eq_getLast_of_ne_nil hne, Option.getD_some]
  split at h
  · cases h
  · rename_i hstands
    obtain rfl := Except.ok.inj h
    refine ⟨?_, hstands⟩
    rw [hsplit, follow_append]
    exact bind_eq_ok_iff.mpr ⟨folder, follow_dot hfolder, hfound⟩

/-- The place for content is where the path is looked up. -/
theorem lookup_of_target {entry : Entry} (h : store.target path = .ok place)
    (hentry : store.get? place = some entry) : store.lookup path = .ok entry := by
  obtain ⟨hcheck, hfollow, -⟩ := follow_of_target h
  unfold lookup
  rw [hcheck]
  refine bind_eq_ok_iff.mpr ⟨(), rfl, bind_eq_ok_iff.mpr ⟨place, hfollow, ?_⟩⟩
  rw [hentry]
  rfl

/-- **Content put at the place that a path leads to** is what the path leads to from then on. -/
theorem lookup_put_target (content : ByteArray) (h : store.target path = .ok place) :
    (store.put place (.file content)).lookup path = .ok (.file content) := by
  obtain ⟨hcheck, hfollow, hstands⟩ := follow_of_target h
  have hne : place ≠ [] := by
    rintro rfl
    exact hstands (get?_top store)
  unfold lookup
  rw [hcheck]
  refine bind_eq_ok_iff.mpr ⟨(), rfl, bind_eq_ok_iff.mpr ⟨place, follow_put _ hstands hfollow, ?_⟩⟩
  rw [get?_put store _ hne]
  rfl

end PackedTree.Command.FileStore
