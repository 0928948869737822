/-
# Answering each member of a list

A stage that answers the members of a list one by one succeeds exactly if it has an answer for
each, and gives the answers in order.  `List.Forall₂` says so for both kinds of answers in use.
The same of two stages in sequence is `bind_eq_ok_iff`.

Where members that came before are passed over, what is left are the first occurrences
(`eraseDups_append_singleton`).
-/
import Mathlib.Data.List.Forall2

namespace PackedTree

variable {α β ε : Type}

theorem mapM_eq_some_iff {f : α → Option β} : ∀ {l : List α} {r : List β},
    l.mapM f = some r ↔ List.Forall₂ (fun a b => f a = some b) l r
  | [], r => by
    rw [List.mapM_nil, List.forall₂_nil_left_iff]
    exact ⟨fun h => (Option.some.inj h).symm, fun h => congrArg some h.symm⟩
  | a :: l, r => by
    rw [List.forall₂_cons_left_iff, List.mapM_cons]
    constructor
    · intro h
      obtain ⟨b, hb, h⟩ := Option.bind_eq_some_iff.mp h
      obtain ⟨bs, hbs, h⟩ := Option.bind_eq_some_iff.mp h
      exact ⟨b, bs, hb, mapM_eq_some_iff.mp hbs, (Option.some.inj h).symm⟩
    · rintro ⟨b, bs, hb, hbs, rfl⟩
      rw [hb, mapM_eq_some_iff.mpr hbs]
      rfl

/-- A stage after a stage succeeds exactly if both do. -/
theorem bind_eq_ok_iff {r : Except ε α} {f : α → Except ε β} {b : β} :
    r >>= f = .ok b ↔ ∃ a, r = .ok a ∧ f a = .ok b := by
  cases r with
  | error e =>
    constructor
    · intro h
      cases h
    · rintro ⟨a, ha, -⟩
      cases ha
  | ok a =>
    constructor
    · intro h
      exact ⟨a, rfl, h⟩
    · rintro ⟨a', ha, h⟩
      rw [Except.ok.inj ha]
      exact h

/-- A stage whose answer is changed succeeds exactly if it does itself. -/
theorem map_eq_ok_iff {r : Except ε α} {f : α → β} {b : β} :
    r.map f = .ok b ↔ ∃ a, r = .ok a ∧ f a = b := by
  cases r with
  | error e =>
    constructor
    · intro h
      cases h
    · rintro ⟨a, ha, -⟩
      cases ha
  | ok a =>
    constructor
    · intro h
      exact ⟨a, rfl, Except.ok.inj h⟩
    · rintro ⟨a', ha, h⟩
      rw [← h, Except.ok.inj ha]
      rfl

theorem mapM_eq_ok_iff {f : α → Except ε β} : ∀ {l : List α} {r : List β},
    l.mapM f = .ok r ↔ List.Forall₂ (fun a b => f a = .ok b) l r
  | [], r => by
    rw [List.mapM_nil, List.forall₂_nil_left_iff]
    exact ⟨fun h => (Except.ok.inj h).symm, fun h => congrArg Except.ok h.symm⟩
  | a :: l, r => by
    rw [List.forall₂_cons_left_iff, List.mapM_cons]
    constructor
    · intro h
      obtain ⟨b, hb, h⟩ := bind_eq_ok_iff.mp h
      obtain ⟨bs, hbs, h⟩ := bind_eq_ok_iff.mp h
      exact ⟨b, bs, hb, mapM_eq_ok_iff.mp hbs, (Except.ok.inj h).symm⟩
    · rintro ⟨b, bs, hb, hbs, rfl⟩
      rw [hb, mapM_eq_ok_iff.mpr hbs]
      rfl

theorem mapM_congr_of_mem {m : Type → Type} [Monad m] [LawfulMonad m] {f g : α → m β} :
    ∀ {l : List α}, (∀ a ∈ l, f a = g a) → l.mapM f = l.mapM g
  | [], _ => rfl
  | a :: l, h => by
    rw [List.mapM_cons, List.mapM_cons, h a List.mem_cons_self,
      mapM_congr_of_mem fun b hb => h b (List.mem_cons_of_mem _ hb)]

/-- A relation that holds for some partner of each member holds along a list of partners. -/
theorem exists_forall₂ {R : α → β → Prop} : ∀ {l : List α},
    (∀ a ∈ l, ∃ b, R a b) → ∃ r, List.Forall₂ R l r
  | [], _ => ⟨[], .nil⟩
  | a :: l, h => by
    obtain ⟨b, hb⟩ := h a List.mem_cons_self
    obtain ⟨r, hr⟩ := exists_forall₂ fun x hx => h x (List.mem_cons_of_mem _ hx)
    exact ⟨b :: r, .cons hb hr⟩

/-- Partners of the same members are related through them. -/
theorem forall₂_through {γ : Type} {R : α → β → Prop} {S : α → γ → Prop} {l : List α}
    {r : List β} (h : List.Forall₂ R l r) : ∀ {t : List γ}, List.Forall₂ S l t →
      List.Forall₂ (fun b c => ∃ a ∈ l, R a b ∧ S a c) r t := by
  induction h with
  | nil =>
    intro t ht
    rw [List.forall₂_nil_left_iff.mp ht]
    exact .nil
  | cons hab _ ih =>
    intro t ht
    obtain ⟨c, t', hc, ht', rfl⟩ := List.forall₂_cons_left_iff.mp ht
    refine .cons ⟨_, List.mem_cons_self, hab, hc⟩ ((ih ht').imp ?_)
    rintro b c ⟨a, ha, h⟩
    exact ⟨a, List.mem_cons_of_mem _ ha, h⟩

/-- Two kinds of partners side by side. -/
theorem forall₂_zip {γ : Type} {R : α → β → Prop} {S : α → γ → Prop} {l : List α} {r : List β}
    (h : List.Forall₂ R l r) : ∀ {t : List γ}, List.Forall₂ S l t →
      List.Forall₂ (fun ab c => R ab.1 ab.2 ∧ S ab.1 c) (l.zip r) t := by
  induction h with
  | nil =>
    intro t ht
    rw [List.forall₂_nil_left_iff.mp ht]
    exact .nil
  | cons hab _ ih =>
    intro t ht
    obtain ⟨c, t', hc, ht', rfl⟩ := List.forall₂_cons_left_iff.mp ht
    exact .cons ⟨hab, hc⟩ (ih ht')

/-- Each member of the second list has a partner in the first. -/
theorem exists_left_of_forall₂ {R : α → β → Prop} {l : List α} {r : List β}
    (h : List.Forall₂ R l r) {b : β} (hb : b ∈ r) : ∃ a ∈ l, R a b := by
  induction h with
  | nil => simp at hb
  | cons hab _ ih =>
    rcases List.mem_cons.mp hb with rfl | hb
    · exact ⟨_, List.mem_cons_self, hab⟩
    · obtain ⟨a, ha, hR⟩ := ih hb
      exact ⟨a, List.mem_cons_of_mem _ ha, hR⟩

/-- Members at one position are related. -/
theorem exists_getElem?_of_forall₂ {R : α → β → Prop} {l : List α} {r : List β}
    (h : List.Forall₂ R l r) {i : Nat} {a : α} (ha : l[i]? = some a) :
    ∃ b, r[i]? = some b ∧ R a b := by
  obtain ⟨hi, rfl⟩ := List.getElem?_eq_some_iff.mp ha
  have hi' : i < r.length := h.length_eq ▸ hi
  exact ⟨r[i], List.getElem?_eq_getElem hi', h.get hi hi'⟩

/-- One more member is a first occurrence, or changes nothing. -/
theorem eraseDups_append_singleton [DecidableEq α] (l : List α) (a : α) :
    (l ++ [a]).eraseDups = if a ∈ l.eraseDups then l.eraseDups else l.eraseDups ++ [a] := by
  rw [List.eraseDups_append]
  by_cases ha : a ∈ l
  · simp [ha, List.removeAll]
  · simp [ha, List.removeAll, List.eraseDups_cons]

end PackedTree
