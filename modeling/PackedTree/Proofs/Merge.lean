/-
# What a merge does

The objects are signed one after the other and grouped by signature, and the later members of each
group are redirected onto its first.

* `Groups.Sorts`: what the groups hold of the identities signed so far.
* `mergeAll_spec`: the redirects of a list of pairs, if no pair is in the way of another.
* `Groups.Sorts.redirect_spec`: once the pairs of the groups are redirected, an identity stands for
  the first of its group.
* `Catalog.Lists.merge_spec`: a merge of a listed tree succeeds, and two live identities stand for
  the same afterwards exactly if their nodes have the same signature.
* `Catalog.Lists.merge_again`: a merge of any listed tree succeeds, also after other merges, and the
  merged catalog lists the tree, so no later stage can miss an entry.
-/
import PackedTree.Catalog.Merge
import PackedTree.Proofs.Discovery
import PackedTree.Proofs.Signature.Exact

namespace PackedTree

/-! ## 1. Groups -/

/-- The members of a list of pairs with one more at its end. -/
theorem mem_concat {α β : Type} {l : List (α × β)} {a x : α} {b y : β} :
    (a, b) ∈ l ++ [(x, y)] ↔ (a, b) ∈ l ∨ (a = x ∧ b = y) := by
  rw [List.mem_append, List.mem_singleton, Prod.mk.injEq]

/-- **What groups hold** of identities with their signatures, given in ascending order: the first of
each signature, and a pair for every other one. -/
structure Groups.Sorts (g : Groups) (signed : List (Identity × Signature)) : Prop where
  mem_of_first : ∀ {σ : Signature} {y : Identity}, g.firsts[σ]? = some y → (y, σ) ∈ signed
  exists_first : ∀ {x : Identity} {σ : Signature}, (x, σ) ∈ signed → ∃ y, g.firsts[σ]? = some y
  first_le : ∀ {x y : Identity} {σ : Signature}, (x, σ) ∈ signed → g.firsts[σ]? = some y →
    y.rank ≤ x.rank
  mem_merges : ∀ {x y : Identity}, (x, y) ∈ g.merges.toList ↔
    ∃ σ, (x, σ) ∈ signed ∧ g.firsts[σ]? = some y ∧ x ≠ y
  apart : (g.merges.toList.map Prod.fst).Nodup

theorem Groups.sorts_empty : Groups.Sorts {} [] where
  mem_of_first := by simp
  exists_first := by simp
  first_le := by simp
  mem_merges := by simp
  apart := List.nodup_nil

section

variable {g : Groups} {signed : List (Identity × Signature)} {x : Identity} {σ : Signature}

/-- A later identity joins the group of its signature. -/
theorem Groups.Sorts.join (h : g.Sorts signed) (hx : ∀ y τ, (y, τ) ∈ signed → y.rank < x.rank)
    {first : Identity} (hf : g.firsts[σ]? = some first) :
    Groups.Sorts { g with merges := g.merges.push (x, first) } (signed ++ [(x, σ)]) := by
  have hnew {τ : Signature} : (x, τ) ∉ signed := fun hm => Nat.lt_irrefl _ (hx x τ hm)
  have hne : x ≠ first := by
    rintro rfl
    exact hnew (h.mem_of_first hf)
  refine ⟨fun hy => List.mem_append_left _ (h.mem_of_first hy), fun {y τ} hy => ?_,
    fun {y z τ} hy hz => ?_, fun {y z} => ?_, ?_⟩
  · rcases mem_concat.mp hy with hy | ⟨rfl, rfl⟩
    · exact h.exists_first hy
    · exact ⟨first, hf⟩
  · rcases mem_concat.mp hy with hy | ⟨rfl, rfl⟩
    · exact h.first_le hy hz
    · exact Nat.le_of_lt (hx z τ (h.mem_of_first hz))
  · simp only [Array.toList_push, mem_concat, h.mem_merges]
    constructor
    · rintro (⟨τ, hy, hz, hyz⟩ | ⟨rfl, rfl⟩)
      · exact ⟨τ, .inl hy, hz, hyz⟩
      · exact ⟨σ, .inr ⟨rfl, rfl⟩, hf, hne⟩
    · rintro ⟨τ, hy | ⟨rfl, rfl⟩, hz, hyz⟩
      · exact .inl ⟨τ, hy, hz, hyz⟩
      · rw [hf, Option.some.injEq] at hz
        exact .inr ⟨rfl, hz.symm⟩
  · simp only [Array.toList_push, List.map_append, List.map_cons, List.map_nil]
    refine List.nodup_append.mpr ⟨h.apart, List.nodup_singleton _, ?_⟩
    intro y hy z hz
    obtain ⟨⟨y', w⟩, hp, rfl⟩ := List.mem_map.mp hy
    obtain ⟨τ, hτ, -, -⟩ := h.mem_merges.mp hp
    rw [List.mem_singleton.mp hz]
    rintro rfl
    exact hnew hτ

/-- An identity with a new signature starts a group. -/
theorem Groups.Sorts.start (h : g.Sorts signed) (hf : g.firsts[σ]? = none) :
    Groups.Sorts { g with firsts := g.firsts.insert σ x } (signed ++ [(x, σ)]) := by
  have hget (τ : Signature) : (g.firsts.insert σ x)[τ]? =
      if σ = τ then some x else g.firsts[τ]? := by
    rw [Std.HashMap.getElem?_insert]
    simp only [beq_iff_eq]
  have hother {y : Identity} {τ : Signature} (hy : (y, τ) ∈ signed) : σ ≠ τ := by
    rintro rfl
    obtain ⟨z, hz⟩ := h.exists_first hy
    simp [hf] at hz
  refine ⟨fun {τ y} hy => ?_, fun {y τ} hy => ?_, fun {y z τ} hy hz => ?_, fun {y z} => ?_,
    h.apart⟩
  · rw [hget] at hy
    split at hy
    · rename_i he
      exact mem_concat.mpr (.inr ⟨(Option.some.inj hy).symm, he.symm⟩)
    · exact mem_concat.mpr (.inl (h.mem_of_first hy))
  · simp only [hget]
    rcases mem_concat.mp hy with hy | ⟨rfl, rfl⟩
    · rw [if_neg (hother hy)]
      exact h.exists_first hy
    · exact ⟨y, if_pos rfl⟩
  · rw [hget] at hz
    rcases mem_concat.mp hy with hy | ⟨rfl, rfl⟩
    · rw [if_neg (hother hy)] at hz
      exact h.first_le hy hz
    · rw [if_pos rfl, Option.some.injEq] at hz
      exact Nat.le_of_eq (congrArg Identity.rank hz.symm)
  · simp only [h.mem_merges, hget, mem_concat]
    constructor
    · rintro ⟨τ, hy, hz, hyz⟩
      exact ⟨τ, .inl hy, by rw [if_neg (hother hy)]; exact hz, hyz⟩
    · rintro ⟨τ, hy | ⟨rfl, rfl⟩, hz, hyz⟩
      · rw [if_neg (hother hy)] at hz
        exact ⟨τ, hy, hz, hyz⟩
      · rw [if_pos rfl] at hz
        exact absurd (Option.some.inj hz) hyz

theorem Groups.Sorts.add (h : g.Sorts signed) (hx : ∀ y τ, (y, τ) ∈ signed → y.rank < x.rank)
    (σ : Signature) : (g.add x σ).Sorts (signed ++ [(x, σ)]) := by
  unfold Groups.add
  cases hf : g.firsts[σ]? with
  | some first => exact h.join hx hf
  | none => exact h.start hf

end

/-- Puts identities with their signatures into their groups. -/
def Groups.addAll (g : Groups) (signed : List (Identity × Signature)) : Groups :=
  signed.foldl (fun g p => g.add p.1 p.2) g

theorem Groups.Sorts.addAll : ∀ {more : List (Identity × Signature)} {g : Groups}
    {signed : List (Identity × Signature)}, g.Sorts signed →
      ((signed ++ more).map Prod.fst).Pairwise (·.rank < ·.rank) →
        (g.addAll more).Sorts (signed ++ more)
  | [], _, signed, h, _ => by
    rw [List.append_nil]
    exact h
  | (x, σ) :: more, g, signed, h, hd => by
    have hx : ∀ y τ, (y, τ) ∈ signed → y.rank < x.rank := by
      intro y τ hy
      rw [List.map_append, List.map_cons, List.pairwise_append] at hd
      exact hd.2.2 y (List.mem_map.mpr ⟨_, hy, rfl⟩) x List.mem_cons_self
    have hsplit : signed ++ (x, σ) :: more = (signed ++ [(x, σ)]) ++ more := by simp
    rw [hsplit] at hd ⊢
    exact (h.add hx σ).addAll hd

/-! ## 2. Redirects of a list of pairs -/

/-- **The pairs are redirected**, if all are live and no identity is redirected that another one
is redirected onto. -/
theorem mergeAll_spec : ∀ {pairs : List (Identity × Identity)} {table : InternTable NodeId},
    (∀ x y, (x, y) ∈ pairs → table.isLive x = true ∧ table.isLive y = true) →
    (pairs.map Prod.fst).Nodup →
    (∀ x y, (x, y) ∈ pairs → y ∉ pairs.map Prod.fst) →
      ∃ table', Catalog.mergeAll table pairs = .ok table' ∧ table'.size = table.size ∧
        (∀ id, table'.getValue? id = table.getValue? id) ∧
        (∀ id next, table'.target? id = some next ↔
          (id, next) ∈ pairs ∨ table.target? id = some next)
  | [], table, _, _, _ => ⟨table, rfl, rfl, fun _ => rfl, by simp⟩
  | (x, y) :: pairs, table, hlive, hd, hsep => by
    rw [List.map_cons, List.nodup_cons] at hd
    obtain ⟨hx, hy⟩ := hlive x y List.mem_cons_self
    have hne : x ≠ y := by
      rintro rfl
      exact hsep x x List.mem_cons_self List.mem_cons_self
    obtain ⟨t, ht, hsize, hvalue, htarget⟩ := InternTable.redirect_of_isLive hx hy hne
    have hkeeps {z : Identity} (hz : table.isLive z = true) (hzx : z ≠ x) : t.isLive z = true := by
      rw [InternTable.isLive_iff] at hz ⊢
      rw [hsize, htarget, if_neg hzx]
      exact hz
    have hrest {a b : Identity} (hab : (a, b) ∈ pairs) : a ≠ x ∧ b ≠ x := by
      constructor
      · rintro rfl
        exact hd.1 (List.mem_map.mpr ⟨_, hab, rfl⟩)
      · rintro rfl
        exact hsep a b (List.mem_cons_of_mem _ hab) List.mem_cons_self
    obtain ⟨t', ht', hsize', hvalue', htarget'⟩ := @mergeAll_spec pairs t
      (fun a b hab => by
        obtain ⟨ha, hb⟩ := hlive a b (List.mem_cons_of_mem _ hab)
        exact ⟨hkeeps ha (hrest hab).1, hkeeps hb (hrest hab).2⟩)
      hd.2
      (fun a b hab hmem => hsep a b (List.mem_cons_of_mem _ hab) (List.mem_cons_of_mem _ hmem))
    refine ⟨t', ?_, hsize'.trans hsize, fun id => (hvalue' id).trans (hvalue id), ?_⟩
    · simp only [Catalog.mergeAll, ht]
      exact ht'
    · intro id next
      rw [htarget', htarget, List.mem_cons, Prod.mk.injEq]
      by_cases hid : id = x
      · subst hid
        have hnone := (InternTable.isLive_iff.mp hx).2
        simp [hnone, or_comm, eq_comm]
      · simp [hid]

/-- The first of a group is redirected nowhere, if every identity has one signature. -/
theorem Groups.Sorts.first_stays {g : Groups} {signed : List (Identity × Signature)}
    (h : g.Sorts signed) (hone : ∀ x σ τ, (x, σ) ∈ signed → (x, τ) ∈ signed → σ = τ)
    {σ : Signature} {y : Identity} (hy : g.firsts[σ]? = some y) (z : Identity) :
    (y, z) ∉ g.merges.toList := by
  intro hyz
  rcases h.mem_merges.mp hyz with ⟨τ, hτ, hz, hne⟩
  obtain rfl := hone y σ τ (h.mem_of_first hy) hτ
  rw [hy, Option.some.injEq] at hz
  exact hne hz

/-- **The pairs of the groups are redirected** and nothing else is, if the identities are live and
each has one signature. -/
theorem Groups.Sorts.mergeAll_spec {g : Groups} {signed : List (Identity × Signature)}
    {table : InternTable NodeId} (h : g.Sorts signed)
    (hone : ∀ x σ τ, (x, σ) ∈ signed → (x, τ) ∈ signed → σ = τ)
    (hlive : ∀ x σ, (x, σ) ∈ signed → table.isLive x = true) :
    ∃ table', Catalog.mergeAll table g.merges.toList = .ok table' ∧ table'.size = table.size ∧
      (∀ id, table'.getValue? id = table.getValue? id) ∧
      (∀ id next, table'.target? id = some next ↔
        (id, next) ∈ g.merges.toList ∨ table.target? id = some next) := by
  refine PackedTree.mergeAll_spec ?_ h.apart ?_
  · intro x y hxy
    rcases h.mem_merges.mp hxy with ⟨σ, hx, hy, -⟩
    exact ⟨hlive x σ hx, hlive y σ (h.mem_of_first hy)⟩
  · intro x y hxy hmem
    rcases List.mem_map.mp hmem with ⟨⟨y', z⟩, hyz, rfl⟩
    rcases h.mem_merges.mp hxy with ⟨σ, -, hy, -⟩
    exact h.first_stays hone hy z hyz

/-- **What the redirects make of a fresh table**: an identity stands for the first of its group. -/
theorem Groups.Sorts.redirect_spec {g : Groups} {signed : List (Identity × Signature)}
    {table : InternTable NodeId} (h : g.Sorts signed)
    (hone : ∀ x σ τ, (x, σ) ∈ signed → (x, τ) ∈ signed → σ = τ) (hfresh : table.Fresh)
    (hlive : ∀ x σ, (x, σ) ∈ signed → table.isLive x = true) :
    ∃ table', Catalog.mergeAll table g.merges.toList = .ok table' ∧
      table'.size = table.size ∧ (∀ id, table'.getValue? id = table.getValue? id) ∧
      table'.Flat ∧ ∀ x σ, (x, σ) ∈ signed → g.firsts[σ]? = some (table'.resolve x) := by
  rcases h.mergeAll_spec hone hlive with ⟨table', htable, hsize, hvalue, htarget⟩
  have htarget' (x y : Identity) : table'.target? x = some y ↔ (x, y) ∈ g.merges.toList := by
    rw [htarget, hfresh x]
    simp
  have hfirst {y : Identity} {σ : Signature} (hy : g.firsts[σ]? = some y) :
      table'.target? y = none := by
    refine Option.eq_none_iff_forall_ne_some.mpr ?_
    intro z hz
    exact h.first_stays hone hy z ((htarget' y z).mp hz)
  have hflat : table'.Flat := by
    intro x y hxy
    rcases h.mem_merges.mp ((htarget' x y).mp hxy) with ⟨σ, -, hy, -⟩
    rw [InternTable.isLive_iff, hsize]
    have hy' := hlive y σ (h.mem_of_first hy)
    exact ⟨(InternTable.isLive_iff.mp hy').1, hfirst hy⟩
  refine ⟨table', htable, hsize, hvalue, hflat, ?_⟩
  intro x σ hx
  rcases h.exists_first hx with ⟨y, hy⟩
  rw [hflat.resolve_eq]
  by_cases hxy : x = y
  · subst hxy
    rw [hfirst hy]
    exact hy
  · have hm := h.mem_merges.mpr ⟨σ, hx, hy, hxy⟩
    rw [(htarget' x y).mpr hm]
    exact hy

namespace Catalog

variable {tree : Tree} {c : Catalog}

/-! ## 3. Signing the live objects -/

/-- The signer at the end of the merge of a catalog. -/
def signing (c : Catalog) : Signer :=
  match Signer.signAll c.tree c.shapes {} (c.objects.liveEntries.map Prod.snd) with
  | .ok (_, s) => s
  | .error _ => {}

/-- Grouping signs the objects one after the other. -/
theorem groupObjects_of_signAll {shapes : ShapeRegistry} :
    ∀ {entries : List (Identity × NodeId)} {s s' : Signer} {g : Groups} {σs : List Signature},
      s.signAll tree shapes (entries.map Prod.snd) = .ok (σs, s') →
        groupObjects tree shapes s g entries =
          .ok (g.addAll ((entries.map Prod.fst).zip σs))
  | [], s, s', g, σs, h => by
    simp only [List.map_nil, Signer.signAll, Except.ok.injEq, Prod.mk.injEq] at h
    simp [groupObjects, Groups.addAll]
  | (id, node) :: rest, s, s', g, σs, h => by
    simp only [List.map_cons, Signer.signAll] at h
    cases hs : s.sign tree shapes node with
    | error e => simp [hs] at h
    | ok p =>
      obtain ⟨σ, s₁⟩ := p
      simp only [hs] at h
      cases hr : s₁.signAll tree shapes (rest.map Prod.snd) with
      | error e => simp [hr, Except.map] at h
      | ok q =>
        obtain ⟨τs, s₂⟩ := q
        simp only [hr, Except.map, Except.ok.injEq, Prod.mk.injEq] at h
        obtain ⟨rfl, rfl⟩ := h
        simp only [groupObjects, hs]
        exact groupObjects_of_signAll hr

/-- A live identity with the signature of its node. -/
def LiveSigned (c : Catalog) (x : Identity) (a : NodeId) (σ : Signature) : Prop :=
  c.objects.isLive x = true ∧ c.objects.getValue? x = some a ∧
    c.signing.marks[a]? = some (.signed σ)

/-- **The live objects are signed and sorted into groups.** -/
theorem Lists.groups_spec (h : c.Lists tree) :
    ∃ g signed, groupObjects c.tree c.shapes {} {} c.objects.liveEntries = .ok g ∧
      g.Sorts signed ∧ Signer.AtRest tree c.shapes tree.Reachable c.signing ∧
      (∀ x σ, (x, σ) ∈ signed ↔ ∃ a, c.LiveSigned x a σ) ∧
      (∀ x a, c.objects.isLive x = true → c.objects.getValue? x = some a →
        ∃ σ, c.signing.marks[a]? = some (.signed σ)) := by
  have hreach : ∀ a ∈ c.objects.liveEntries.map Prod.snd, tree.Reachable a := by
    intro a ha
    obtain ⟨⟨x, a'⟩, hx, rfl⟩ := List.mem_map.mp ha
    exact (h.of_getValue? (InternTable.mem_liveEntries.mp hx).2).1
  obtain ⟨σs, s, hs, -, hrest, hall⟩ := Signer.signAll_spec h.signable
    (Signer.atRest_empty tree c.shapes tree.Reachable) hreach
  have hsigning : c.signing = s := by
    unfold signing
    rw [h.tree_eq, hs]
  rw [← hsigning] at hrest hall
  rw [List.forall₂_map_left_iff, List.forall₂_iff_zip] at hall
  obtain ⟨hlen, hzip⟩ := hall
  have hids : ((c.objects.liveEntries.map Prod.fst).zip σs).map Prod.fst = c.objects.live := by
    rw [List.map_fst_zip (by simp [hlen]), InternTable.map_fst_liveEntries]
  have hd : List.Pairwise (fun x y : Identity => x.rank < y.rank)
      (([] ++ (c.objects.liveEntries.map Prod.fst).zip σs).map Prod.fst) := by
    rw [List.nil_append, hids]
    exact c.objects.live_pairwise
  have hsigned (x : Identity) (a : NodeId) (hx : (x, a) ∈ c.objects.liveEntries) :
      ∃ σ, ((x, a), σ) ∈ c.objects.liveEntries.zip σs := by
    obtain ⟨i, hi, he⟩ := List.mem_iff_getElem.mp hx
    have hi' : i < σs.length := hlen ▸ hi
    refine ⟨σs[i], List.mem_iff_getElem.mpr ⟨i, by simp [hi, hi'], ?_⟩⟩
    rw [List.getElem_zip, he]
  refine ⟨_, _, ?_, Groups.sorts_empty.addAll hd, hrest, ?_, ?_⟩
  · rw [h.tree_eq]
    exact groupObjects_of_signAll hs
  · intro x σ
    rw [List.nil_append, List.zip_map_left, List.mem_map]
    constructor
    · rintro ⟨⟨⟨x', a⟩, σ'⟩, hm, he⟩
      obtain ⟨rfl, rfl⟩ := Prod.mk.inj he
      obtain ⟨hx, ha⟩ := InternTable.mem_liveEntries.mp (List.of_mem_zip hm).1
      exact ⟨a, hx, ha, hzip hm⟩
    · rintro ⟨a, hx, ha, hm⟩
      obtain ⟨σ', hσ'⟩ := hsigned x a (InternTable.mem_liveEntries.mpr ⟨hx, ha⟩)
      have hm' := hzip hσ'
      rw [hm, Option.some.injEq, Mark.signed.injEq] at hm'
      subst hm'
      exact ⟨_, hσ', rfl⟩
  · intro x a hx ha
    obtain ⟨σ, hσ⟩ := hsigned x a (InternTable.mem_liveEntries.mpr ⟨hx, ha⟩)
    exact ⟨σ, hzip hσ⟩

theorem LiveSigned.eq {x : Identity} {a b : NodeId} {σ τ : Signature}
    (h : c.LiveSigned x a σ) (h' : c.LiveSigned x b τ) : a = b ∧ σ = τ := by
  obtain ⟨-, ha, hσ⟩ := h
  obtain ⟨-, hb, hτ⟩ := h'
  rw [ha, Option.some.injEq] at hb
  subst hb
  rw [hσ, Option.some.injEq, Mark.signed.injEq] at hτ
  exact ⟨rfl, hτ⟩

/-- The signed identities are live and have one signature each. -/
theorem LiveSigned.apart {signed : List (Identity × Signature)}
    (h : ∀ x σ, (x, σ) ∈ signed ↔ ∃ a, c.LiveSigned x a σ) :
    (∀ x σ τ, (x, σ) ∈ signed → (x, τ) ∈ signed → σ = τ) ∧
      ∀ x σ, (x, σ) ∈ signed → c.objects.isLive x = true := by
  constructor
  · intro x σ τ hσ hτ
    obtain ⟨a, ha⟩ := (h x σ).mp hσ
    obtain ⟨b, hb⟩ := (h x τ).mp hτ
    exact (ha.eq hb).2
  · intro x σ hσ
    obtain ⟨a, ha⟩ := (h x σ).mp hσ
    exact ha.1

/-! ## 4. A merge -/

/-- What a merge gives: the number of its pairs and the catalog with the redirected objects. -/
def mergedObjects (c : Catalog) : Except EncodeError (Nat × Catalog) := do
  let pairs ← c.merges
  let table ← mergeAll c.objects pairs
  return (pairs.length, { c with objects := table })

theorem gives_mergedObjects (c : Catalog) : c.mergeObjects.Gives c.mergedObjects := by
  refine (Pass.gives_ofExcept rfl).bind fun pairs => ?_
  refine (Pass.gives_ofExcept rfl).bind fun table => ?_
  refine (Pass.gives_count _).then ?_
  exact (Pass.gives_report _).then (Pass.gives_pure _)

theorem gives_mergeObjects {pairs : List (Identity × Identity)} {table : InternTable NodeId}
    (hp : c.merges = .ok pairs) (ht : mergeAll c.objects pairs = .ok table) :
    c.mergeObjects.Gives (.ok (pairs.length, { c with objects := table })) := by
  have he : c.mergedObjects = .ok (pairs.length, { c with objects := table }) := by
    simp only [mergedObjects, hp, ht, bind, Except.bind, pure, Except.pure]
  exact he ▸ c.gives_mergedObjects

/-- A merge counts and reports what it gives, and leaves nothing if it fails. -/
theorem mergeObjects_apply (c : Catalog) (progress : Progress) :
    c.mergeObjects progress =
      match c.mergedObjects with
      | .error e => .error e progress
      | .ok (count, merged) =>
        .ok (count, merged)
          { stats := { progress.stats with objectsMerged := count }
            log := progress.log.push (.merged count c.objects.count) } := by
  unfold mergeObjects mergedObjects
  cases c.merges with
  | error e => rfl
  | ok pairs =>
    show (Pass.ofExcept (mergeAll c.objects pairs) >>= _) progress = _
    simp only [bind, Except.bind]
    cases mergeAll c.objects pairs with
    | error e => rfl
    | ok table => rfl

/-- **What a merge counts**: the objects it redirects. -/
theorem counts_mergeObjects {count : Nat} {merged : Catalog}
    (h : c.mergedObjects = .ok (count, merged)) :
    c.mergeObjects.Counts (count, merged) fun stats => { stats with objectsMerged := count } := by
  intro progress
  rw [mergeObjects_apply, h]
  exact ⟨_, rfl, rfl⟩

/-- **What a merge leaves**: nodes keep their identities, an identity stands for one that is not
later, and two identities stand for the same exactly if their nodes have the same signature. -/
structure MergedAs (c merged : Catalog) : Prop where
  objects_only : merged = { c with objects := merged.objects }
  flat : merged.objects.Flat
  size_eq : merged.objects.size = c.objects.size
  getValue?_eq : ∀ x, merged.objects.getValue? x = c.objects.getValue? x
  isLive_resolve : ∀ x a, c.objects.getValue? x = some a →
    merged.objects.isLive (merged.objects.resolve x) = true
  resolve_le : ∀ x a, c.objects.getValue? x = some a → (merged.objects.resolve x).rank ≤ x.rank
  resolve_eq_iff : ∀ {x y : Identity} {a b : NodeId}, c.objects.getValue? x = some a →
    c.objects.getValue? y = some b →
      (merged.objects.resolve x = merged.objects.resolve y ↔ c.signing.SameSignature a b)

/-- **A merge of a discovered catalog succeeds.** -/
theorem Lists.merge_spec (h : c.Lists tree) (hfresh : c.objects.Fresh) :
    Signer.AtRest tree c.shapes tree.Reachable c.signing ∧
      ∃ count merged, c.mergeObjects.Gives (.ok (count, merged)) ∧ MergedAs c merged := by
  obtain ⟨g, signed, hg, hsorts, hrest, hsigned, hall⟩ := h.groups_spec
  obtain ⟨hone, hlive⟩ := LiveSigned.apart hsigned
  obtain ⟨table, htable, hsize, hvalue, hflat, hresolve⟩ :=
    hsorts.redirect_spec hone hfresh hlive
  have hknown {x : Identity} {a : NodeId} (hx : c.objects.getValue? x = some a) :
      x.rank < c.objects.size :=
    InternTable.getValue?_isSome_iff.mp (Option.isSome_of_eq_some hx)
  have hsign {x : Identity} {a : NodeId} (hx : c.objects.getValue? x = some a) :
      ∃ σ, c.signing.marks[a]? = some (.signed σ) ∧ (x, σ) ∈ signed := by
    have hxl := hfresh.isLive_iff.mpr (hknown hx)
    obtain ⟨σ, hσ⟩ := hall x a hxl hx
    exact ⟨σ, hσ, (hsigned x σ).mpr ⟨a, hxl, hx, hσ⟩⟩
  have hmerges : c.merges = .ok g.merges.toList := by
    unfold merges
    rw [hg]
    rfl
  refine ⟨hrest, g.merges.toList.length, _, gives_mergeObjects hmerges htable, ?_⟩
  refine ⟨rfl, hflat, hsize, hvalue, ?_, ?_, fun {x y a b} hx hy => ?_⟩
  · intro x a hx
    exact hflat.grounded.isLive_resolve (hsize ▸ hknown hx)
  · intro x a hx
    obtain ⟨σ, -, hxσ⟩ := hsign hx
    exact hsorts.first_le hxσ (hresolve x σ hxσ)
  · obtain ⟨σ, hσ, hxσ⟩ := hsign hx
    obtain ⟨τ, hτ, hyτ⟩ := hsign hy
    have hrx := hresolve x σ hxσ
    have hry := hresolve y τ hyτ
    constructor
    · intro he
      -- one identity is the first of one group only
      simp only at he
      rw [← he] at hry
      obtain rfl := hone _ σ τ (hsorts.mem_of_first hrx) (hsorts.mem_of_first hry)
      exact ⟨σ, hσ, hτ⟩
    · rintro ⟨ρ, hρ, hρ'⟩
      rw [hσ, Option.some.injEq, Mark.signed.injEq] at hρ
      rw [hτ, Option.some.injEq, Mark.signed.injEq] at hρ'
      subst hρ hρ'
      rw [hrx, Option.some.injEq] at hry
      exact hry

/-- A merge finds nothing where live objects with the same signature are the same. -/
theorem Lists.merge_nothing (h : c.Lists tree)
    (hdistinct : ∀ x y a b, c.objects.isLive x = true → c.objects.isLive y = true →
      c.objects.getValue? x = some a → c.objects.getValue? y = some b →
        c.signing.SameSignature a b → x = y) :
    c.mergeObjects.Gives (.ok (0, c)) := by
  obtain ⟨g, signed, hg, hsorts, -, hsigned, -⟩ := h.groups_spec
  have hnil : g.merges.toList = [] := by
    refine List.eq_nil_iff_forall_not_mem.mpr ?_
    rintro ⟨x, y⟩ hxy
    obtain ⟨σ, hx, hy, hne⟩ := hsorts.mem_merges.mp hxy
    obtain ⟨a, ha⟩ := (hsigned x σ).mp hx
    obtain ⟨b, hb⟩ := (hsigned y σ).mp (hsorts.mem_of_first hy)
    exact hne (hdistinct x y a b ha.1 hb.1 ha.2.1 hb.2.1 ⟨σ, ha.2.2, hb.2.2⟩)
  have hmerges : c.merges = .ok [] := by
    unfold merges
    rw [hg, ← hnil]
    rfl
  exact gives_mergeObjects hmerges rfl

/-! ## 5. The merged catalog -/

/-- A catalog lists the same tree with any table that gives its objects their identities. -/
theorem Lists.with_objects (h : c.Lists tree) {table : InternTable NodeId}
    (hvalue : ∀ x, table.getValue? x = c.objects.getValue? x) (hgrounded : table.Grounded) :
    { c with objects := table }.Lists tree := by
  have hget (a : NodeId) : table.getId? a = c.objects.getId? a := by
    apply Option.ext
    intro x
    rw [InternTable.getId?_eq_some_iff, InternTable.getId?_eq_some_iff, hvalue]
  have hcontains (a : NodeId) : table.contains a = c.objects.contains a := by
    simp only [InternTable.contains, hget]
  exact
    { h with
      objects := fun a => by
        rw [hcontains]
        exact h.objects a
      objects_grounded := hgrounded
      root := by
        obtain ⟨root, hr, hobj, he⟩ := h.root
        refine ⟨root, hr, hobj, ?_⟩
        rw [hget]
        exact he }

/-- The merged catalog lists the same tree. -/
theorem MergedAs.lists {merged : Catalog} (h : MergedAs c merged) (hc : c.Lists tree) :
    merged.Lists tree := by
  rw [h.objects_only]
  exact hc.with_objects h.getValue?_eq h.flat.grounded

/-! ## 6. Merging again -/

/-- Redirecting pairs keeps chains grounded. -/
theorem mergeAll_grounded {pairs : List (Identity × Identity)} {table table' : InternTable NodeId}
    (h : table.Grounded) (hm : mergeAll table pairs = .ok table') : table'.Grounded := by
  induction pairs generalizing table with
  | nil =>
    rw [← Except.ok.inj hm]
    exact h
  | cons pair pairs ih =>
    unfold mergeAll at hm
    cases hr : table.redirect pair.1 pair.2 with
    | error e => simp [hr] at hm
    | ok t =>
      simp only [hr] at hm
      exact ih (h.redirect hr) hm

/-- **A merge of any catalog that lists a tree succeeds**, also if objects were merged before, and
the merged catalog lists the tree. -/
theorem Lists.merge_again (h : c.Lists tree) :
    ∃ count merged, c.mergeObjects.Gives (.ok (count, merged)) ∧ merged.Lists tree := by
  obtain ⟨g, signed, hg, hsorts, -, hsigned, -⟩ := h.groups_spec
  obtain ⟨hone, hlive⟩ := LiveSigned.apart hsigned
  obtain ⟨table, htable, -, hvalue, -⟩ := hsorts.mergeAll_spec hone hlive
  have hmerges : c.merges = .ok g.merges.toList := by
    unfold merges
    rw [hg]
    rfl
  exact ⟨_, _, gives_mergeObjects hmerges htable,
    h.with_objects hvalue (mergeAll_grounded h.objects_grounded htable)⟩

/-- What a merge gives lists the tree. -/
theorem Lists.of_mergeObjects (h : c.Lists tree) {progress : Progress} {count : Nat}
    {merged : Catalog} (hm : (c.mergeObjects.outcome progress).1 = .ok (count, merged)) :
    merged.Lists tree := by
  obtain ⟨count', merged', hgives, hlists⟩ := h.merge_again
  have he := hgives.eq hm
  simp only [Except.ok.injEq, Prod.mk.injEq] at he
  rw [he.2]
  exact hlists

/-- A numbered catalog lists the same tree. -/
theorem Lists.finalize (h : c.Lists tree) (enumeration : Order) :
    (c.finalize enumeration).2.Lists tree where
  tree_eq := h.tree_eq
  strings := h.strings
  objects := h.objects
  arrays := h.arrays
  shapes := h.shapes
  distinct := h.distinct
  encodable := h.encodable
  strings_fresh := h.strings_fresh
  arrays_fresh := h.arrays_fresh
  objects_grounded := h.objects_grounded.finalize enumeration.objects
  root := h.root

end Catalog

end PackedTree
