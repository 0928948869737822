/-
# Counters that are used again

The counters belong to the caller, who may hand them to one encoding after the other.  Every pass
overwrites the counters it fills, so an encoding that succeeds leaves what it counted and nothing
else, with one exception: where objects are not merged, no pass touches the counter of merges, and
what an earlier encoding left there stays.

* `Tree.exists_counts_encodePass`: what an encoding leaves, as a function of the counters before it.
* `Stats.Balanced.mergeRatio_le`: where merges and objects add up, the part that was merged is at
  most all.
* `Tree.reused_of_encodePass`: two encodings of a tree from different counters leave the same ones
  exactly if objects are merged or the counters of merges were the same before.
-/
import PackedTree.Proofs.Binary64.Rounding
import PackedTree.Proofs.Encode.Accounting

namespace PackedTree

namespace Stats

/-! ## 1. Counters put onto others -/

/-- What an encoding leaves that counts these and starts from those `before`: a merge that does not
run leaves its counter. -/
def onto (counted : Stats) (config : Config) (before : Stats) : Stats :=
  if config.dedup then counted else { counted with objectsMerged := before.objectsMerged }

variable {config : Config} {counted before before' : Stats}

/-- All other counters are those of the encoding. -/
theorem onto_eq : counted.onto config before' =
    { counted.onto config before with
      objectsMerged := (counted.onto config before').objectsMerged } := by
  unfold onto
  split <;> rfl

theorem objectsMerged_onto (h : config.dedup = false) :
    (counted.onto config before).objectsMerged = before.objectsMerged := by
  simp [onto, h]

theorem onto_eq_onto_iff : counted.onto config before' = counted.onto config before ↔
    config.dedup = true ∨ before'.objectsMerged = before.objectsMerged := by
  by_cases h : config.dedup = true
  · simp [onto, h]
  · simp [onto, h]

/-- **The objects that are left and those that were merged are all that were discovered.** -/
def Balanced (stats : Stats) : Prop :=
  stats.objects + stats.objectsMerged = stats.objectsDiscovered

/-- Counters that add up still do, unless a counter of merges was left over. -/
theorem balanced_onto_iff (h : counted.Balanced)
    (hnone : config.dedup = false → counted.objectsMerged = 0) :
    (counted.onto config before).Balanced ↔ config.dedup = true ∨ before.objectsMerged = 0 := by
  unfold Balanced at *
  cases hdedup : config.dedup with
  | true => simpa [onto, hdedup] using h
  | false =>
    have hzero := hnone hdedup
    simp only [onto, hdedup, Bool.false_eq_true, if_false, false_or]
    omega

/-- Where merges and objects add up, the merged part is at most 100 percent. -/
theorem Balanced.mergeRatio_le {stats : Stats} (h : stats.Balanced) :
    stats.mergeRatio.isFinite = true ∧ 0 ≤ stats.mergeRatio.value ∧
      stats.mergeRatio.value ≤ 100 :=
  Binary64.percent_le (h ▸ Nat.le_add_left _ _)

end Stats

namespace Tree

variable {tree : Tree} {config : Config} {progress after : Progress} {bytes : ByteArray}

/-! ## 2. What an encoding leaves -/

/-- A pass that leaves what it counts from none, put onto the counters before. -/
theorem counts_onto {α : Type} {pass : Pass α} {a : α} {f : Stats → Stats} (h : pass.Counts a f)
    (hf : ∀ before, f before = (f {}).onto config before) :
    pass.Counts a ((f {}).onto config) := by
  rw [← funext hf]
  exact h

/-- What is counted before the writing, and then by it. -/
theorem counts_encodePass {b : Catalog} {a : Artifact} {w : Writer} {f : Stats → Stats}
    (hbuild : (Catalog.build tree config).Counts b f) (ha : b.tables config.ordered = .ok a)
    (hw : a.write config = .ok w) :
    (tree.encodePass config).Counts w.bytes fun stats => (f stats).written a w :=
  show (Catalog.build tree config >>= fun c => (c.serialize config).1).Counts w.bytes
      ((fun stats => stats.written a w) ∘ f) from
    hbuild.bind (Catalog.counts_serialize ha hw)

/-- **What an encoding leaves**: its own counters, which add up, put onto those before. -/
theorem exists_counts_encodePass (h : tree.encodePass config progress = .ok bytes after) :
    ∃ counted : Stats, (tree.encodePass config).Counts bytes (counted.onto config) ∧
      counted.Balanced ∧ (config.dedup = false → counted.objectsMerged = 0) := by
  obtain ⟨b, a, w, hb, ha, hw, rfl⟩ := exists_write_of_encodePass h
  obtain ⟨c, hd, hmerged⟩ := Catalog.exists_discovered_of_built hb
  obtain ⟨root, walk, hroot, hrun, hc⟩ := Catalog.exists_walk_of_discovered hd
  have hdiscover := Catalog.counts_discover config hroot hrun hc
  have hobjects : a.objects.length = b.objects.count :=
    (Catalog.lengths_of_tablesIn (b.enumerates_order config.ordered) ha).2.1
  rcases hmerged with ⟨hdedup, count, hm⟩ | ⟨hdedup, rfl⟩
  · have hcounts := counts_encodePass (Catalog.counts_build_merged hdiscover hdedup hm) ha hw
    have hcount := ((Catalog.lists_of_discovered hd).1.count_of_merged hm).1
    refine ⟨_, counts_onto hcounts fun before => (if_pos hdedup).symm, ?_, fun hplain => ?_⟩
    · show a.objects.length + count = c.objects.count
      rw [hobjects, Nat.add_comm]
      exact hcount
    · exact absurd (hdedup.symm.trans hplain) (by decide)
  · have hcounts := counts_encodePass (Catalog.counts_build_plain hdiscover hdedup) ha hw
    refine ⟨_, counts_onto hcounts fun before => (if_neg hdedup).symm, ?_, fun _ => rfl⟩
    show a.objects.length + 0 = b.objects.count
    rw [hobjects, Nat.add_zero]

/-! ## 3. Two encodings of a tree -/

/-- **What an encoding tells from counters that were used before.**

Its bytes do not depend on them, and of what it leaves only the counter of merges may.  Two
encodings of a tree leave the same counters exactly if objects are merged or the counters of merges
were the same before, and the counters of one add up exactly if objects are merged or no merge was
counted before; where they add up, the merged part is at most 100 percent. -/
theorem reused_of_encodePass (h : tree.encodePass config progress = .ok bytes after)
    (progress' : Progress) :
    ∃ after', tree.encodePass config progress' = .ok bytes after' ∧
      after'.stats = { after.stats with objectsMerged := after'.stats.objectsMerged } ∧
      (config.dedup = false → after'.stats.objectsMerged = progress'.stats.objectsMerged) ∧
      (after'.stats = after.stats ↔ config.dedup = true ∨
        progress'.stats.objectsMerged = progress.stats.objectsMerged) ∧
      (after'.stats.Balanced ↔ config.dedup = true ∨ progress'.stats.objectsMerged = 0) ∧
      (after'.stats.Balanced → after'.stats.mergeRatio.isFinite = true ∧
        0 ≤ after'.stats.mergeRatio.value ∧ after'.stats.mergeRatio.value ≤ 100) := by
  obtain ⟨counted, hcounts, hbalanced, hnone⟩ := exists_counts_encodePass h
  obtain ⟨-, hstats⟩ := hcounts.stats_eq h
  obtain ⟨after', h', hstats'⟩ := hcounts progress'
  refine ⟨after', h', ?_, ?_, ?_, ?_, fun hbalanced' => hbalanced'.mergeRatio_le⟩
  · rw [hstats, hstats']
    exact Stats.onto_eq
  · intro hdedup
    rw [hstats', Stats.objectsMerged_onto hdedup]
  · rw [hstats, hstats']
    exact Stats.onto_eq_onto_iff
  · rw [hstats']
    exact Stats.balanced_onto_iff hbalanced hnone

/-- An object that refers to itself, encoded without merging from no counters and from those of an
encoding with two merges: the second time two merges are told of, and more objects than were
discovered. -/
theorem reused_of_encodePass_loop : ∃ bytes after after',
    loop.encodePass { dedup := false } {} = .ok bytes after ∧
      loop.encodePass { dedup := false } { stats := { objectsMerged := 2 } } = .ok bytes after' ∧
      after'.stats.objectsMerged = 2 ∧ after'.stats ≠ after.stats ∧ ¬after'.stats.Balanced := by
  obtain ⟨bytes, hencode⟩ := exists_encode_loop
  obtain ⟨after, h⟩ := Pass.exists_of_outcome hencode
  obtain ⟨after', h', -, hleft, hsame, hbalanced, -⟩ :=
    reused_of_encodePass h { stats := { objectsMerged := 2 } }
  refine ⟨bytes, after, after', h, h', hleft rfl, fun heq => ?_, fun hbal => ?_⟩
  · exact absurd (hsame.mp heq) (by decide)
  · exact absurd (hbalanced.mp hbal) (by decide)

end Tree

end PackedTree
