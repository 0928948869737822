/-
# What a pass gives

The result of a pass apart from the progress it leaves.  The counters and events of a stage never
decide its result, so a stage **gives** what its pure part gives, from any progress on.

What a stage that succeeds does to the counters is one function of them, whatever it reports
(`Pass.Counts`).
-/
import PackedTree.Pass

namespace PackedTree.Pass

variable {α β : Type}

/-- A pass gives a result, whatever was counted and reported before. -/
def Gives (pass : Pass α) (r : Except EncodeError α) : Prop :=
  ∀ progress, (pass.outcome progress).1 = r

/-- A pass gives one result. -/
theorem Gives.eq {pass : Pass α} {r : Except EncodeError α} (h : pass.Gives r)
    {progress : Progress} {q : Except EncodeError α} (hq : (pass.outcome progress).1 = q) :
    q = r := by
  rw [← hq]
  exact h progress

theorem outcome_of_ok {pass : Pass α} {progress after : Progress} {a : α}
    (h : pass progress = .ok a after) : pass.outcome progress = (.ok a, after) := by
  rw [outcome, h]

/-- What succeeds is the result of the outcome. -/
theorem exists_of_outcome {pass : Pass α} {progress : Progress} {a : α}
    (h : (pass.outcome progress).1 = .ok a) : ∃ after, pass progress = .ok a after := by
  unfold outcome at h
  cases hpass : pass progress with
  | ok a' after =>
    simp only [hpass, Except.ok.injEq] at h
    exact ⟨after, by rw [h]⟩
  | error e after => simp [hpass] at h

/-- A pass that gives a result succeeds with it. -/
theorem Gives.exists_ok {pass : Pass α} {a : α} (h : pass.Gives (.ok a)) (progress : Progress) :
    ∃ after, pass progress = .ok a after := exists_of_outcome (h progress)

theorem gives_pure (a : α) : Gives (pure a) (.ok a) := fun _ => rfl

theorem gives_throw (e : EncodeError) : Gives (throw e : Pass α) (.error e) := fun _ => rfl

theorem gives_report (e : Event) : Gives (report e) (.ok ()) := fun _ => rfl

theorem gives_count (f : Stats → Stats) : Gives (count f) (.ok ()) := fun _ => rfl

theorem gives_ofExcept {r q : Except EncodeError α} (h : r = q) : Gives (ofExcept r) q := by
  subst h
  cases r with
  | ok a => exact gives_pure a
  | error e => exact gives_throw e

/-- A stage after a stage that gives a result. -/
theorem Gives.bind_ok {pass : Pass α} {a : α} (h : pass.Gives (.ok a)) {next : α → Pass β}
    {q : Except EncodeError β} (hq : (next a).Gives q) : Gives (pass >>= next) q := by
  intro progress
  have hp := h progress
  unfold outcome at hp ⊢
  simp only [Bind.bind, EStateM.bind]
  cases hpass : pass progress with
  | ok a' progress' =>
    simp only [hpass, Except.ok.injEq] at hp ⊢
    subst hp
    exact hq progress'
  | error e progress' => simp [hpass] at hp

/-- A failure ends the pass. -/
theorem Gives.bind_error {pass : Pass α} {e : EncodeError} (h : pass.Gives (.error e))
    (next : α → Pass β) : Gives (pass >>= next) (.error e) := by
  intro progress
  have hp := h progress
  unfold outcome at hp ⊢
  simp only [Bind.bind, EStateM.bind]
  cases hpass : pass progress with
  | ok a' progress' => simp [hpass] at hp
  | error e' progress' =>
    simp only [hpass, Except.error.injEq] at hp ⊢
    exact hp

/-- A stage after a stage. -/
theorem Gives.bind {pass : Pass α} {r : Except EncodeError α} (h : pass.Gives r)
    {next : α → Pass β} {q : α → Except EncodeError β} (hq : ∀ a, (next a).Gives (q a)) :
    Gives (pass >>= next) (r >>= q) := by
  cases r with
  | ok a => exact h.bind_ok (hq a)
  | error e => exact h.bind_error next

/-- A stage that gives nothing of its own leaves the result to what follows. -/
theorem Gives.then {pass : Pass Unit} (h : pass.Gives (.ok ())) {next : Unit → Pass α}
    {q : Except EncodeError α} (hq : (next ()).Gives q) : Gives (pass >>= next) q :=
  h.bind_ok hq

theorem gives_forM {l : List β} {f : β → Pass Unit} (h : ∀ b, (f b).Gives (.ok ())) :
    Gives (l.forM f) (.ok ()) := by
  induction l with
  | nil => exact gives_pure ()
  | cons b l ih =>
    exact (h b).then ih

/-! ## What a pass counts -/

/-- A pass succeeds with a result, and changes the counters in one way. -/
def Counts (pass : Pass α) (a : α) (f : Stats → Stats) : Prop :=
  ∀ progress, ∃ after, pass progress = .ok a after ∧ after.stats = f progress.stats

theorem Counts.gives {pass : Pass α} {a : α} {f : Stats → Stats} (h : pass.Counts a f) :
    pass.Gives (.ok a) := by
  intro progress
  obtain ⟨after, hpass, -⟩ := h progress
  rw [outcome_of_ok hpass]

/-- What a run that succeeded left. -/
theorem Counts.stats_eq {pass : Pass α} {a b : α} {f : Stats → Stats} (h : pass.Counts a f)
    {progress after : Progress} (hpass : pass progress = .ok b after) :
    b = a ∧ after.stats = f progress.stats := by
  obtain ⟨after', hpass', hstats⟩ := h progress
  rw [hpass, EStateM.Result.ok.injEq] at hpass'
  exact ⟨hpass'.1, hpass'.2 ▸ hstats⟩

theorem counts_pure (a : α) : Counts (pure a) a id := fun progress => ⟨progress, rfl, rfl⟩

theorem counts_report (e : Event) : Counts (report e) () id := fun _ => ⟨_, rfl, rfl⟩

theorem counts_count (f : Stats → Stats) : Counts (count f) () f := fun _ => ⟨_, rfl, rfl⟩

theorem counts_ofExcept {r : Except EncodeError α} {a : α} (h : r = .ok a) :
    Counts (ofExcept r) a id := by
  subst h
  exact counts_pure a

/-- A stage after a stage changes what the first one left. -/
theorem Counts.bind {pass : Pass α} {a : α} {f g : Stats → Stats} (h : pass.Counts a f)
    {next : α → Pass β} {b : β} (hnext : (next a).Counts b g) :
    Counts (pass >>= next) b (g ∘ f) := by
  intro progress
  obtain ⟨between, hpass, hf⟩ := h progress
  obtain ⟨after, hafter, hg⟩ := hnext between
  refine ⟨after, ?_, ?_⟩
  · simp only [Bind.bind, EStateM.bind, hpass]
    exact hafter
  · rw [hg, hf, Function.comp_apply]

/-- A stage after one that counts nothing. -/
theorem Counts.after {pass : Pass α} {a : α} {f : Stats → Stats} (h : pass.Counts a id)
    {next : α → Pass β} {b : β} (hnext : (next a).Counts b f) : Counts (pass >>= next) b f :=
  h.bind hnext

/-- A stage that counts nothing, after a stage. -/
theorem Counts.before {pass : Pass α} {a : α} {f : Stats → Stats} (h : pass.Counts a f)
    {next : α → Pass β} {b : β} (hnext : (next a).Counts b id) : Counts (pass >>= next) b f :=
  h.bind hnext

theorem counts_forM {l : List β} {f : β → Pass Unit} (h : ∀ b, (f b).Counts () id) :
    Counts (l.forM f) () id := by
  induction l with
  | nil => exact counts_pure ()
  | cons b l ih =>
    show Counts (f b >>= fun _ => l.forM f) () (id ∘ id)
    exact (h b).bind ih

end PackedTree.Pass
