/-
# What arguments ask for

A verb accepts some of the parameters only.  This module shows that a request carries what was given
to its verb, and nothing that the verb does not accept.

* `Settings.Within`: the settings hold accepted parameters alone.
* `Scan.Within`: the same of a reading, and of the parameter that it began last.  Every form of an
  argument keeps it (`Scan.Within.argument`), and so do all arguments of a verb
  (`Scan.Within.arguments`).
* `Request.AskedBy`, `askedBy_of_readProgram`: what the arguments are read as is what they ask for.
* `Request.Carries.dump`: a listing is asked for without a width, a limit or a file to write to.
-/
import PackedTree.Command.Arguments
import PackedTree.Proofs.Traversal

namespace PackedTree.Command

/-! ## 1. Settings -/

/-- **The settings hold nothing but accepted parameters.** -/
structure Settings.Within (accepted : List Parameter) (s : Settings) : Prop where
  output : s.output.isSome → .output ∈ accepted
  maxSize : s.maxSize.isSome → .maxSize ∈ accepted
  flags : ∀ p ∈ s.flags, p ∈ accepted

namespace Settings

variable {accepted : List Parameter} {s s' : Settings} {p : Parameter}

theorem within_empty (accepted : List Parameter) : Within accepted {} where
  output := fun h => (nomatch h)
  maxSize := fun h => (nomatch h)
  flags := fun _ h => absurd h List.not_mem_nil

/-- The value of an accepted parameter. -/
theorem Within.put (h : s.Within accepted) (hp : p ∈ accepted) {value : String}
    (hput : s.put p value = .ok s') : s'.Within accepted := by
  cases p with
  | input =>
    obtain ⟨v, -, rfl⟩ := map_eq_ok_iff.mp hput
    exact ⟨h.output, h.maxSize, h.flags⟩
  | output =>
    obtain ⟨v, -, rfl⟩ := map_eq_ok_iff.mp hput
    exact ⟨fun _ => hp, h.maxSize, h.flags⟩
  | config =>
    obtain ⟨v, -, rfl⟩ := map_eq_ok_iff.mp hput
    exact ⟨h.output, h.maxSize, h.flags⟩
  | maxSize =>
    unfold Settings.put at hput
    simp only [] at hput
    split at hput
    · cases hput
    · split at hput
      · obtain rfl := Except.ok.inj hput
        exact ⟨h.output, fun _ => hp, h.flags⟩
      · cases hput
  | _ => cases hput

/-- An accepted flag. -/
theorem Within.set (h : s.Within accepted) {scope : Scope} (hp : p ∈ accepted)
    (hset : s.set scope p = .ok s') : s'.Within accepted := by
  unfold Settings.set at hset
  split at hset
  · cases hset
  · cases hset
  · obtain rfl := Except.ok.inj hset
    exact ⟨h.output, h.maxSize, h.flags⟩
  · split at hset
    · cases hset
    · obtain rfl := Except.ok.inj hset
      exact ⟨h.output, h.maxSize, List.forall_mem_cons.mpr ⟨hp, h.flags⟩⟩

end Settings

/-! ## 2. Readings -/

namespace Scan

/-- **A reading holds nothing but what its scope accepts.** -/
structure Within (s : Scan) : Prop where
  settings : s.settings.Within s.scope.parameters
  pending : ∀ p value, s.pending = some (p, value) → p ∈ s.scope.parameters

variable {s s' : Scan} {p : Parameter} {verb : Verb}

/-- A step of a reading keeps to its scope. -/
def Keeps (s s' : Scan) : Prop := s'.scope = s.scope ∧ s'.Within

theorem Keeps.trans {s'' : Scan} (h : s.Keeps s') (h' : s'.Keeps s'') : s.Keeps s'' :=
  ⟨h'.1.trans h.1, h'.2⟩

theorem Within.settle (h : s.Within) (hs : s.settle = .ok s') : s.Keeps s' := by
  unfold Scan.settle at hs
  split at hs
  · obtain rfl := Except.ok.inj hs
    exact ⟨rfl, h⟩
  · cases hs
  · rename_i p value hpending
    obtain ⟨settings, hput, rfl⟩ := map_eq_ok_iff.mp hs
    exact ⟨rfl, h.settings.put (h.pending p _ hpending) hput, fun _ _ hnone => nomatch hnone⟩

theorem Within.await (h : s.Within) (hp : p ∈ s.scope.parameters) (hs : s.await p = .ok s') :
    s.Keeps s' := by
  obtain ⟨settled, hsettle, rfl⟩ := map_eq_ok_iff.mp hs
  obtain ⟨hscope, hwithin⟩ := h.settle hsettle
  refine ⟨hscope, hwithin.settings, fun q value hq => ?_⟩
  obtain ⟨rfl, -⟩ := Prod.mk.inj (Option.some.inj hq)
  rw [hscope]
  exact hp

theorem Within.attach (h : s.Within) (hp : p ∈ s.scope.parameters) {value : String}
    (hs : s.attach p value = .ok s') : s.Keeps s' := by
  obtain ⟨settled, hsettle, hs⟩ := bind_eq_ok_iff.mp hs
  obtain ⟨settings, hput, hs⟩ := bind_eq_ok_iff.mp hs
  obtain rfl := Except.ok.inj hs
  obtain ⟨hscope, hwithin⟩ := h.settle hsettle
  exact ⟨hscope, hwithin.settings.put (hscope ▸ hp) hput, hwithin.pending⟩

theorem Within.flag (h : s.Within) (hp : p ∈ s.scope.parameters) (hs : s.flag p = .ok s') :
    s.Keeps s' := by
  obtain ⟨settled, hsettle, hs⟩ := bind_eq_ok_iff.mp hs
  obtain ⟨settings, hset, hs⟩ := bind_eq_ok_iff.mp hs
  obtain rfl := Except.ok.inj hs
  obtain ⟨hscope, hwithin⟩ := h.settle hsettle
  exact ⟨hscope, hwithin.settings.set (hscope ▸ hp) hset, hwithin.pending⟩

theorem Within.long (h : s.Within) {name : String} {value : Option String}
    (hs : s.long name value = .ok s') : s.Keeps s' := by
  unfold Scan.long at hs
  split at hs
  · cases hs
  · rename_i p hp
    have hp := List.mem_of_find?_eq_some hp
    split at hs
    · exact h.await hp hs
    · exact h.flag hp hs
  · rename_i p value hp
    have hp := List.mem_of_find?_eq_some hp
    split at hs
    · exact h.attach hp hs
    · cases hs

theorem Within.letters (h : s.Within) {cs : List Char} (hs : s.letters cs = .ok s') :
    s.Keeps s' := by
  induction cs generalizing s with
  | nil =>
    obtain rfl := Except.ok.inj hs
    exact ⟨rfl, h⟩
  | cons c cs ih =>
    unfold Scan.letters at hs
    split at hs
    · cases hs
    · rename_i p hp
      have hp := List.mem_of_find?_eq_some hp
      split at hs
      · split at hs
        · exact h.await hp hs
        · exact h.attach hp hs
        · exact h.attach hp hs
      · split at hs
        · cases hs
        · rename_i flagged hflag
          have hkeeps := h.flag hp hflag
          exact hkeeps.trans (ih hkeeps.2 hs)

theorem Within.plain (h : s.Within) (hscope : s.scope = .verb verb) {text : String}
    (hs : s.plain text = .ok s') : s.Keeps s' := by
  unfold Scan.plain at hs
  split at hs
  · cases hs
  · obtain ⟨settled, hsettle, rfl⟩ := map_eq_ok_iff.mp hs
    obtain ⟨hsame, hwithin⟩ := h.settle hsettle
    refine ⟨hsame, hwithin.settings, fun q value hq => ?_⟩
    obtain ⟨rfl, -⟩ := Prod.mk.inj (Option.some.inj hq)
    rw [hsame, hscope]
    cases verb <;> decide

/-- **One argument of a verb** keeps the reading within what the verb accepts. -/
theorem Within.argument (h : s.Within) (hscope : s.scope = .verb verb) {text : String}
    (hs : s.argument text = .ok s') : s.Keeps s' := by
  unfold Scan.argument at hs
  split at hs
  · exact h.long hs
  · exact h.letters hs
  · split at hs
    · rename_i p hpending
      obtain rfl := Except.ok.inj hs
      refine ⟨rfl, h.settings, fun q value hq => ?_⟩
      obtain ⟨rfl, -⟩ := Prod.mk.inj (Option.some.inj hq)
      exact h.pending _ _ hpending
    · exact h.plain hscope hs

theorem Within.foldlM_plain (h : s.Within) (hscope : s.scope = .verb verb) {texts : List String}
    (hs : texts.foldlM Scan.plain s = .ok s') : s.Keeps s' := by
  induction texts generalizing s with
  | nil =>
    obtain rfl := Except.ok.inj hs
    exact ⟨rfl, h⟩
  | cons text rest ih =>
    rw [List.foldlM_cons] at hs
    obtain ⟨next, hnext, hs⟩ := bind_eq_ok_iff.mp hs
    have hkeeps := h.plain hscope hnext
    exact hkeeps.trans (ih hkeeps.2 (hkeeps.1.trans hscope) hs)

/-- **All arguments of a verb** keep the reading within what the verb accepts. -/
theorem Within.arguments (h : s.Within) (hscope : s.scope = .verb verb) {texts : List String}
    (hs : s.arguments texts = .ok s') : s.Keeps s' := by
  induction texts generalizing s with
  | nil => exact h.settle hs
  | cons text rest ih =>
    unfold Scan.arguments at hs
    split at hs
    · obtain ⟨next, hnext, hs⟩ := bind_eq_ok_iff.mp hs
      have hkeeps := h.foldlM_plain hscope hnext
      exact hkeeps.trans (hkeeps.2.settle hs)
    · obtain ⟨next, hnext, hs⟩ := bind_eq_ok_iff.mp hs
      have hkeeps := h.argument hscope hnext
      exact hkeeps.trans (ih hkeeps.2 (hkeeps.1.trans hscope) hs)

end Scan

/-! ## 3. Requests -/

/-- **A request carries what was given to its verb**, and nothing was given that the verb does not
accept. -/
structure Request.Carries (request : Request) (given : Settings) : Prop where
  input : given.input = some request.input
  config : request.config = given.config
  output : request.output = given.output
  fixedWidth : request.overrides.fixedWidth = true ↔ .fixedWidth ∈ given.flags
  noDedup : request.overrides.noDedup = true ↔ .noDedup ∈ given.flags
  unordered : request.overrides.unordered = true ↔ .unordered ∈ given.flags
  maxSize : request.overrides.maxSize = given.maxSize
  stats : request.stats = true ↔ .stats ∈ given.flags
  accepted : given.Within (Scope.verb request.verb).parameters

/-- **Arguments ask for a request**: they name its verb, and it carries what is read after the
name. -/
def Request.AskedBy (request : Request) (arguments : List String) : Prop :=
  ∃ before name rest scan, arguments = before ++ name :: rest ∧
    Verb.ofName? name = some request.verb ∧
    Scan.arguments { scope := .verb request.verb } rest = .ok scan ∧ request.Carries scan.settings

theorem carries_of_request {given : Settings} {verb : Verb} {verbosity : Nat} {request : Request}
    (h : given.request verb verbosity = .ok request)
    (hwithin : given.Within (Scope.verb verb).parameters) :
    request.verb = verb ∧ request.Carries given := by
  unfold Settings.request at h
  split at h
  · cases h
  · rename_i input hinput
    rw [← Except.ok.inj h]
    exact ⟨rfl, hinput, rfl, rfl, List.contains_iff_mem, List.contains_iff_mem,
      List.contains_iff_mem, rfl, List.contains_iff_mem, hwithin⟩

/-- **What the arguments are read as** is what they ask for.  The arguments before the verb only set
the verbosity. -/
theorem askedBy_of_readProgram {s : Scan} {arguments : List String} {request : Request}
    (h : readProgram s arguments = .ok request) : request.AskedBy arguments := by
  induction arguments generalizing s with
  | nil => cases h
  | cons text rest ih =>
    have hlater {s' : Scan} (h' : readProgram s' rest = .ok request) :
        request.AskedBy (text :: rest) := by
      obtain ⟨before, name, after, scan, rfl, hasked⟩ := ih h'
      exact ⟨text :: before, name, after, scan, rfl, hasked⟩
    unfold readProgram at h
    split at h
    · rename_i verb hverb
      obtain ⟨scan, hscan, hrequest⟩ := bind_eq_ok_iff.mp h
      have hstart : Scan.Within { scope := .verb verb } :=
        ⟨Settings.within_empty _, fun _ _ hnone => nomatch hnone⟩
      obtain ⟨hscope, hwithin⟩ := hstart.arguments rfl hscan
      have hsettings := hwithin.settings
      rw [hscope] at hsettings
      obtain ⟨rfl, hcarries⟩ := carries_of_request hrequest hsettings
      exact ⟨[], text, rest, scan, rfl, hverb, hscan, hcarries⟩
    · split at h
      · split at h <;> cases h
      · split at h
        · split at h <;> cases h
        · split at h
          · split at h
            · exact hlater h
            · cases h
          · split at h
            · exact hlater h
            · cases h
          · cases h

/-- **A listing is asked for without a width, a limit or a file to write to**, since its verb
accepts none of them. -/
theorem Request.Carries.dump {request : Request} {given : Settings} (h : request.Carries given)
    (hverb : request.verb = .dump) : request.overrides.fixedWidth = false ∧
      request.overrides.maxSize = none ∧ request.output = none := by
  have haccepted := h.accepted
  rw [hverb] at haccepted
  refine ⟨?_, ?_, ?_⟩
  · rw [Bool.eq_false_iff, Ne, h.fixedWidth]
    exact fun hflag => absurd (haccepted.flags _ hflag) (by decide)
  · rw [h.maxSize, ← Option.not_isSome_iff_eq_none]
    exact fun hsome => absurd (haccepted.maxSize hsome) (by decide)
  · rw [h.output, ← Option.not_isSome_iff_eq_none]
    exact fun hsome => absurd (haccepted.output hsome) (by decide)

end PackedTree.Command
