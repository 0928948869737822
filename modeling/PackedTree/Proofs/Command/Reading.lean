/-
# What a command reads

A command reads its configuration and its input before it writes anything.  This module says what
stands at a path and which configuration is in effect, without saying how they are read, and shows
of every step up to the writing that it reads just that and changes nothing.

* `Reads`, `ReadsText`, `ReadsConfig`: what stands at a path.
* `Layered`: the flags laid over a configuration.
* `Quiet`: a step that changes nothing but the input and the report, with what it gives.  Quiet
  steps are put together by `Quiet.bind`.
* `quiet_readConfig`, `quiet_readTree`, `quiet_runPass`: the steps of a command.

What a step reports on the standard error stream is left out.
-/
import PackedTree.Command.Run

namespace PackedTree.Command

/-! ## 1. What stands at a path -/

/-- **What stands at a path**: the content, and what is left of the standard input.  Only the input
stream has content among the devices, and a terminal cannot be read. -/
inductive Reads (files : FileStore) (input : ByteArray) : String → ByteArray → ByteArray → Prop
  | input : Reads files input inputPath input .empty
  | file {path : String} {content : ByteArray} : path ≠ inputPath →
    files.lookup path = .ok (.file content) → Reads files input path content input
  | inputDevice {path : String} : path ≠ inputPath →
    files.lookup path = .ok (.device .input) → Reads files input path input .empty
  | emptyDevice {path : String} {d : Device} : path ≠ inputPath →
    files.lookup path = .ok (.device d) → d ≠ .input → d ≠ .terminal →
      Reads files input path .empty input

/-- The text at a path. -/
def ReadsText (files : FileStore) (input : ByteArray) (path text : String)
    (rest : ByteArray) : Prop :=
  ∃ content, Reads files input path content rest ∧ String.fromUTF8? content = some text

/-- The configuration before the flags: that of the file, or the default. -/
inductive ReadsConfig (files : FileStore) (input : ByteArray) :
    Option String → Config → ByteArray → Prop
  | default : ReadsConfig files input none {} input
  | file {path text : String} {config : Config} {rest : ByteArray} :
    ReadsText files input path text rest → Config.parse text = .ok config →
      ReadsConfig files input (some path) config rest

/-- **The flags laid over a configuration**: each field is that of its flag if the flag is given,
and else stays. -/
structure Layered (flags : Overrides) (base config : Config) : Prop where
  intEncoding : config.intEncoding = if flags.fixedWidth then .fixed32 else base.intEncoding
  dedup : config.dedup = if flags.noDedup then false else base.dedup
  ordered : config.ordered = if flags.unordered then false else base.ordered
  maxSize : config.maxSize = if flags.maxSize.isSome then flags.maxSize else base.maxSize
  progressInterval : config.progressInterval = base.progressInterval

theorem layered_iff {flags : Overrides} {base config : Config} :
    Layered flags base config ↔ config = flags.apply base := by
  constructor
  · rintro ⟨hwidth, hdedup, hordered, hsize, hinterval⟩
    cases config
    simp only at hwidth hdedup hordered hsize hinterval
    subst hwidth hdedup hordered hsize hinterval
    unfold Overrides.apply
    cases flags.noDedup <;> cases flags.unordered <;> cases flags.maxSize <;> simp
  · rintro rfl
    refine ⟨rfl, ?_, ?_, ?_, rfl⟩
    · cases h : flags.noDedup <;> simp [Overrides.apply, h]
    · cases h : flags.unordered <;> simp [Overrides.apply, h]
    · cases h : flags.maxSize <;> simp [Overrides.apply, h]

/-! ## 2. Steps that change nothing -/

section Steps

variable {α β : Type}

/-- A step taken in a session: its result, and the session after it. -/
def Step.take (step : Step (StateM Session) α) (s : Session) : Except Failure α × Session :=
  step.run s

theorem take_bind (step : Step (StateM Session) α) (next : α → Step (StateM Session) β)
    (s : Session) : (step >>= next).take s = match step.take s with
      | (.ok a, s') => (next a).take s'
      | (.error e, s') => (.error e, s') := by
  show (match step.take s with | (r, s') => ExceptT.bindCont next r s') = _
  rcases step.take s with ⟨e | a, s'⟩ <;> rfl

/-- A session apart from its input and its report. -/
def Session.kept (s : Session) : Session := { s with input := .empty, report := .empty }

theorem Session.files_eq_of_kept {s s' : Session} (h : s'.kept = s.kept) : s'.files = s.files :=
  (Session.mk.inj h).1


/-- **A step that changes nothing but the input and the report.**  What it gives and what it leaves
of the input depends on the files and the input alone, and it never breaks the program off. -/
structure Quiet (step : Step (StateM Session) α)
    (gives : FileStore → ByteArray → α → ByteArray → Prop) : Prop where
  keeps : ∀ s, (step.take s).2.kept = s.kept
  ending : ∀ s e, (step.take s).1 = .error e → e.ending = .failure
  gives_iff : ∀ s a rest, (step.take s).1 = .ok a ∧ (step.take s).2.input = rest ↔
    gives s.files s.input a rest

variable {step : Step (StateM Session) α} {next : α → Step (StateM Session) β}
  {gives gives' : FileStore → ByteArray → α → ByteArray → Prop}

theorem Quiet.congr (h : Quiet step gives)
    (hgives : ∀ files input a rest, gives files input a rest ↔ gives' files input a rest) :
    Quiet step gives' :=
  ⟨h.keeps, h.ending, fun s a rest => (h.gives_iff s a rest).trans (hgives _ _ _ _)⟩

theorem take_cases (step : Step (StateM Session) α) (s : Session) :
    (∃ e s', step.take s = (.error e, s')) ∨ ∃ a s', step.take s = (.ok a, s') := by
  rcases step.take s with ⟨e | a, s'⟩
  · exact .inl ⟨e, s', rfl⟩
  · exact .inr ⟨a, s', rfl⟩

/-- **Quiet steps one after the other** are quiet. -/
theorem Quiet.bind {after : α → FileStore → ByteArray → β → ByteArray → Prop}
    (h : Quiet step gives) (hnext : ∀ a, Quiet (next a) (after a)) :
    Quiet (step >>= next) fun files input b rest =>
      ∃ a left, gives files input a left ∧ after a files left b rest := by
  refine ⟨fun s => ?_, fun s e he => ?_, fun s b rest => ?_⟩
  · have hkeeps := h.keeps s
    rw [take_bind]
    rcases take_cases step s with ⟨e, s', htake⟩ | ⟨a, s', htake⟩ <;> rw [htake] at hkeeps ⊢
    · exact hkeeps
    · exact ((hnext a).keeps s').trans hkeeps
  · have hending := h.ending s e
    rw [take_bind] at he
    rcases take_cases step s with ⟨e', s', htake⟩ | ⟨a, s', htake⟩ <;> rw [htake] at he hending
    · cases he
      exact hending rfl
    · exact (hnext a).ending s' e he
  · have hfiles := Session.files_eq_of_kept (h.keeps s)
    have hgives := h.gives_iff s
    rw [take_bind]
    rcases take_cases step s with ⟨e, s', htake⟩ | ⟨a, s', htake⟩ <;>
      rw [htake] at hfiles hgives ⊢
    · constructor
      · rintro ⟨hok, -⟩
        cases hok
      · rintro ⟨a, left, ha, -⟩
        cases ((hgives a left).mpr ha).1
    · have hafter := (hnext a).gives_iff s' b rest
      rw [hfiles] at hafter
      constructor
      · intro hok
        exact ⟨a, s'.input, (hgives a _).mp ⟨rfl, rfl⟩, hafter.mp hok⟩
      · rintro ⟨a', left, ha, hb⟩
        obtain ⟨hsame, rfl⟩ := (hgives a' left).mpr ha
        obtain rfl := Except.ok.inj hsame
        exact hafter.mpr hb

theorem quiet_pure (a : α) :
    Quiet (pure a) fun _ input a' rest => a' = a ∧ rest = input where
  keeps := fun _ => rfl
  ending := fun _ _ he => by cases he
  gives_iff := fun _ _ _ =>
    ⟨fun ⟨ha, hrest⟩ => ⟨(Except.ok.inj ha).symm, hrest.symm⟩, fun ⟨ha, hrest⟩ =>
      ⟨congrArg Except.ok ha.symm, hrest.symm⟩⟩

theorem quiet_throw {e : Failure} (he : e.ending = .failure) :
    Quiet (throw e : Step (StateM Session) α) fun _ _ _ _ => False where
  keeps := fun _ => rfl
  ending := fun _ _ hsame => Except.error.inj hsame ▸ he
  gives_iff := fun _ _ _ => ⟨fun ⟨ha, _⟩ => (nomatch ha), False.elim⟩

/-- A result is given, or its error is the failure. -/
theorem quiet_orFail {ε : Type} {failure : ε → Failure}
    (hfailure : ∀ e, (failure e).ending = .failure) (result : Except ε α) :
    Quiet (orFail failure result) fun _ input a rest => result = .ok a ∧ rest = input := by
  cases result with
  | error e =>
    refine (quiet_throw (hfailure e)).congr fun _ _ _ _ => ?_
    exact ⟨False.elim, fun ⟨ha, _⟩ => (nomatch ha)⟩
  | ok a =>
    refine (quiet_pure a).congr fun _ _ a' _ => ?_
    rw [Except.ok.injEq, eq_comm]

/-! ## 3. The steps of a command -/

/-- A line on the standard error stream. -/
theorem quiet_writeReport (line : String) :
    Quiet (liftM (Session.host.writeReport line) : Step (StateM Session) Unit)
      fun _ input _ rest => rest = input where
  keeps := fun _ => rfl
  ending := fun _ _ he => by cases he
  gives_iff := fun _ _ _ => ⟨fun ⟨_, hrest⟩ => hrest.symm, fun hrest => ⟨rfl, hrest.symm⟩⟩

theorem quiet_reportEvents (verbosity : Nat) (events : List Event) :
    Quiet (reportEvents Session.host verbosity events) fun _ input _ rest => rest = input := by
  unfold reportEvents
  induction events.filter (shows verbosity ·.level) with
  | nil => exact (quiet_pure ()).congr fun _ _ _ _ => ⟨fun h => h.2, fun h => ⟨rfl, h⟩⟩
  | cons e rest ih =>
    refine ((quiet_writeReport e.line).bind fun _ => ih).congr fun _ input _ rest => ?_
    constructor
    · rintro ⟨_, _, rfl, rfl⟩
      rfl
    · rintro rfl
      exact ⟨(), rest, rfl, rfl⟩

/-- The whole standard input. -/
theorem quiet_readInput :
    Quiet (liftM Session.host.readInput : Step (StateM Session) _) fun _ input content rest =>
      content = .ok input ∧ rest = .empty where
  keeps := fun _ => rfl
  ending := fun _ _ he => by cases he
  gives_iff := fun _ _ _ =>
    ⟨fun ⟨ha, hrest⟩ => ⟨(Except.ok.inj ha).symm, hrest.symm⟩, fun ⟨ha, hrest⟩ =>
      ⟨congrArg Except.ok ha.symm, hrest.symm⟩⟩

/-- What the end of a path gives, or the fault there. -/
theorem quiet_readFile (path : String) :
    Quiet (liftM (Session.host.readFile path) : Step (StateM Session) _)
      fun files input content rest => Session.readPath { files, input } path =
        (content, { files, input := rest }) := by
  have hread (s : Session) : ∃ content rest,
      (liftM (Session.host.readFile path) : Step (StateM Session) _).take s =
        (.ok content, { s with input := rest }) ∧
      Session.readPath { files := s.files, input := s.input } path =
        (content, { files := s.files, input := rest }) := by
    show ∃ content rest, (Except.ok (s.readPath path).1, (s.readPath path).2) = _ ∧ _
    unfold Session.readPath
    cases s.files.lookup path with
    | error e => exact ⟨.error e, s.input, rfl, rfl⟩
    | ok entry =>
      cases entry with
      | file content => exact ⟨.ok content, s.input, rfl, rfl⟩
      | directory => exact ⟨.error .isDirectory, s.input, rfl, rfl⟩
      | device d =>
        cases d with
        | input => exact ⟨.ok s.input, .empty, rfl, rfl⟩
        | terminal => exact ⟨.error .noDevice, s.input, rfl, rfl⟩
        | _ => exact ⟨.ok .empty, s.input, rfl, rfl⟩
  refine ⟨fun s => ?_, fun s e he => ?_, fun s content rest => ?_⟩ <;>
    obtain ⟨found, left, htake, hpath⟩ := hread s
  · rw [htake]
    rfl
  · rw [htake] at he
    cases he
  · rw [htake, hpath]
    simp

theorem reads_input_iff {files : FileStore} {input content rest : ByteArray} :
    Reads files input inputPath content rest ↔ content = input ∧ rest = .empty := by
  constructor
  · intro h
    cases h with
    | input => exact ⟨rfl, rfl⟩
    | file hpath | inputDevice hpath | emptyDevice hpath => exact absurd rfl hpath
  · rintro ⟨rfl, rfl⟩
    exact .input

/-- The content at a path that does not stand for the input. -/
theorem reads_iff {files : FileStore} {input content rest : ByteArray} {path : String}
    (hpath : path ≠ inputPath) : Reads files input path content rest ↔
      Session.readPath { files, input } path = (.ok content, { files, input := rest }) := by
  unfold Session.readPath
  constructor
  · intro h
    cases h with
    | input => exact absurd rfl hpath
    | file _ hlookup => simp only [hlookup]
    | inputDevice _ hlookup =>
      simp only [hlookup]
      rfl
    | @emptyDevice _ d _ hlookup hinput hterminal =>
      simp only [hlookup]
      cases d with
      | input => exact absurd rfl hinput
      | terminal => exact absurd rfl hterminal
      | _ => rfl
  · intro h
    cases hlookup : files.lookup path with
    | error e => simp [hlookup] at h
    | ok entry =>
      rw [hlookup] at h
      cases entry with
      | directory => simp at h
      | file found =>
        obtain ⟨hfound, hrest⟩ := Prod.mk.inj h
        obtain rfl := Except.ok.inj hfound
        obtain rfl : input = rest := congrArg Session.input hrest
        exact .file hpath hlookup
      | device d =>
        have hempty (hinput : d ≠ .input) (hterminal : d ≠ .terminal)
            (hd : Session.readDevice { files, input } d = (.ok .empty, { files, input })) :
            Reads files input path content rest := by
          obtain ⟨hfound, hrest⟩ := Prod.mk.inj (hd.symm.trans h)
          obtain rfl := Except.ok.inj hfound
          obtain rfl : input = rest := congrArg Session.input hrest
          exact .emptyDevice hpath hlookup hinput hterminal
        cases d with
        | input =>
          obtain ⟨hfound, hrest⟩ := Prod.mk.inj h
          obtain rfl := Except.ok.inj hfound
          obtain rfl : ByteArray.empty = rest := congrArg Session.input hrest
          exact .inputDevice hpath hlookup
        | terminal => simp [Session.readDevice] at h
        | _ => exact hempty (by decide) (by decide) rfl

/-- **One content stands at a path.** -/
theorem Reads.unique {files : FileStore} {path : String}
    {input content content' rest rest' : ByteArray}
    (h : Reads files input path content rest) (h' : Reads files input path content' rest') :
    content' = content ∧ rest' = rest := by
  by_cases hpath : path = inputPath
  · subst hpath
    obtain ⟨rfl, rfl⟩ := reads_input_iff.mp h
    exact reads_input_iff.mp h'
  · rw [reads_iff hpath] at h h'
    obtain ⟨hcontent, hrest⟩ := Prod.mk.inj (h'.symm.trans h)
    exact ⟨Except.ok.inj hcontent, congrArg Session.input hrest⟩

theorem ReadsText.unique {files : FileStore} {path text text' : String} {input rest rest' : ByteArray}
    (h : ReadsText files input path text rest) (h' : ReadsText files input path text' rest') :
    text' = text ∧ rest' = rest := by
  obtain ⟨content, hreads, htext⟩ := h
  obtain ⟨content', hreads', htext'⟩ := h'
  obtain ⟨rfl, rfl⟩ := hreads.unique hreads'
  exact ⟨Option.some.inj (htext'.symm.trans htext), rfl⟩

theorem ReadsConfig.unique {files : FileStore} {path : Option String} {config config' : Config}
    {input rest rest' : ByteArray} (h : ReadsConfig files input path config rest)
    (h' : ReadsConfig files input path config' rest') : config' = config ∧ rest' = rest := by
  cases h with
  | default =>
    cases h'
    exact ⟨rfl, rfl⟩
  | file htext hparse =>
    cases h' with
    | file htext' hparse' =>
      obtain ⟨rfl, rfl⟩ := htext.unique htext'
      exact ⟨Except.ok.inj (hparse'.symm.trans hparse), rfl⟩

/-- Content as text. -/
theorem quiet_decode (path : String) (content : Except FileError ByteArray) :
    Quiet (do
      let content ← orFail (.unreadable path) content
      match String.fromUTF8? content with
      | some text => return text
      | none => throw (.unreadable path .notText) : Step (StateM Session) String)
      fun _ input text rest =>
        (∃ found, content = .ok found ∧ String.fromUTF8? found = some text) ∧ rest = input := by
  have hdecode (found : ByteArray) :
      Quiet (match String.fromUTF8? found with
        | some text => return text
        | none => throw (.unreadable path .notText) : Step (StateM Session) String)
        fun _ input text rest => String.fromUTF8? found = some text ∧ rest = input := by
    cases String.fromUTF8? found with
    | none =>
      refine (quiet_throw rfl).congr fun _ _ _ _ => ?_
      exact ⟨False.elim, fun ⟨h, _⟩ => (nomatch h)⟩
    | some text =>
      refine (quiet_pure text).congr fun _ _ text' _ => ?_
      rw [Option.some.injEq, eq_comm]
  refine ((quiet_orFail (fun _ => rfl) content).bind hdecode).congr fun _ input text rest => ?_
  constructor
  · rintro ⟨found, _, ⟨hfound, rfl⟩, htext, rfl⟩
    exact ⟨⟨found, hfound, htext⟩, rfl⟩
  · rintro ⟨⟨found, hfound, htext⟩, rfl⟩
    exact ⟨found, rest, ⟨hfound, rfl⟩, htext, rfl⟩

/-- **The text at a path** is what a command reads there. -/
theorem quiet_readText (path : String) :
    Quiet (readText Session.host path) fun files input text rest =>
      ReadsText files input path text rest := by
  unfold readText
  simp only []
  split
  · rename_i hpath
    subst hpath
    refine (quiet_readInput.bind (quiet_decode inputPath)).congr fun files input text rest => ?_
    constructor
    · rintro ⟨_, _, ⟨rfl, rfl⟩, ⟨found, hfound, htext⟩, rfl⟩
      obtain rfl := Except.ok.inj hfound
      exact ⟨input, .input, htext⟩
    · rintro ⟨content, hreads, htext⟩
      obtain ⟨rfl, rfl⟩ := reads_input_iff.mp hreads
      exact ⟨_, _, ⟨rfl, rfl⟩, ⟨content, rfl, htext⟩, rfl⟩
  · rename_i hpath
    refine ((quiet_readFile path).bind (quiet_decode path)).congr fun files input text rest => ?_
    constructor
    · rintro ⟨_, _, hread, ⟨found, rfl, htext⟩, rfl⟩
      exact ⟨found, (reads_iff hpath).mpr hread, htext⟩
    · rintro ⟨content, hreads, htext⟩
      exact ⟨.ok content, rest, (reads_iff hpath).mp hreads, ⟨content, rfl, htext⟩, rfl⟩

/-- **The configuration in effect.** -/
theorem quiet_readConfig (request : Request) :
    Quiet (readConfig Session.host request) fun files input config rest =>
      ∃ base, ReadsConfig files input request.config base rest ∧
        Layered request.overrides base config := by
  unfold readConfig
  cases hpath : request.config with
  | none =>
    refine (quiet_pure _).congr fun files input config rest => ?_
    constructor
    · rintro ⟨rfl, rfl⟩
      exact ⟨{}, .default, layered_iff.mpr rfl⟩
    · rintro ⟨base, hbase, hlayered⟩
      cases hbase
      exact ⟨layered_iff.mp hlayered, rfl⟩
  | some path =>
    refine ((quiet_readText path).bind fun text =>
      (quiet_orFail (fun _ => rfl) (Config.parse text)).bind fun config => quiet_pure _).congr ?_
    intro files input config rest
    constructor
    · rintro ⟨text, _, htext, base, _, ⟨hparse, rfl⟩, rfl, rfl⟩
      exact ⟨base, .file htext hparse, layered_iff.mpr rfl⟩
    · rintro ⟨base, hbase, hlayered⟩
      cases hbase with
      | @file _ text _ _ htext hparse =>
        exact ⟨text, rest, htext, base, rest, ⟨hparse, rfl⟩, layered_iff.mp hlayered, rfl⟩

/-- **The tree of the document at the input.** -/
theorem quiet_readTree (request : Request) :
    Quiet (readTree Session.host request) fun files input tree rest =>
      ∃ text document, ReadsText files input request.input text rest ∧
        Json.parse text = .ok document ∧ tree = Tree.ofJson document := by
  unfold readTree
  refine ((quiet_readText request.input).bind fun text =>
    (quiet_orFail (fun _ => rfl) (Json.parse text)).bind fun document =>
      (quiet_reportEvents _ _).bind fun _ => quiet_pure _).congr ?_
  intro files input tree rest
  constructor
  · rintro ⟨text, _, htext, document, _, ⟨hparse, rfl⟩, _, _, rfl, rfl, rfl⟩
    exact ⟨text, document, htext, hparse, rfl⟩
  · rintro ⟨text, document, htext, hparse, rfl⟩
    exact ⟨text, rest, htext, document, rest, ⟨hparse, rfl⟩, (), rest, rfl, rfl, rfl⟩

/-- **The result of the stages of an encoding.** -/
theorem quiet_runPass (request : Request) (pass : Pass α) :
    Quiet (runPass Session.host request pass) fun _ input result rest =>
      pass.outcome.1 = .ok result.1 ∧ result.2 = pass.outcome.2.stats ∧ rest = input := by
  unfold runPass
  refine ((quiet_reportEvents _ _).bind fun _ =>
    (quiet_orFail (fun _ => rfl) pass.outcome.1).bind fun a => quiet_pure _).congr ?_
  rintro files input ⟨a, stats⟩ rest
  constructor
  · rintro ⟨_, _, rfl, a', _, ⟨hok, rfl⟩, hsame, rfl⟩
    obtain ⟨rfl, rfl⟩ := Prod.mk.inj hsame
    exact ⟨hok, rfl, rfl⟩
  · rintro ⟨hok, rfl, rfl⟩
    exact ⟨(), rest, rfl, a, rest, ⟨hok, rfl⟩, rfl, rfl⟩

end Steps

end PackedTree.Command
