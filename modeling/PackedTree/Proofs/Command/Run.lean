/-
# Runs of a command

A command loads a configuration and a document, makes one content of them, and writes it.  This
module says what a run makes and how it ends, without saying how, and shows that a run writes what
it makes as far as there is room, or changes nothing.

* `Loads`, `Makes`: the configuration in effect and the document, and the content that a verb makes.
* `Verb.ending`: how a run ends that writes content.
* `AllOrNothing`: a command that writes its content or changes nothing.  Steps that change nothing
  may stand before it (`Quiet.allOrNothing`), and reports after it (`AllOrNothing.before`).
* `allOrNothing_runEncode`, `allOrNothing_runDump`: the two commands.
* `run_of_makes`, `run_of_not_makes`: runs of the program, from every session.

Content is written in place.  So a write that runs out of room leaves a beginning of the content
behind, which is the only way in which a run that fails changes anything.
-/
import PackedTree.Proofs.Command.Arguments
import PackedTree.Proofs.Command.Reading
import PackedTree.Proofs.Command.Writing
import PackedTree.Proofs.Encode

namespace PackedTree.Command

/-! ## 1. What a run makes -/

/-- **What a request loads**: the configuration in effect, and the document at the input.  The
configuration is read first. -/
def Loads (files : FileStore) (input : ByteArray) (request : Request) (config : Config)
    (document : Json) : Prop :=
  ∃ base left text rest, ReadsConfig files input request.config base left ∧
    Layered request.overrides base config ∧ ReadsText files left request.input text rest ∧
    Json.parse text = .ok document

/-- **What a verb makes of a document**: the artifact of its tree, or the listing of its tables. -/
inductive Makes (config : Config) (document : Json) : Verb → ByteArray → Prop
  | artifact {content : ByteArray} : (Tree.ofJson document).encode config = .ok content →
    Makes config document .encode content
  | listing {c : Catalog} {text : String} :
    (Catalog.build (Tree.ofJson document) config).outcome.1 = .ok c →
      (c.listing config.ordered).1 = .ok text → Makes config document .dump text.toUTF8

/-- **A request loads one configuration and one document.** -/
theorem Loads.unique {files : FileStore} {input : ByteArray} {request : Request}
    {config config' : Config} {document document' : Json}
    (h : Loads files input request config document)
    (h' : Loads files input request config' document') :
    config' = config ∧ document' = document := by
  obtain ⟨base, left, text, rest, hbase, hlayered, htext, hparse⟩ := h
  obtain ⟨base', left', text', rest', hbase', hlayered', htext', hparse'⟩ := h'
  obtain ⟨rfl, rfl⟩ := hbase.unique hbase'
  obtain ⟨rfl, rfl⟩ := htext.unique htext'
  rw [layered_iff] at hlayered hlayered'
  exact ⟨hlayered'.trans hlayered.symm, Except.ok.inj (hparse'.symm.trans hparse)⟩

/-- **A verb makes one content of a document.** -/
theorem Makes.unique {config : Config} {document : Json} {verb : Verb} {c c' : ByteArray}
    (h : Makes config document verb c) (h' : Makes config document verb c') : c' = c := by
  cases h with
  | artifact hencode =>
    cases h' with
    | artifact hencode' => exact Except.ok.inj (hencode'.symm.trans hencode)
  | listing hbuild hlisting =>
    cases h' with
    | listing hbuild' hlisting' =>
      obtain rfl := Except.ok.inj (hbuild'.symm.trans hbuild)
      rw [Except.ok.inj (hlisting'.symm.trans hlisting)]

namespace Session

variable {s s' : Session}

/-! What a session keeps decides where content goes and how much of it. -/

theorem roomAt_of_kept (h : s'.kept = s.kept) (destination : Option String) :
    s'.roomAt destination = s.roomAt destination :=
  show s'.kept.roomAt destination = s.kept.roomAt destination from h ▸ rfl

theorem files_finish_of_kept (h : s'.kept = s.kept) : s'.finish.files = s.finish.files :=
  show s'.kept.finish.files = s.kept.finish.files from h ▸ rfl

theorem output_finish_of_kept (h : s'.kept = s.kept) : s'.finish.output = s.finish.output :=
  show s'.kept.finish.output = s.kept.finish.output from h ▸ rfl

end Session

/-- How a command's result ends the program. -/
def endOf : Except Failure Unit → Ending
  | .ok _ => .success
  | .error e => e.ending

/-- How a run ends whose output fails. -/
def Verb.broken : Verb → Ending
  | encode => .failure
  | dump => .brokenOff

/-- **How a run ends that writes content.**  A path tells of all that does not fit.  The output tells
only of what it does not hold back, and there a listing breaks the program off. -/
def Verb.ending (verb : Verb) (destination : Option String) (room : Option Room)
    (content : ByteArray) : Ending :=
  match destination with
  | some _ => if Room.Fits room content then .success else .failure
  | none => if Room.Fits room (splitHeld content).1 then .success else verb.broken

section Endings

variable {verb : Verb} {destination : Option String} {room : Option Room} {content : ByteArray}

/-- With room for all of the content a run succeeds. -/
theorem ending_of_fits (h : Room.Fits room content) :
    verb.ending destination room content = .success := by
  cases destination with
  | some path => exact if_pos h
  | none => exact if_pos fun r hr => Nat.le_trans (size_prompt_le content) (h r hr)

/-- A path tells of all that does not fit. -/
theorem ending_of_not_fits (hpath : destination.isSome) (h : ¬Room.Fits room content) :
    verb.ending destination room content = .failure := by
  cases destination with
  | some path => exact if_neg h
  | none => cases hpath

/-- Lines that end make a text that ends in a line. -/
theorem exists_join_lines : ∀ {lines : List String}, lines ≠ [] →
    ∃ text, String.join (lines.map (· ++ "\n")) = text ++ "\n"
  | [], h => absurd rfl h
  | [line], _ => ⟨line, by rw [List.map_singleton, String.join_cons, String.join_nil,
      String.append_empty]⟩
  | line :: next :: rest, _ => by
    obtain ⟨text, htext⟩ := exists_join_lines (List.cons_ne_nil next rest)
    refine ⟨line ++ "\n" ++ text, ?_⟩
    rw [List.map_cons, String.join_cons, htext, ← String.append_assoc]

/-- **Of a listing nothing is held back**, so a run that lists succeeds exactly if all is printed. -/
theorem Makes.ending_dump {config : Config} {document : Json}
    (h : Makes config document .dump content) (room : Option Room) :
    Verb.dump.ending none room content = if Room.Fits room content then .success else .brokenOff := by
  have hprompt : (splitHeld content).1 = content := by
    cases h with
    | @listing c text hbuild hlisting =>
      obtain ⟨a, -, rfl⟩ := map_eq_ok_iff.mp hlisting
      have hne : a.lines ≠ [] := List.cons_ne_nil _ _
      obtain ⟨text, htext⟩ := exists_join_lines hne
      have hpush : (text ++ "\n").toUTF8 = text.toUTF8.push '\n'.toUInt8 :=
        ByteArray.append_toByteArray_singleton
      have hparts := prompt_append_held (text.toUTF8.push '\n'.toUInt8)
      rw [held_push, ByteArray.append_empty] at hparts
      rw [Artifact.listing, htext, hpush, hparts]
  exact congrArg (fun prompt => if Room.Fits room prompt then Ending.success else .brokenOff) hprompt

end Endings

/-- An artifact has more than the first four bytes. -/
theorem Makes.lt_size {config : Config} {document : Json} {content : ByteArray}
    (hlimit : config.maxSize = none) (h : Makes config document .encode content) :
    4 < content.size := by
  cases h with
  | artifact hencode =>
    obtain ⟨c, hc⟩ := Tree.exists_discovered_of_encode hencode
    obtain ⟨b, a, -, hstores, hwrite⟩ := Tree.encode_of_discovered config hc
    obtain ⟨w, hw, rfl⟩ := Artifact.exists_write_of_bytes (hwrite.symm.trans hencode)
    obtain ⟨root, i, -, -, hroot⟩ := hstores.root
    have hsize : w.bytes.size = a.byteSize config.intEncoding :=
      ((Artifact.write_sized hlimit hroot).1 w hw).2
    rw [hsize, Artifact.byteSize, Artifact.preambleSize]
    omega

/-! ## 2. Commands that write or change nothing -/

section Commands

variable {α : Type} {step : Step (StateM Session) α}
  {gives : FileStore → ByteArray → α → ByteArray → Prop}

/-- **A command that writes its content or changes nothing.**  It writes exactly if there is content
and the destination takes it, and then as much as there is room for. -/
def AllOrNothing (command : Step (StateM Session) Unit)
    (content : FileStore → ByteArray → ByteArray → Prop) (verb : Verb)
    (destination : Option String) : Prop :=
  ∀ s, s.held = .empty →
    (∃ c, content s.files s.input c ∧ Accepts s.files c destination ∧
      Delivered s.files s.output (Room.taken (s.roomAt destination) c) destination
        (command.take s).2.finish.files (command.take s).2.finish.output ∧
      endOf (command.take s).1 = verb.ending destination (s.roomAt destination) c) ∨
    (∃ e, (command.take s).1 = .error e ∧ e.ending = .failure) ∧
      (command.take s).2.kept = s.kept ∧
      ∀ c, content s.files s.input c → ¬Accepts s.files c destination

variable {command : Step (StateM Session) Unit} {verb : Verb} {destination : Option String}
  {content content' : FileStore → ByteArray → ByteArray → Prop}

theorem AllOrNothing.congr (h : AllOrNothing command content verb destination)
    (hcontent : ∀ files input c, content files input c ↔ content' files input c) :
    AllOrNothing command content' verb destination := by
  have hsame : content = content' := by
    funext files input c
    exact propext (hcontent files input c)
  exact hsame ▸ h

/-- **A quiet step first** leaves a command all or nothing. -/
theorem Quiet.allOrNothing {command : α → Step (StateM Session) Unit}
    {content : α → FileStore → ByteArray → ByteArray → Prop} (h : Quiet step gives)
    (hcommand : ∀ a, AllOrNothing (command a) (content a) verb destination) :
    AllOrNothing (step >>= command)
      (fun files input c => ∃ a left, gives files input a left ∧ content a files left c)
      verb destination := by
  intro s hheld
  have hkeeps := h.keeps s
  have hending := h.ending s
  have hgives := h.gives_iff s
  rw [take_bind]
  rcases take_cases step s with ⟨e, s₁, htake⟩ | ⟨a, s₁, htake⟩ <;>
    rw [htake] at hkeeps hending hgives ⊢
  · refine .inr ⟨⟨e, rfl, hending e rfl⟩, hkeeps, ?_⟩
    rintro c ⟨a, left, ha, -⟩
    cases ((hgives a left).mpr ha).1
  · have hsame := Session.mk.inj hkeeps
    obtain ⟨hfiles, -, -, houtput, -, hheld₁, -⟩ := hsame
    have hroom : s₁.roomAt destination = s.roomAt destination := Session.roomAt_of_kept hkeeps _
    rcases hcommand a s₁ (hheld₁.trans hheld) with ⟨c, hc, haccepts, hdelivered, hend⟩ |
      ⟨hfails, hkept, hnone⟩
    · rw [hfiles] at hc haccepts hdelivered
      rw [houtput, hroom] at hdelivered
      rw [hroom] at hend
      exact .inl ⟨c, ⟨a, s₁.input, (hgives a _).mp ⟨rfl, rfl⟩, hc⟩, haccepts, hdelivered, hend⟩
    · refine .inr ⟨hfails, hkept.trans hkeeps, ?_⟩
      rintro c ⟨a', left, ha, hc⟩
      obtain ⟨hsame, rfl⟩ := (hgives a' left).mpr ha
      obtain rfl := Except.ok.inj hsame
      rw [hfiles] at hnone
      exact hnone c hc

/-- A report last leaves a command all or nothing. -/
theorem AllOrNothing.before (h : AllOrNothing command content verb destination)
    {report : Step (StateM Session) Unit}
    (hreport : Quiet report fun _ input _ rest => rest = input) :
    AllOrNothing (command >>= fun _ => report) content verb destination := by
  intro s hheld
  have hcommand := h s hheld
  rw [take_bind]
  rcases take_cases command s with ⟨e, s₁, htake⟩ | ⟨⟨⟩, s₁, htake⟩ <;> rw [htake] at hcommand ⊢
  · exact hcommand
  · have hok := ((hreport.gives_iff s₁ () s₁.input).mpr rfl).1
    rcases hcommand with ⟨c, hc, haccepts, hdelivered, hend⟩ | ⟨⟨e, he, -⟩, -⟩
    · rw [← Session.files_finish_of_kept (hreport.keeps s₁),
        ← Session.output_finish_of_kept (hreport.keeps s₁)] at hdelivered
      exact .inl ⟨c, hc, haccepts, hdelivered, (congrArg endOf hok).trans hend⟩
    · cases he

/-- A write and the failure made of its fault. -/
theorem take_write (failure : FileError → Failure) (write : StateM Session (Except FileError Unit))
    (s : Session) : (do orFail failure (← liftM write) : Step (StateM Session) Unit).take s =
      ((write s).1.mapError failure, (write s).2) := by
  show (orFail failure (write s).1 : Step (StateM Session) Unit).take (write s).2 = _
  rcases (write s).1 with e | _ <;> rfl

/-- How a write ends, by whether it told of a fault. -/
theorem endOf_mapError {failure : FileError → Failure} {broken : Ending} {fits : Prop}
    [Decidable fits] {result : Except FileError Unit} (hbroken : ∀ e, (failure e).ending = broken)
    (h : result = .ok () ↔ fits) :
    endOf (result.mapError failure) = if fits then .success else broken := by
  rcases result with e | _
  · rw [if_neg fun hfits => by cases h.mpr hfits]
    exact hbroken e
  · rw [if_pos (h.mp rfl)]
    rfl

/-- Content that is put after the output. -/
theorem allOrNothing_writeOutput (verb : Verb) (failure : FileError → Failure)
    (hending : ∀ e, (failure e).ending = verb.broken) (c : ByteArray) : AllOrNothing
      (do orFail failure (← liftM (Session.host.writeOutput c))) (fun _ _ c' => c' = c) verb none := by
  intro s hheld
  obtain ⟨hfiles, houtput, hresult⟩ := Session.finish_writeOutput hheld c
  rw [take_write]
  refine .inl ⟨c, rfl, trivial, ?_, endOf_mapError hending hresult⟩
  show Delivered _ _ _ _ (s.writeOutput c).2.finish.files (s.writeOutput c).2.finish.output
  rw [hfiles, houtput]
  exact .printed

/-- Content that is written to the end of a path. -/
theorem allOrNothing_writeFile (verb : Verb) (path : String) (c : ByteArray) :
    AllOrNothing (do orFail (.unwritable path) (← liftM (Session.host.writeFile path c)))
      (fun _ _ c' => c' = c) verb (some path) := by
  intro s hheld
  rw [take_write]
  rcases Session.writePath_cases hheld path c with ⟨haccepts, hdelivered, hresult⟩ |
    ⟨hrefuses, e, herror⟩
  · exact .inl ⟨c, rfl, haccepts, hdelivered, endOf_mapError (fun _ => rfl) hresult⟩
  · have hwritten : Session.host.writeFile path c s = (.error e, s) := herror
    rw [hwritten]
    exact .inr ⟨⟨_, rfl, rfl⟩, rfl, fun c' hc => hc ▸ hrefuses⟩

/-! ## 3. The commands -/

/-- What a request loads and makes of it. -/
def Content (request : Request) (files : FileStore) (input c : ByteArray) : Prop :=
  ∃ config document, Loads files input request config document ∧
    Makes config document request.verb c

/-- An artifact goes to the path of a request, or to the output. -/
theorem allOrNothing_writeArtifact (request : Request) (artifact : ByteArray) :
    AllOrNothing (writeArtifact Session.host request artifact) (fun _ _ c => c = artifact) .encode
      request.output := by
  unfold writeArtifact
  cases request.output with
  | none => exact allOrNothing_writeOutput .encode .unwritableOutput (fun _ => rfl) artifact
  | some path => exact allOrNothing_writeFile .encode path artifact

/-- **Encoding a tree** is all or nothing. -/
theorem allOrNothing_runEncode {request : Request} (hverb : request.verb = .encode) :
    AllOrNothing (runEncode Session.host request) (Content request) .encode request.output := by
  have hreport (stats : Stats) : Quiet (if request.stats = true
      then liftM (Session.host.writeReport stats.toJson.pretty) else pure () :
      Step (StateM Session) Unit) fun _ input _ rest => rest = input := by
    split
    · exact quiet_writeReport _
    · exact (quiet_pure ()).congr fun _ _ _ _ => ⟨fun h => h.2, fun h => ⟨rfl, h⟩⟩
  unfold runEncode
  refine ((quiet_readConfig request).allOrNothing fun config =>
    (quiet_readTree request).allOrNothing fun tree =>
      (quiet_runPass request (tree.encodePass config)).allOrNothing fun result =>
        (quiet_reportEvents _ _).allOrNothing fun _ =>
          (allOrNothing_writeArtifact request result.1).before (hreport result.2)).congr ?_
  intro files input c
  constructor
  · rintro ⟨config, left, ⟨base, hbase, hlayered⟩, tree, rest, ⟨text, document, htext, hparse, rfl⟩,
      ⟨artifact, stats⟩, _, ⟨hencode, -, rfl⟩, _, _, rfl, rfl⟩
    refine ⟨config, document, ⟨base, left, text, _, hbase, hlayered, htext, hparse⟩, ?_⟩
    rw [hverb]
    exact .artifact hencode
  · rintro ⟨config, document, ⟨base, left, text, rest, hbase, hlayered, htext, hparse⟩, hmakes⟩
    rw [hverb] at hmakes
    cases hmakes with
    | artifact hencode =>
      exact ⟨config, left, ⟨base, hbase, hlayered⟩, Tree.ofJson document, rest,
        ⟨text, document, htext, hparse, rfl⟩, (c, _), rest, ⟨hencode, rfl, rfl⟩, (), rest, rfl, rfl⟩

/-- **Listing the tables of a tree** is all or nothing. -/
theorem allOrNothing_runDump {request : Request} (hverb : request.verb = .dump) :
    AllOrNothing (runDump Session.host request) (Content request) .dump none := by
  unfold runDump
  refine ((quiet_readConfig request).allOrNothing fun config =>
    (quiet_readTree request).allOrNothing fun tree =>
      (quiet_runPass request (Catalog.build tree config)).allOrNothing fun result =>
        (quiet_orFail (fun _ => rfl) (result.1.listing config.ordered).1).allOrNothing fun text =>
          allOrNothing_writeOutput .dump .unprintable (fun _ => rfl) text.toUTF8).congr ?_
  intro files input c
  constructor
  · rintro ⟨config, left, ⟨base, hbase, hlayered⟩, tree, rest, ⟨text, document, htext, hparse, rfl⟩,
      ⟨catalog, stats⟩, _, ⟨hbuild, -, rfl⟩, listing, _, ⟨hlisting, rfl⟩, rfl⟩
    refine ⟨config, document, ⟨base, left, text, _, hbase, hlayered, htext, hparse⟩, ?_⟩
    rw [hverb]
    exact .listing hbuild hlisting
  · rintro ⟨config, document, ⟨base, left, text, rest, hbase, hlayered, htext, hparse⟩, hmakes⟩
    rw [hverb] at hmakes
    cases hmakes with
    | @listing catalog listing hbuild hlisting =>
      exact ⟨config, left, ⟨base, hbase, hlayered⟩, Tree.ofJson document, rest,
        ⟨text, document, htext, hparse, rfl⟩, (catalog, _), rest, ⟨hbuild, rfl, rfl⟩, listing, rest,
        ⟨hlisting, rfl⟩, rfl⟩

end Commands

/-! ## 4. Runs of the program -/

/-- The command of a request. -/
def Request.command (request : Request) : Step (StateM Session) Unit :=
  match request.verb with
  | .encode => runEncode Session.host request
  | .dump => runDump Session.host request

section Runs

variable {arguments : List String} {request : Request} {s : Session}

/-- The command that arguments ask for is all or nothing. -/
theorem allOrNothing_command (h : readArguments arguments = .ok request) :
    AllOrNothing request.command (Content request) request.verb request.output := by
  obtain ⟨_, _, _, _, _, _, _, hcarries⟩ := askedBy_of_readProgram h
  unfold Request.command
  cases hverb : request.verb with
  | encode => exact allOrNothing_runEncode hverb
  | dump =>
    rw [(hcarries.dump hverb).2.2]
    exact allOrNothing_runDump hverb

/-- **The end of a run** is that of its command.  A failure is reported, and what is held back is
passed on. -/
theorem run_request (h : readArguments arguments = .ok request) (s : Session) :
    ∃ s', (run Session.host arguments).run s = (endOf (request.command.take s).1, s') ∧
      s'.files = (request.command.take s).2.finish.files ∧
      s'.output = (request.command.take s).2.finish.output := by
  have hrun : (run Session.host arguments).run s =
      (((request.run Session.host).run s).1, ((request.run Session.host).run s).2.finish) := by
    unfold run
    rw [h]
    rfl
  have hend : (request.run Session.host).run s = match request.command.take s with
      | (.ok (), s') => (.success, s')
      | (.error e, s') => (e.ending, { s' with report := s'.report ++ (e.line ++ "\n").toUTF8 }) := by
    have hcommand (conclude : Except Failure Unit → StateM Session Ending) :
        (request.command.run >>= conclude).run s =
          (conclude (request.command.take s).1).run (request.command.take s).2 := rfl
    refine (hcommand _).trans ?_
    rcases request.command.take s with ⟨e | _, s'⟩ <;> rfl
  rw [hrun, hend]
  rcases request.command.take s with ⟨e | ⟨⟩, s'⟩ <;> exact ⟨_, rfl, rfl, rfl⟩

/-- **A run that makes content writes it**, as far as there is room at its destination. -/
theorem run_of_makes (h : readArguments arguments = .ok request) (s : Session)
    (hheld : s.held = .empty) {config : Config} {document : Json} {content : ByteArray}
    (hloads : Loads s.files s.input request config document)
    (hmakes : Makes config document request.verb content)
    (haccepts : Accepts s.files content request.output) :
    ∃ s', (run Session.host arguments).run s =
        (request.verb.ending request.output (s.roomAt request.output) content, s') ∧
      Delivered s.files s.output (Room.taken (s.roomAt request.output) content) request.output
        s'.files s'.output := by
  obtain ⟨s', hrun, hfiles, houtput⟩ := run_request h s
  rcases allOrNothing_command h s hheld with
    ⟨c, ⟨config', document', hloads', hmakes'⟩, -, hdelivered, hend⟩ | ⟨-, -, hnone⟩
  · obtain ⟨rfl, rfl⟩ := hloads.unique hloads'
    obtain rfl := hmakes.unique hmakes'
    rw [hend] at hrun
    rw [← hfiles, ← houtput] at hdelivered
    exact ⟨s', hrun, hdelivered⟩
  · exact absurd haccepts (hnone content ⟨config, document, hloads, hmakes⟩)

/-- **Any other run changes nothing** and ends with a failure. -/
theorem run_of_not_makes (h : readArguments arguments = .ok request) (s : Session)
    (hheld : s.held = .empty)
    (hnone : ∀ config document content, Loads s.files s.input request config document →
      Makes config document request.verb content → ¬Accepts s.files content request.output) :
    ∃ s', (run Session.host arguments).run s = (.failure, s') ∧
      s'.files = s.files ∧ s'.output = s.output := by
  obtain ⟨s', hrun, hfiles, houtput⟩ := run_request h s
  rcases allOrNothing_command h s hheld with
    ⟨c, ⟨config, document, hloads, hmakes⟩, haccepts, -⟩ | ⟨⟨e, he, hfailure⟩, hkept, -⟩
  · exact absurd haccepts (hnone config document c hloads hmakes)
  · rw [he, show endOf (.error e) = .failure from hfailure] at hrun
    rw [Session.files_finish_of_kept hkept] at hfiles
    rw [Session.output_finish_of_kept hkept, Session.output_finish_of_held hheld] at houtput
    exact ⟨s', hrun, hfiles, houtput⟩

end Runs

end PackedTree.Command
