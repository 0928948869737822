/-
# All or nothing

A run delivers what it makes or changes nothing, unless the room at its destination runs out.

* `Ends`: the three ways in which a run may end.  What a request loads and makes decides between
  them (`Ends.of_makes`, `Ends.of_not_loads`).
* `allOrNothing_run`: every run ends in one of them.
* `written_in_place`: a write that has begun is not undone, so a run that fails may have changed a
  file.
-/
import Mathlib
import PackedTree.Proofs.Command.Run

namespace PackedTree.Command

/-! ## 1. How a run may end -/

/-- **How a run may end.**  It has written what it made, in full.  Or nothing has changed, since
there was nothing to write or no place for it.  Or there was no room for all of it, and what has
been written is a beginning; nothing else has changed.

The status after a path is cut is that of a failure.  After the output is cut it is left open. -/
inductive Ends (request : Request) (s s' : Session) (code : UInt32) : Prop
  | written {config : Config} {document : Json} {content : ByteArray}
    (hloads : Loads s.files s.input request config document)
    (hmakes : Makes config document request.verb content)
    (hfits : Room.Fits (s.roomAt request.output) content)
    (hdelivered : Delivered s.files s.output content request.output s'.files s'.output)
    (hcode : code = 0)
  | unchanged
    (hfiles : s'.files = s.files) (houtput : s'.output = s.output)
    (hnone : ∀ config document content, Loads s.files s.input request config document →
      Makes config document request.verb content → ¬Accepts s.files content request.output)
    (hcode : code = 1)
  | cut {config : Config} {document : Json} {content : ByteArray} {room : Room}
    (hloads : Loads s.files s.input request config document)
    (hmakes : Makes config document request.verb content)
    (hroom : s.roomAt request.output = some room) (hlt : room.left < content.size)
    (hdelivered : Delivered s.files s.output (content.extract 0 room.left) request.output
      s'.files s'.output)
    (hcode : request.output.isSome → code = 1)

section Endings

variable {request : Request} {s s' : Session} {code : UInt32}

/-- With content to write, what is written and the status are determined. -/
theorem Ends.of_makes (h : Ends request s s' code) {config : Config} {document : Json}
    {content : ByteArray} (hloads : Loads s.files s.input request config document)
    (hmakes : Makes config document request.verb content)
    (haccepts : Accepts s.files content request.output) :
    Delivered s.files s.output (Room.taken (s.roomAt request.output) content) request.output
        s'.files s'.output ∧
      (Room.Fits (s.roomAt request.output) content → code = 0) ∧
      (¬Room.Fits (s.roomAt request.output) content → request.output.isSome → code = 1) := by
  cases h with
  | written hloads' hmakes' hfits hdelivered hcode =>
    obtain ⟨rfl, rfl⟩ := hloads.unique hloads'
    obtain rfl := hmakes.unique hmakes'
    rw [Room.taken_of_fits hfits]
    exact ⟨hdelivered, fun _ => hcode, fun hcut => absurd hfits hcut⟩
  | unchanged _ _ hnone _ => exact absurd haccepts (hnone config document content hloads hmakes)
  | cut hloads' hmakes' hroom hlt hdelivered hcode =>
    obtain ⟨rfl, rfl⟩ := hloads.unique hloads'
    obtain rfl := hmakes.unique hmakes'
    rw [hroom]
    refine ⟨hdelivered, fun hfits => ?_, fun _ => hcode⟩
    exact absurd (Room.fits_some.mp hfits) (Nat.not_le.mpr hlt)

/-- With nothing to load, nothing changes. -/
theorem Ends.of_not_loads (h : Ends request s s' code)
    (hnone : ∀ config document, ¬Loads s.files s.input request config document) :
    s'.files = s.files ∧ s'.output = s.output ∧ code = 1 := by
  cases h with
  | written hloads => exact absurd hloads (hnone _ _)
  | unchanged hfiles houtput _ hcode => exact ⟨hfiles, houtput, hcode⟩
  | cut hloads => exact absurd hloads (hnone _ _)

end Endings

theorem Ending.eq_success {ending : Ending} (h : ending.code = 0) : ending = .success := by
  cases ending with
  | success => rfl
  | _ => exact absurd h (by decide)

theorem Ending.eq_failure {ending : Ending} (h : ending.code = 1) : ending = .failure := by
  cases ending with
  | failure => rfl
  | _ => exact absurd h (by decide)

/-! ## 2. A sample directory -/

/-- A directory with a document, a configuration, an older artifact and a device. -/
def sampleFiles : FileStore where
  entries := [(["dev"], .directory), (["dev", "in"], .file "\x7b\x7d".toUTF8),
    (["dev", "cfg"], .file "\x7b\"int_encoding\":\"fixed32\"\x7d".toUTF8),
    (["dev", "out"], .file "old".toUTF8), (["dev", "null"], .device .null)]
  workingDirectory := ["dev"]

/-- Something can be made of an empty object, whatever the configuration, as long as there is no
limit. -/
theorem exists_makes_empty (config : Config) (hlimit : config.maxSize = none) (verb : Verb) :
    ∃ content, Makes config (.object []) verb content := by
  have hr : (Tree.ofJson (.object [])).root = some (.node ⟨0⟩) := rfl
  have hnodes : (Tree.ofJson (.object [])).nodes.toList = [.object .empty] := rfl
  cases verb with
  | encode =>
    obtain ⟨content, hencode⟩ := Tree.exists_encode_of_nodes hr ⟨_, rfl⟩ hlimit (by decide) (by
      intro fields hmem
      rw [hnodes, List.mem_singleton, Node.object.injEq] at hmem
      unfold Shape.canonicalText
      rw [hmem, Shape.keys_ofFields_of_pairwise (by decide)]
      decide)
    exact ⟨content, .artifact hencode⟩
  | dump =>
    obtain ⟨c, hc⟩ := Catalog.exists_discovered_of_nodes hr ⟨_, rfl⟩ (by decide)
    obtain ⟨b, hbuild, hb⟩ := Catalog.exists_built config hc
    obtain ⟨a, ha, -⟩ := hb.lists.exists_tables config.ordered
    exact ⟨_, .listing (hbuild {}) (congrArg (Except.map Artifact.listing) ha)⟩

/-- Where the older artifact stands. -/
theorem target_out : sampleFiles.target "out" = .ok ["dev", "out"] := by cbv

theorem out_ne_device (d : Device) : sampleFiles.get? ["dev", "out"] ≠ some (.device d) :=
  fun h => by cases h

theorem roomAt_out (room : Option Room) :
    Session.roomAt { files := sampleFiles, fileRoom := room } (some "out") = room :=
  Session.roomAt_of_target target_out out_ne_device

/-- Where the device stands. -/
theorem target_null : sampleFiles.target "null" = .ok ["dev", "null"] := by cbv

/-- The older artifact may be replaced. -/
theorem accepts_out (content : ByteArray) : Accepts sampleFiles content (some "out") :=
  ⟨["dev", "out"], target_out, fun d hd => absurd hd (out_ne_device d)⟩

/-- The document is an empty object. -/
theorem readsText_in (input : ByteArray) :
    ReadsText sampleFiles input "in" "\x7b\x7d" input :=
  ⟨"\x7b\x7d".toUTF8, .file (by decide) (by cbv), rfl⟩

theorem parse_in : Json.parse "\x7b\x7d" = .ok (.object []) := rfl

/-- A request for the document without a configuration. -/
theorem loads_in {request : Request} (hinput : request.input = "in")
    (hconfig : request.config = none) (input : ByteArray) :
    Loads sampleFiles input request (request.overrides.apply {}) (.object []) := by
  refine ⟨{}, input, _, input, ?_, layered_iff.mpr rfl, ?_, parse_in⟩
  · rw [hconfig]
    exact .default
  · rw [hinput]
    exact readsText_in input

/-- A request for the document with the configuration. -/
theorem loads_in_cfg (input : ByteArray) : Loads sampleFiles input
    { verb := .encode, input := "in", config := some "cfg", output := some "out" }
    { intEncoding := .fixed32 } (.object []) := by
  refine ⟨{ intEncoding := .fixed32 }, input, _, input, ?_, layered_iff.mpr rfl, readsText_in _,
    parse_in⟩
  exact .file ⟨_, .file (by decide) (by cbv), rfl⟩ (by cbv)

/-- There is no other document. -/
theorem not_loads_no {request : Request} (hinput : request.input = "no") (input : ByteArray)
    {config : Config} {document : Json} : ¬Loads sampleFiles input request config document := by
  rintro ⟨base, left, text, rest, -, -, ⟨content, hreads, -⟩, -⟩
  have hlookup : sampleFiles.lookup "no" = .error .notFound := by cbv
  rw [hinput, reads_iff (by decide), Session.readPath, hlookup] at hreads
  cases hreads

theorem readArguments_in_out : readArguments ["encode", "in", "-o", "out"] =
    .ok { verb := .encode, input := "in", output := some "out" } := by decide

/-! ## 3. Every run -/

/-- **Runs of the program are all or nothing**, but for a write that runs out of room.  For every
list of arguments that is read as a request, the request carries what was given to its verb; and
from every session with nothing held back the run ends in one of three ways.

If it has written, it has loaded a configuration and a document, in this order, the flags laid over
the configuration; it has made the content of its verb, and this content and nothing else has gone
where the request says.  A listing has no flags for the width and the limit, and goes to the
output. -/
theorem allOrNothing_run {arguments : List String} {request : Request}
    (h : readArguments arguments = .ok request) :
    request.AskedBy arguments ∧
      (request.verb = .dump → request.overrides.fixedWidth = false ∧
        request.overrides.maxSize = none ∧ request.output = none) ∧
      ∀ s : Session, s.held = .empty → ∃ ending s',
        (run Session.host arguments).run s = (ending, s') ∧ Ends request s s' ending.code := by
  have hasked := askedBy_of_readProgram h
  have ⟨_, _, _, _, _, _, _, hcarries⟩ := hasked
  refine ⟨hasked, hcarries.dump, fun s hheld => ?_⟩
  by_cases hsome : ∃ config document content, Loads s.files s.input request config document ∧
      Makes config document request.verb content ∧ Accepts s.files content request.output
  · obtain ⟨config, document, content, hloads, hmakes, haccepts⟩ := hsome
    obtain ⟨s', hrun, hdelivered⟩ := run_of_makes h s hheld hloads hmakes haccepts
    refine ⟨_, s', hrun, ?_⟩
    by_cases hfits : Room.Fits (s.roomAt request.output) content
    · rw [Room.taken_of_fits hfits] at hdelivered
      refine .written hloads hmakes hfits hdelivered ?_
      rw [ending_of_fits hfits]
      rfl
    · obtain ⟨room, hroom, hlt⟩ := Room.exists_of_not_fits hfits
      have hcode (hpath : request.output.isSome) :
          (request.verb.ending request.output (s.roomAt request.output) content).code = 1 := by
        rw [ending_of_not_fits hpath hfits]
        rfl
      rw [hroom] at hdelivered
      exact .cut hloads hmakes hroom hlt hdelivered hcode
  · have hnone : ∀ config document content, Loads s.files s.input request config document →
        Makes config document request.verb content → ¬Accepts s.files content request.output :=
      fun config document content hloads hmakes haccepts =>
        hsome ⟨config, document, content, hloads, hmakes, haccepts⟩
    obtain ⟨s', hrun, hfiles, houtput⟩ := run_of_not_makes h s hheld hnone
    exact ⟨_, s', hrun, .unchanged hfiles houtput hnone rfl⟩

/-- Runs with a configuration and a path, of a listing, without a document, and without room. -/
theorem allOrNothing_run_samples :
    (∃ s' content, (run Session.host ["encode", "in", "--config", "cfg", "-o", "out"]).run
        { files := sampleFiles } = (.success, s') ∧
      Makes { intEncoding := .fixed32 } (.object []) .encode content ∧
      s'.files.lookup "out" = .ok (.file content) ∧ s'.output = .empty) ∧
    (∃ s' content, (run Session.host ["dump", "-", "--unordered"]).run
        { files := sampleFiles, input := "\x7b\x7d".toUTF8 } = (.success, s') ∧
      Makes { ordered := false } (.object []) .dump content ∧
      s'.files = sampleFiles ∧ s'.output = .empty ++ content) ∧
    (∃ s', (run Session.host ["encode", "no", "-o", "out"]).run { files := sampleFiles } =
        (.failure, s') ∧ s'.files = sampleFiles ∧ s'.output = .empty) ∧
    ∃ s' content, (run Session.host ["encode", "in", "-o", "out"]).run
        { files := sampleFiles, fileRoom := some ⟨4, .noSpace⟩ } = (.failure, s') ∧
      Makes {} (.object []) .encode content ∧
      s'.files.lookup "out" = .ok (.file (content.extract 0 4)) ∧ s'.output = .empty := by
  refine ⟨?_, ?_, ?_, ?_⟩
  · have hread : readArguments ["encode", "in", "--config", "cfg", "-o", "out"] =
        .ok { verb := .encode, input := "in", config := some "cfg", output := some "out" } := by
      decide
    obtain ⟨ending, s', hrun, hends⟩ := (allOrNothing_run hread).2.2 { files := sampleFiles } rfl
    obtain ⟨content, hmakes⟩ := exists_makes_empty { intEncoding := .fixed32 } rfl .encode
    obtain ⟨hdelivered, hcode, -⟩ := hends.of_makes (loads_in_cfg _) hmakes (accepts_out content)
    rw [roomAt_out] at hdelivered hcode
    rw [Ending.eq_success (hcode (Room.fits_none content))] at hrun
    exact ⟨s', content, hrun, hmakes, hdelivered.stored_eq target_out out_ne_device⟩
  · have hread : readArguments ["dump", "-", "--unordered"] =
        .ok { verb := .dump, input := "-", overrides := { unordered := true } } := by decide
    obtain ⟨ending, s', hrun, hends⟩ := (allOrNothing_run hread).2.2
      { files := sampleFiles, input := "\x7b\x7d".toUTF8 } rfl
    obtain ⟨content, hmakes⟩ := exists_makes_empty { ordered := false } rfl .dump
    obtain ⟨hdelivered, hcode, -⟩ := hends.of_makes
      ⟨{}, _, _, .empty, .default, layered_iff.mpr rfl, ⟨_, .input, rfl⟩, parse_in⟩ hmakes trivial
    rw [Ending.eq_success (hcode (Room.fits_none content))] at hrun
    exact ⟨s', content, hrun, hmakes, hdelivered.printed_eq⟩
  · have hread : readArguments ["encode", "no", "-o", "out"] =
        .ok { verb := .encode, input := "no", output := some "out" } := by decide
    obtain ⟨ending, s', hrun, hends⟩ := (allOrNothing_run hread).2.2 { files := sampleFiles } rfl
    obtain ⟨hfiles, houtput, hcode⟩ := hends.of_not_loads fun _ _ => not_loads_no rfl _
    rw [Ending.eq_failure hcode] at hrun
    exact ⟨s', hrun, hfiles, houtput⟩
  · obtain ⟨ending, s', hrun, hends⟩ := (allOrNothing_run readArguments_in_out).2.2
      { files := sampleFiles, fileRoom := some ⟨4, .noSpace⟩ } rfl
    obtain ⟨content, hmakes⟩ := exists_makes_empty {} rfl .encode
    obtain ⟨hdelivered, -, hcode⟩ := hends.of_makes (loads_in rfl rfl _) hmakes (accepts_out content)
    rw [roomAt_out, Room.fits_some, Nat.not_le] at hcode
    rw [roomAt_out] at hdelivered
    rw [Ending.eq_failure (hcode (hmakes.lt_size rfl) rfl)] at hrun
    exact ⟨s', content, hrun, hmakes, hdelivered.stored_eq target_out out_ne_device⟩

/-- **A write is not undone.**  A run that fails leaves a path emptied that held content before; and
a run that succeeds may leave nothing at its path, where a device takes all. -/
theorem written_in_place :
    (∃ s', (run Session.host ["encode", "in", "-o", "out"]).run
        { files := sampleFiles, fileRoom := some ⟨0, .noSpace⟩ } = (.failure, s') ∧
      sampleFiles.lookup "out" = .ok (.file "old".toUTF8) ∧
      s'.files.lookup "out" = .ok (.file .empty)) ∧
    ∃ s' content, (run Session.host ["encode", "in", "-o", "null"]).run { files := sampleFiles } =
        (.success, s') ∧
      Makes {} (.object []) .encode content ∧ content ≠ .empty ∧
      (s'.readPath "null").1 = .ok .empty := by
  obtain ⟨content, hmakes⟩ := exists_makes_empty {} rfl .encode
  have hsize := hmakes.lt_size rfl
  constructor
  · have hcut : ¬Room.Fits (some ⟨0, .noSpace⟩) content := by
      rw [Room.fits_some, Nat.not_le]
      exact Nat.lt_trans (by decide) hsize
    obtain ⟨s', hrun, hdelivered⟩ := run_of_makes readArguments_in_out
      { files := sampleFiles, fileRoom := some ⟨0, .noSpace⟩ } rfl (loads_in rfl rfl _) hmakes
      (accepts_out content)
    rw [roomAt_out, ending_of_not_fits rfl hcut] at hrun
    rw [roomAt_out, Room.taken, ByteArray.extract_same] at hdelivered
    exact ⟨s', hrun, FileStore.lookup_of_target target_out rfl,
      (hdelivered.stored_eq target_out out_ne_device).1⟩
  · have hread : readArguments ["encode", "in", "-o", "null"] =
        .ok { verb := .encode, input := "in", output := some "null" } := by decide
    have hnull : sampleFiles.get? ["dev", "null"] = some (.device .null) := rfl
    have haccepts : Accepts sampleFiles content (some "null") := by
      refine ⟨_, target_null, fun d hd => ?_⟩
      obtain rfl := Entry.device.inj (Option.some.inj (hnull.symm.trans hd))
      exact ⟨by decide, fun hfull => absurd hfull (by decide)⟩
    have hroom : Session.roomAt { files := sampleFiles } (some "null") = none := by
      simp only [Session.roomAt, target_null, hnull]
    obtain ⟨s', hrun, hdelivered⟩ := run_of_makes hread { files := sampleFiles } rfl
      (loads_in rfl rfl _) hmakes haccepts
    rw [hroom, ending_of_fits (Room.fits_none content)] at hrun
    have hempty : (s'.readPath "null").1 = .ok .empty := by
      rw [Session.readPath, hdelivered.passed_eq target_null hnull,
        FileStore.lookup_of_target target_null hnull]
      rfl
    refine ⟨s', content, hrun, hmakes, ?_, hempty⟩
    rintro rfl
    exact Nat.not_lt_zero 4 hsize

end PackedTree.Command
