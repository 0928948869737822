/-
# Running a command

A command reads its configuration, then its input, encodes or lists the tree, and writes the
result.  The first failure ends it.  Events are reported before a failure that follows them.  When
the program ends, however it does, the output passes on what it holds back.
-/
import PackedTree.Artifact.Listing
import PackedTree.Command.Arguments
import PackedTree.Command.Guide
import PackedTree.Command.Host
import PackedTree.Config.Reader
import PackedTree.Encode
import PackedTree.Json.Printer
import PackedTree.Tree.OfJson

namespace PackedTree.Command

/-! ## 1. Failures -/

/-- Why a command failed. -/
inductive Failure where
  | unreadable (path : String) (e : FileError)
  | unwritable (path : String) (e : FileError)
  | unwritableOutput (e : FileError)
  /-- A listing was not printed.  Printing has no other way to fail than to break off. -/
  | unprintable (e : FileError)
  | malformed (path : String) (e : Json.SyntaxError)
  | badConfig (path : String) (e : Config.ReadError)
  | unencodable (e : EncodeError)
deriving Repr

/-- The path that stands for the standard input. -/
def inputPath : String := "-"

/-- A path as messages show it. -/
def shownPath (path : String) : String := if path = inputPath then "<stdin>" else path

/-- The wording of a failure. -/
def Failure.message : Failure → String
  | unreadable path e => "failed to read " ++ shownPath path ++ ": " ++ e.message
  | unwritable path e => "failed to write " ++ shownPath path ++ ": " ++ e.message
  | unwritableOutput e => "failed to write <stdout>: " ++ e.message
  | unprintable e => "failed printing to stdout: " ++ e.message
  | malformed path e => shownPath path ++ " is not valid JSON: " ++ e.message
  | badConfig path e => "invalid config " ++ shownPath path ++ ": " ++ e.message
  | unencodable e => e.message

/-! ## 2. Steps -/

section

variable {m : Type → Type} [Monad m] (host : Host m)

/-- A part of a command, which may fail. -/
abbrev Step (m : Type → Type) := ExceptT Failure m

/-- Fails with the failure made of an error. -/
def orFail {α ε : Type} (failure : ε → Failure) (result : Except ε α) : Step m α :=
  match result with
  | .ok a => pure a
  | .error e => throw (failure e)

/-- Whether a verbosity shows events of a level. -/
def shows (verbosity : Nat) : Level → Bool
  | .info => 1 ≤ verbosity
  | .debug => 2 ≤ verbosity

/-- Reports the events that the verbosity shows. -/
def reportEvents (verbosity : Nat) (events : List Event) : Step m Unit :=
  (events.filter (shows verbosity ·.level)).forM fun e => do host.writeReport e.line

/-- The text at a path. -/
def readText (path : String) : Step m String := do
  let content ← if path = inputPath then host.readInput else host.readFile path
  let content ← orFail (.unreadable path) content
  match String.fromUTF8? content with
  | some text => return text
  | none => throw (.unreadable path .notText)

/-- The configuration of a request: the one at its path, or the default, changed by its flags. -/
def readConfig (request : Request) : Step m Config :=
  match request.config with
  | none => return request.overrides.apply {}
  | some path => do
    let text ← readText host path
    let config ← orFail (.badConfig path) (Config.parse text)
    return request.overrides.apply config

/-- The tree at the input of a request. -/
def readTree (request : Request) : Step m Tree := do
  let text ← readText host request.input
  let document ← orFail (.malformed request.input) (Json.parse text)
  reportEvents host request.verbosity [.loaded (shownPath request.input) text.utf8ByteSize]
  return Tree.ofJson document

/-- Runs the stages of an encoding and reports their events. -/
def runPass {α : Type} (request : Request) (pass : Pass α) : Step m (α × Stats) := do
  let (result, progress) := pass.outcome
  reportEvents host request.verbosity progress.log.toList
  let a ← orFail .unencodable result
  return (a, progress.stats)

/-- Writes an artifact to the path of a request, or to the output. -/
def writeArtifact (request : Request) (artifact : ByteArray) : Step m Unit := do
  match request.output with
  | none => orFail .unwritableOutput (← host.writeOutput artifact)
  | some path => orFail (.unwritable path) (← host.writeFile path artifact)

/-- Encodes a tree and writes the artifact. -/
def runEncode (request : Request) : Step m Unit := do
  let config ← readConfig host request
  let tree ← readTree host request
  let (artifact, stats) ← runPass host request (tree.encodePass config)
  reportEvents host request.verbosity
    [.encoded (shownPath request.input) artifact.size stats.objects stats.objectsMerged]
  writeArtifact host request artifact
  if request.stats then host.writeReport (Json.pretty stats.toJson)

/-- Lists the tables of a tree. -/
def runDump (request : Request) : Step m Unit := do
  let config ← readConfig host request
  let tree ← readTree host request
  let (catalog, _) ← runPass host request (Catalog.build tree config)
  let listing ← orFail .unencodable (catalog.listing config.ordered).1
  orFail .unprintable (← host.writeOutput listing.toUTF8)

/-! ## 3. The program -/

/-- What the program's end tells the system. -/
inductive Ending where
  | success
  | failure
  | wrongUsage
  | brokenOff
deriving DecidableEq, Repr

def Ending.code : Ending → UInt32
  | success => 0
  | failure => 1
  | wrongUsage => 2
  | brokenOff => 101

/-- A message about an error, as it is reported. -/
def errorLine (message : String) : String := "error: " ++ message

/-- How a failure ends the program. -/
def Failure.ending : Failure → Ending
  | unprintable _ => .brokenOff
  | _ => .failure

/-- A failure as it is reported.  Where the program broke off is left out. -/
def Failure.line : Failure → String
  | unprintable e => (unprintable e).message
  | e => errorLine e.message

/-- Runs a request. -/
def Request.run (request : Request) : m Ending := do
  let step := match request.verb with
    | .encode => runEncode host request
    | .dump => runDump host request
  match ← step.run with
  | .ok () => return .success
  | .error e =>
    host.writeReport e.line
    return e.ending

/-- The program's version. -/
def programVersion : String := "0.1.0"

/-- Writes lines to the standard output. -/
def writeLines (lines : List String) : m Unit := do
  let _ ← host.writeOutput (String.join (lines.map (· ++ "\n"))).toUTF8

/-- Answers arguments that ask for no command. -/
def Stop.answer : Stop → m Ending
  | .help scope => do
    writeLines host scope.guide
    return .success
  | .version => do
    writeLines host [programName ++ " " ++ programVersion]
    return .success
  | .nothing => do
    (Scope.guide .program).forM host.writeReport
    return .wrongUsage
  | .wrong e => do
    [errorLine e.message, "", "For more information, try '--help'."].forM host.writeReport
    return .wrongUsage

/-- **Runs the program** on its arguments. -/
def run (arguments : List String) : m Ending := do
  let ending ← match readArguments arguments with
    | .ok request => request.run host
    | .error stop => stop.answer host
  host.finish
  return ending

end

end PackedTree.Command
