/-
# Hosts

A host gives a command its files and standard streams.  A session is a host of plain values: its
files and its input are given, and what the command writes can be seen.  A path of a session may
end at a device; a stream's device is the stream.

Writing takes two steps.  A file is emptied, or made, and then takes content; so a file that has no
room for all of it is left with a beginning.  The output takes whole lines at once and holds an
unfinished one back, up to a length, until the program ends.

The report takes everything, and so does a device that is not full.
-/
import PackedTree.Command.FileStore

namespace PackedTree.Command

/-- What a command can do to the outside. -/
structure Host (m : Type → Type) where
  readFile : (path : String) → m (Except FileError ByteArray)
  writeFile : (path : String) → ByteArray → m (Except FileError Unit)
  /-- All of the standard input that is left. -/
  readInput : m (Except FileError ByteArray)
  writeOutput : ByteArray → m (Except FileError Unit)
  /-- Writes a line to the standard error stream. -/
  writeReport : (line : String) → m Unit
  /-- Passes on what the output holds back.  A fault of it is not seen. -/
  finish : m Unit

/-! ## 1. Lines of the output -/

/-- An unfinished line of fewer bytes is held back. -/
def longestHeld : Nat := 1024

/-- The length of the whole lines among the first bytes of content. -/
def linesSize (content : ByteArray) : (count : Nat) → Nat
  | 0 => 0
  | count + 1 =>
    if content[count]! = '\n'.toUInt8 then count + 1 else linesSize content count

/-- How much of content the output passes on at once. -/
def promptSize (content : ByteArray) : Nat :=
  let size := linesSize content content.size
  if content.size - size < longestHeld then size else content.size

/-- What the output passes on at once, and what it holds back. -/
def splitHeld (content : ByteArray) : ByteArray × ByteArray :=
  (content.extract 0 (promptSize content), content.extract (promptSize content) content.size)

/-! ## 2. Rooms -/

/-- How many bytes a file or a stream still takes, and the fault of one more. -/
structure Room where
  left : Nat
  fault : FileError

namespace Room

/-- The beginning of content that is taken; without a bound it is all. -/
def taken (room : Option Room) (content : ByteArray) : ByteArray :=
  match room with
  | none => content
  | some room => content.extract 0 room.left

/-- The fault of content that is not all taken. -/
def verdict (room : Option Room) (content : ByteArray) : Except FileError Unit :=
  match room with
  | none => .ok ()
  | some room => if content.size ≤ room.left then .ok () else .error room.fault

/-- The room that content leaves. -/
def after (room : Option Room) (content : ByteArray) : Option Room :=
  room.map fun room => { room with left := room.left - content.size }

end Room

/-! ## 3. Sessions -/

/-- The outside as plain values. -/
structure Session where
  files : FileStore := {}
  /-- The room of a file that is written. -/
  fileRoom : Option Room := none
  /-- What is left of the standard input. -/
  input : ByteArray := .empty
  output : ByteArray := .empty
  outputRoom : Option Room := none
  /-- What the output holds back. -/
  held : ByteArray := .empty
  /-- The standard error stream. -/
  report : ByteArray := .empty

namespace Session

/-- All that is left of the input. -/
def takeInput (s : Session) : ByteArray × Session := (s.input, { s with input := .empty })

/-- Reads a device.  Only the input stream has content. -/
def readDevice (s : Session) : Device → Except FileError ByteArray × Session
  | .input => (.ok s.takeInput.1, s.takeInput.2)
  | .terminal => (.error .noDevice, s)
  | .null | .full | .output | .report => (.ok .empty, s)

/-- The content at the end of a path. -/
def readPath (s : Session) (path : String) : Except FileError ByteArray × Session :=
  match s.files.lookup path with
  | .error e => (.error e, s)
  | .ok .directory => (.error .isDirectory, s)
  | .ok (.device d) => s.readDevice d
  | .ok (.file content) => (.ok content, s)

/-- Puts content after the output, as far as there is room. -/
def emit (s : Session) (content : ByteArray) : Except FileError Unit × Session :=
  (Room.verdict s.outputRoom content,
    { s with
      output := s.output ++ Room.taken s.outputRoom content
      outputRoom := Room.after s.outputRoom content })

/-- Writes to a device.  What is written to the input stream follows what is left of it. -/
def writeDevice (s : Session) (content : ByteArray) : Device → Except FileError Unit × Session
  | .null => (.ok (), s)
  | .full => (if content.isEmpty then .ok () else .error .noSpace, s)
  | .terminal => (.error .noDevice, s)
  | .input => (.ok (), { s with input := s.input ++ content })
  | .output => s.emit content
  | .report => (.ok (), { s with report := s.report ++ content })

/-- Empties a file or makes it, and writes content to it as far as there is room. -/
def writeFile (s : Session) (place : Place) (content : ByteArray) :
    Except FileError Unit × Session :=
  let files := s.files.put place (.file .empty)
  (Room.verdict s.fileRoom content,
    { s with files := files.put place (.file (Room.taken s.fileRoom content)) })

/-- Writes content to the end of a path, in place of the content there. -/
def writePath (s : Session) (path : String) (content : ByteArray) :
    Except FileError Unit × Session :=
  match s.files.target path with
  | .error e => (.error e, s)
  | .ok place =>
    match s.files.get? place with
    | some (.device d) => s.writeDevice content d
    | _ => s.writeFile place content

/-- Writes content to the output, which holds an unfinished line back. -/
def writeOutput (s : Session) (content : ByteArray) : Except FileError Unit × Session :=
  let (prompt, rest) := splitHeld (s.held ++ content)
  match s.emit prompt with
  | (.ok (), s) => (.ok (), { s with held := rest })
  | (.error e, s) => (.error e, { s with held := .empty })

/-- Passes on what is held back, as far as there is room. -/
def finish (s : Session) : Session := { (s.emit s.held).2 with held := .empty }

/-- The host that a session is. -/
def host : Host (StateM Session) where
  readFile path := fun s => s.readPath path
  writeFile path content := fun s => s.writePath path content
  readInput := fun s => (.ok s.takeInput.1, s.takeInput.2)
  writeOutput content := fun s => s.writeOutput content
  writeReport line := fun s => ((), { s with report := s.report ++ (line ++ "\n").toUTF8 })
  finish := fun s => ((), s.finish)

end Session

end PackedTree.Command
